import RpcConsole.Call.Address
import RpcConsole.Call.Invoke

namespace RpcConsole.Transport

def offline : Transport Id := fun c =>
  .error ((Address.refusal? c.address).getD
    ⟨.unavailable, s!"failed to connect to '{Address.uri c.address}': transport error", []⟩)

end RpcConsole.Transport

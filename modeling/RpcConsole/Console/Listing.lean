import RpcConsole.Console.Paint
import RpcConsole.Service.Tree

namespace RpcConsole

def Method.streamWord (colored stream : Bool) : String :=
  if stream then Console.paint colored [.cyan] "stream" ++ " " else ""

/-- A method on one line. Methods that cannot be called are marked. -/
def Method.line (colored : Bool) (m : Method) : String :=
  let rpc := Console.paint colored [.cyan] "rpc"
  let name := Console.paint colored [.green] m.name
  let returns := Console.paint colored [.cyan] "returns"
  let takes := streamWord colored m.clientStreaming ++ m.input
  let gives := streamWord colored m.serverStreaming ++ m.output
  let line := s!"{rpc} {name}({takes}) {returns} ({gives});"
  if m.isStreaming then line ++ " " ++ Console.paint colored [.dim] "// not callable" else line

def Service.block (colored : Bool) (s : Service) : String :=
  let service := Console.paint colored [.cyan] "service"
  let name := Console.paint colored [.green] s.fullName
  s!"{service} {name} \x7b\n" ++
    String.join (s.methods.map (fun m => s!"  {m.line colored}\n")) ++ "\x7d"

def ServiceTree.listing (colored : Bool) (t : ServiceTree) : String :=
  if t.isEmpty then Console.paint colored [.yellow] "No services found."
  else "\n\n".intercalate (t.services.map (Service.block colored))

end RpcConsole

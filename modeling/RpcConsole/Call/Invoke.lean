import RpcConsole.Call.Status
import RpcConsole.Message.Convert
import RpcConsole.Service.Tree

namespace RpcConsole

structure Call where
  address : String
  path : String
  request : List UInt8
  deriving Repr, DecidableEq, Inhabited

abbrev Reply := Except CallFailure (List UInt8)

abbrev Transport (μ : Type → Type) := Call → μ Reply

namespace Transport

def recorded {μ : Type → Type} [Monad μ] (send : Transport μ) : Transport (StateT (List Call) μ) :=
  fun c => do
    modify (· ++ [c])
    send c

end Transport

inductive Streaming where
  | client
  | server
  | bidirectional
  deriving Repr, DecidableEq

def Streaming.text : Streaming → String
  | .client => "client-streaming"
  | .server => "server-streaming"
  | .bidirectional => "bidirectional-streaming"

inductive RequestFault where
  | streaming (method : String) (s : Streaming)
  | text (e : MessageError)

def RequestFault.message : RequestFault → String
  | .streaming method s =>
    s!"unsupported call shape: '{method}' is a {s.text} method, only unary calls are supported"
  | .text e => e.message

inductive Outcome where
  | success (text : String)
  | refused (why : String)
  | failed (e : CallFailure)
  deriving Repr, DecidableEq

namespace Outcome

def isSuccess : Outcome → Bool
  | .success _ => true
  | _ => false

def refusalEnvelope (why : String) : Json :=
  .obj [("request_parse_error", .str why)]

def text : Outcome → String
  | .success text => text
  | .refused why => (refusalEnvelope why).pretty
  | .failed e => e.envelope.pretty

end Outcome

namespace Method

def streaming? (m : Method) : Option Streaming :=
  match m.clientStreaming, m.serverStreaming with
  | false, false => none
  | true, false => some .client
  | false, true => some .server
  | true, true => some .bidirectional

def template (t : TypeTable) (m : Method) : Except MessageError String :=
  Message.instantiate.toText t m.input

def request (t : TypeTable) (m : Method) (text : String) : Except RequestFault Message :=
  match m.streaming? with
  | some s => .error (.streaming m.fullName s)
  | none =>
    match Message.fromText t m.input text with
    | .ok request => .ok request
    | .error e => .error (.text e)

def replyText (t : TypeTable) (m : Method) (bs : List UInt8) : Except MessageError String := do
  let reply ← Message.fromWire t m.output bs
  reply.toText t m.output

/-- How a call ends with a reply, unless the program stops. -/
def outcome? (t : TypeTable) (m : Method) : Reply → Option Outcome
  | .error e => some (.failed e)
  | .ok bs =>
    match m.replyText t bs with
    | .ok text => some (.success text)
    | .error .stopped => none
    | .error e => some (.failed ⟨.internal, s!"failed to decode response: {e.message}", []⟩)

/-- Calls a method with a text as its request. Without a request nothing is sent. There is no
outcome if the program stops on the way. -/
def invoke {μ : Type → Type} [Monad μ] (t : TypeTable) (send : Transport μ) (m : Method)
    (text address : String) : μ (Option Outcome) :=
  match m.request t text with
  | .error (.text .stopped) => pure none
  | .error e => pure (some (.refused e.message))
  | .ok request =>
    match request.toWire t m.input with
    | none => pure none
    | some bytes => do
      let reply ← send ⟨address, m.path, bytes⟩
      return m.outcome? t reply

end Method
end RpcConsole

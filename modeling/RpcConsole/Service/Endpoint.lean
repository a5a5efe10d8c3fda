import RpcConsole.Text.Space

namespace RpcConsole

structure Endpoint where
  service : String
  method : String
  deriving Repr, DecidableEq, Inhabited

namespace Endpoint

inductive Fault where
  | noSlash (text : String)
  | emptyName
  deriving Repr, DecidableEq

def Fault.message : Fault → String
  | .noSlash text =>
    s!"Invalid endpoint format: '{text}'. Expected 'package.Service/Method'"
  | .emptyName => "Service and Method names cannot be empty"

def splitLast (cs : List Char) : Option (List Char × List Char) :=
  let method := (cs.reverse.takeWhile (· != '/')).reverse
  if method.length == cs.length then none
  else some (cs.take (cs.length - method.length - 1), method)

/-- Reads an endpoint. Its last slash ends the name of the service. -/
def read (text : String) : Except Fault Endpoint :=
  match splitLast text.toList with
  | none => .error (.noSlash text)
  | some (service, method) =>
    if service.all Text.isSpace || method.all Text.isSpace then .error .emptyName
    else .ok ⟨String.ofList service, String.ofList method⟩

def text (e : Endpoint) : String :=
  e.service ++ "/" ++ e.method

end Endpoint
end RpcConsole

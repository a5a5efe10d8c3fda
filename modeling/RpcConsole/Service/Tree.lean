import RpcConsole.Load.Basic

namespace RpcConsole

namespace Method

def isStreaming (m : Method) : Bool :=
  m.clientStreaming || m.serverStreaming

end Method

inductive Handle where
  | service (service : Nat)
  | method (service method : Nat)
  deriving Repr, DecidableEq

structure ServiceTree where
  services : List Service := []
  deriving Repr, DecidableEq, Inhabited

namespace Schema

def serviceTree (s : Schema) : ServiceTree :=
  ⟨s.root.serviceTypes⟩

end Schema

namespace ServiceTree

def isEmpty (t : ServiceTree) : Bool :=
  t.services.isEmpty

/-- The handles of a service at an index: its own, then those of its methods. -/
def serviceHandles (s : Service) (index : Nat) : List Handle :=
  .service index :: (List.range s.methods.length).map (Handle.method index)

def handles (t : ServiceTree) : List Handle :=
  t.services.zipIdx.flatMap (fun p => serviceHandles p.1 p.2)

/-- The method of a handle. A service stands for no method. -/
def resolve (t : ServiceTree) : Handle → Option Method
  | .service _ => none
  | .method service method => (t.services[service]?).bind (fun s => s.methods[method]?)

/-- The text for a handle: the full name of a service, the short name of a method. -/
def label (t : ServiceTree) : Handle → Option String
  | .service service => (t.services[service]?).map Service.fullName
  | .method service method => (t.resolve (.method service method)).map Method.name

def isInvocable (t : ServiceTree) (h : Handle) : Bool :=
  match t.resolve h with
  | some m => !m.isStreaming
  | none => false

def methodIndex? (s : Service) (method : String) : Option Nat :=
  s.methods.findIdx? (fun m => m.name == method)

/-- The handle of a method. The service can be given by its full or its short name; of several
services the first one with such a method counts. -/
def findMethod (t : ServiceTree) (service method : String) : Option Handle :=
  t.services.zipIdx.findSome? fun p =>
    if p.1.fullName == service || p.1.name == service then
      (methodIndex? p.1 method).map (Handle.method p.2)
    else none

end ServiceTree
end RpcConsole

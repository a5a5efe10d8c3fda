import RpcConsole.Call.Invoke
import RpcConsole.Console.CommandLine
import RpcConsole.Console.Help
import RpcConsole.Console.Listing

namespace RpcConsole.Console

structure Output where
  status : Nat := 0
  out : String := ""
  err : String := ""
  deriving Repr, DecidableEq, Inhabited

/-- What a run finds: the disk, the import path of its surroundings, and whether colours are
wanted. -/
structure Setting where
  disk : Disk
  importPath : Option String := none
  colored : Bool := false

namespace Setting

def framed (text : String) : String :=
  s!"\n{text}\n\n"

/-- A run that the program did not come to the end of. What it tells then is left out. -/
def stopped : Output :=
  { status := 101 }

def givenUp (text : String) : Output :=
  { status := 1, err := framed text }

def heading (s : Setting) (text : String) : String :=
  paint s.colored [.bold, .red] text

def halted (s : Setting) : Halt → Output
  | .fault e => { status := 2, err := e.text s.colored }
  | .help scope => { out := scope.help }
  | .version => { out := s!"{programName} {programVersion}\n" }

def loadFailure (s : Setting) (errors : List LoadError) : Output :=
  givenUp (s.heading "Failed to load schema:" ++ "\n" ++
    String.join (errors.map (fun e => s!"\n  - {e.message}")))

def methodNotFound (s : Setting) (e : Endpoint) : Output :=
  givenUp (s.heading "Method not found" ++ s!":\n\n'{e.text}'")

def templateFailure (s : Setting) : MessageError → Output
  | .stopped => stopped
  | e => givenUp (s.heading "Failed to render request template" ++ s!":\n\n'{e.message}'")

inductive BodyFault where
  | unreadable (path : String) (e : Disk.Failure)
  | noTemplate (e : MessageError)

def BodyFault.message : BodyFault → String
  | .unreadable path e => s!"failed to read request body from '{path}': {e.message}"
  | .noTemplate e => s!"failed to build the default request: {e.message}"

def bodyFailure (s : Setting) : BodyFault → Output
  | .noTemplate .stopped => stopped
  | e => givenUp (s.heading "Error:" ++ s!"\n\n'{e.message}'")

def outcomeText (s : Setting) : Outcome → String
  | .success text => text
  | .refused why => s.heading "Invalid Request:" ++ "\n\n" ++ (Outcome.refused why).text
  | .failed e => s.heading "gRPC Failed:" ++ "\n\n" ++ (Outcome.failed e).text

def outcome (s : Setting) : Option Outcome → Output
  | some o => { status := if o.isSuccess then 0 else 1, out := framed (s.outcomeText o) }
  | none => stopped

def schema (s : Setting) (importPath : List String) (proto : String) : Except Output Schema :=
  match Schema.load s.disk proto importPath with
  | .ok schema => .ok schema
  | .error errors => .error (s.loadFailure errors)

def method (s : Setting) (schema : Schema) (e : Endpoint) : Except Output Method :=
  let tree := schema.serviceTree
  match (tree.findMethod e.service e.method).bind tree.resolve with
  | some m => .ok m
  | none => .error (s.methodNotFound e)

def bodyText (s : Setting) (t : TypeTable) (m : Method) : Body → Except BodyFault String
  | .text body => .ok body
  | .file path =>
    match s.disk.readText path with
    | .ok text => .ok text
    | .error e => .error (.unreadable path e)
  | .template =>
    match m.template t with
    | .ok text => .ok text
    | .error e => .error (.noTemplate e)

structure Prepared where
  types : TypeTable
  method : Method
  address : String
  body : String

def services (s : Setting) (importPath : List String) (proto : String) : Output :=
  match s.schema importPath proto with
  | .error output => output
  | .ok schema => { out := framed (schema.serviceTree.listing s.colored) }

/-- Prints the template of a method, with nothing around it so that it can be kept as a body. -/
def template (s : Setting) (importPath : List String) (proto : String) (e : Endpoint) : Output :=
  match s.schema importPath proto with
  | .error output => output
  | .ok schema =>
    match s.method schema e with
    | .error output => output
    | .ok m =>
      match m.template schema.types with
      | .ok text => { out := text ++ "\n" }
      | .error fault => s.templateFailure fault

def prepare (s : Setting) (importPath : List String) (proto : String) (e : Endpoint)
    (address : String) (body : Body) : Except Output Prepared := do
  let schema ← s.schema importPath proto
  let m ← s.method schema e
  match s.bodyText schema.types m body with
  | .ok text => return ⟨schema.types, m, address, text⟩
  | .error fault => throw (s.bodyFailure fault)

/-- Runs the program. Only a call needs the transport. -/
def run {μ : Type → Type} [Monad μ] (s : Setting) (send : Transport μ) (words : List String) :
    μ Output :=
  match CommandLine.read s.importPath words with
  | .error halt => pure (s.halted halt)
  | .ok c =>
    match c.request with
    | .services proto => pure (s.services c.importPath proto)
    | .template proto e => pure (s.template c.importPath proto e)
    | .call proto e address body =>
      match s.prepare c.importPath proto e address body with
      | .error output => pure output
      | .ok p => do return s.outcome (← p.method.invoke p.types send p.body p.address)

end Setting
end RpcConsole.Console

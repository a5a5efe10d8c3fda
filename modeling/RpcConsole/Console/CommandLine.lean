import RpcConsole.Console.Reading

namespace RpcConsole.Console

inductive Body where
  | template
  | text (body : String)
  | file (path : String)
  deriving Repr, DecidableEq, Inhabited

inductive Request where
  | services (proto : String)
  | template (proto : String) (endpoint : Endpoint)
  | call (proto : String) (endpoint : Endpoint) (address : String) (body : Body)
  deriving Repr, DecidableEq, Inhabited

def Request.proto : Request → String
  | .services proto => proto
  | .template proto _ => proto
  | .call proto _ _ _ => proto

structure CommandLine where
  importPath : List String := []
  request : Request
  deriving Repr, DecidableEq, Inhabited

namespace CommandLine

def need (r : Reading) (a : Argument) : Except Halt String :=
  match r.values a with
  | v :: _ => .ok v
  | [] => .error (.fault (.missing [a]))

def needEndpoint (r : Reading) : Except Halt Endpoint := do
  let text ← need r .endpoint
  match Endpoint.read text with
  | .ok e => return e
  | .error e => throw (.fault (.endpoint text e))

def body (r : Reading) : Body :=
  match r.values .body, r.values .bodyFile with
  | text :: _, _ => .text text
  | [], path :: _ => .file path
  | [], [] => .template

def requestOf (r : Reading) : Command → Except Halt Request
  | .services => do return .services (← need r .proto)
  | .template => do return .template (← need r .proto) (← needEndpoint r)
  | .call => do
    return .call (← need r .proto) (← needEndpoint r) (← need r .address) (body r)

def command (c : Command) (words : List String) : Except Halt Request := do
  let (r, _) ← ({ scope := .command c } : Reading).words words
  requestOf (← (← r.settle).complete) c

/-- Takes the import path from the surroundings, unless one is given. -/
def withFallback (importPath : Option String) (r : Reading) : Except Halt Reading :=
  match importPath with
  | some text => if r.has .importPath then .ok r else r.accept .importPath (some text)
  | none => .ok r

/-- Reads a command line. What is given to the command is looked at before the last of what is
given to the program. -/
def read (importPath : Option String) (words : List String) : Except Halt CommandLine := do
  let (r, chosen) ← ({ scope := .program } : Reading).words words
  let asked ← chosen.mapM (fun c => command c.1 c.2)
  let r ← withFallback importPath (← r.settle)
  match asked with
  | some request => return ⟨r.values .importPath, request⟩
  | none => throw (.fault (if r.given.isEmpty then .nothing else .noCommand))

end CommandLine
end RpcConsole.Console

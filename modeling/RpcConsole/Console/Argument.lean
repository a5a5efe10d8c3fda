import RpcConsole.Service.Endpoint
import RpcConsole.Text.Pieces

namespace RpcConsole.Console

inductive Command where
  | services
  | template
  | call
  deriving Repr, DecidableEq, Inhabited

namespace Command

def name : Command → String
  | .services => "services"
  | .template => "template"
  | .call => "call"

def all : List Command := [.services, .template, .call]

def ofName? (name : String) : Option Command :=
  all.find? (fun c => c.name == name)

def helpName : String := "help"

end Command

inductive Argument where
  | importPath
  | verbose
  | help
  | version
  | proto
  | endpoint
  | address
  | body
  | bodyFile
  deriving Repr, DecidableEq, Inhabited

namespace Argument

/-- The name behind two dashes. Arguments without names go by their place. -/
def long? : Argument → Option String
  | .importPath => some "import-path"
  | .verbose => some "verbose"
  | .help => some "help"
  | .version => some "version"
  | .address => some "address"
  | .body => some "body"
  | .bodyFile => some "body-file"
  | .proto | .endpoint => none

def short? : Argument → Option Char
  | .importPath => some 'I'
  | .verbose => some 'v'
  | .help => some 'h'
  | .version => some 'V'
  | .address => some 'a'
  | .proto | .endpoint | .body | .bodyFile => none

/-- What the value is called. Switches have none. -/
def value? : Argument → Option String
  | .importPath => some "IMPORT_PATH"
  | .proto => some "PROTO"
  | .endpoint => some "ENDPOINT"
  | .address => some "ADDRESS"
  | .body => some "BODY"
  | .bodyFile => some "BODY_FILE"
  | .verbose | .help | .version => none

def display (a : Argument) : String :=
  match a.long?, a.value? with
  | some long, some value => s!"--{long} <{value}>"
  | some long, none => "--" ++ long
  | none, some value => s!"<{value}>"
  | none, none => ""

def isRepeatable (a : Argument) : Bool :=
  a == .importPath

def isPath (a : Argument) : Bool :=
  a == .importPath || a == .proto || a == .bodyFile

def rival? : Argument → Option Argument
  | .body => some .bodyFile
  | .bodyFile => some .body
  | _ => none

/-- The values in a text: import paths can be joined with colons. -/
def split (a : Argument) (text : String) : List String :=
  if a == .importPath then Text.pieces ':' text else [text]

end Argument

/-- What arguments belong to: the program or one of its commands. -/
inductive Scope where
  | program
  | command (c : Command)
  deriving Repr, DecidableEq

namespace Scope

def options : Scope → List Argument
  | .program => [.importPath, .verbose, .help, .version]
  | .command .call => [.address, .body, .bodyFile, .verbose, .help]
  | .command _ => [.verbose, .help]

def places : Scope → List Argument
  | .program => []
  | .command .services => [.proto]
  | .command _ => [.proto, .endpoint]

def required : Scope → List Argument
  | .program => []
  | .command .call => [.address, .proto, .endpoint]
  | .command c => places (.command c)

end Scope

inductive ArgumentFault where
  | nothing
  | noCommand
  | unknownCommand (word : String)
  | unexpected (word : String)
  | surplusValue (a : Argument) (value : String)
  | noValue (a : Argument)
  | twice (a : Argument)
  | rivals (a b : Argument)
  | missing (as : List Argument)
  | endpoint (text : String) (e : Endpoint.Fault)
  deriving Repr, DecidableEq

end RpcConsole.Console

import RpcConsole.Console.Paint
import RpcConsole.Console.Reading

namespace RpcConsole.Console

def programName : String := "protocall"

def programVersion : String := "0.1.0"

def Command.about : Command → String
  | .services => "List the services declared in a proto file and their methods"
  | .template => "Print the zero-valued JSON request of a method"
  | .call => "Perform a unary gRPC call"

def Argument.about : Argument → String
  | .importPath => "Directory to search for imports (repeatable, searched in order)"
  | .verbose => "Log loader and transport activity to stderr"
  | .help => "Print help"
  | .version => "Print version"
  | .proto => "Root proto file"
  | .endpoint => "Endpoint (package.Service/Method)"
  | .address => "Server address (host:port or a full http:// URI)"
  | .body => "JSON request body. Without a body the zero-valued request is sent"
  | .bodyFile => "Read the JSON request body from a file"

namespace Scope

def about : Scope → String
  | .program => "Call unary gRPC methods of .proto files loaded at runtime"
  | .command c => c.about

def usage : Scope → String
  | .program => s!"Usage: {programName} [OPTIONS] <COMMAND>"
  | .command c =>
    let words := (required (.command c)).map Argument.display
    s!"Usage: {programName} {c.name} [OPTIONS] " ++ " ".intercalate words

def entries (s : Scope) : List (String × String) :=
  let commands :=
    match s with
    | .program => Command.all.map (fun c => (c.name, c.about))
    | .command _ => []
  commands ++ (s.places ++ s.options).map (fun a => (a.display, a.about))

def help (s : Scope) : String :=
  "\n".intercalate ([s.about, "", s.usage, ""] ++ s.entries.map (fun e => s!"  {e.1}  {e.2}")) ++
    "\n"

end Scope

/-- The inks of words in a fault: a wrong word, a right one, and one that is named. -/
structure Inks where
  wrong : String → String
  right : String → String
  named : String → String

def Inks.of (colored : Bool) : Inks :=
  ⟨paint colored [.yellow], paint colored [.green], paint colored [.bold]⟩

namespace ArgumentFault

def message (inks : Inks) : ArgumentFault → String
  | .nothing => ""
  | .noCommand =>
    let names := (Command.all.map Command.name ++ [Command.helpName]).map inks.right
    s!"'{inks.wrong programName}' requires a subcommand but one was not provided\n" ++
      "  [subcommands: " ++ ", ".intercalate names ++ "]"
  | .unknownCommand word => s!"unrecognized subcommand '{inks.wrong word}'"
  | .unexpected word => s!"unexpected argument '{inks.wrong word}' found"
  | .surplusValue a value =>
    s!"unexpected value '{inks.wrong value}' for '{inks.named a.display}' found; " ++
      "no more were expected"
  | .noValue a => s!"a value is required for '{inks.named a.display}' but none was supplied"
  | .twice a => s!"the argument '{inks.wrong a.display}' cannot be used multiple times"
  | .rivals a b =>
    s!"the argument '{inks.wrong a.display}' cannot be used with '{inks.wrong b.display}'"
  | .missing as =>
    "the following required arguments were not provided:" ++
      String.join (as.map (fun a => "\n  " ++ inks.right a.display))
  | .endpoint text e =>
    s!"invalid value '{inks.wrong text}' for '{inks.named Argument.endpoint.display}': {e.message}"

/-- The text about a fault, with a hint where to read more. A run without any argument gets the
help itself. -/
def text (colored : Bool) (e : ArgumentFault) : String :=
  if e == .nothing then Scope.program.help
  else
    let label :=
      if colored then setInks [.bold] ++ setInks [.red] ++ "error:" ++ resetInks else "error:"
    s!"{label} {e.message (.of colored)}\n\nFor more information, try '--help'.\n"

end ArgumentFault
end RpcConsole.Console

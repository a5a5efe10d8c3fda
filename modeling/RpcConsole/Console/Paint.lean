namespace RpcConsole.Console

inductive Ink where
  | bold
  | dim
  | red
  | green
  | yellow
  | cyan
  deriving Repr, DecidableEq

def Ink.code : Ink → String
  | .bold => "1"
  | .dim => "2"
  | .red => "31"
  | .green => "32"
  | .yellow => "33"
  | .cyan => "36"

def setInks (inks : List Ink) : String :=
  "\x1b[" ++ ";".intercalate (inks.map Ink.code) ++ "m"

def resetInks : String :=
  "\x1b[0m"

def paint (colored : Bool) (inks : List Ink) (text : String) : String :=
  if colored then setInks inks ++ text ++ resetInks else text

/-- What the surroundings say about colours: the values of three variables, and whether the output
is a terminal. -/
structure Surroundings where
  force : Option String := none
  forbid : Option String := none
  allow : Option String := none
  terminal : Bool := false

def isOn (value : Option String) : Bool :=
  match value with
  | some v => v != "0"
  | none => false

/-- Whether colours are wanted. A force wins, then a ban, then the terminal. -/
def Surroundings.colored (s : Surroundings) : Bool :=
  if isOn s.force then true
  else if s.forbid.isSome then false
  else (s.allow.isNone || isOn s.allow) && s.terminal

end RpcConsole.Console

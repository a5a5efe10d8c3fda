import RpcConsole.Text.Pieces

namespace RpcConsole.Name

/-- A name inside a scope; the outermost scope is empty. -/
def join (scope name : String) : String :=
  if scope == "" then name else scope ++ "." ++ name

def parts (name : String) : List String :=
  Text.pieces '.' name

def undotted (name : String) : String :=
  match name.toList with
  | '.' :: rest => String.ofList rest
  | _ => name

def scopes (name : String) : List String :=
  let ps := if name == "" then [] else parts name
  (List.range ps.length).map (fun n => ".".intercalate (ps.take (ps.length - n))) ++ [""]

/-- Drops each underscore and raises the letter behind it; the first letter is raised if
`raise` holds. -/
def raiseAfterUnderscore (raise : Bool) : List Char → List Char
  | [] => []
  | c :: cs =>
    if c == '_' then raiseAfterUnderscore true cs
    else (if raise then c.toUpper else c) :: raiseAfterUnderscore false cs

def json (field : String) : String :=
  String.ofList (raiseAfterUnderscore false field.toList)

def mapEntry (field : String) : String :=
  String.ofList (raiseAfterUnderscore true field.toList) ++ "Entry"

def ownOneof (field : String) : String :=
  if Text.startsWith '_' field then "X" ++ field else "_" ++ field

end RpcConsole.Name

import RpcConsole.Text.Pieces

namespace RpcConsole.FieldMask

/-- A name in camel case with an underscore before each letter that was raised; a name that has
underscores itself is refused. -/
def snakeCase : List Char → Option (List Char)
  | [] => some []
  | c :: cs =>
    if c == '_' then none
    else if 'A' ≤ c && c ≤ 'Z' then (snakeCase cs).map ('_' :: c.toLower :: ·)
    else (snakeCase cs).map (c :: ·)

/-- A name with each letter behind an underscore raised. A name from which the underscores could
not be found again is refused; `raise` holds behind an underscore. -/
def camelCase (raise : Bool) : List Char → Option (List Char)
  | [] => some []
  | c :: cs =>
    if 'A' ≤ c && c ≤ 'Z' then none
    else if raise then
      if 'a' ≤ c && c ≤ 'z' then (camelCase false cs).map (c.toUpper :: ·) else none
    else if c == '_' then camelCase true cs
    else (camelCase false cs).map (c :: ·)

def read (text : String) : Option (List String) :=
  ((Text.pieces ',' text).filter (· != "")).mapM
    (fun path => (snakeCase path.toList).map String.ofList)

def pathText (path : String) : Option String :=
  ((Text.pieces '.' path).mapM (fun name => (camelCase false name.toList).map String.ofList)).map
    (".".intercalate ·)

def append (done path : String) : String :=
  if done == "" then path else done ++ "," ++ path

def text (paths : List String) : Option String :=
  (paths.mapM pathText).map (fun ps => ps.foldl append "")

end RpcConsole.FieldMask

import RpcConsole.Text.Pieces

namespace RpcConsole.Path

def isAbsolute (path : String) : Bool :=
  Text.startsWith '/' path

def pieces (path : String) : List String :=
  Text.pieces '/' path

/-- The pieces that matter for telling paths apart: the empty ones do not, and single dots count
only at the front of a path that does not start at the root. -/
def names (path : String) : List String :=
  let ps := pieces path
  let kept := ps.filter (fun p => p != "" && p != ".")
  if ps.head? == some "." then "." :: kept else kept

def fileName? (path : String) : Option String :=
  match (names path).getLast? with
  | some name => if name == "." || name == ".." then none else some name
  | none => none

def parent? (path : String) : Option String :=
  if (names path).isEmpty then none
  else
    let rest := "/".intercalate (names path).dropLast
    some (if isAbsolute path then "/" ++ rest else rest)

/-- A path seen from a directory; one that starts at the root stays as it is. -/
def join (dir path : String) : String :=
  if isAbsolute path || dir == "" then path
  else if Text.endsWith '/' dir then dir ++ path
  else dir ++ "/" ++ path

end RpcConsole.Path

import RpcConsole.Disk.Path
import RpcConsole.Text.Utf8

namespace RpcConsole

abbrev Place := List String

/-- What stands at a place. A sealed file may not be read, and a link stands for what its target
leads to. -/
inductive Node where
  | directory
  | file (bytes : List UInt8)
  | sealed
  | link (target : String)
  deriving Repr, DecidableEq

structure Disk where
  nodes : List (Place × Node) := []
  start : Place := []
  deriving Repr

inductive Disk.Failure where
  | notFound
  | permissionDenied
  | notDirectory
  | isDirectory
  | nameTooLong
  | tooManyLinks
  | nulInName
  | notUtf8
  deriving Repr, DecidableEq

namespace Node

def isFile : Node → Bool
  | .file _ | .sealed => true
  | .directory | .link _ => false

def isLink : Node → Bool
  | .link _ => true
  | .directory | .file _ | .sealed => false

def text : Node → Except Disk.Failure String
  | .file bytes =>
    match Utf8.toString? bytes with
    | some text => .ok text
    | none => .error .notUtf8
  | .sealed => .error .permissionDenied
  | .directory => .error .isDirectory
  | .link _ => .error .notFound

end Node

namespace Disk

def Failure.message : Failure → String
  | .notFound => "No such file or directory (os error 2)"
  | .permissionDenied => "Permission denied (os error 13)"
  | .notDirectory => "Not a directory (os error 20)"
  | .isDirectory => "Is a directory (os error 21)"
  | .nameTooLong => "File name too long (os error 36)"
  | .tooManyLinks => "Too many levels of symbolic links (os error 40)"
  | .nulInName => "file name contained an unexpected NUL byte"
  | .notUtf8 => "stream did not contain valid UTF-8"

/-- The node at a place. The root is always there. -/
def node? (d : Disk) (place : Place) : Option Node :=
  if place.isEmpty then some .directory else d.nodes.lookup place

def nameLimit : Nat := 255

def pathLimit : Nat := 4096

def linkLimit : Nat := 40

def pathFault? (path : String) : Option Failure :=
  if path.toList.contains '\x00' then some .nulInName
  else if path == "" then some .notFound
  else if pathLimit ≤ path.utf8ByteSize then some .nameTooLong
  else none

/-- Follows pieces of a path from a place. Each piece, also an empty one, needs a directory to
start from. At a link, `jump` goes on from the directory of the link, with the target of the link
and the pieces behind it. -/
def follow (d : Disk) (jump : Place → String → List String → Except Failure Place)
    (place : Place) : List String → Except Failure Place
  | [] => .ok place
  | piece :: rest =>
    if d.node? place != some .directory then .error .notDirectory
    else if piece == "" || piece == "." then follow d jump place rest
    else if piece == ".." then follow d jump place.dropLast rest
    else if nameLimit < piece.utf8ByteSize then .error .nameTooLong
    else
      match d.node? (place ++ [piece]) with
      | none => .error .notFound
      | some (.link target) => jump place target rest
      | some _ => follow d jump (place ++ [piece]) rest

def followPath (d : Disk) (jump : Place → String → List String → Except Failure Place)
    (dir : Place) (path : String) (rest : List String) : Except Failure Place :=
  match pathFault? path with
  | some failure => .error failure
  | none => d.follow jump (if Path.isAbsolute path then [] else dir) (Path.pieces path ++ rest)

/-- Follows a path from a directory, and some pieces behind it, over a number of links at most. -/
def followLinks (d : Disk) : Nat → Place → String → List String → Except Failure Place
  | 0 => d.followPath fun _ _ _ => .error .tooManyLinks
  | links + 1 => d.followPath (followLinks d links)

def resolve (d : Disk) (path : String) : Except Failure Place :=
  d.followLinks linkLimit d.start path []

def isFile (d : Disk) (path : String) : Bool :=
  match d.resolve path with
  | .ok place => (d.node? place).any Node.isFile
  | .error _ => false

def readText (d : Disk) (path : String) : Except Failure String :=
  match d.resolve path with
  | .error failure => .error failure
  | .ok place =>
    match d.node? place with
    | some node => node.text
    | none => .error .notFound

def pathOf (place : Place) : String :=
  "/" ++ "/".intercalate place

/-- The path of a place, without what leads to the starting directory if it lies below that. -/
def relativePath (d : Disk) (place : Place) : String :=
  if d.start.isPrefixOf place then "/".intercalate (place.drop d.start.length)
  else pathOf place

def written (d : Disk) (path : String) : Place :=
  let from' := if Path.isAbsolute path then [] else d.start
  (Path.names path).foldl
    (fun place name =>
      if name == "." then place else if name == ".." then place.dropLast else place ++ [name])
    from'

def addNode (d : Disk) (place : Place) (node : Node) : Disk :=
  if (d.node? place).isSome then d else { d with nodes := (place, node) :: d.nodes }

def addDirectory (d : Disk) (place : Place) : Disk :=
  (List.range place.length).foldl
    (fun d n => d.addNode (place.take (n + 1)) .directory) d

def remove (d : Disk) (place : Place) : Disk :=
  { d with nodes := d.nodes.filter (fun n => n.1 != place) }

def write (d : Disk) (place : Place) (bytes : List UInt8) : Disk :=
  ((d.addDirectory place.dropLast).remove place).addNode place (.file bytes)

end Disk
end RpcConsole

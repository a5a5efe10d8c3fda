import RpcConsole.Disk.Basic
import RpcConsole.Proto.Grammar

namespace RpcConsole

/-- A schema file that has been read: the name under which it is imported, its place, and what it
declares. -/
structure StoredFile where
  name : String
  place : Place
  decl : FileDecl
  deriving Inhabited

namespace StoredFile

def package (f : StoredFile) : String :=
  f.decl.packageName

def imports (f : StoredFile) : List String :=
  f.decl.imports

end StoredFile

structure Conflict where
  name : String
  existing : String
  deriving Repr, DecidableEq

def Conflict.message (c : Conflict) : String :=
  s!"'{c.name}' conflicts with already loaded file '{c.existing}'"

inductive ResolveError where
  | notFound (importer wanted : String)
  | unreadable (file : String) (failure : Disk.Failure)
  | malformed (file : String) (error : Proto.ParseError)
  | conflict (c : Conflict)
  deriving Repr, DecidableEq

def ResolveError.message : ResolveError → String
  | .notFound importer wanted =>
    s!"{importer}: import \"{wanted}\" was not found in any import path"
  | .unreadable file failure => s!"{file}: failed to read file: {failure.message}"
  | .malformed file error => s!"{file}:{error.display}"
  | .conflict c => c.message

def StoredFile.read (d : Disk) (name path : String) : Except ResolveError StoredFile :=
  match d.readText path with
  | .error failure => .error (.unreadable name failure)
  | .ok source =>
    match Proto.parse name source with
    | .error error => .error (.malformed name error)
    | .ok decl =>
      match d.resolve path with
      | .error failure => .error (.unreadable name failure)
      | .ok place => .ok ⟨name, place, decl⟩

abbrev ImportPath := List String

/-- The files in the order in which they came, and the index of each by place and by name. The
fallback directory is looked into after the import path. -/
structure Store where
  importPath : ImportPath
  fallback : Option String := none
  files : List StoredFile := []
  byPlace : List (Place × Nat) := []
  byName : List (String × Nat) := []
  deriving Inhabited

namespace Store

def names (s : Store) : List String :=
  s.files.map StoredFile.name

def occupant? (s : Store) (place : Place) (name : String) : Option Nat :=
  (s.byPlace.lookup place).or (s.byName.lookup name)

def register (s : Store) (f : StoredFile) : Except Conflict Store :=
  match (s.occupant? f.place f.name).bind (fun i => s.files[i]?) with
  | some existing => .error ⟨f.name, existing.name⟩
  | none =>
    let index := s.files.length
    .ok { s with
      files := s.files ++ [f]
      byPlace := (f.place, index) :: s.byPlace
      byName := (f.name, index) :: s.byName }

def lookupName (s : Store) (name : String) : Option StoredFile :=
  (s.byName.lookup name).bind (fun i => s.files[i]?)

def lookupWritten (s : Store) (path : String) : Option Nat :=
  if Path.isAbsolute path then s.byPlace.lookup (Path.names path) else none

/-- The file of a path. A path that writes down the place of a file finds it without a look at the
disk. -/
def lookup (s : Store) (d : Disk) (path : String) : Option StoredFile :=
  match s.lookupWritten path with
  | some i => s.files[i]?
  | none =>
    match d.resolve path with
    | .ok place => (s.byPlace.lookup place).bind (fun i => s.files[i]?)
    | .error _ => none

def candidates (s : Store) (wanted : String) : List String :=
  (s.importPath ++ s.fallback.toList).map (fun dir => Path.join dir wanted)

/-- Finds the file for an import. A name that is known needs no look at the disk; else the first
candidate that is a file decides. -/
def resolveImport (s : Store) (d : Disk) (importer wanted : String) :
    Except ResolveError (StoredFile × Store) :=
  match s.lookupName wanted with
  | some f => .ok (f, s)
  | none =>
    match (s.candidates wanted).find? d.isFile with
    | none => .error (.notFound importer wanted)
    | some path =>
      match StoredFile.read d wanted path with
      | .error e => .error e
      | .ok f =>
        match s.register f with
        | .error c => .error (.conflict c)
        | .ok s => .ok (f, s)

end Store
end RpcConsole

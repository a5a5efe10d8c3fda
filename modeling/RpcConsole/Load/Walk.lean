import RpcConsole.Pool.Basic
import RpcConsole.Store.Basic

namespace RpcConsole

/-- What is wrong with linking: a file is rejected, or the root is not among the linked files. -/
inductive LinkFault where
  | rejected (e : LinkError)
  | missingRoot
  deriving Repr, DecidableEq

def LinkFault.message : LinkFault → String
  | .rejected e => e.message
  | .missingRoot => "root file missing from linked descriptors"

inductive LoadError where
  | invalidRoot (path : String)
  | unresolved (e : ResolveError)
  | importCycle (names : List String)
  | link (file : String) (e : LinkFault)
  deriving Repr, DecidableEq

def LoadError.message : LoadError → String
  | .invalidRoot path => s!"invalid root file path '{path}'"
  | .unresolved e => e.message
  | .importCycle names => "import cycle detected: " ++ " -> ".intercalate names
  | .link file e => s!"{file}: {e.message}"

def LoadError.display (errors : List LoadError) : String :=
  "\n".intercalate (errors.map LoadError.message)

/-- The state of the walk. The files in progress lead from the root to the current file; `order`
lists the files that are done, each behind its imports. -/
structure Walk where
  store : Store
  errors : List LoadError := []
  inProgress : List String := []
  visited : List String := []
  failed : List String := []
  order : List String := []
  deriving Inhabited

namespace Walk

def note (w : Walk) (e : LoadError) : Walk :=
  { w with errors := w.errors ++ [e] }

def cycle (w : Walk) (name : String) : List String :=
  w.inProgress.dropWhile (· != name) ++ [name]

def enter (w : Walk) (name : String) : Walk :=
  { w with inProgress := w.inProgress ++ [name] }

def leave (w : Walk) (name : String) : Walk :=
  { w with
    inProgress := w.inProgress.dropLast
    visited := w.visited ++ [name]
    order := w.order ++ [name] }

/-- Follows one import of a file; `visit` walks on from the file that is found. -/
def follow (d : Disk) (visit : String → Walk → Walk) (importer : String) (w : Walk)
    (wanted : String) : Walk :=
  if w.inProgress.contains wanted then w.note (.importCycle (w.cycle wanted))
  else if w.visited.contains wanted || w.failed.contains wanted then w
  else
    match w.store.resolveImport d importer wanted with
    | .ok (f, store) => visit f.name { w with store }
    | .error e => { w with failed := w.failed ++ [wanted] }.note (.unresolved e)

/-- Walks on from a stored file. Each step down the imports stores a file that was not stored
before, so as much fuel as there are files on the disk is enough. -/
def visit (d : Disk) : Nat → String → Walk → Walk
  | 0, _, w => w
  | fuel + 1, name, w =>
    match w.store.lookupName name with
    | none => w
    | some f => (f.imports.foldl (follow d (visit d fuel) name) (w.enter name)).leave name

def fromRoot (d : Disk) (name path : String) (store : Store) : Walk :=
  let w : Walk := { store }
  match StoredFile.read d name path with
  | .error e => w.note (.unresolved e)
  | .ok f =>
    match store.register f with
    | .error c => w.note (.unresolved (.conflict c))
    | .ok store => visit d (d.nodes.length + 1) name { w with store }

end Walk
end RpcConsole

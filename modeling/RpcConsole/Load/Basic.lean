import RpcConsole.Load.Walk
import RpcConsole.Pool.Link

namespace RpcConsole

/-- A schema without errors: the files as they were read, and the same files linked. -/
structure Schema where
  store : Store
  pool : Pool
  root : FileDecl
  deriving Inhabited

/-- The state of linking. Files behind one that was rejected are left out. -/
structure Linking where
  pool : Pool := {}
  unlinked : List String := []
  errors : List LoadError := []

namespace Linking

def step (store : Store) (l : Linking) (name : String) : Linking :=
  match store.lookupName name with
  | none => l
  | some f =>
    if f.imports.any l.unlinked.contains then { l with unlinked := l.unlinked ++ [name] }
    else
      match l.pool.add f.decl with
      | .ok pool => { l with pool }
      | .error e =>
        { l with
          unlinked := l.unlinked ++ [name]
          errors := l.errors ++ [.link name (.rejected e)] }

def run (store : Store) (order : List String) : Linking :=
  order.foldl (step store) {}

end Linking

namespace Schema

def ofWalk (rootName : String) (w : Walk) : Except (List LoadError) Schema :=
  if !w.errors.isEmpty then .error w.errors
  else
    let l := Linking.run w.store w.order
    if !l.errors.isEmpty then .error l.errors
    else
      match l.pool.file? rootName with
      | some root => .ok ⟨w.store, l.pool, root⟩
      | none => .error [.link rootName .missingRoot]

/-- Loads the schema of a root file. Imports are looked for in the import path and then beside the
root file. -/
def load (d : Disk) (root : String) (importPath : ImportPath) : Except (List LoadError) Schema :=
  match Path.parent? root, Path.fileName? root with
  | some dir, some name =>
    ofWalk name (Walk.fromRoot d name root { importPath, fallback := some dir })
  | _, _ => .error [.invalidRoot root]

def linkedFiles (s : Schema) : List FileDecl :=
  s.store.files.filterMap (fun f => s.pool.file? f.name)

def types (s : Schema) : TypeTable :=
  s.pool.types

end Schema
end RpcConsole

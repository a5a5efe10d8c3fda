import RpcConsole.Pool.Settings

namespace RpcConsole.Pool

def add (p : Pool) (f : FileDecl) : Except LinkError Pool := do
  let symbols ← p.declare f
  let scope : Scope := ⟨symbols, p.visible f⟩
  let f ← scope.linkReferences f
  let f ← (OptionScope.ofTypes scope (p.types ++ f.types p.types.enums)).file f
  return { files := p.files ++ [f], symbols, types := p.types ++ f.types p.types.enums }

end RpcConsole.Pool

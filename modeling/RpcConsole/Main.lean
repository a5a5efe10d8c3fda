import RpcConsole.Call.Offline
import RpcConsole.Console.Run

namespace RpcConsole.Console

structure Copies where
  disk : Disk
  tried : List String := []

def importPaths (dirs : List String) (bytes : List UInt8) : List String :=
  match (Utf8.toString? bytes).map (Proto.parse "") with
  | some (.ok f) => f.imports.flatMap (fun wanted => dirs.map (fun dir => Path.join dir wanted))
  | _ => []

/-- The directories in which a command line has imports looked for. -/
def CommandLine.directories (c : CommandLine) : List String :=
  c.importPath ++ (Path.parent? c.request.proto).toList

def CommandLine.named (c : CommandLine) : List String :=
  match c.request with
  | .call proto _ _ (.file path) => [proto, path]
  | r => [r.proto]

def copy (c : Copies) (path : String) : IO (Copies × List UInt8) := do
  let place := c.disk.written path
  let tried := path :: c.tried
  try
    if ← ((← IO.currentDir) / path).isDir then
      return (⟨c.disk.addDirectory place, tried⟩, [])
    let bytes := (← IO.FS.readBinFile path).data.toList
    return (⟨c.disk.write place bytes, tried⟩, bytes)
  catch _ => return ({ c with tried }, [])

partial def copyAll (dirs : List String) : List String → Copies → IO Copies
  | [], c => return c
  | path :: rest, c => do
    if c.tried.contains path then copyAll dirs rest c
    else
      let (c, bytes) ← copy c path
      copyAll dirs (importPaths dirs bytes ++ rest) c

def snapshot (importPath : Option String) (words : List String) : IO Disk := do
  let start := Path.names (← IO.currentDir).toString
  let disk := ({ start } : Disk).addDirectory start
  match CommandLine.read importPath words with
  | .error _ => return disk
  | .ok c => return (← copyAll c.directories c.named { disk }).disk

def surroundings : IO Surroundings := do
  return ⟨← IO.getEnv "CLICOLOR_FORCE", ← IO.getEnv "NO_COLOR", ← IO.getEnv "CLICOLOR",
    ← (← IO.getStdout).isTty⟩

end RpcConsole.Console

open RpcConsole RpcConsole.Console

def main (words : List String) : IO UInt32 := do
  let importPath ← IO.getEnv "PROTOCALL_IMPORT_PATH"
  let setting : Setting :=
    ⟨← snapshot importPath words, importPath, (← surroundings).colored⟩
  let output := Id.run (setting.run Transport.offline words)
  IO.print output.out
  IO.eprint output.err
  return output.status.toUInt32

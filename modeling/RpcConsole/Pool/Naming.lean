import RpcConsole.Pool.Basic

namespace RpcConsole.Pool

abbrev NameStep := Except LinkError SchemaSymbol

namespace Naming

def step (file name : String) (kind : SymbolKind) : NameStep :=
  .ok ⟨name, file, kind⟩

/-- The packages around and including the package of a file, the outermost first. -/
def packages (f : FileDecl) : List NameStep :=
  if f.packageName == "" then []
  else (Name.scopes f.packageName).dropLast.reverse.map (fun name => step f.name name .package)

/-- What fields must not share in proto3: the name in lower case without underscores. -/
def flatName (name : String) : String :=
  String.ofList ((name.toList.filter (· != '_')).map Char.toLower)

def camelCaseClash? : List (String × String) → List FieldDecl → Option (String × String)
  | _, [] => none
  | seen, f :: rest =>
    match seen.lookup (flatName f.name) with
    | some first => some (first, f.name)
    | none => camelCaseClash? ((flatName f.name, f.name) :: seen) rest

def camelCase (dialect : Dialect) (fields : List FieldDecl) : List NameStep :=
  match dialect, camelCaseClash? [] fields with
  | .proto3, some (first, second) => [.error (.camelCase first second)]
  | _, _ => []

def enumFaults (dialect : Dialect) (e : EnumDecl) : List NameStep :=
  match dialect, e.values with
  | _, [] => [.error .emptyEnum]
  | .proto3, v :: _ => if v.number == 0 then [] else [.error .firstEnumValue]
  | .proto2, _ :: _ => []

/-- An enum, what is wrong with it as a whole, and its values, which stand beside it. -/
def enumSteps (file : String) (dialect : Dialect) (scope : String) (e : EnumDecl) :
    List NameStep :=
  step file (Name.join scope e.name) (.enum (e.values.map EnumValueDecl.name)) ::
    (enumFaults dialect e ++
      e.values.map (fun v => step file (Name.join scope v.name) .enumValue))

def extensionSteps (file scope : String) (fs : List FieldDecl) : List NameStep :=
  fs.map (fun f => step file (Name.join scope f.name) .extension)

mutual

def messageSteps (file : String) (dialect : Dialect) (scope : String) :
    MessageDecl → List NameStep
  | ⟨name, fields, extensions, nested, enums, extensionRanges, oneofs, _, _, _⟩ =>
    let full := Name.join scope name
    step file full (.message (extensionRanges.map ExtensionRange.range)) ::
      (camelCase dialect fields ++
        oneofs.map (fun o => step file (Name.join full o.name) .oneof) ++
        fields.map (fun f => step file (Name.join full f.name) .field) ++
        messagesSteps file dialect full nested ++
        enums.flatMap (enumSteps file dialect full) ++
        extensionSteps file full extensions)

def messagesSteps (file : String) (dialect : Dialect) (scope : String) :
    List MessageDecl → List NameStep
  | [] => []
  | m :: ms => messageSteps file dialect scope m ++ messagesSteps file dialect scope ms

end

def serviceSteps (file scope : String) (s : ServiceDecl) : List NameStep :=
  let full := Name.join scope s.name
  step file full .service ::
    s.methods.map (fun m => step file (Name.join full m.name) .method)

def fileSteps (f : FileDecl) : List NameStep :=
  let scope := f.packageName
  packages f ++ messagesSteps f.name f.dialect scope f.messages ++
    f.enums.flatMap (enumSteps f.name f.dialect scope) ++
    f.services.flatMap (serviceSteps f.name scope) ++
    extensionSteps f.name scope f.extensions

def enter (symbols : List SchemaSymbol) (s : SchemaSymbol) :
    Except LinkError (List SchemaSymbol) :=
  match symbols.find? (fun t => t.name == s.name) with
  | none => .ok (s :: symbols)
  | some t =>
    if t.kind == .package && s.kind == .package then .ok symbols
    else if t.file == s.file then .error (.definedTwice s.name)
    else .error (.definedElsewhere s.name t.file)

def enterAll : List NameStep → List SchemaSymbol → Except LinkError (List SchemaSymbol)
  | [], symbols => .ok symbols
  | .error e :: _, _ => .error e
  | .ok s :: rest, symbols =>
    match enter symbols s with
    | .ok symbols => enterAll rest symbols
    | .error e => .error e

end Naming

def declare (p : Pool) (f : FileDecl) : Except LinkError (List SchemaSymbol) :=
  Naming.enterAll (Naming.fileSteps f) p.symbols

end RpcConsole.Pool

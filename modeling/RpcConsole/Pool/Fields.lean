import RpcConsole.Pool.Resolution
import RpcConsole.Pool.Types

namespace RpcConsole.Pool

def dotted (full : String) : String :=
  "." ++ full

namespace Scope

def linkType (sc : Scope) (place : String) : TypeRef → Except LinkError TypeRef
  | .scalar s => .ok (.scalar s)
  | .group name => do
    let s ← sc.resolve .message place name
    return .group (dotted s.name)
  | .message name => do
    let s ← sc.resolve .message place name
    return .message (dotted s.name)
  | .enum name | .named name => do
    let s ← sc.resolve .fieldType place name
    match s.kind with
    | .enum _ => return .enum (dotted s.name)
    | _ => return .message (dotted s.name)

def enumValues (sc : Scope) (full : String) : List String :=
  match (sc.find? full).map SchemaSymbol.kind with
  | some (.enum values) => values
  | _ => []

def checkDefault (sc : Scope) (type : TypeRef) (text : String) : Except LinkError Unit :=
  match type with
  | .scalar s =>
    if (s.readDefault text).isSome then .ok () else .error (.defaultValue text s.keyword)
  | .enum name =>
    if (sc.enumValues (Name.undotted name)).contains text then .ok ()
    else .error (.defaultValue text "enum type")
  | .group _ | .message _ | .named _ => .error (.defaultValue text "message type")

def linkField (sc : Scope) (scope : String) (f : FieldDecl) : Except LinkError FieldDecl := do
  let type ← sc.linkType (Name.join scope f.name) f.type
  if let some text := f.defaultText then sc.checkDefault type text
  return { f with type, jsonName := some (f.jsonName.getD (Name.json f.name)) }

end Scope

def holds (number : Int) (r : NumberRange) : Bool :=
  r.first ≤ number && number < r.last

def forbidden : NumberRange := ⟨19000, 20000⟩

def checkNumber (reserved extensions : List NumberRange) (number : Int) : Except LinkError Unit :=
  if holds number forbidden then .error (.fieldNumber number)
  else
    match reserved.find? (holds number), extensions.find? (holds number) with
    | some r, _ => .error (.fieldNumberReserved number r)
    | none, some r => .error (.fieldNumberInExtensions number r)
    | none, none => .ok ()

/-- The numbers and JSON names that the fields of a message have taken. -/
structure Taken where
  numbers : List Int := []
  jsonNames : List String := []

/-- Takes the number and the JSON name of a linked field; `written` is the JSON name in the file,
which is the one reported. -/
def Taken.take (t : Taken) (f : FieldDecl) (written : Option String) : Except LinkError Taken :=
  let jsonName := f.jsonName.getD ""
  if t.numbers.contains f.number then .error (.fieldNumberUsed f.number)
  else if t.jsonNames.contains jsonName then .error (.jsonNameUsed (written.getD ""))
  else .ok ⟨f.number :: t.numbers, jsonName :: t.jsonNames⟩

namespace Scope

def linkFields (sc : Scope) (scope : String) (reserved extensions : List NumberRange) :
    Taken → List FieldDecl → Except LinkError (List FieldDecl)
  | _, [] => .ok []
  | taken, f :: rest => do
    let linked ← sc.linkField scope f
    let taken ← taken.take linked f.jsonName
    checkNumber reserved extensions f.number
    let rest ← sc.linkFields scope reserved extensions taken rest
    return linked :: rest

def extensionRanges (sc : Scope) (full : String) : List NumberRange :=
  match (sc.find? full).map SchemaSymbol.kind with
  | some (.message ranges) => ranges
  | _ => []

/-- Links an extension: its type, and the message that it extends. -/
def linkExtension (sc : Scope) (scope : String) (f : FieldDecl) : Except LinkError FieldDecl := do
  let linked ← sc.linkField scope f
  let extendee ← sc.resolve .message (Name.join scope f.name) (f.extendee.getD "")
  unless (sc.extensionRanges extendee.name).any (holds f.number) do
    throw (.noExtensionNumber extendee.name f.number)
  return { linked with extendee := some (dotted extendee.name) }

def linkExtensions (sc : Scope) (scope : String) : List FieldDecl →
    Except LinkError (List FieldDecl)
  | [] => .ok []
  | f :: rest => do
    let f ← sc.linkExtension scope f
    let rest ← sc.linkExtensions scope rest
    return f :: rest

mutual

def linkMessage (sc : Scope) (scope : String) : MessageDecl → Except LinkError MessageDecl
  | ⟨name, fields, extensions, nested, enums, extensionRanges, oneofs, reservedRanges,
      reservedNames, options⟩ => do
    let full := Name.join scope name
    let fields ←
      sc.linkFields full reservedRanges (extensionRanges.map ExtensionRange.range) {} fields
    let nested ← linkMessages sc full nested
    let extensions ← sc.linkExtensions full extensions
    return ⟨name, fields, extensions, nested, enums, extensionRanges, oneofs, reservedRanges,
      reservedNames, options⟩

def linkMessages (sc : Scope) (scope : String) : List MessageDecl →
    Except LinkError (List MessageDecl)
  | [] => .ok []
  | m :: ms => do
    let m ← linkMessage sc scope m
    let ms ← linkMessages sc scope ms
    return m :: ms

end

def linkMethods (sc : Scope) (scope : String) : List MethodDecl → Except LinkError (List MethodDecl)
  | [] => .ok []
  | m :: ms => do
    let place := Name.join scope m.name
    let input ← sc.resolve .message place m.input
    let output ← sc.resolve .message place m.output
    let ms ← sc.linkMethods scope ms
    return { m with input := dotted input.name, output := dotted output.name } :: ms

def linkServices (sc : Scope) (scope : String) : List ServiceDecl →
    Except LinkError (List ServiceDecl)
  | [] => .ok []
  | s :: ss => do
    let methods ← sc.linkMethods (Name.join scope s.name) s.methods
    let ss ← sc.linkServices scope ss
    return { s with methods } :: ss

def linkReferences (sc : Scope) (f : FileDecl) : Except LinkError FileDecl := do
  let scope := f.packageName
  let messages ← sc.linkMessages scope f.messages
  let services ← sc.linkServices scope f.services
  let extensions ← sc.linkExtensions scope f.extensions
  return { f with messages, services, extensions }

end Scope
end RpcConsole.Pool

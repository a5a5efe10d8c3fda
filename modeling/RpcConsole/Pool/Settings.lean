import RpcConsole.Message.Fields
import RpcConsole.Pool.Fields

namespace RpcConsole

namespace NamePart

def text (p : NamePart) : String :=
  if p.isExtension then "(" ++ p.name ++ ")" else p.name

end NamePart

namespace RawValue

def text : RawValue → String
  | .identifier s => s
  | .positive n => toString n
  | .negative n => toString n
  | .double x => x.plainText
  | .bytes bs => "\"" ++ Proto.octalEscaped bs ++ "\""
  | .aggregate s => s

def toInt? : RawValue → Option Int
  | .positive n => some n
  | .negative n => some n
  | _ => none

def toBinary64? : RawValue → Option Binary64
  | .positive n => some (.ofNat n)
  | .negative n => some (.ofInt n)
  | .double x => some x
  | _ => none

def toBool? : RawValue → Option Bool
  | .identifier "true" => some true
  | .identifier "false" => some false
  | _ => none

def toString? : RawValue → Option String
  | .bytes bs => Utf8.toString? bs
  | _ => none

def toBytes? : RawValue → Option (List UInt8)
  | .bytes bs => some bs
  | _ => none

def toScalar? (v : RawValue) (s : Scalar) : Option Value :=
  match s with
  | .bool => v.toBool?.map Value.bool
  | .string => v.toString?.map Value.str
  | .bytes => v.toBytes?.map Value.bytes
  | .double => v.toBinary64?.map Value.double
  | .float => v.toBinary64?.map fun x => .single (.ofBinary64 x)
  | _ =>
    match s.range?, v.toInt? with
    | some r, some n => if r.contains n then some (.int r n) else none
    | _, _ => none

/-- The value for a field of a kind. What stands inside an aggregate is not looked at. -/
def toValue? (types : TypeTable) (v : RawValue) : Kind → Option Value
  | .scalar s => v.toScalar? s
  | .enum name =>
    match v with
    | .identifier word =>
      ((types.enum? name).bind (fun e => e.number? word)).map Value.enum
    | _ => none
  | .message name =>
    match v with
    | .aggregate _ => some (.message name .empty)
    | _ => none

end RawValue

namespace Pool

open StandardOptions (Target)

/-- Where options are set: the names and types that can be used. -/
structure OptionScope where
  scope : Scope
  types : TypeTable

namespace OptionScope

/-- The types in the pool, and the standard option messages for those that the pool lacks. -/
def ofTypes (scope : Scope) (types : TypeTable) : OptionScope :=
  ⟨scope, types ++ ⟨StandardOptions.messageTypes, StandardOptions.enumTypes, []⟩⟩

/-- The field that a part of an option name means; `path` is the name up to this part. -/
def findField (o : OptionScope) (place path : String) (type : MessageType) (p : NamePart) :
    Except LinkError Field :=
  if p.isExtension then do
    let s ← o.scope.resolve .extension place p.name
    match o.types.extension? s.name with
    | none => throw (.undefinedName p.name)
    | some x =>
      if x.extendee == type.name then return x.field
      else throw (.optionExtendee type.name s.name x.extendee)
  else
    match type.fieldNamed? p.name with
    | some f => .ok f
    | none => .error (.optionUndefined path)

def setField (o : OptionScope) (path : String) (type : MessageType) (f : Field) (v : RawValue)
    (m : Message) : Except LinkError Message :=
  match v.toValue? o.types f.kind with
  | none => .error (.optionValue path f.kind.text v.text)
  | some value =>
    if f.isRepeated then
      match o.types.valueOf f m with
      | .list items => .ok (m.set f.number (.list (items ++ [value])))
      | _ => .error (.optionNotMessage path f.kind.text)
    else if o.types.isSet f m then .error (.optionSet path)
    else .ok (type.store f value m)

def extend (path : String) (p : NamePart) : String :=
  if path == "" then p.text else path ++ "." ++ p.text

/-- Sets an option. `path` is what was followed of its name so far, and `m` the message of type
`type` that was reached. -/
def set (o : OptionScope) (place : String) (v : RawValue) :
    String → MessageType → List NamePart → Message → Except LinkError Message
  | _, _, [], m => .ok m
  | path, type, p :: rest, m => do
    let path := extend path p
    let f ← o.findField place path type p
    match rest with
    | [] => o.setField path type f v m
    | _ :: _ =>
      match f.kind, f.isRepeated with
      | .message name, false =>
        match o.types.message? name with
        | none => throw (.optionNotMessage path f.kind.text)
        | some inner =>
          let held :=
            match m.find? f.number with
            | some (.message _ held) => held
            | _ => .empty
          let held ← set o place v path inner rest held
          return type.store f (.message name held) m
      | _, _ => throw (.optionNotMessage path f.kind.text)

def setAll (o : OptionScope) (place : String) (type : MessageType) :
    List RawOption → Message → Except LinkError Message
  | [], m => .ok m
  | raw :: rest, m => do
    let m ← o.set place raw.value "" type raw.name m
    o.setAll place type rest m

def options (o : OptionScope) (target : Target) (place : String) :
    Option Options → Except LinkError (Option Options)
  | none => .ok none
  | some raw =>
    match o.types.message? target.typeName with
    | none => .ok (some raw)
    | some type => do
      let settings ← o.setAll place type raw.raw raw.settings
      return some ⟨[], settings.clear StandardOptions.rawNumber⟩

def fields (o : OptionScope) (scope : String) :
    List FieldDecl → Except LinkError (List FieldDecl)
  | [] => .ok []
  | f :: rest => do
    let options ← o.options .field (Name.join scope f.name) f.options
    let rest ← o.fields scope rest
    return { f with options } :: rest

def oneofs (o : OptionScope) (scope : String) :
    List OneofDecl → Except LinkError (List OneofDecl)
  | [] => .ok []
  | d :: rest => do
    let options ← o.options .oneof (Name.join scope d.name) d.options
    let rest ← o.oneofs scope rest
    return { d with options } :: rest

def enumValues (o : OptionScope) (scope : String) :
    List EnumValueDecl → Except LinkError (List EnumValueDecl)
  | [] => .ok []
  | v :: rest => do
    let options ← o.options .enumValue (Name.join scope v.name) v.options
    let rest ← o.enumValues scope rest
    return { v with options } :: rest

def allowsAlias (options : Option Options) : Bool :=
  match options.bind fun o => o.settings.find? StandardOptions.allowAliasNumber with
  | some (.bool b) => b
  | _ => false

/-- Checks the numbers of an enum. Two names have one number only where that is `shared`. -/
def checkNumbers (shared : Bool) (reserved : List NumberRange) :
    List Int → List Int → Except LinkError Unit
  | _, [] => .ok ()
  | seen, n :: rest =>
    if !shared && seen.contains n then .error (.enumNumberUsed n)
    else
      match reserved.find? (fun r => r.first ≤ n && n ≤ r.last) with
      | some r => .error (.enumNumberReserved n r)
      | none => checkNumbers shared reserved (n :: seen) rest

def enum (o : OptionScope) (scope : String) (e : EnumDecl) : Except LinkError EnumDecl := do
  let options ← o.options .enum (Name.join scope e.name) e.options
  checkNumbers (allowsAlias options) e.reservedRanges [] (e.values.map EnumValueDecl.number)
  let values ← o.enumValues scope e.values
  return { e with values, options }

def enums (o : OptionScope) (scope : String) : List EnumDecl → Except LinkError (List EnumDecl)
  | [] => .ok []
  | e :: rest => do
    let e ← o.enum scope e
    let rest ← o.enums scope rest
    return e :: rest

def extensionRanges (o : OptionScope) (place : String) :
    List ExtensionRange → Except LinkError (List ExtensionRange)
  | [] => .ok []
  | r :: rest => do
    let options ← o.options .extensionRange place r.options
    let rest ← o.extensionRanges place rest
    return { r with options } :: rest

mutual

def message (o : OptionScope) (scope : String) : MessageDecl → Except LinkError MessageDecl
  | ⟨name, fields, extensions, nested, enums, extensionRanges, oneofs, reservedRanges,
      reservedNames, options⟩ => do
    let full := Name.join scope name
    let options ← o.options .message full options
    let extensionRanges ← o.extensionRanges full extensionRanges
    let oneofs ← o.oneofs full oneofs
    let fields ← o.fields full fields
    let nested ← messages o full nested
    let enums ← o.enums full enums
    let extensions ← o.fields full extensions
    return ⟨name, fields, extensions, nested, enums, extensionRanges, oneofs, reservedRanges,
      reservedNames, options⟩

def messages (o : OptionScope) (scope : String) :
    List MessageDecl → Except LinkError (List MessageDecl)
  | [] => .ok []
  | m :: ms => do
    let m ← message o scope m
    let ms ← messages o scope ms
    return m :: ms

end

def methods (o : OptionScope) (scope : String) :
    List MethodDecl → Except LinkError (List MethodDecl)
  | [] => .ok []
  | m :: rest => do
    let options ← o.options .method (Name.join scope m.name) m.options
    let rest ← o.methods scope rest
    return { m with options } :: rest

def services (o : OptionScope) (scope : String) :
    List ServiceDecl → Except LinkError (List ServiceDecl)
  | [] => .ok []
  | s :: rest => do
    let full := Name.join scope s.name
    let options ← o.options .service full s.options
    let methods ← o.methods full s.methods
    let rest ← o.services scope rest
    return { s with methods, options } :: rest

def file (o : OptionScope) (f : FileDecl) : Except LinkError FileDecl := do
  let scope := f.packageName
  let options ← o.options .file scope f.options
  let messages ← o.messages scope f.messages
  let enums ← o.enums scope f.enums
  let services ← o.services scope f.services
  let extensions ← o.fields scope f.extensions
  return { f with options, messages, enums, services, extensions }

end OptionScope
end Pool
end RpcConsole

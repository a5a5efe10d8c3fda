import RpcConsole.Pool.Basic
import RpcConsole.Proto.Fault
import RpcConsole.Schema.StandardOptions

namespace RpcConsole

namespace Scalar

def readDefault (s : Scalar) (text : String) : Option Value :=
  match s with
  | .bool => if text == "true" then some (.bool true)
    else if text == "false" then some (.bool false) else none
  | .string => some (.str text)
  | .bytes => some (.bytes (Proto.octalUnescaped text.toList))
  | .double => (Spelled.ofChars? text.toList).map fun x => .double x.toBinary64
  | .float => (Spelled.ofChars? text.toList).map fun x => .single x.toBinary32
  | _ => s.range?.bind fun r =>
    match r.read text.toList with
    | .ok n => some (.int r n)
    | .error _ => none

end Scalar

namespace TypeRef

def kind : TypeRef → Kind
  | .scalar s => .scalar s
  | .group name | .message name | .named name => .message (Name.undotted name)
  | .enum name => .enum (Name.undotted name)

def isGroup : TypeRef → Bool
  | .group _ => true
  | _ => false

end TypeRef

namespace EnumDecl

def type (scope : String) (e : EnumDecl) : EnumType :=
  ⟨Name.join scope e.name, e.values.map fun v => (v.name, v.number)⟩

end EnumDecl

namespace FieldDecl

def writtenDefault (enums : List EnumType) (f : FieldDecl) : Option Value :=
  f.defaultText.bind fun text =>
    match f.type.kind with
    | .scalar s => s.readDefault text
    | .enum name =>
      ((enums.find? fun e => e.name == name).bind fun e => e.number? text).map Value.enum
    | .message _ => none

/-- Whether it can be seen that a field of a message is set to the value that it has when it is
not set. -/
def hasPresence (dialect : Dialect) (f : FieldDecl) : Bool :=
  f.isProto3Optional || f.oneofIndex.isSome ||
    f.label != .repeated &&
      (dialect == .proto2 ||
        match f.type.kind with
        | .message _ => true
        | _ => false)

/-- A field of a linked file; `scope` is the message or the package around it. -/
def toField (dialect : Dialect) (enums : List EnumType) (scope : String) (f : FieldDecl) :
    Field where
  name := f.name
  fullName := Name.join scope f.name
  number := f.number.toNat
  jsonName := f.jsonName.getD (Name.json f.name)
  kind := f.type.kind
  label := f.label
  isGroup := f.type.isGroup
  isPacked := f.label == .repeated && dialect == .proto3 && f.type.kind.isPackable
  hasPresence := f.hasPresence dialect
  oneof := f.oneofIndex
  written := f.writtenDefault enums

def toExtension (dialect : Dialect) (enums : List EnumType) (scope : String) (f : FieldDecl) :
    Extension where
  field := { f.toField dialect enums scope with hasPresence := f.label != .repeated }
  extendee := Name.undotted (f.extendee.getD "")

end FieldDecl

namespace MessageDecl

def isMapEntry (options : Option Options) : Bool :=
  match options.bind fun o => o.settings.find? StandardOptions.mapEntryNumber with
  | some (.bool b) => b
  | _ => false

mutual

def enumTypes (scope : String) : MessageDecl → List EnumType
  | ⟨name, _, _, nested, enums, _, _, _, _, _⟩ =>
    let full := Name.join scope name
    enums.map (EnumDecl.type full) ++ enumTypesOf full nested

def enumTypesOf (scope : String) : List MessageDecl → List EnumType
  | [] => []
  | m :: ms => enumTypes scope m ++ enumTypesOf scope ms

end

mutual

def types (dialect : Dialect) (known : List EnumType) (scope : String) :
    MessageDecl → List MessageType
  | ⟨name, fields, _, nested, _, _, oneofs, _, _, options⟩ =>
    let full := Name.join scope name
    { name := full
      fields := fields.map (FieldDecl.toField dialect known full)
      oneofs := oneofs.map OneofDecl.name
      isMapEntry := isMapEntry options } :: typesOf dialect known full nested

def typesOf (dialect : Dialect) (known : List EnumType) (scope : String) :
    List MessageDecl → List MessageType
  | [] => []
  | m :: ms => types dialect known scope m ++ typesOf dialect known scope ms

end

mutual

def extensionTypes (dialect : Dialect) (known : List EnumType) (scope : String) :
    MessageDecl → List Extension
  | ⟨name, _, extensions, nested, _, _, _, _, _, _⟩ =>
    let full := Name.join scope name
    extensions.map (FieldDecl.toExtension dialect known full) ++
      extensionTypesOf dialect known full nested

def extensionTypesOf (dialect : Dialect) (known : List EnumType) (scope : String) :
    List MessageDecl → List Extension
  | [] => []
  | m :: ms => extensionTypes dialect known scope m ++ extensionTypesOf dialect known scope ms

end

end MessageDecl

namespace FileDecl

def enumTypes (f : FileDecl) : List EnumType :=
  MessageDecl.enumTypesOf f.packageName f.messages ++ f.enums.map (EnumDecl.type f.packageName)

/-- The types of a linked file; `known` are the enums of the files it can use. -/
def types (known : List EnumType) (f : FileDecl) : TypeTable :=
  let enums := f.enumTypes
  let known := known ++ enums
  let scope := f.packageName
  { messages := MessageDecl.typesOf f.dialect known scope f.messages
    enums
    extensions :=
      MessageDecl.extensionTypesOf f.dialect known scope f.messages ++
        f.extensions.map (FieldDecl.toExtension f.dialect known scope) }

/-- A method of a linked file; `service` is the full name of its service. -/
def methodType (service : String) (m : MethodDecl) : Method where
  name := m.name
  service := service
  input := Name.undotted m.input
  output := Name.undotted m.output
  clientStreaming := m.clientStreaming
  serverStreaming := m.serverStreaming

def serviceType (scope : String) (s : ServiceDecl) : Service where
  name := s.name
  fullName := Name.join scope s.name
  methods := s.methods.map (methodType (Name.join scope s.name))

def serviceTypes (f : FileDecl) : List Service :=
  f.services.map (serviceType f.packageName)

end FileDecl
end RpcConsole

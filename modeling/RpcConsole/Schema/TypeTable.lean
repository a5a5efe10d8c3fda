import RpcConsole.Number.Integer
import RpcConsole.Schema.Name
import RpcConsole.Schema.Type

namespace RpcConsole

namespace EnumType

def nameOf? (e : EnumType) (number : Int) : Option String :=
  (e.values.find? (fun v => v.2 == number)).map (fun v => v.1)

def first (e : EnumType) : Int :=
  match e.values with
  | [] => 0
  | v :: _ => v.2

end EnumType

namespace Scalar

def zero : Scalar → Value
  | .double => .double .zero
  | .float => .single .zero
  | .bool => .bool false
  | .string => .str ""
  | .bytes => .bytes []
  | .int32 | .sint32 | .sfixed32 => .int .signed32 0
  | .int64 | .sint64 | .sfixed64 => .int .signed64 0
  | .uint32 | .fixed32 => .int .unsigned32 0
  | .uint64 | .fixed64 => .int .unsigned64 0

def range? : Scalar → Option IntRange
  | .int32 | .sint32 | .sfixed32 => some .signed32
  | .int64 | .sint64 | .sfixed64 => some .signed64
  | .uint32 | .fixed32 => some .unsigned32
  | .uint64 | .fixed64 => some .unsigned64
  | .double | .float | .bool | .string | .bytes => none

/-- Whether lists of the type can be written without a tag for each item. -/
def isPackable (s : Scalar) : Bool :=
  s != .string && s != .bytes

end Scalar

structure TypeTable where
  messages : List MessageType := []
  enums : List EnumType := []
  extensions : List Extension := []
  deriving Inhabited

namespace TypeTable

def message? (t : TypeTable) (name : String) : Option MessageType :=
  t.messages.find? (fun m => m.name == name)

/-- The message type of a name that someone wrote down; a dot may stand in front. -/
def messageNamed? (t : TypeTable) (name : String) : Option MessageType :=
  t.message? (Name.undotted name)

def enum? (t : TypeTable) (name : String) : Option EnumType :=
  t.enums.find? (fun e => e.name == name)

def extension? (t : TypeTable) (name : String) : Option Extension :=
  t.extensions.find? (fun x => x.field.fullName == name)

def extensionNumbered? (t : TypeTable) (extendee : String) (number : Nat) : Option Extension :=
  t.extensions.find? (fun x => x.extendee == extendee && x.field.number == number)

def fieldNumbered? (t : TypeTable) (m : MessageType) (number : Nat) : Option Field :=
  (m.fieldNumbered? number).or ((t.extensionNumbered? m.name number).map Extension.field)

def append (t u : TypeTable) : TypeTable :=
  ⟨t.messages ++ u.messages, t.enums ++ u.enums, t.extensions ++ u.extensions⟩

instance : Append TypeTable := ⟨append⟩

/-- The type of the entries of a map field; other fields have none. -/
def mapEntry? (t : TypeTable) (f : Field) : Option MessageType :=
  match f.label, f.kind with
  | .repeated, .message name => (t.message? name).filter MessageType.isMapEntry
  | _, _ => none

def kindDefault (t : TypeTable) : Kind → Value
  | .scalar s => s.zero
  | .enum name => .enum (((t.enum? name).map EnumType.first).getD 0)
  | .message name => .message name .empty

def fieldDefault (t : TypeTable) (f : Field) : Value :=
  if f.isRepeated then
    if (t.mapEntry? f).isSome then .map [] else .list []
  else f.written.getD (t.kindDefault f.kind)

end TypeTable

namespace Kind

def isPackable : Kind → Bool
  | .scalar s => s.isPackable
  | .enum _ => true
  | .message _ => false

def text : Kind → String
  | .scalar s => s.keyword
  | .message name => name
  | .enum name => name

end Kind
end RpcConsole

import RpcConsole.Schema.StandardOptions
import RpcConsole.Schema.TypeTable
import RpcConsole.Wire.Read
import RpcConsole.Wire.Write

namespace RpcConsole

inductive WellKnown where
  | any
  | timestamp
  | duration
  | fieldMask
  | struct
  | value
  | listValue
  | empty
  | wrapper (s : Scalar)
  deriving Repr, DecidableEq

namespace WellKnown

open StandardOptions (qualified)

def wrappers : List (String × Scalar) :=
  [("DoubleValue", .double), ("FloatValue", .float), ("Int64Value", .int64),
    ("UInt64Value", .uint64), ("Int32Value", .int32), ("UInt32Value", .uint32),
    ("BoolValue", .bool), ("StringValue", .string), ("BytesValue", .bytes)]

def names : List (String × WellKnown) :=
  [("Any", .any), ("Timestamp", .timestamp), ("Duration", .duration), ("FieldMask", .fieldMask),
    ("Struct", .struct), ("Value", .value), ("ListValue", .listValue), ("Empty", .empty)] ++
  wrappers.map (fun w => (w.1, .wrapper w.2))

def ofName? (name : String) : Option WellKnown :=
  (names.find? (fun n => qualified n.1 == name)).map (fun n => n.2)

def nullValue : String := qualified "NullValue"

def valueName : String := qualified "Value"

def structName : String := qualified "Struct"

def listName : String := qualified "ListValue"

/-- A field without presence of a message type in the package of these types. -/
def field (type : String) (number : Nat) (name : String) (kind : Kind) : Field :=
  { name, fullName := qualified type ++ "." ++ name, number, jsonName := name, kind,
    label := .optional, hasPresence := false }

def repeatedField (type : String) (number : Nat) (name : String) (kind : Kind) : Field :=
  { field type number name kind with label := .repeated }

def memberField (type : String) (number : Nat) (name : String) (kind : Kind) : Field :=
  { field type number name kind with hasPresence := true, oneof := some 0 }

def messageType (name : String) (fields : List Field) : MessageType :=
  { name := qualified name, fields }

def timeType (name : String) : MessageType :=
  messageType name
    [field name 1 "seconds" (.scalar .int64), field name 2 "nanos" (.scalar .int32)]

def valueType : MessageType :=
  { messageType "Value"
      [memberField "Value" 1 "null_value" (.enum nullValue),
        memberField "Value" 2 "number_value" (.scalar .double),
        memberField "Value" 3 "string_value" (.scalar .string),
        memberField "Value" 4 "bool_value" (.scalar .bool),
        memberField "Value" 5 "struct_value" (.message (qualified "Struct")),
        memberField "Value" 6 "list_value" (.message (qualified "ListValue"))] with
    oneofs := ["kind"] }

def entryType : MessageType :=
  { messageType "Struct.FieldsEntry"
      [field "Struct.FieldsEntry" 1 "key" (.scalar .string),
        { field "Struct.FieldsEntry" 2 "value" (.message valueName) with hasPresence := true }] with
    isMapEntry := true }

def types : TypeTable where
  messages :=
    [timeType "Timestamp", timeType "Duration", valueType, entryType,
      messageType "Struct"
        [repeatedField "Struct" 1 "fields" (.message (qualified "Struct.FieldsEntry"))],
      messageType "ListValue" [repeatedField "ListValue" 1 "values" (.message valueName)],
      messageType "FieldMask" [repeatedField "FieldMask" 1 "paths" (.scalar .string)],
      messageType "Any"
        [field "Any" 1 "type_url" (.scalar .string), field "Any" 2 "value" (.scalar .bytes)],
      messageType "Empty" []] ++
    wrappers.map (fun w => messageType w.1 [field w.1 1 "value" (.scalar w.2)])
  enums := [⟨nullValue, [("NULL_VALUE", 0)]⟩]

/-- Passes a message of a type from one definition of the type to another one. -/
def transfer (source target : TypeTable) (name : String) (m : Message) :
    Except Wire.Fault Message :=
  match target.message? name with
  | some type =>
    match Wire.message? source name m with
    | some bs => Wire.readMessage target type bs
    | none => .error .stopped
  | none => .ok .empty

end WellKnown
end RpcConsole

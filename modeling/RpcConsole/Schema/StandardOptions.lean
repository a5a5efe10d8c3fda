import RpcConsole.Schema.Type
import RpcConsole.Schema.Name

namespace RpcConsole.StandardOptions

def qualified (name : String) : String :=
  "google.protobuf." ++ name

inductive Target where
  | file
  | message
  | field
  | oneof
  | enum
  | enumValue
  | service
  | method
  | extensionRange
  deriving Repr, DecidableEq

def Target.typeName : Target → String
  | .file => qualified "FileOptions"
  | .message => qualified "MessageOptions"
  | .field => qualified "FieldOptions"
  | .oneof => qualified "OneofOptions"
  | .enum => qualified "EnumOptions"
  | .enumValue => qualified "EnumValueOptions"
  | .service => qualified "ServiceOptions"
  | .method => qualified "MethodOptions"
  | .extensionRange => qualified "ExtensionRangeOptions"

def optimizeMode : EnumType :=
  ⟨qualified "FileOptions.OptimizeMode", [("SPEED", 1), ("CODE_SIZE", 2), ("LITE_RUNTIME", 3)]⟩

def cType : EnumType :=
  ⟨qualified "FieldOptions.CType", [("STRING", 0), ("CORD", 1), ("STRING_PIECE", 2)]⟩

def jsType : EnumType :=
  ⟨qualified "FieldOptions.JSType", [("JS_NORMAL", 0), ("JS_STRING", 1), ("JS_NUMBER", 2)]⟩

def idempotencyLevel : EnumType :=
  ⟨qualified "MethodOptions.IdempotencyLevel",
    [("IDEMPOTENCY_UNKNOWN", 0), ("NO_SIDE_EFFECTS", 1), ("IDEMPOTENT", 2)]⟩

def single (type : String) (kind : Kind) (name : String) (number : Nat) : Field :=
  { name, fullName := type ++ "." ++ name, number, jsonName := Name.json name, kind,
    label := .optional }

def flags (type : String) (fields : List (String × Nat)) : List Field :=
  fields.map fun f => single type (.scalar .bool) f.1 f.2

def strings (type : String) (fields : List (String × Nat)) : List Field :=
  fields.map fun f => single type (.scalar .string) f.1 f.2

def rawNumber : Nat := 999

def rawField (type : String) : Field :=
  { single type (.message (qualified "UninterpretedOption")) "uninterpreted_option" rawNumber with
    label := .repeated, hasPresence := false }

def ownFields (t : Target) : List Field :=
  let type := t.typeName
  match t with
  | .file =>
    strings type
      [("java_package", 1), ("java_outer_classname", 8), ("go_package", 11),
        ("objc_class_prefix", 36), ("csharp_namespace", 37), ("swift_prefix", 39),
        ("php_class_prefix", 40), ("php_namespace", 41), ("php_metadata_namespace", 44),
        ("ruby_package", 45)] ++
    flags type
      [("java_multiple_files", 10), ("java_generate_equals_and_hash", 20),
        ("java_string_check_utf8", 27), ("cc_generic_services", 16),
        ("java_generic_services", 17), ("py_generic_services", 18), ("php_generic_services", 42),
        ("deprecated", 23), ("cc_enable_arenas", 31)] ++
    [single type (.enum optimizeMode.name) "optimize_for" 9]
  | .message =>
    flags type
      [("message_set_wire_format", 1), ("no_standard_descriptor_accessor", 2), ("deprecated", 3),
        ("map_entry", 7)]
  | .field =>
    flags type [("packed", 2), ("lazy", 5), ("deprecated", 3), ("weak", 10)] ++
    [single type (.enum cType.name) "ctype" 1, single type (.enum jsType.name) "jstype" 6]
  | .enum => flags type [("allow_alias", 2), ("deprecated", 3)]
  | .enumValue => flags type [("deprecated", 1)]
  | .service => flags type [("deprecated", 33)]
  | .method =>
    flags type [("deprecated", 33)] ++
    [single type (.enum idempotencyLevel.name) "idempotency_level" 34]
  | .oneof | .extensionRange => []

def messageType (t : Target) : MessageType :=
  { name := t.typeName, fields := ownFields t ++ [rawField t.typeName] }

def targets : List Target :=
  [.file, .message, .field, .oneof, .enum, .enumValue, .service, .method, .extensionRange]

def messageTypes : List MessageType :=
  { name := qualified "UninterpretedOption", fields := [] } :: targets.map messageType

def enumTypes : List EnumType :=
  [optimizeMode, cType, jsType, idempotencyLevel]

def mapEntryNumber : Nat := 7

def allowAliasNumber : Nat := 2

end RpcConsole.StandardOptions

import RpcConsole.Json.Read
import RpcConsole.Number.Integer
import RpcConsole.Text.Base64
import RpcConsole.Text.Pieces
import RpcConsole.Text.Quoted
import RpcConsole.Time.Duration
import RpcConsole.Time.Timestamp
import RpcConsole.Wire.Varint

namespace RpcConsole

namespace Json

def found : Json → String
  | .null => "null"
  | .bool b => s!"boolean `{b}`"
  | .int n => s!"integer `{n}`"
  | .double x => s!"floating point `{x.plainTextWithPoint}`"
  | .single x => s!"floating point `{x.toBinary64.plainTextWithPoint}`"
  | .str s => s!"string {Quoted.quote s}"
  | .arr _ => "sequence"
  | .obj _ => "map"

end Json

/-- Bytes that were refused while a message passed from one definition to another one. -/
def Wire.Fault.decodingMessage (e : Wire.Fault) : String :=
  s!"failed to decode Protobuf message: {e.message}"

inductive TextFault where
  | malformed (e : Json.ReadError)
  | unexpected (value : Json) (expected : String)
  | integer (e : IntRange.Fault)
  | notInteger
  | floatRange
  | emptyFloat
  | floatLiteral
  | boolKey
  | base64 (e : Base64.Fault)
  | severalInOneof (name : String)
  | timestamp (e : Timestamp.Fault)
  | duration (e : Duration.Fault)
  | fieldMask
  | notEmpty
  | missingType
  | missingValue
  | typeUrl (url : String)
  | unknownMessage (name : String)
  | undecodable (e : Wire.Fault)
  | stopped

def TextFault.message : TextFault → String
  | .malformed e => e.message
  | .unexpected value expected => s!"invalid type: {value.found}, expected {expected}"
  | .integer e => e.message
  | .notInteger => "expected integer value"
  | .floatRange => "float value out of range"
  | .emptyFloat => "cannot parse float from empty string"
  | .floatLiteral => "invalid float literal"
  | .boolKey => "provided string was not `true` or `false`"
  | .base64 e => s!"invalid base64: {e.message}"
  | .severalInOneof name => s!"multiple fields provided for oneof '{name}'"
  | .timestamp e => e.message
  | .duration e => e.message
  | .fieldMask => "invalid field mask"
  | .notEmpty => "unexpected value in map"
  | .missingType => "expected '@type' field"
  | .missingValue => "expected 'value' field"
  | .typeUrl url => s!"unsupported type url '{url}': missing at least one '/'"
  | .unknownMessage name => s!"message '{name}' not found"
  | .undecodable e => s!"error decoding: {e.decodingMessage}"
  | .stopped => Wire.stoppedText

def TextFault.ofWire : Wire.Fault → TextFault
  | .stopped => .stopped
  | e => .undecodable e

inductive RenderFault where
  | timestampRange
  | durationRange
  | nonFinite
  | camelCase
  | typeUrl (url : String)
  | unknownMessage (name : String)
  | undecodable (e : Wire.Fault)
  | stopped
  deriving Repr, DecidableEq

def RenderFault.message : RenderFault → String
  | .timestampRange => Timestamp.Fault.range.message
  | .durationRange => Duration.Fault.range.message
  | .nonFinite => "cannot serialize non-finite double in google.protobuf.Value"
  | .camelCase => "cannot roundtrip field name through camelcase"
  | .typeUrl url => (TextFault.typeUrl url).message
  | .unknownMessage name => (TextFault.unknownMessage name).message
  | .undecodable e => (TextFault.undecodable e).message
  | .stopped => Wire.stoppedText

def RenderFault.ofWire : Wire.Fault → RenderFault
  | .stopped => .stopped
  | e => .undecodable e

/-- Why there is no result of a conversion: one of three errors, or the program stopped on the way,
which is no error that a caller could see. -/
inductive MessageError where
  | invalidText (e : TextFault)
  | render (e : RenderFault)
  | decode (e : Wire.Fault)
  | stopped

namespace MessageError

def message : MessageError → String
  | .invalidText e => e.message
  | .render e => s!"failed to render message as text: {e.message}"
  | .decode e => s!"failed to decode message bytes: {e.decodingMessage}"
  | .stopped => Wire.stoppedText

def ofText : TextFault → MessageError
  | .stopped => .stopped
  | e => .invalidText e

def ofRender : RenderFault → MessageError
  | .stopped => .stopped
  | e => .render e

def ofWire : Wire.Fault → MessageError
  | .stopped => .stopped
  | e => .decode e

end MessageError

/-- The name of the message behind the last slash of a type name in a message of any type. -/
def anyTypeName? (url : String) : Option String :=
  match Text.pieces '/' url with
  | [_] => none
  | parts => parts.getLast?

end RpcConsole

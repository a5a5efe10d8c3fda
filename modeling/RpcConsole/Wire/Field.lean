import RpcConsole.Message.Fields
import RpcConsole.Text.Utf8
import RpcConsole.Wire.Varint

namespace RpcConsole

inductive WireType where
  | varint
  | fixed64
  | counted
  | startGroup
  | endGroup
  | fixed32
  deriving Repr, DecidableEq

namespace WireType

def code : WireType → Nat
  | .varint => 0
  | .fixed64 => 1
  | .counted => 2
  | .startGroup => 3
  | .endGroup => 4
  | .fixed32 => 5

def ofCode? : Nat → Option WireType
  | 0 => some .varint
  | 1 => some .fixed64
  | 2 => some .counted
  | 3 => some .startGroup
  | 4 => some .endGroup
  | 5 => some .fixed32
  | _ => none

def text : WireType → String
  | .varint => "Varint"
  | .fixed64 => "SixtyFourBit"
  | .counted => "LengthDelimited"
  | .startGroup => "StartGroup"
  | .endGroup => "EndGroup"
  | .fixed32 => "ThirtyTwoBit"

end WireType

namespace Scalar

def wireType : Scalar → WireType
  | .double | .fixed64 | .sfixed64 => .fixed64
  | .float | .fixed32 | .sfixed32 => .fixed32
  | .string | .bytes => .counted
  | .int64 | .uint64 | .int32 | .bool | .uint32 | .sint32 | .sint64 => .varint

end Scalar

namespace Kind

def wireType : Kind → WireType
  | .scalar s => s.wireType
  | .enum _ => .varint
  | .message _ => .counted

end Kind

namespace Kind

/-- Whether a single value is one of a kind. Messages are not told apart by their types. -/
def holds : Kind → Value → Bool
  | .scalar s, .bool _ => s == .bool
  | .scalar s, .int r _ => s.range? == some r
  | .scalar s, .single _ => s == .float
  | .scalar s, .double _ => s == .double
  | .scalar s, .str _ => s == .string
  | .scalar s, .bytes _ => s == .bytes
  | .enum _, .enum _ => true
  | .message _, .message _ _ => true
  | _, _ => false

end Kind

namespace Wire

def key (number : Nat) (wt : WireType) : List UInt8 :=
  varint (number * 8 + wt.code)

def keyLimit : Nat := 4294967295

def readKey (bs : List UInt8) : Except Fault ((Nat × WireType) × List UInt8) :=
  match readVarint bs with
  | .error e => .error e
  | .ok (n, rest) =>
    if keyLimit < n then .error (.key n)
    else
      match WireType.ofCode? (n % 8) with
      | none => .error (.wireTypeCode (n % 8))
      | some wt => if n / 8 == 0 then .error .zeroNumber else .ok ((n / 8, wt), rest)

def expect (expected found : WireType) : Except Fault Unit :=
  if found == expected then .ok () else .error (.wireType found.text expected.text)

def scalarInt (s : Scalar) (n : Int) : List UInt8 :=
  match s with
  | .sint32 | .sint64 => varint (zigzag n)
  | .fixed32 | .sfixed32 => fixed 4 (word 32 n)
  | .fixed64 | .sfixed64 => fixed 8 (word 64 n)
  | _ => varint (word 64 n)

/-- The bytes of a single value that holds no message, without a key. -/
def plain (kind : Kind) (v : Value) : List UInt8 :=
  match v, kind with
  | .bool b, _ => varint (if b then 1 else 0)
  | .enum n, _ => varint (word 64 n)
  | .int _ n, .scalar s => scalarInt s n
  | .single x, _ => fixed 4 x.bits.toNat
  | .double x, _ => fixed 8 x.bits.toNat
  | .str s, _ => counted (Utf8.ofString s)
  | .bytes bs, _ => counted bs
  | _, _ => []

def ofNumber (s : Scalar) (n : Nat) : Value :=
  match s with
  | .bool => .bool (n != 0)
  | .int32 => .int .signed32 (ofWord 32 n)
  | .int64 => .int .signed64 (ofWord 64 n)
  | .uint32 => .int .unsigned32 (n % 4294967296 : Nat)
  | .sint32 => .int .signed32 (ofZigzag (n % 4294967296))
  | .sint64 => .int .signed64 (ofZigzag n)
  | .sfixed32 => .int .signed32 (ofWord 32 n)
  | .sfixed64 => .int .signed64 (ofWord 64 n)
  | .fixed32 => .int .unsigned32 n
  | .float => .single (.ofWord n)
  | .double => .double (.ofWord n)
  | .uint64 | .fixed64 | .string | .bytes => .int .unsigned64 n

def readScalar (s : Scalar) (bs : List UInt8) : Except Fault (Value × List UInt8) :=
  match s, s.wireType with
  | .string, _ =>
    match readBytes bs with
    | .error e => .error e
    | .ok (front, rest) =>
      match Utf8.toString? front with
      | some text => .ok (.str text, rest)
      | none => .error .notUtf8
  | .bytes, _ => (readBytes bs).map fun r => (.bytes r.1, r.2)
  | _, .fixed32 => (readFixed 4 bs).map fun r => (ofNumber s r.1, r.2)
  | _, .fixed64 => (readFixed 8 bs).map fun r => (ofNumber s r.1, r.2)
  | _, _ => (readVarint bs).map fun r => (ofNumber s r.1, r.2)

def readPlain (kind : Kind) (bs : List UInt8) : Except Fault (Value × List UInt8) :=
  match kind with
  | .scalar s => readScalar s bs
  | .enum _ => (readVarint bs).map fun r => (.enum (ofWord 32 r.1), r.2)
  | .message name => .ok (.message name .empty, bs)

end Wire
end RpcConsole

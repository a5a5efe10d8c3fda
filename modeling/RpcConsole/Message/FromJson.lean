import RpcConsole.Message.Shape
import RpcConsole.Message.TextFault
import RpcConsole.WellKnown.FieldMask

namespace RpcConsole

namespace Binary32

def greatest : Int := 340282346638528859811704183484516925440

end Binary32

namespace Meaning

def isAbove (x : Meaning) (n : Int) : Bool :=
  match x.toInt?, x.floor? with
  | some k, _ => n < k
  | none, some k => n ≤ k
  | none, none => false

def isBelow (x : Meaning) (n : Int) : Bool :=
  match x.floor? with
  | some k => k < n
  | none => false

end Meaning

namespace IntRange

/-- The nearest floating-point number to the upper end, which is where numbers with a fraction or
an exponent start to be out of range. -/
def nearHigh (r : IntRange) : Int :=
  ((Binary64.ofInt r.high).meaning.toInt?).getD r.high

def clamp (r : IntRange) (n : Int) : Int :=
  max r.low (min r.high n)

def ofInteger (r : IntRange) (n : Int) : Except TextFault Int :=
  if r.high < n then .error (.integer .tooLarge)
  else if n < r.low then .error (.integer .tooSmall)
  else .ok n

def ofBinary64 (r : IntRange) (x : Binary64) : Except TextFault Int :=
  let v := x.meaning
  if v.isBelow r.low || v.isAbove r.nearHigh then .error .floatRange
  else
    match v.toInt? with
    | some n => .ok (r.clamp n)
    | none => .error .notInteger

def ofText (r : IntRange) (s : String) : Except TextFault Int :=
  match r.read s.toList with
  | .ok n => .ok n
  | .error e => .error (.integer e)

end IntRange

namespace Scalar

def expected : Scalar → String
  | .double => "a 64-bit floating point value"
  | .float => "a 32-bit floating point value"
  | .int32 | .sint32 | .sfixed32 => "a 32-bit signed integer"
  | .int64 | .sint64 | .sfixed64 => "a 64-bit signed integer or decimal string"
  | .uint32 | .fixed32 => "a 32-bit unsigned integer or decimal string"
  | .uint64 | .fixed64 => "a 64-bit unsigned integer or decimal string"
  | .bool => "a boolean"
  | .string => "a string"
  | .bytes => "a base64-encoded string"

end Scalar

def Spelled.ofText (s : String) : Except TextFault Spelled :=
  match Spelled.ofChars? s.toList with
  | some x => .ok x
  | none => .error (if s == "" then .emptyFloat else .floatLiteral)

namespace FromJson

def doubleOf : Json → Except TextFault Value
  | .int n => .ok (.double (.ofInt n))
  | .double x => .ok (.double x)
  | .str s => (Spelled.ofText s).map fun x => .double x.toBinary64
  | j => .error (.unexpected j Scalar.double.expected)

def singleOf : Json → Except TextFault Value
  | .int n => .ok (.single (.ofWord (Format.binary32.roundSigned (n < 0) n.natAbs 1)))
  | .double x =>
    if x.meaning.isAbove Binary32.greatest || x.meaning.isBelow (-Binary32.greatest) then
      .error .floatRange
    else .ok (.single (.ofBinary64 x))
  | .str s => (Spelled.ofText s).map fun x => .single x.toBinary32
  | j => .error (.unexpected j Scalar.float.expected)

def intOf (s : Scalar) (r : IntRange) : Json → Except TextFault Value
  | .int n => (r.ofInteger n).map (Value.int r)
  | .double x => (r.ofBinary64 x).map (Value.int r)
  | .str text => (r.ofText text).map (Value.int r)
  | j => .error (.unexpected j s.expected)

def bytesOf : Json → Except TextFault Value
  | .str s =>
    match Base64.decode (Utf8.ofString s) with
    | .ok bs => .ok (.bytes bs)
    | .error e => .error (.base64 e)
  | j => .error (.unexpected j Scalar.bytes.expected)

def scalar (s : Scalar) (j : Json) : Except TextFault Value :=
  match s, s.range? with
  | _, some r => intOf s r j
  | .double, none => doubleOf j
  | .float, none => singleOf j
  | .bytes, none => bytesOf j
  | _, none =>
    match s, j with
    | .bool, .bool b => .ok (.bool b)
    | .string, .str text => .ok (.str text)
    | _, _ => .error (.unexpected j s.expected)

def enum (t : TypeTable) (name : String) : Json → Except TextFault (Option Value)
  | .str s => .ok (((t.enum? name).bind fun e => e.number? s).map Value.enum)
  | .int n =>
    if name == WellKnown.nullValue then .error (.unexpected (.int n) "null")
    else (IntRange.signed32.ofInteger n).map fun n => some (.enum n)
  | .null =>
    if name == WellKnown.nullValue then .ok (some (.enum 0))
    else .error (.unexpected .null "a string or integer")
  | j =>
    .error (.unexpected j (if name == WellKnown.nullValue then "null" else "a string or integer"))

def mapKey (kind : Kind) (key : String) : Except TextFault MapKey :=
  match kind with
  | .scalar .bool =>
    if key == "true" then .ok (.bool true)
    else if key == "false" then .ok (.bool false)
    else .error .boolKey
  | .scalar s =>
    match s.range? with
    | some r => (r.ofText key).map (MapKey.int r)
    | none => .ok (.str key)
  | _ => .ok (.str key)

mutual

def anyValue : Json → Message
  | .null => ⟨[(1, .enum 0)], []⟩
  | .bool b => ⟨[(4, .bool b)], []⟩
  | .int n => ⟨[(2, .double (.ofInt n))], []⟩
  | .double x => ⟨[(2, .double x)], []⟩
  | .single x => ⟨[(2, .double x.toBinary64)], []⟩
  | .str s => ⟨[(3, .str s)], []⟩
  | .arr vs => ⟨[(6, .message WellKnown.listName ⟨[(1, .list (anyValues vs))], []⟩)], []⟩
  | .obj ms => ⟨[(5, .message WellKnown.structName ⟨[(1, .map (anyEntries ms))], []⟩)], []⟩

def anyValues : List Json → List Value
  | [] => []
  | v :: vs => .message WellKnown.valueName (anyValue v) :: anyValues vs

def anyEntries : List (String × Json) → List (MapKey × Value)
  | [] => []
  | (k, v) :: rest =>
    Value.insertEntry (.str k) (.message WellKnown.valueName (anyValue v)) (anyEntries rest)

end

/-- Takes a message from the definitions of the text forms into the schema. -/
def settle (t : TypeTable) (name : String) (m : Message) : Except TextFault Message :=
  match WellKnown.transfer WellKnown.types t name m with
  | .ok m => .ok m
  | .error e => .error (.ofWire e)

def timeMessage (seconds nanos : Int) : Message :=
  ⟨[(1, .int .signed64 seconds), (2, .int .signed32 nanos)], []⟩

/-- A message with a text form of its own, other than one of any type. -/
def wellKnown (t : TypeTable) (name : String) (w : WellKnown) (j : Json) :
    Except TextFault Message :=
  match w, j with
  | .value, j => settle t name (anyValue j)
  | .struct, .obj ms => settle t name ⟨[(1, .map (anyEntries ms))], []⟩
  | .listValue, .arr vs => settle t name ⟨[(1, .list (anyValues vs))], []⟩
  | .wrapper s, j => do settle t name ⟨[(1, ← scalar s j)], []⟩
  | .empty, .obj ms => if ms.isEmpty then .ok .empty else .error .notEmpty
  | .timestamp, .str s =>
    match Timestamp.read (Utf8.ofString s) with
    | .ok p => settle t name (timeMessage p.seconds p.nanos)
    | .error e => .error (.timestamp e)
  | .duration, .str s =>
    match Duration.read s.toList with
    | .ok d => settle t name (timeMessage d.seconds d.nanos)
    | .error e => .error (.duration e)
  | .fieldMask, .str s =>
    match FieldMask.read s with
    | some paths => settle t name ⟨[(1, .list (paths.map Value.str))], []⟩
    | none => .error .fieldMask
  | .struct, j | .any, j => .error (.unexpected j "a map")
  | .listValue, j => .error (.unexpected j "a list")
  | .empty, j => .error (.unexpected j "an empty map")
  | .timestamp, j => .error (.unexpected j "a rfc3339 timestamp string")
  | .duration, j => .error (.unexpected j "a duration string")
  | .fieldMask, j => .error (.unexpected j "a field mask string")

/-- What null stands for: nothing, except where null is a value of its own. -/
def null (t : TypeTable) (f : Field) : Except TextFault (Option Value) :=
  match f.kind with
  | .message name =>
    if name == WellKnown.valueName then do
      return some (.message name (← settle t name (anyValue .null)))
    else .ok none
  | .enum name => .ok (if name == WellKnown.nullValue then some (.enum 0) else none)
  | .scalar _ => .ok none

/-- The field or extension that a key means: by JSON name, by declared name, or by the full name
in brackets. -/
def fieldFor? (t : TypeTable) (type : MessageType) (key : String) : Option Field :=
  ((type.fieldWithJsonName? key).or (type.fieldNamed? key)).or
    ((t.extensions.find? (fun x =>
      x.extendee == type.name && "[" ++ x.field.fullName ++ "]" == key)).map Extension.field)

def takenOneof? (t : TypeTable) (type : MessageType) (f : Field) (m : Message) : Option String :=
  match f.oneof with
  | none => none
  | some i =>
    if type.fields.any (fun g => g.oneof == some i && t.isSet g m) then
      some ((type.oneofs[i]?).getD "")
    else none

def assign (t : TypeTable) (type : MessageType) (f : Field) (v : Option Value) (m : Message) :
    Except TextFault Message :=
  match v, takenOneof? t type f m with
  | none, _ => .ok m
  | some _, some name => .error (.severalInOneof name)
  | some v, none => .ok (type.store f v m)

def typeKey : String := "@type"

def anyType (t : TypeTable) (ms : List (String × Json)) :
    Except TextFault (String × MessageType) :=
  match Json.get? typeKey ms with
  | none => .error .missingType
  | some (.str url) =>
    match anyTypeName? url with
    | none => .error (.typeUrl url)
    | some name =>
      match t.messageNamed? name with
      | none => .error (.unknownMessage name)
      | some type => .ok (url, type)
  | some j => .error (.unexpected j "a string")

def wrapAny (t : TypeTable) (name url inner : String) (m : Message) : Except TextFault Message :=
  match Wire.message? t inner m with
  | some bs => settle t name ⟨[(1, .str url), (2, .bytes bs)], []⟩
  | none => .error .stopped

mutual

/-- Reads a value of a shape; an enum name that is not declared gives none. -/
def value (t : TypeTable) (shape : Shape) : Json → Except TextFault (Option Value)
  | .obj ms =>
    match shape with
    | .map key kind => do return some (.map (← entries t key kind ms))
    | .torn .. => .error .stopped
    | .list _ => .error (.unexpected (.obj ms) "a list")
    | .single (.scalar s) => (scalar s (.obj ms)).map some
    | .single (.enum name) => enum t name (.obj ms)
    | .single (.message name) =>
      match WellKnown.ofName? name with
      | some .any => do
        let (url, type) ← anyType t ms
        let inner ←
          if (WellKnown.ofName? type.name).isSome then anyMember t type.name ms
          else members t type (some typeKey) ms .empty
        return some (.message name (← wrapAny t name url type.name inner))
      | some w => do return some (.message name (← wellKnown t name w (.obj ms)))
      | none =>
        match t.message? name with
        | some type => do return some (.message name (← members t type none ms .empty))
        | none => .error (.unknownMessage name)
  | .arr vs =>
    match shape with
    | .map .. | .torn .. => .error (.unexpected (.arr vs) "a map")
    | .list kind => do return some (.list (← items t kind vs))
    | .single (.scalar s) => (scalar s (.arr vs)).map some
    | .single (.enum name) => enum t name (.arr vs)
    | .single (.message name) =>
      match WellKnown.ofName? name with
      | some w => do return some (.message name (← wellKnown t name w (.arr vs)))
      | none => .error (.unexpected (.arr vs) "a map")
  | j =>
    match shape with
    | .map .. | .torn .. => .error (.unexpected j "a map")
    | .list _ => .error (.unexpected j "a list")
    | .single (.scalar s) => (scalar s j).map some
    | .single (.enum name) => enum t name j
    | .single (.message name) =>
      match WellKnown.ofName? name with
      | some w => do return some (.message name (← wellKnown t name w j))
      | none => .error (.unexpected j "a map")

def items (t : TypeTable) (kind : Kind) : List Json → Except TextFault (List Value)
  | [] => .ok []
  | v :: vs => do
    let v ← value t (.single kind) v
    let vs ← items t kind vs
    return v.toList ++ vs

def entries (t : TypeTable) (key kind : Kind) :
    List (String × Json) → Except TextFault (List (MapKey × Value))
  | [] => .ok []
  | (k, v) :: rest => do
    let k ← mapKey key k
    let v ← value t (.single kind) v
    let rest ← entries t key kind rest
    match v with
    | some v => if (rest.lookup k).isSome then return rest else return Value.insertEntry k v rest
    | none => return rest

def members (t : TypeTable) (type : MessageType) (skip : Option String) :
    List (String × Json) → Message → Except TextFault Message
  | [], m => .ok m
  | (k, v) :: rest, m =>
    if skip == some k then members t type skip rest m
    else
      match fieldFor? t type k with
      | none => members t type skip rest m
      | some f => do
        let v ←
          match v with
          | .null => null t f
          | v => value t (t.shape f) v
        let m ← assign t type f v m
        members t type skip rest m

/-- Reads the member that holds the inner message of a message of any type, where that one has a
text form of its own. -/
def anyMember (t : TypeTable) (name : String) :
    List (String × Json) → Except TextFault Message
  | [] => .error .missingValue
  | (k, v) :: rest =>
    if k == "value" then do
      match ← value t (.single (.message name)) v with
      | some (.message _ m) => return m
      | _ => throw .missingValue
    else anyMember t name rest

end

def message (t : TypeTable) (name : String) (j : Json) : Except TextFault Message := do
  match ← value t (.single (.message name)) j with
  | some (.message _ m) => return m
  | _ => throw (.unknownMessage name)

end FromJson
end RpcConsole

import RpcConsole.Wire.Field

namespace RpcConsole.Wire

abbrev Reading := StateT (List UInt8) (Except Fault)

namespace Reading

def fail {α : Type} (e : Fault) : Reading α :=
  fun _ => .error e

def left : Reading Nat := do
  return (← get).length

end Reading

open Reading

def depthLimit : Nat := 100

def deeper : Nat → Reading Nat
  | 0 => fail .recursionLimit
  | depth + 1 => pure depth

/-- How many bytes are left behind a part that starts with the count of its bytes. -/
def partEnd : Reading Nat := do
  let count ← readVarint
  let left ← left
  if left < count then fail .underflow else return left - count

/-- Whether a part is read to its end. A value that reaches beyond the end is an error. -/
def atEnd (stop : Nat) : Reading Bool := do
  let left ← left
  if left < stop then fail .lengthExceeded else return left == stop

mutual

def readUnknown (fuel depth number : Nat) (wt : WireType) : Reading UnknownValue :=
  match fuel with
  | 0 => fail .varint
  | fuel + 1 =>
    match wt with
    | .varint => return .varint (← readVarint)
    | .fixed64 => return .fixed64 (← readFixed 8)
    | .counted => return .bytes (← readBytes)
    | .fixed32 => return .fixed32 (← readFixed 4)
    | .endGroup => fail .endGroup
    | .startGroup => do
      let depth ← deeper depth
      return .group (← readUnknownGroup fuel depth number)

def readUnknownGroup (fuel depth number : Nat) : Reading (List (Nat × UnknownValue)) :=
  match fuel with
  | 0 => fail .varint
  | fuel + 1 => do
    let (inner, wt) ← readKey
    if wt == .endGroup then
      if inner == number then return [] else fail .endGroup
    else
      let v ← readUnknown fuel depth inner wt
      return (inner, v) :: (← readUnknownGroup fuel depth number)

end

mutual

def skipField (fuel depth number : Nat) (wt : WireType) : Reading Unit :=
  match fuel with
  | 0 => fail .varint
  | fuel + 1 => do
    let inside ← deeper depth
    match wt with
    | .varint => discard readVarint
    | .fixed64 => discard (readFixed 8)
    | .counted => discard readBytes
    | .fixed32 => discard (readFixed 4)
    | .endGroup => fail .endGroup
    | .startGroup => skipGroup fuel inside number

def skipGroup (fuel depth number : Nat) : Reading Unit :=
  match fuel with
  | 0 => fail .varint
  | fuel + 1 => do
    let (inner, wt) ← readKey
    if wt == .endGroup then
      if inner == number then return () else fail .endGroup
    else
      skipField fuel depth inner wt
      skipGroup fuel depth number

end

def readPacked (kind : Kind) (stop : Nat) : Nat → List Value → Reading (List Value)
  | 0, _ => fail .varint
  | fuel + 1, items => do
    if ← atEnd stop then return items
    else readPacked kind stop fuel (items ++ [← readPlain kind])

def held (f : Field) (m : Message) : Message :=
  match m.find? f.number with
  | some (.message _ held) => held
  | _ => .empty

def heldItems (f : Field) (m : Message) : List Value :=
  match m.find? f.number with
  | some (.list items) => items
  | _ => []

def heldEntries (f : Field) (m : Message) : List (MapKey × Value) :=
  match m.find? f.number with
  | some (.map entries) => entries
  | _ => []

def toKey : Value → MapKey
  | .bool b => .bool b
  | .int r n => .int r n
  | .str s => .str s
  | _ => .int .signed32 0

mutual

def readField (t : TypeTable) (fuel depth : Nat) (type : MessageType) (number : Nat)
    (wt : WireType) (m : Message) : Reading Message :=
  match fuel with
  | 0 => fail .varint
  | fuel + 1 =>
    match t.fieldNumbered? type number with
    | none => do
      return m.addUnknown number (← readUnknown fuel depth number wt)
    | some f =>
      match t.mapEntry? f with
      | some entry =>
        match entry.fieldNumbered? 1, entry.fieldNumbered? 2 with
        | some k, some v => do
          let inside ← deeper depth
          let stop ← partEnd
          let (key, value) ← readEntry t fuel inside k v stop none none
          return type.store f (.map (Value.insertEntry key value (heldEntries f m))) m
        | _, _ => fail .stopped
      | none =>
        if f.isRepeated then
          if wt == .counted && f.kind.isPackable then do
            let stop ← partEnd
            let items ← readPacked f.kind stop ((← left) + 1) (heldItems f m)
            return type.store f (.list items) m
          else do
            let v ← readValue t fuel depth f wt .empty
            return type.store f (.list (heldItems f m ++ [v])) m
        else do
          let v ← readValue t fuel depth f wt (held f m)
          return type.store f v m

/-- Reads a single value behind its key; `before` is the message to which a message is added. -/
def readValue (t : TypeTable) (fuel depth : Nat) (f : Field) (wt : WireType) (before : Message) :
    Reading Value :=
  match fuel with
  | 0 => fail .varint
  | fuel + 1 =>
    match f.kind with
    | .message name =>
      match t.message? name with
      | none => fail .varint
      | some type =>
        if f.isGroup then do
          expect .startGroup wt
          let inside ← deeper depth
          return .message name (← readGroup t fuel inside type f.number before)
        else do
          expect .counted wt
          let inside ← deeper depth
          let stop ← partEnd
          return .message name (← readFields t fuel inside type stop before)
    | kind => do
      expect kind.wireType wt
      readPlain kind

def readFields (t : TypeTable) (fuel depth : Nat) (type : MessageType) (stop : Nat)
    (m : Message) : Reading Message :=
  match fuel with
  | 0 => fail .varint
  | fuel + 1 => do
    if ← atEnd stop then return m
    else
      let (number, wt) ← readKey
      let m ← readField t fuel depth type number wt m
      readFields t fuel depth type stop m

def readGroup (t : TypeTable) (fuel depth : Nat) (type : MessageType) (group : Nat)
    (m : Message) : Reading Message :=
  match fuel with
  | 0 => fail .varint
  | fuel + 1 => do
    let (number, wt) ← readKey
    if wt == .endGroup then
      if number == group then return m else fail .endGroup
    else
      let m ← readField t fuel depth type number wt m
      readGroup t fuel depth type group m

/-- Reads an entry of a map up to the end of the part. A key or a value that is not there is the
default one. -/
def readEntry (t : TypeTable) (fuel depth : Nat) (k v : Field) (stop : Nat)
    (key value : Option Value) : Reading (MapKey × Value) :=
  match fuel with
  | 0 => fail .varint
  | fuel + 1 => do
    if ← atEnd stop then
      return (toKey (key.getD (t.fieldDefault k)), value.getD (t.fieldDefault v))
    else
      let (number, wt) ← readKey
      if number == 1 then
        let key ← readValue t fuel depth k wt .empty
        readEntry t fuel depth k v stop (some key) value
      else if number == 2 then
        let before :=
          match value with
          | some (.message _ m) => m
          | _ => .empty
        let value ← readValue t fuel depth v wt before
        readEntry t fuel depth k v stop key (some value)
      else
        skipField fuel depth number wt
        readEntry t fuel depth k v stop key value

end

def readMessage (t : TypeTable) (type : MessageType) (bs : List UInt8) : Except Fault Message :=
  match readFields t (4 * bs.length + 4) depthLimit type 0 .empty bs with
  | .ok (m, _) => .ok m
  | .error e => .error e

end RpcConsole.Wire

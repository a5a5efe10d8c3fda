import RpcConsole.Message.Fields

namespace RpcConsole

mutual

/-- Removes the redundant values of fields, also inside messages. Extensions and unknown fields
are kept as they are. -/
def Message.clearDefaults (t : TypeTable) (name : String) : Message → Message
  | ⟨known, unknown⟩ =>
    match t.message? name with
    | none => ⟨known, unknown⟩
    | some type => ⟨Message.clearFields t type known, unknown⟩

def Message.clearFields (t : TypeTable) (type : MessageType) :
    List (Nat × Value) → List (Nat × Value)
  | [] => []
  | (number, v) :: rest =>
    match type.fieldNumbered? number with
    | none => (number, v) :: Message.clearFields t type rest
    | some f =>
      if t.isRedundant f v then Message.clearFields t type rest
      else (number, Value.clearDefaults t f v) :: Message.clearFields t type rest

def Value.clearDefaults (t : TypeTable) (f : Field) : Value → Value
  | .message name m => .message name (m.clearDefaults t name)
  | .list items => .list (Value.clearItems t f items)
  | .map entries =>
    match (t.mapEntry? f).bind (fun e => e.fieldNumbered? 2) with
    | some v => .map (Value.clearEntries t v entries)
    | none => .map entries
  | v => v

def Value.clearItems (t : TypeTable) (f : Field) : List Value → List Value
  | [] => []
  | v :: vs => Value.clearDefaults t f v :: Value.clearItems t f vs

def Value.clearEntries (t : TypeTable) (f : Field) :
    List (MapKey × Value) → List (MapKey × Value)
  | [] => []
  | (k, v) :: rest => (k, Value.clearDefaults t f v) :: Value.clearEntries t f rest

end

mutual

def UnknownValue.same : UnknownValue → UnknownValue → Bool
  | .varint a, .varint b => a == b
  | .fixed64 a, .fixed64 b => a == b
  | .bytes a, .bytes b => a == b
  | .fixed32 a, .fixed32 b => a == b
  | .group a, .group b => UnknownValue.sameFields a b
  | _, _ => false

def UnknownValue.sameFields :
    List (Nat × UnknownValue) → List (Nat × UnknownValue) → Bool
  | [], [] => true
  | (i, a) :: as, (j, b) :: bs => i == j && a.same b && UnknownValue.sameFields as bs
  | _, _ => false

end

mutual

/-- Whether two messages are equal: they store the same values for the same numbers, unknown
fields included. Floating-point values are compared as numbers. -/
def Message.same : Message → Message → Bool
  | ⟨known, unknown⟩, n =>
    Message.sameFields known n.known && UnknownValue.sameFields unknown n.unknown

def Message.sameFields : List (Nat × Value) → List (Nat × Value) → Bool
  | [], [] => true
  | (i, v) :: xs, (j, w) :: ys => i == j && v.same w && Message.sameFields xs ys
  | _, _ => false

def Value.same : Value → Value → Bool
  | .message a m, .message b n => a == b && m.same n
  | .list xs, .list ys => Value.sameItems xs ys
  | .map xs, .map ys => Value.sameEntries xs ys
  | v, w => v.isSingle w

def Value.sameItems : List Value → List Value → Bool
  | [], [] => true
  | x :: xs, y :: ys => x.same y && Value.sameItems xs ys
  | _, _ => false

def Value.sameEntries : List (MapKey × Value) → List (MapKey × Value) → Bool
  | [], [] => true
  | (k, x) :: xs, (l, y) :: ys => k == l && x.same y && Value.sameEntries xs ys
  | _, _ => false

end

end RpcConsole

import RpcConsole.Number.Binary
import RpcConsole.Number.Integer

namespace RpcConsole

inductive MapKey where
  | bool (b : Bool)
  | int (range : IntRange) (n : Int)
  | str (s : String)
  deriving Repr, DecidableEq, Inhabited

inductive UnknownValue where
  | varint (n : Nat)
  | fixed64 (n : Nat)
  | bytes (bs : List UInt8)
  | group (fields : List (Nat × UnknownValue))
  | fixed32 (n : Nat)
  deriving Repr, Inhabited

mutual

/-- The value of a field. An integer comes with the range of its type, and a message with the name
of its type. -/
inductive Value where
  | bool (b : Bool)
  | int (range : IntRange) (n : Int)
  | enum (n : Int)
  | single (x : Binary32)
  | double (x : Binary64)
  | str (s : String)
  | bytes (bs : List UInt8)
  | message (type : String) (m : Message)
  | list (items : List Value)
  | map (entries : List (MapKey × Value))

/-- The fields of a message, sorted by number: those its type knows, and the others in the order of
arrival within a number. -/
structure Message where
  known : List (Nat × Value)
  unknown : List (Nat × UnknownValue)

end

instance : Inhabited Value := ⟨.bool false⟩

namespace MapKey

def text : MapKey → String
  | .bool b => if b then "true" else "false"
  | .int _ n => toString n
  | .str s => s

end MapKey

namespace Message

def empty : Message := ⟨[], []⟩

instance : Inhabited Message := ⟨empty⟩

def find? (number : Nat) (m : Message) : Option Value :=
  m.known.lookup number

def insertField (number : Nat) (v : Value) : List (Nat × Value) → List (Nat × Value)
  | [] => [(number, v)]
  | (k, w) :: rest =>
    if number < k then (number, v) :: (k, w) :: rest
    else if number == k then (number, v) :: rest
    else (k, w) :: insertField number v rest

def set (m : Message) (number : Nat) (v : Value) : Message :=
  { m with known := insertField number v m.known }

def clear (m : Message) (number : Nat) : Message :=
  { m with known := m.known.filter (fun f => f.1 != number) }

def insertUnknown (number : Nat) (v : UnknownValue) :
    List (Nat × UnknownValue) → List (Nat × UnknownValue)
  | [] => [(number, v)]
  | (k, w) :: rest =>
    if number < k then (number, v) :: (k, w) :: rest
    else (k, w) :: insertUnknown number v rest

def addUnknown (m : Message) (number : Nat) (v : UnknownValue) : Message :=
  { m with unknown := insertUnknown number v m.unknown }

end Message

namespace Value

/-- Puts an entry into a list sorted by the texts of the keys; an entry of the same key gives
way. -/
def insertEntry (key : MapKey) (v : Value) : List (MapKey × Value) → List (MapKey × Value)
  | [] => [(key, v)]
  | (k, w) :: rest =>
    if key.text < k.text then (key, v) :: (k, w) :: rest
    else if key == k then (key, v) :: rest
    else (k, w) :: insertEntry key v rest

end Value
end RpcConsole

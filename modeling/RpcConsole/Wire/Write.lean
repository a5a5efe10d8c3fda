import RpcConsole.Wire.Field

namespace RpcConsole.Wire

mutual

def unknownField (number : Nat) : UnknownValue → List UInt8
  | .varint n => key number .varint ++ varint n
  | .fixed64 n => key number .fixed64 ++ fixed 8 n
  | .bytes bs => key number .counted ++ counted bs
  | .group fields => key number .startGroup ++ unknownFields fields ++ key number .endGroup
  | .fixed32 n => key number .fixed32 ++ fixed 4 n

def unknownFields : List (Nat × UnknownValue) → List UInt8
  | [] => []
  | (number, v) :: rest => unknownField number v ++ unknownFields rest

end

def bytesLe : List UInt8 → List UInt8 → Bool
  | [], _ => true
  | _ :: _, [] => false
  | a :: as, b :: bs => a < b || a == b && bytesLe as bs

abbrev Chunks := List (Nat × List UInt8)

def mergeChunks : Chunks → Chunks → Chunks
  | [], ys => ys
  | xs, [] => xs
  | (i, x) :: xs, (j, y) :: ys =>
    if i ≤ j then (i, x) :: mergeChunks xs ((j, y) :: ys)
    else (j, y) :: mergeChunks ((i, x) :: xs) ys
termination_by xs ys => xs.length + ys.length

def joined (chunks : Chunks) : List UInt8 :=
  chunks.flatMap (fun c => c.2)

def keyValue : MapKey → Value
  | .bool b => .bool b
  | .int r n => .int r n
  | .str s => .str s

/-- A single value that holds no message as the value of a field, unless it is redundant. -/
def plainField (t : TypeTable) (f : Field) (v : Value) : List UInt8 :=
  if t.isRedundant f v then [] else key f.number f.kind.wireType ++ plain f.kind v

def framed (f : Field) (body : List UInt8) : List UInt8 :=
  if f.isGroup then key f.number .startGroup ++ body ++ key f.number .endGroup
  else key f.number .counted ++ counted body

mutual

def message (t : TypeTable) (name : String) : Message → List UInt8
  | ⟨known, unknown⟩ =>
    match t.message? name with
    | none => []
    | some type =>
      joined (mergeChunks (fields t type known)
        (unknown.map (fun u => (u.1, unknownField u.1 u.2))))

def fields (t : TypeTable) (type : MessageType) : List (Nat × Value) → Chunks
  | [] => []
  | (number, v) :: rest =>
    match t.fieldNumbered? type number with
    | none => fields t type rest
    | some f => (number, field t f v) :: fields t type rest

def field (t : TypeTable) (f : Field) : Value → List UInt8
  | .message name m => framed f (message t name m)
  | .list vs =>
    if vs.isEmpty then []
    else if f.isPacked then key f.number .counted ++ counted (vs.flatMap (plain f.kind))
    else items t f vs
  | .map es =>
    match t.mapEntry? f with
    | none => []
    | some type =>
      match type.fieldNumbered? 1, type.fieldNumbered? 2 with
      | some k, some v => ((entries t f k v es).mergeSort bytesLe).flatten
      | _, _ => []
  | v => plainField t f v

def items (t : TypeTable) (f : Field) : List Value → List UInt8
  | [] => []
  | v :: vs => field t { f with label := .optional, hasPresence := true } v ++ items t f vs

def entries (t : TypeTable) (f k v : Field) : List (MapKey × Value) → List (List UInt8)
  | [] => []
  | (key', value) :: rest =>
    (key f.number .counted ++ counted (plainField t k (keyValue key') ++ field t v value)) ::
      entries t f k v rest

end

mutual

/-- Whether the fields of a message can hold what is stored for them. They can, unless extensions
of one type share a number: what is stored for one is written as the first of them. -/
def messageHolds (t : TypeTable) (name : String) : Message → Bool
  | ⟨known, _⟩ =>
    match t.message? name with
    | none => true
    | some type => fieldsHold t type known

def fieldsHold (t : TypeTable) (type : MessageType) : List (Nat × Value) → Bool
  | [] => true
  | (number, v) :: rest =>
    (match t.fieldNumbered? type number with
      | none => true
      | some f => t.isRedundant f v || fieldHolds t f v) && fieldsHold t type rest

def fieldHolds (t : TypeTable) (f : Field) : Value → Bool
  | .message name m => f.kind.holds (.message name .empty) && messageHolds t name m
  | .list vs => f.isRepeated && (t.mapEntry? f).isNone && itemsHold t f vs
  | .map es =>
    match t.mapEntry? f with
    | none => false
    | some type =>
      match type.fieldNumbered? 1, type.fieldNumbered? 2 with
      | some k, some v => entriesHold t k v es
      | _, _ => false
  | v => f.kind.holds v

def itemsHold (t : TypeTable) (f : Field) : List Value → Bool
  | [] => true
  | v :: vs => fieldHolds t f v && itemsHold t f vs

def entriesHold (t : TypeTable) (k v : Field) : List (MapKey × Value) → Bool
  | [] => true
  | (key, value) :: rest =>
    (t.isRedundant k (keyValue key) || k.kind.holds (keyValue key)) &&
      (t.isRedundant v value || fieldHolds t v value) && entriesHold t k v rest

end

/-- The bytes of a message of a type. They are counted before any is written, and there the program
stops if a field cannot hold what is stored for it. -/
def message? (t : TypeTable) (name : String) (m : Message) : Option (List UInt8) :=
  if messageHolds t name m then some (message t name m) else none

end RpcConsole.Wire

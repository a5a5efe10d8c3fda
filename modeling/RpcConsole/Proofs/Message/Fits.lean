import RpcConsole.Message.Shape
import RpcConsole.Proofs.Wire.Plain

namespace RpcConsole

/-- Whether null is a value of a kind. -/
def Kind.holdsNull : Kind → Bool
  | .message name => name == WellKnown.valueName
  | .enum name => name == WellKnown.nullValue
  | .scalar _ => false

/-- The kind of a single value under a shape. A list can have a lone value in its place: text gives
one for null where the items may be null. -/
def Shape.kind? : Shape → Option Kind
  | .single kind => some kind
  | .list kind => if kind.holdsNull then some kind else none
  | .map .. | .torn .. => none

theorem Shape.kind?_cases {shape : Shape} {kind : Kind} (h : shape.kind? = some kind) :
    shape = .single kind ∨ shape = .list kind := by
  cases shape with
  | single k => exact .inl (congrArg _ (Option.some.inj h))
  | list k =>
    simp only [kind?, Option.ite_none_right_eq_some, Option.some.injEq] at h
    exact .inr (congrArg _ h.2)
  | map | torn => cases h

/-- The kind of the single values under a shape, those in lists and maps included. -/
def Shape.item : Shape → Kind
  | .single kind | .list kind | .map _ kind => kind
  | .torn entry value => value.getD entry

/-- The numbers that a field can have. -/
def Wire.IsNumber (n : Nat) : Prop :=
  1 ≤ n ∧ n ≤ 536870911

mutual

def UnknownValue.Fits : UnknownValue → Prop
  | .varint n | .fixed64 n => n < Wire.wordLimit
  | .bytes _ => True
  | .group fields => UnknownValue.FieldsFit fields
  | .fixed32 n => n < 256 ^ 4

def UnknownValue.FieldsFit : List (Nat × UnknownValue) → Prop
  | [] => True
  | (number, v) :: rest => (Wire.IsNumber number ∧ v.Fits) ∧ UnknownValue.FieldsFit rest

end

/-- The numbers under which something is stored. -/
def Message.numbers {α : Type} (fields : List (Nat × α)) : List Nat :=
  fields.map Prod.fst

/-- Fields come by number, no two members of a oneof are stored, and unknown numbers are those of
no field. -/
structure Message.Arranged (t : TypeTable) (type : MessageType) (known : List (Nat × Value))
    (unknown : List (Nat × UnknownValue)) : Prop where
  sorted : (Message.numbers known).Pairwise (· < ·)
  exclusive : ∀ f ∈ type.fields, f.number ∈ Message.numbers known →
    ∀ g ∈ type.rivals f, g.number ∉ Message.numbers known
  unknownSorted : (Message.numbers unknown).Pairwise (· ≤ ·)
  unknownFree : ∀ number ∈ Message.numbers unknown, t.fieldNumbered? type number = none
  unknownFit : UnknownValue.FieldsFit unknown

mutual

/-- A message of a type. -/
def Message.Fits (t : TypeTable) (type : MessageType) : Message → Prop
  | ⟨known, unknown⟩ => Message.Arranged t type known unknown ∧ Message.FieldsFit t type known

def Message.FieldsFit (t : TypeTable) (type : MessageType) : List (Nat × Value) → Prop
  | [] => True
  | (number, v) :: rest =>
    (match t.fieldNumbered? type number with
      | some f => v.Fits t (t.shape f)
      | none => False) ∧ Message.FieldsFit t type rest

/-- A value of a shape. -/
def Value.Fits (t : TypeTable) (shape : Shape) : Value → Prop
  | .message name m =>
    shape.kind? = some (.message name) ∧
      match t.message? name with
      | some type => m.Fits t type
      | none => False
  | .list vs =>
    match shape with
    | .list kind => Value.ItemsFit t kind vs
    | _ => False
  | .map es =>
    match shape with
    | .map key value =>
      es.Pairwise (fun a b => a.1.text < b.1.text) ∧ Value.EntriesFit t key value es
    | _ => False
  | v =>
    match shape.kind? with
    | some kind => kind.Takes v
    | none => False

def Value.ItemsFit (t : TypeTable) (kind : Kind) : List Value → Prop
  | [] => True
  | v :: vs => v.Fits t (.single kind) ∧ Value.ItemsFit t kind vs

def Value.EntriesFit (t : TypeTable) (key value : Kind) : List (MapKey × Value) → Prop
  | [] => True
  | (k, v) :: rest =>
    (key.Takes (Wire.keyValue k) ∧ v.Fits t (.single value)) ∧ Value.EntriesFit t key value rest

end

mutual

/-- How many groups are nested in each other. -/
def UnknownValue.depth : UnknownValue → Nat
  | .group fields => UnknownValue.fieldsDepth fields + 1
  | _ => 0

def UnknownValue.fieldsDepth : List (Nat × UnknownValue) → Nat
  | [] => 0
  | (_, v) :: rest => max v.depth (UnknownValue.fieldsDepth rest)

end

mutual

/-- How many messages are nested in each other, entries of maps included. -/
def Message.depth : Message → Nat
  | ⟨known, unknown⟩ => max (Message.fieldsDepth known) (UnknownValue.fieldsDepth unknown)

def Message.fieldsDepth : List (Nat × Value) → Nat
  | [] => 0
  | (_, v) :: rest => max v.depth (Message.fieldsDepth rest)

def Value.depth : Value → Nat
  | .message _ m => m.depth + 1
  | .list vs => Value.itemsDepth vs
  | .map es => Value.entriesDepth es
  | _ => 0

def Value.itemsDepth : List Value → Nat
  | [] => 0
  | v :: vs => max v.depth (Value.itemsDepth vs)

def Value.entriesDepth : List (MapKey × Value) → Nat
  | [] => 0
  | (_, v) :: rest => max (v.depth + 1) (Value.entriesDepth rest)

end

namespace UnknownValue

theorem fieldsFit_iff {fields : List (Nat × UnknownValue)} :
    FieldsFit fields ↔ ∀ u ∈ fields, Wire.IsNumber u.1 ∧ u.2.Fits := by
  induction fields with
  | nil => simp [FieldsFit]
  | cons u rest ih => simp [FieldsFit, ih]

theorem fieldsDepth_le {fields : List (Nat × UnknownValue)} {d : Nat} :
    fieldsDepth fields ≤ d ↔ ∀ u ∈ fields, u.2.depth ≤ d := by
  induction fields with
  | nil => simp [fieldsDepth]
  | cons u rest ih => rw [fieldsDepth, Nat.max_le, ih, List.forall_mem_cons]

end UnknownValue

namespace Message

theorem numbers_append {α : Type} (xs ys : List (Nat × α)) :
    numbers (xs ++ ys) = numbers xs ++ numbers ys :=
  List.map_append

theorem fieldsFit_iff {t : TypeTable} {type : MessageType} {known : List (Nat × Value)} :
    FieldsFit t type known ↔
      ∀ e ∈ known, ∃ f, t.fieldNumbered? type e.1 = some f ∧ e.2.Fits t (t.shape f) := by
  induction known with
  | nil => simp [FieldsFit]
  | cons e rest ih =>
    simp only [FieldsFit, List.forall_mem_cons, ih]
    cases h : t.fieldNumbered? type e.1 <;> simp

end Message

namespace Value

variable {t : TypeTable} {shape : Shape} {kind key value : Kind}

theorem itemsFit_iff {vs : List Value} :
    ItemsFit t kind vs ↔ ∀ v ∈ vs, v.Fits t (.single kind) := by
  induction vs with
  | nil => simp [ItemsFit]
  | cons v vs ih => simp [ItemsFit, ih]

theorem entriesFit_iff {es : List (MapKey × Value)} :
    EntriesFit t key value es ↔
      ∀ e ∈ es, key.Takes (Wire.keyValue e.1) ∧ e.2.Fits t (.single value) := by
  induction es with
  | nil => simp [EntriesFit]
  | cons e es ih => simp [EntriesFit, ih]

/-- A single value under a shape that has room for one: a message of its type, or a value of a
built-in type or an enum. -/
theorem fits_single {v : Value} (h : v.Fits t (.single kind)) :
    (∃ name type m, kind = .message name ∧ v = .message name m ∧ t.message? name = some type ∧
      m.Fits t type) ∨ kind.Takes v := by
  cases v with
  | message name m =>
    obtain ⟨hk, hm⟩ := h
    split at hm
    · rename_i type ht
      exact .inl ⟨name, type, m, Option.some.inj hk, rfl, ht, hm⟩
    · cases hm
  | list | map => cases h
  | bool | int | enum | single | double | str | bytes => exact .inr h

/-- Under the shape of a list there is a list, or a lone value if null can be one. -/
theorem fits_list {v : Value} (h : v.Fits t (.list kind)) :
    (∃ vs, v = .list vs ∧ ItemsFit t kind vs) ∨
      kind.holdsNull = true ∧ v.Fits t (.single kind) := by
  cases v with
  | list vs => exact .inl ⟨vs, rfl, h⟩
  | map => simp [Fits] at h
  | bool | int | enum | single | double | str | bytes | message =>
    cases hn : kind.holdsNull with
    | false => simp [Fits, Shape.kind?, hn] at h
    | true => exact .inr ⟨rfl, by simpa [Fits, Shape.kind?, hn] using h⟩

theorem fits_map {v : Value} (h : v.Fits t (.map key value)) :
    ∃ es, v = .map es ∧ es.Pairwise (fun a b => a.1.text < b.1.text) ∧
      EntriesFit t key value es := by
  cases v with
  | map es => exact ⟨es, rfl, h⟩
  | list => simp [Fits] at h
  | bool | int | enum | single | double | str | bytes | message => simp [Fits, Shape.kind?] at h

end Value

end RpcConsole

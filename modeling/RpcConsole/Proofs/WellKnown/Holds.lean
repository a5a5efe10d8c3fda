import RpcConsole.Message.FromJson
import RpcConsole.Proofs.Schema.Sound

namespace RpcConsole

open Wire (messageHolds fieldsHold fieldHolds itemsHold entriesHold)
open WellKnown (types valueName structName listName)

namespace WellKnown

theorem types_regular : types.Regular := by
  decide +kernel

variable {name : String} {number : Nat} {shape : Shape} {f : Field}

/-- A type has a field of a shape in the definitions that the text forms go by. -/
def HasField (name : String) (number : Nat) (shape : Shape) : Prop :=
  ∃ type ∈ types.message? name, ∃ f ∈ types.fieldNumbered? type number, types.shape f = shape

instance (name : String) (number : Nat) (shape : Shape) : Decidable (HasField name number shape) :=
  inferInstanceAs (Decidable (∃ type ∈ types.message? name,
    ∃ f ∈ types.fieldNumbered? type number, types.shape f = shape))

/-- What the form of text of a type relies on: its name, or its fields in these definitions. -/
def HasForm (name : String) : WellKnown → Prop
  | .value => name = valueName
  | .struct => name = structName
  | .listValue => name = listName
  | .wrapper s => HasField name 1 (.single (.scalar s))
  | .timestamp | .duration =>
    HasField name 1 (.single (.scalar .int64)) ∧ HasField name 2 (.single (.scalar .int32))
  | .fieldMask => HasField name 1 (.list (.scalar .string))
  | .any => HasField name 1 (.single (.scalar .string)) ∧ HasField name 2 (.single (.scalar .bytes))
  | .empty => True

instance (name : String) : (w : WellKnown) → Decidable (HasForm name w)
  | .value | .struct | .listValue => inferInstanceAs (Decidable (name = _))
  | .wrapper _ | .fieldMask => inferInstanceAs (Decidable (HasField name 1 _))
  | .timestamp | .duration | .any =>
    inferInstanceAs (Decidable (HasField name 1 _ ∧ HasField name 2 _))
  | .empty => inferInstanceAs (Decidable True)

theorem hasForm {w : WellKnown} (h : ofName? name = some w) : HasForm name w := by
  have hall : ∀ n ∈ names, HasForm (StandardOptions.qualified n.1) n.2 := by decide +kernel
  obtain ⟨n, hn, rfl⟩ := Option.map_eq_some_iff.mp h
  have hname := List.find?_some hn
  simp only [beq_iff_eq] at hname
  exact hname ▸ hall n (List.mem_of_find?_eq_some hn)

theorem holds_cons (shape : Shape) {v : Value} {rest : List (Nat × Value)}
    (hf : HasField name number shape)
    (hv : ∀ f, types.shape f = shape → fieldHolds types f v = true)
    (hrest : messageHolds types name ⟨rest, []⟩ = true) :
    messageHolds types name ⟨(number, v) :: rest, []⟩ = true := by
  obtain ⟨type, ht, f, hf, hshape⟩ := hf
  simp only [messageHolds, Option.mem_def.mp ht] at hrest ⊢
  simp [fieldsHold, Option.mem_def.mp hf, hv f hshape, hrest]

theorem holds_nil (name : String) : messageHolds types name ⟨[], []⟩ = true := by
  unfold messageHolds
  split <;> rfl

theorem plain_holds {kind : Kind} {v : Value} (hf : types.shape f = .single kind)
    (hkind : ∀ name, kind ≠ .message name) (hv : kind.holds v = true) :
    fieldHolds types f v = true := by
  obtain ⟨rfl, -⟩ := TypeTable.shape_single hf
  cases hk : f.kind with
  | message name => exact absurd hk (hkind name)
  | scalar | enum =>
    rw [hk] at hv
    cases v <;> first | (rw [fieldHolds, hk] <;> first | exact hv | simp) | cases hv

theorem message_holds {m : Message} (hf : f.kind = .message name)
    (hm : messageHolds types name m = true) : fieldHolds types f (.message name m) = true := by
  simp [fieldHolds, hf, Kind.holds, hm]

theorem texts_hold (hf : types.shape f = .list (.scalar .string)) (texts : List String) :
    fieldHolds types f (.list (texts.map Value.str)) = true := by
  obtain ⟨hk, hr, hm⟩ := TypeTable.shape_list hf
  have hitems : itemsHold types f (texts.map Value.str) = true := by
    induction texts with
    | nil => rfl
    | cons s texts ih => simp [itemsHold, fieldHolds, hk, Kind.holds, ih]
  simp [fieldHolds, hr, hm, hitems]

end WellKnown

namespace FromJson

open WellKnown

/-- An entry of a struct can hold a value next to others that it can hold. -/
theorem entriesHold_insertEntry {k v : Field} {key : String} {w : Value}
    {es : List (MapKey × Value)} (hk : k.kind = .scalar .string) (hw : fieldHolds types v w = true)
    (hes : entriesHold types k v es = true) :
    entriesHold types k v (Value.insertEntry (.str key) w es) = true := by
  have hkey : k.kind.holds (Wire.keyValue (.str key)) = true := by
    rw [hk]
    rfl
  induction es with
  | nil => simp [Value.insertEntry, entriesHold, hkey, hw]
  | cons e es ih =>
    obtain ⟨l, x⟩ := e
    simp only [entriesHold, Bool.and_eq_true] at hes
    simp only [Value.insertEntry]
    split
    · simp [entriesHold, hkey, hw, hes]
    · split
      · simp [entriesHold, hkey, hw, hes]
      · simp [entriesHold, hes, ih hes.2]

mutual

/-- The definitions that the text forms go by can hold any JSON value. -/
theorem anyValue_holds : ∀ j : Json, messageHolds types valueName (anyValue j) = true
  | .null => by decide +kernel
  | .bool _ =>
    holds_cons (.single (.scalar .bool)) (by decide +kernel)
      (fun _ hf => plain_holds hf nofun rfl) (holds_nil _)
  | .int _ | .double _ | .single _ =>
    holds_cons (.single (.scalar .double)) (by decide +kernel)
      (fun _ hf => plain_holds hf nofun rfl) (holds_nil _)
  | .str _ =>
    holds_cons (.single (.scalar .string)) (by decide +kernel)
      (fun _ hf => plain_holds hf nofun rfl) (holds_nil _)
  | .arr vs =>
    holds_cons (.single (.message listName)) (by decide +kernel)
      (fun _ hf => message_holds (TypeTable.shape_single hf).1 (list_holds vs)) (holds_nil _)
  | .obj ms =>
    holds_cons (.single (.message structName)) (by decide +kernel)
      (fun _ hf => message_holds (TypeTable.shape_single hf).1 (struct_holds ms)) (holds_nil _)

theorem list_holds (vs : List Json) :
    messageHolds types listName ⟨[(1, .list (anyValues vs))], []⟩ = true :=
  holds_cons (.list (.message valueName)) (by decide +kernel) (fun f hf => by
    obtain ⟨hk, hr, hm⟩ := TypeTable.shape_list hf
    simp [fieldHolds, hr, hm, anyValues_hold hk vs]) (holds_nil _)

theorem struct_holds (ms : List (String × Json)) :
    messageHolds types structName ⟨[(1, .map (anyEntries ms))], []⟩ = true :=
  holds_cons (.map (.scalar .string) (.message valueName)) (by decide +kernel)
    (fun f hf => by
      obtain ⟨entry, k, v, hm, hk, hv, hkey, hvalue⟩ := TypeTable.shape_entry hf
      simp [fieldHolds, hm, hk, hv, anyEntries_hold hkey hvalue ms]) (holds_nil _)

theorem anyValues_hold {f : Field} (hf : f.kind = .message valueName) :
    ∀ vs : List Json, itemsHold types f (anyValues vs) = true
  | [] => rfl
  | v :: vs => by
    simp [anyValues, itemsHold, message_holds hf (anyValue_holds v), anyValues_hold hf vs]

theorem anyEntries_hold {k v : Field} (hk : k.kind = .scalar .string)
    (hv : v.kind = .message valueName) :
    ∀ ms : List (String × Json), entriesHold types k v (anyEntries ms) = true
  | [] => rfl
  | (key, j) :: ms =>
    entriesHold_insertEntry hk (message_holds hv (anyValue_holds j)) (anyEntries_hold hk hv ms)

end

end FromJson
end RpcConsole

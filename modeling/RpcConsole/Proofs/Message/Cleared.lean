import RpcConsole.Proofs.Message.Everywhere
import RpcConsole.Proofs.Message.Keeping

namespace RpcConsole

/-- What has to hold of a value that a message stores for nothing redundant to be left in it. -/
def TypeTable.isStable (t : TypeTable) (extension : Bool) (f : Field) (v : Value) : Bool :=
  !v.isLone f && (!extension || !t.isRedundant f v && v.isSettled t f)

theorem TypeTable.isRedundant_clearDefaults (t : TypeTable) (f : Field) (v : Value) :
    t.isRedundant f (v.clearDefaults t f) = t.isRedundant f v := by
  cases v with
  | bool | int | enum | single | double | str | bytes => simp [Value.clearDefaults]
  | message => simp [Value.clearDefaults, isRedundant, Value.isEmpty, Value.isSingle]
  | list items =>
    cases items <;>
      simp [Value.clearDefaults, Value.clearItems, isRedundant, Value.isEmpty, Value.isSingle]
  | map es =>
    simp only [Value.clearDefaults]
    split
    · cases es <;> simp [Value.clearEntries, isRedundant, Value.isEmpty, Value.isSingle]
    · rfl

mutual

/-- Nothing is left to clear in what was cleared. -/
theorem Message.clearDefaults_cleared (t : TypeTable) (name : String) : ∀ m : Message,
    (m.clearDefaults t name).clearDefaults t name = m.clearDefaults t name
  | ⟨known, unknown⟩ => by
    cases ht : t.message? name with
    | none => simp [Message.clearDefaults, ht]
    | some type => simp [Message.clearDefaults, ht, Message.clearFields_cleared t type known]

theorem Message.clearFields_cleared (t : TypeTable) (type : MessageType) :
    ∀ fields : List (Nat × Value), Message.clearFields t type (Message.clearFields t type fields) =
      Message.clearFields t type fields
  | [] => by simp [Message.clearFields]
  | (number, v) :: rest => by
    have ih := Message.clearFields_cleared t type rest
    cases ho : type.fieldNumbered? number with
    | none => simp [Message.clearFields, ho, ih]
    | some f =>
      cases hx : t.isRedundant f v with
      | true => simp [Message.clearFields, ho, hx, ih]
      | false =>
        have hr := t.isRedundant_clearDefaults f v
        rw [hx] at hr
        simp [Message.clearFields, ho, hx, hr, ih, Value.clearDefaults_cleared t f v]

theorem Value.clearDefaults_cleared (t : TypeTable) (f : Field) : ∀ v : Value,
    (v.clearDefaults t f).clearDefaults t f = v.clearDefaults t f
  | .bool _ | .int _ _ | .enum _ | .single _ | .double _ | .str _ | .bytes _ => by
    simp [Value.clearDefaults]
  | .message name m => by simp [Value.clearDefaults, Message.clearDefaults_cleared t name m]
  | .list items => by simp [Value.clearDefaults, Value.clearItems_cleared t f items]
  | .map entries => by
    cases hv : (t.mapEntry? f).bind (fun e => e.fieldNumbered? 2) with
    | none => simp [Value.clearDefaults, hv]
    | some v => simp [Value.clearDefaults, hv, Value.clearEntries_cleared t v entries]

theorem Value.clearItems_cleared (t : TypeTable) (f : Field) : ∀ items : List Value,
    Value.clearItems t f (Value.clearItems t f items) = Value.clearItems t f items
  | [] => by simp [Value.clearItems]
  | v :: vs => by
    simp [Value.clearItems, Value.clearDefaults_cleared t f v, Value.clearItems_cleared t f vs]

theorem Value.clearEntries_cleared (t : TypeTable) (f : Field) :
    ∀ entries : List (MapKey × Value),
      Value.clearEntries t f (Value.clearEntries t f entries) = Value.clearEntries t f entries
  | [] => by simp [Value.clearEntries]
  | (k, v) :: rest => by
    simp [Value.clearEntries, Value.clearDefaults_cleared t f v,
      Value.clearEntries_cleared t f rest]

end

mutual

/-- What is cleared is settled if it is stable. -/
theorem Message.settled_of_stable (t : TypeTable) (name : String) : ∀ m : Message,
    (m.clearDefaults t name).all t t.isStable name = true →
      (m.clearDefaults t name).isSettled t name = true
  | ⟨known, unknown⟩, h => by
    cases ht : t.message? name with
    | none => simp [Message.clearDefaults, Message.isSettled, ht]
    | some type =>
      simp only [Message.clearDefaults, Message.all, ht] at h
      simpa [Message.clearDefaults, Message.isSettled, ht] using
        Message.fieldsSettled_of_stable t type known h

theorem Message.fieldsSettled_of_stable (t : TypeTable) (type : MessageType) :
    ∀ fields : List (Nat × Value),
      Message.allFields t t.isStable type (Message.clearFields t type fields) = true →
        Message.fieldsSettled t type (Message.clearFields t type fields) = true
  | [], _ => by simp [Message.clearFields, Message.fieldsSettled]
  | (number, v) :: rest, h => by
    cases ho : type.fieldNumbered? number with
    | none =>
      simp only [Message.clearFields, ho, Message.allFields, Bool.and_eq_true] at h
      have ih := Message.fieldsSettled_of_stable t type rest h.2
      cases hf : t.fieldNumbered? type number with
      | none => simp [hf] at h
      | some f =>
        simp only [hf, TypeTable.isStable, Bool.and_eq_true] at h
        obtain ⟨⟨⟨hlone, hx⟩, -⟩, -⟩ := h
        simp only [Option.isNone_none, Bool.not_true, Bool.false_or, Bool.and_eq_true] at hx
        simp [Message.clearFields, ho, Message.fieldsSettled, hf, ih, hlone, hx]
    | some f =>
      have hf := TypeTable.fieldNumbered?_own (t := t) ho
      cases hx : t.isRedundant f v with
      | true =>
        simp only [Message.clearFields, ho, hx, ↓reduceIte] at h ⊢
        exact Message.fieldsSettled_of_stable t type rest h
      | false =>
        have hr := t.isRedundant_clearDefaults f v
        simp only [Message.clearFields, ho, hx, hf, Bool.false_eq_true, ↓reduceIte,
          Message.allFields, TypeTable.isStable, Bool.and_eq_true] at h ⊢
        have ih := Message.fieldsSettled_of_stable t type rest h.2
        have hv := Value.settled_of_stable t f v h.1.2
        simp [Message.fieldsSettled, hf, ih, hv, hr, hx, h.1.1.1]

theorem Value.settled_of_stable (t : TypeTable) (f : Field) : ∀ v : Value,
    (v.clearDefaults t f).all t t.isStable f = true → (v.clearDefaults t f).isSettled t f = true
  | .bool _, _ | .int _ _, _ | .enum _, _ | .single _, _ | .double _, _ | .str _, _
  | .bytes _, _ => by simp [Value.clearDefaults, Value.isSettled]
  | .message name m, h => by
    simp only [Value.clearDefaults, Value.all] at h
    simpa [Value.clearDefaults, Value.isSettled] using Message.settled_of_stable t name m h
  | .list items, h => by
    simp only [Value.clearDefaults, Value.all] at h
    simpa [Value.clearDefaults, Value.isSettled] using Value.itemsSettled_of_stable t f items h
  | .map entries, h => by
    cases hv : (t.mapEntry? f).bind (fun e => e.fieldNumbered? 2) with
    | none => simp [Value.clearDefaults, hv, Value.isSettled]
    | some v =>
      simp only [Value.clearDefaults, hv, Value.all] at h
      simpa [Value.clearDefaults, hv, Value.isSettled] using
        Value.entriesSettled_of_stable t v entries h

theorem Value.itemsSettled_of_stable (t : TypeTable) (f : Field) : ∀ items : List Value,
    Value.allItems t t.isStable f (Value.clearItems t f items) = true →
      Value.itemsSettled t f (Value.clearItems t f items) = true
  | [], _ => by simp [Value.clearItems, Value.itemsSettled]
  | v :: vs, h => by
    simp only [Value.clearItems, Value.allItems, Bool.and_eq_true] at h
    simp [Value.clearItems, Value.itemsSettled, Value.settled_of_stable t f v h.1,
      Value.itemsSettled_of_stable t f vs h.2]

theorem Value.entriesSettled_of_stable (t : TypeTable) (f : Field) :
    ∀ entries : List (MapKey × Value),
      Value.allEntries t t.isStable f (Value.clearEntries t f entries) = true →
        Value.entriesSettled t f (Value.clearEntries t f entries) = true
  | [], _ => by simp [Value.clearEntries, Value.entriesSettled]
  | (k, v) :: rest, h => by
    simp only [Value.clearEntries, Value.allEntries, Bool.and_eq_true] at h
    simp [Value.clearEntries, Value.entriesSettled, Value.settled_of_stable t f v h.1,
      Value.entriesSettled_of_stable t f rest h.2]

end

/-- The shapes under which the values of a field are cleared: the one of the field itself, and the
one of a single item. -/
def UnderField (t : TypeTable) (f : Field) (shape : Shape) : Prop :=
  shape = t.shape f ∨ shape = .single f.kind

section

variable {t : TypeTable} {f : Field} {shape : Shape}

theorem UnderField.kind (h : UnderField t f shape) {kind : Kind}
    (hk : shape = .single kind ∨ shape = .list kind) : f.kind = kind := by
  rcases h with rfl | rfl
  · unfold TypeTable.shape at hk
    repeat' split at hk
    all_goals rcases hk with hk | hk <;> cases hk <;> rfl
  · simpa using hk

/-- A message under a field is one of the type that the field names. -/
theorem UnderField.message (hu : UnderField t f shape) {name : String} {m : Message}
    (h : (Value.message name m).Fits t shape) :
    f.kind = .message name ∧ shape.kind? = some (.message name) ∧
      ∃ type, t.message? name = some type ∧ m.Fits t type := by
  obtain ⟨hkind, h⟩ := h
  refine ⟨hu.kind (Shape.kind?_cases hkind), hkind, ?_⟩
  cases ht : t.message? name with
  | none => simp [ht] at h
  | some type => exact ⟨type, rfl, by simpa [ht] using h⟩

/-- A list under a field has items of its kind. -/
theorem UnderField.list (hu : UnderField t f shape) {items : List Value}
    (h : (Value.list items).Fits t shape) :
    shape = .list f.kind ∧ Value.ItemsFit t f.kind items := by
  cases shape with
  | single | map | torn => cases h
  | list kind =>
    obtain rfl := hu.kind (.inr rfl)
    exact ⟨rfl, h⟩

/-- A map under a field has entries with the key and the value of the type it names. -/
theorem UnderField.entries (hu : UnderField t f shape) {entries : List (MapKey × Value)}
    (h : (Value.map entries).Fits t shape) :
    ∃ entry k w, t.mapEntry? f = some entry ∧ entry.fieldNumbered? 1 = some k ∧
      entry.fieldNumbered? 2 = some w ∧ shape = .map k.kind w.kind ∧
        Value.EntriesFit t k.kind w.kind entries := by
  cases shape with
  | single | list | torn => cases h
  | map key value =>
    rcases hu with hu | hu
    · unfold TypeTable.shape at hu
      split at hu
      · split at hu
        · split at hu
          · rename_i entry hm _ _ k w hk hw
            cases hu
            exact ⟨entry, k, w, hm, hk, hw, rfl, h.2⟩
          · cases hu
        · cases hu
      · cases hu
    · cases hu

/-- A map under a field has entries with the key and the value that the field declares. -/
theorem UnderField.map (hreg : t.Regular) (hu : UnderField t f shape)
    {entries : List (MapKey × Value)} (h : (Value.map entries).Fits t shape) :
    ∃ entry k w, entry ∈ t.messages ∧ t.mapEntry? f = some entry ∧ TypeTable.IsEntry entry k w ∧
      shape = .map k.kind w.kind ∧ Value.Sorted entries ∧
        Value.EntriesFit t k.kind w.kind entries := by
  cases shape with
  | single | list | torn => cases h
  | map key value =>
    rcases hu with hu | hu
    · rcases hreg.form f with ⟨-, -, hs⟩ | ⟨-, -, hs⟩ | @⟨entry, k, w, -, he, hm, hk, hs⟩
      · rw [hs] at hu
        cases hu
      · rw [hs] at hu
        cases hu
      · rw [hs] at hu
        cases hu
        exact ⟨entry, k, w, he, hm, hk, rfl, h.1, h.2⟩
    · cases hu

end

theorem Value.keys_clearEntries (t : TypeTable) (f : Field) (es : List (MapKey × Value)) :
    (Value.clearEntries t f es).map Prod.fst = es.map Prod.fst := by
  induction es with
  | nil => simp [Value.clearEntries]
  | cons e es ih => simp [Value.clearEntries, ih]

theorem Value.clearEntries_sorted (t : TypeTable) (f : Field) {es : List (MapKey × Value)}
    (h : Value.Sorted es) : Value.Sorted (Value.clearEntries t f es) :=
  Value.sorted_of_keys (Value.keys_clearEntries t f es) h

theorem Message.clearFields_numbers (t : TypeTable) (type : MessageType)
    (fields : List (Nat × Value)) :
    (Message.numbers (Message.clearFields t type fields)).Sublist (Message.numbers fields) := by
  induction fields with
  | nil => simp [Message.clearFields]
  | cons e rest ih =>
    simp only [Message.clearFields]
    split
    · exact ih.cons_cons _
    · split
      · exact ih.cons _
      · exact ih.cons_cons _

mutual

theorem Message.clearDefaults_fits {t : TypeTable} (hreg : t.Regular) {name : String}
    {type : MessageType} (ht : t.message? name = some type) :
    ∀ m : Message, m.Fits t type → (m.clearDefaults t name).Fits t type
  | ⟨known, unknown⟩, hm => by
    obtain ⟨harr, hfields⟩ := hm
    have hsub := Message.clearFields_numbers t type known
    simp only [Message.clearDefaults, ht]
    refine ⟨⟨harr.sorted.sublist hsub, ?_, harr.unknownSorted, harr.unknownFree,
      harr.unknownFit⟩, Message.clearFields_fit hreg type known hfields⟩
    intro f hf hmem g hg hgmem
    exact harr.exclusive f hf (hsub.subset hmem) g hg (hsub.subset hgmem)

theorem Message.clearFields_fit {t : TypeTable} (hreg : t.Regular) (type : MessageType) :
    ∀ fields : List (Nat × Value), Message.FieldsFit t type fields →
      Message.FieldsFit t type (Message.clearFields t type fields)
  | [], _ => by
    rw [Message.clearFields]
    trivial
  | (number, v) :: rest, h => by
    obtain ⟨hv, hrest⟩ := h
    have ih := Message.clearFields_fit hreg type rest hrest
    simp only [Message.clearFields]
    cases ho : type.fieldNumbered? number with
    | none => exact ⟨hv, ih⟩
    | some f =>
      have hf := TypeTable.fieldNumbered?_own (t := t) ho
      simp only [hf] at hv
      cases hx : t.isRedundant f v with
      | true => simpa [hx] using ih
      | false =>
        have hcleared := Value.clearDefaults_fits hreg f v (t.shape f) (.inl rfl) hv
        simp only [hx, Bool.false_eq_true, ↓reduceIte]
        exact ⟨by simpa only [hf] using hcleared, ih⟩

theorem Value.clearDefaults_fits {t : TypeTable} (hreg : t.Regular) (f : Field) :
    ∀ (v : Value) (shape : Shape), UnderField t f shape → v.Fits t shape →
      (v.clearDefaults t f).Fits t shape
  | .bool _, _, _, h | .int _ _, _, _, h | .enum _, _, _, h | .single _, _, _, h
  | .double _, _, _, h | .str _, _, _, h | .bytes _, _, _, h => by
    simpa [Value.clearDefaults] using h
  | .message name m, shape, hu, h => by
    obtain ⟨-, hkind, type, ht, hm⟩ := hu.message h
    have hc := Message.clearDefaults_fits hreg ht m hm
    simpa [Value.clearDefaults, Value.Fits, hkind, ht] using hc
  | .list items, shape, hu, h => by
    obtain ⟨rfl, hitems⟩ := hu.list h
    simp only [Value.clearDefaults]
    exact Value.clearItems_fit hreg f f.kind (.inr rfl) items hitems
  | .map entries, shape, hu, h => by
    obtain ⟨entry, k, w, -, hm, hk, rfl, hsorted, hfit⟩ := hu.map hreg h
    simp only [Value.clearDefaults, hm, Option.bind_some, hk.value]
    exact ⟨Value.clearEntries_sorted t w hsorted,
      Value.clearEntries_fit hreg w k.kind entries hfit⟩

theorem Value.clearItems_fit {t : TypeTable} (hreg : t.Regular) (f : Field) (kind : Kind)
    (hu : UnderField t f (.single kind)) : ∀ items : List Value, Value.ItemsFit t kind items →
      Value.ItemsFit t kind (Value.clearItems t f items)
  | [], _ => by
    rw [Value.clearItems]
    trivial
  | v :: vs, h => by
    rw [Value.clearItems]
    exact ⟨Value.clearDefaults_fits hreg f v _ hu h.1,
      Value.clearItems_fit hreg f kind hu vs h.2⟩

theorem Value.clearEntries_fit {t : TypeTable} (hreg : t.Regular) (f : Field) (key : Kind) :
    ∀ entries : List (MapKey × Value), Value.EntriesFit t key f.kind entries →
      Value.EntriesFit t key f.kind (Value.clearEntries t f entries)
  | [], _ => by
    rw [Value.clearEntries]
    trivial
  | (k, v) :: rest, h => by
    rw [Value.clearEntries]
    exact ⟨⟨h.1.1, Value.clearDefaults_fits hreg f v _ (.inr rfl) h.1.2⟩,
      Value.clearEntries_fit hreg f key rest h.2⟩

end

end RpcConsole

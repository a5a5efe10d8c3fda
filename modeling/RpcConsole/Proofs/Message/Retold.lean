import RpcConsole.Proofs.Message.Cleared

namespace RpcConsole

/-- The fields without presence for which nothing is stored. -/
def MessageType.unstored (type : MessageType) (known : List (Nat × Value)) : List Field :=
  type.fields.filter fun f => !f.hasPresence && (known.lookup f.number).isNone

/-- Stores the defaults of some fields. -/
def Message.withDefaults (t : TypeTable) (fields : List Field) (known : List (Nat × Value)) :
    List (Nat × Value) :=
  fields.foldr (fun f known => Message.insertField f.number (t.fieldDefault f) known) known

mutual

/-- A message as it is read from its own text; `below` says whether it stands below an
extension. -/
def Message.retold (t : TypeTable) (below : Bool) (name : String) : Message → Message
  | ⟨known, _⟩ =>
    match t.message? name with
    | none => .empty
    | some type =>
      let stored := Message.retoldFields t below type known
      ⟨if below then Message.withDefaults t (type.unstored known) stored else stored, []⟩

def Message.retoldFields (t : TypeTable) (below : Bool) (type : MessageType) :
    List (Nat × Value) → List (Nat × Value)
  | [] => []
  | (number, v) :: rest =>
    match t.fieldNumbered? type number with
    | none => Message.retoldFields t below type rest
    | some f =>
      let own := (type.fieldNumbered? number).isSome
      if t.isRedundant f v && !(below && own) then Message.retoldFields t below type rest
      else (number, v.retold t (below || !own) f) :: Message.retoldFields t below type rest

def Value.retold (t : TypeTable) (below : Bool) (f : Field) : Value → Value
  | .message name m => .message name (m.retold t below name)
  | .list items => .list (Value.retoldItems t below f items)
  | .map entries =>
    match (t.mapEntry? f).bind (fun e => e.fieldNumbered? 2) with
    | some v => .map (Value.retoldEntries t below v entries)
    | none => .map entries
  | v => v

def Value.retoldItems (t : TypeTable) (below : Bool) (f : Field) : List Value → List Value
  | [] => []
  | v :: vs => v.retold t below f :: Value.retoldItems t below f vs

def Value.retoldEntries (t : TypeTable) (below : Bool) (f : Field) :
    List (MapKey × Value) → List (MapKey × Value)
  | [] => []
  | (k, v) :: rest => (k, v.retold t below f) :: Value.retoldEntries t below f rest

end

namespace TypeTable

variable {t : TypeTable} {f : Field}

theorem isRedundant_default (hf : f.Sound t) (hp : f.hasPresence = false) :
    t.isRedundant f (t.fieldDefault f) = true := by
  cases hr : f.isRepeated with
  | true =>
    unfold isRedundant fieldDefault
    cases t.mapEntry? f <;> simp [hp, hr, Value.isEmpty]
  | false =>
    obtain ⟨hw, hk⟩ := hf.bare hp hr
    have hd : t.fieldDefault f = t.kindDefault f.kind := by simp [fieldDefault, hr, hw]
    have hzero : ∀ s : Scalar, s.zero.isSingle s.zero = true := by
      intro s
      cases s <;> decide
    have hs : (t.kindDefault f.kind).isSingle (t.kindDefault f.kind) = true := by
      cases hkind : f.kind with
      | message name => exact absurd hkind (hk name)
      | enum name => simp [kindDefault, Value.isSingle]
      | scalar s => exact hzero s
    simp [isRedundant, hp, hr, hd, hs]

theorem isRedundant_retold (t : TypeTable) (below : Bool) (f : Field) (v : Value) :
    t.isRedundant f (v.retold t below f) = t.isRedundant f v := by
  cases v with
  | bool | int | enum | single | double | str | bytes => simp [Value.retold]
  | message => simp [Value.retold, isRedundant, Value.isEmpty, Value.isSingle]
  | list items =>
    cases items <;>
      simp [Value.retold, Value.retoldItems, isRedundant, Value.isEmpty, Value.isSingle]
  | map es =>
    simp only [Value.retold]
    split
    · cases es <;> simp [Value.retoldEntries, isRedundant, Value.isEmpty, Value.isSingle]
    · rfl

end TypeTable

namespace MessageType

variable {type : MessageType} {known : List (Nat × Value)} {f : Field}

theorem mem_unstored : f ∈ type.unstored known ↔
    f ∈ type.fields ∧ f.hasPresence = false ∧ f.number ∉ Message.numbers known := by
  have hl : (known.lookup f.number).isNone = true ↔ f.number ∉ Message.numbers known := by
    rw [Option.isNone_iff_eq_none, List.lookup_eq_none_iff]
    simp only [Message.numbers, List.mem_map, not_exists, not_and, bne_iff_ne, ne_eq]
    exact ⟨fun h e he hn => h e he hn.symm, fun h e he hn => h e he hn.symm⟩
  rw [unstored, List.mem_filter, Bool.and_eq_true, hl]
  simp

theorem unstored_numbers (h : (type.fields.map Field.number).Nodup) :
    ((type.unstored known).map Field.number).Nodup :=
  h.sublist (List.filter_sublist.map _)

end MessageType

namespace Message

variable {t : TypeTable} {type : MessageType} {known : List (Nat × Value)} {fields : List Field}

theorem retoldFields_numbers (t : TypeTable) (below : Bool) (type : MessageType)
    (known : List (Nat × Value)) :
    (numbers (retoldFields t below type known)).Sublist (numbers known) := by
  induction known with
  | nil => simp [retoldFields]
  | cons e rest ih =>
    simp only [retoldFields]
    split
    · exact ih.cons _
    · split
      · exact ih.cons _
      · exact ih.cons_cons _

/-- What can be stored in addition to what is stored. -/
structure Storable (t : TypeTable) (type : MessageType) (known : List (Nat × Value))
    (fields : List Field) : Prop where
  own : ∀ f ∈ fields, type.fieldNumbered? f.number = some f
  redundant : ∀ f ∈ fields, t.isRedundant f (t.fieldDefault f) = true
  free : ∀ f ∈ fields, f.number ∉ numbers known
  distinct : (fields.map Field.number).Nodup

theorem Storable.tail {f : Field} (h : Storable t type known (f :: fields)) :
    Storable t type known fields :=
  ⟨fun g hg => h.own g (by simp [hg]), fun g hg => h.redundant g (by simp [hg]),
    fun g hg => h.free g (by simp [hg]), (List.nodup_cons.mp h.distinct).2⟩

theorem numbers_withDefaults {n : Nat} : n ∈ numbers (withDefaults t fields known) ↔
    n ∈ fields.map Field.number ∨ n ∈ numbers known := by
  induction fields with
  | nil => simp [withDefaults]
  | cons f fields ih =>
    rw [withDefaults, List.foldr_cons, numbers_insertField, ← withDefaults, ih, List.map_cons,
      List.mem_cons, or_assoc]

/-- The default that comes first has a number that is not stored yet. -/
theorem Storable.head {f : Field} (h : Storable t type known (f :: fields)) :
    f.number ∉ numbers (withDefaults t fields known) := by
  intro hn
  rcases numbers_withDefaults.mp hn with hn | hn
  · exact (List.nodup_cons.mp h.distinct).1 hn
  · exact h.free f (by simp) hn

/-- A default that is stored is cleared again. -/
theorem clearFields_insertField {n : Nat} {f : Field} {v : Value}
    (ho : type.fieldNumbered? n = some f) (hv : t.isRedundant f v = true)
    (hn : n ∉ numbers known) :
    clearFields t type (insertField n v known) = clearFields t type known := by
  induction known with
  | nil => simp [insertField, clearFields, ho, hv]
  | cons e rest ih =>
    obtain ⟨hne, hrest⟩ : n ≠ e.1 ∧ n ∉ numbers rest := by simpa [numbers] using hn
    unfold insertField
    split
    · simp [clearFields, ho, hv]
    · rw [if_neg (by simpa using hne)]
      simp only [clearFields, ih hrest]

theorem Storable.cleared (h : Storable t type known fields) :
    clearFields t type (withDefaults t fields known) = clearFields t type known := by
  induction fields with
  | nil => rfl
  | cons f fields ih =>
    rw [← ih h.tail]
    exact clearFields_insertField (h.own f (by simp)) (h.redundant f (by simp)) h.head

theorem unstored_storable (hs : t.Sound) (ht : type ∈ t.messages) (below : Bool)
    (known : List (Nat × Value)) :
    Storable t type (retoldFields t below type known) (type.unstored known) where
  own f hf := find?_of_nodup Field.number (hs.numbers type ht) (MessageType.mem_unstored.mp hf).1
  redundant f hf := by
    obtain ⟨hm, hp, -⟩ := MessageType.mem_unstored.mp hf
    exact TypeTable.isRedundant_default (hs.field type ht f hm) hp
  free f hf hn :=
    (MessageType.mem_unstored.mp hf).2.2 ((retoldFields_numbers t below type known).subset hn)
  distinct := MessageType.unstored_numbers (hs.numbers type ht)

end Message

namespace Value

variable {t : TypeTable} {below : Bool} {f : Field} {es : List (MapKey × Value)}

theorem retoldEntries_keys (t : TypeTable) (below : Bool) (f : Field)
    (es : List (MapKey × Value)) :
    (retoldEntries t below f es).map Prod.fst = es.map Prod.fst := by
  induction es with
  | nil => simp [retoldEntries]
  | cons e es ih => simp [retoldEntries, ih]

theorem retoldEntries_sorted (t : TypeTable) (below : Bool) (f : Field) (h : Sorted es) :
    Sorted (retoldEntries t below f es) :=
  sorted_of_keys (retoldEntries_keys t below f es) h

theorem mem_retoldEntries {e : MapKey × Value} (h : e ∈ retoldEntries t below f es) :
    ∃ d ∈ es, d.1 = e.1 := by
  have hk : e.1 ∈ (retoldEntries t below f es).map Prod.fst := List.mem_map_of_mem h
  rw [retoldEntries_keys] at hk
  exact List.mem_map.mp hk

end Value

section

variable {t : TypeTable}

mutual

/-- Clearing defaults takes away what the text added, except below extensions. -/
theorem Message.clearDefaults_retold (hs : t.Sound) (name : String) : ∀ m : Message,
    (m.retold t true name).clearDefaults t name = m.retold t false name
  | ⟨known, unknown⟩ => by
    cases ht : t.message? name with
    | none => simp [Message.retold, Message.clearDefaults, ht, Message.empty]
    | some type =>
      have hm := TypeTable.message?_mem ht
      have hc := (Message.unstored_storable hs hm true known).cleared
      have hf := Message.clearFields_retold hs type known
      simp [Message.retold, Message.clearDefaults, ht, hc, hf]

theorem Message.clearFields_retold (hs : t.Sound) (type : MessageType) :
    ∀ fields : List (Nat × Value),
      Message.clearFields t type (Message.retoldFields t true type fields) =
        Message.retoldFields t false type fields
  | [] => by simp [Message.retoldFields, Message.clearFields]
  | (number, v) :: rest => by
    have ih := Message.clearFields_retold hs type rest
    cases ho : type.fieldNumbered? number with
    | none =>
      cases hf : t.fieldNumbered? type number with
      | none => simp [Message.retoldFields, hf, ih]
      | some f =>
        cases hx : t.isRedundant f v with
        | true => simp [Message.retoldFields, hf, ho, hx, ih]
        | false => simp [Message.retoldFields, Message.clearFields, hf, ho, hx, ih]
    | some f =>
      have hf := TypeTable.fieldNumbered?_own (t := t) ho
      have hr := t.isRedundant_retold true f v
      cases hx : t.isRedundant f v with
      | true =>
        rw [hx] at hr
        simp [Message.retoldFields, Message.clearFields, hf, ho, hx, hr, ih]
      | false =>
        rw [hx] at hr
        simp [Message.retoldFields, Message.clearFields, hf, ho, hx, hr, ih,
          Value.clearDefaults_retold hs f v]

theorem Value.clearDefaults_retold (hs : t.Sound) (f : Field) : ∀ v : Value,
    (v.retold t true f).clearDefaults t f = v.retold t false f
  | .bool _ | .int _ _ | .enum _ | .single _ | .double _ | .str _ | .bytes _ => by
    simp [Value.retold, Value.clearDefaults]
  | .message name m => by
    simp [Value.retold, Value.clearDefaults, Message.clearDefaults_retold hs name m]
  | .list items => by
    simp [Value.retold, Value.clearDefaults, Value.clearItems_retold hs f items]
  | .map entries => by
    cases hv : (t.mapEntry? f).bind (fun e => e.fieldNumbered? 2) with
    | none => simp [Value.retold, Value.clearDefaults, hv]
    | some v => simp [Value.retold, Value.clearDefaults, hv, Value.clearEntries_retold hs v entries]

theorem Value.clearItems_retold (hs : t.Sound) (f : Field) : ∀ items : List Value,
    Value.clearItems t f (Value.retoldItems t true f items) = Value.retoldItems t false f items
  | [] => by simp [Value.retoldItems, Value.clearItems]
  | v :: vs => by
    simp [Value.retoldItems, Value.clearItems, Value.clearDefaults_retold hs f v,
      Value.clearItems_retold hs f vs]

theorem Value.clearEntries_retold (hs : t.Sound) (f : Field) :
    ∀ entries : List (MapKey × Value),
      Value.clearEntries t f (Value.retoldEntries t true f entries) =
        Value.retoldEntries t false f entries
  | [] => by simp [Value.retoldEntries, Value.clearEntries]
  | (k, v) :: rest => by
    simp [Value.retoldEntries, Value.clearEntries, Value.clearDefaults_retold hs f v,
      Value.clearEntries_retold hs f rest]

end

end

end RpcConsole

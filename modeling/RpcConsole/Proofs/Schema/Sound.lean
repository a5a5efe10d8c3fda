import Mathlib.Data.List.Nodup
import RpcConsole.Proofs.Message.Fits

namespace RpcConsole

structure Field.Sound (t : TypeTable) (f : Field) : Prop where
  number : Wire.IsNumber f.number
  resolves : ∀ name, f.kind = .message name → (t.message? name).isSome
  presence : f.isRepeated = true → f.hasPresence = false
  packed : f.isPacked = true → f.kind.isPackable = true
  written : ∀ v, f.written = some v → f.kind.Takes v
  oneof : f.oneof.isSome = true → f.hasPresence = true
  bare : f.hasPresence = false → f.isRepeated = false →
    f.written = none ∧ ∀ name, f.kind ≠ .message name

/-- The kinds of the keys of a map. -/
def Kind.IsKey : Kind → Prop
  | .scalar s => s ≠ .double ∧ s ≠ .float ∧ s ≠ .bytes
  | _ => False

instance : DecidablePred Kind.IsKey
  | .scalar s => inferInstanceAs (Decidable (s ≠ .double ∧ s ≠ .float ∧ s ≠ .bytes))
  | .message _ | .enum _ => inferInstanceAs (Decidable False)

/-- A type with a key and a value, as a map field declares it for its entries. -/
def MessageType.IsEntry (type : MessageType) : Prop :=
  ∃ k ∈ type.fieldNumbered? 1, ∃ v ∈ type.fieldNumbered? 2,
    k.isRepeated = false ∧ v.isRepeated = false ∧ k.kind.IsKey

instance : DecidablePred MessageType.IsEntry := fun type =>
  inferInstanceAs (Decidable (∃ k ∈ type.fieldNumbered? 1, ∃ v ∈ type.fieldNumbered? 2,
    k.isRepeated = false ∧ v.isRepeated = false ∧ k.kind.IsKey))

/-- An extension is in no oneof, and it can be seen that it is set unless it is repeated. -/
structure Extension.Sound (t : TypeTable) (x : Extension) : Prop where
  field : x.field.Sound t
  alone : x.field.oneof = none
  presence : x.field.isRepeated = false → x.field.hasPresence = true

namespace TypeTable

/-- What linking promises. -/
structure Sound (t : TypeTable) : Prop where
  field : ∀ type ∈ t.messages, ∀ f ∈ type.fields, f.Sound t
  numbers : ∀ type ∈ t.messages, (type.fields.map Field.number).Nodup
  extension : ∀ x ∈ t.extensions, x.Sound t
  extensionFree : ∀ x ∈ t.extensions, ∀ type ∈ t.messages, x.extendee = type.name →
    type.fieldNumbered? x.field.number = none
  enums : ∀ e ∈ t.enums, ∀ v ∈ e.values, -2147483648 ≤ v.2 ∧ v.2 ≤ 2147483647

/-- What linking promises about names. -/
structure Named (t : TypeTable) : Prop where
  jsonNames : ∀ type ∈ t.messages, (type.fields.map Field.jsonName).Nodup
  values : ∀ e ∈ t.enums, (e.values.map Prod.fst).Nodup
  extensions : (t.extensions.map fun x => x.field.fullName).Nodup

/-- The key and the value of the entries of a map, as a map field declares them. -/
structure IsEntry (type : MessageType) (k v : Field) : Prop where
  key : type.fieldNumbered? 1 = some k
  value : type.fieldNumbered? 2 = some v
  keySingle : k.isRepeated = false
  valueSingle : v.isRepeated = false
  keyKind : k.kind.IsKey

/-- What linking does not check. -/
structure Regular (t : TypeTable) : Prop where
  extensions : (t.extensions.map fun x => (x.extendee, x.field.number)).Nodup
  entries : ∀ type ∈ t.messages, type.isMapEntry = true →
    type.IsEntry ∧ WellKnown.ofName? type.name = none

instance : DecidablePred Regular := fun t =>
  decidable_of_iff ((t.extensions.map fun x => (x.extendee, x.field.number)).Nodup ∧
      ∀ type ∈ t.messages, type.isMapEntry = true →
        type.IsEntry ∧ WellKnown.ofName? type.name = none)
    ⟨fun h => ⟨h.1, h.2⟩, fun h => ⟨h.extensions, h.entries⟩⟩

theorem Regular.entry {t : TypeTable} (h : t.Regular) {type : MessageType}
    (ht : type ∈ t.messages) (he : type.isMapEntry = true) : ∃ k v, IsEntry type k v := by
  obtain ⟨⟨k, hk, v, hv, hkr, hvr, hkey⟩, -⟩ := h.entries type ht he
  exact ⟨k, v, hk, hv, hkr, hvr, hkey⟩

theorem Regular.extension_eq {t : TypeTable} (h : t.Regular) {x y : Extension}
    (hx : x ∈ t.extensions) (hy : y ∈ t.extensions) (he : x.extendee = y.extendee)
    (hn : x.field.number = y.field.number) : x = y :=
  List.inj_on_of_nodup_map h.extensions hx hy (by rw [he, hn])

variable {t : TypeTable} {type : MessageType} {f : Field} {number : Nat}

theorem message?_mem {name : String} (h : t.message? name = some type) : type ∈ t.messages :=
  List.mem_of_find?_eq_some h

theorem message?_name {name : String} (h : t.message? name = some type) : type.name = name := by
  simpa using List.find?_some h

/-- What a number of a message means is a field of its type or an extension of it. -/
theorem fieldNumbered?_cases (h : t.fieldNumbered? type number = some f) :
    f.number = number ∧ (type.fieldNumbered? number = some f ∨
      ∃ x ∈ t.extensions, x.extendee = type.name ∧ x.field = f) := by
  rcases Option.or_eq_some_iff.mp h with ho | ⟨-, hx⟩
  · exact ⟨by simpa using List.find?_some ho, .inl ho⟩
  · obtain ⟨x, hfind, rfl⟩ := Option.map_eq_some_iff.mp hx
    have hm := List.mem_of_find?_eq_some hfind
    have hp := List.find?_some hfind
    simp only [Bool.and_eq_true, beq_iff_eq] at hp
    exact ⟨hp.2, .inr ⟨x, hm, hp.1, rfl⟩⟩

theorem fieldNumbered?_number (h : t.fieldNumbered? type number = some f) : f.number = number :=
  (fieldNumbered?_cases h).1

theorem Sound.numbered (hs : t.Sound) (ht : type ∈ t.messages)
    (h : t.fieldNumbered? type number = some f) : f.Sound t := by
  obtain ⟨-, ho | ⟨x, hx, -, rfl⟩⟩ := fieldNumbered?_cases h
  · exact hs.field type ht f (List.mem_of_find?_eq_some ho)
  · exact (hs.extension x hx).field

/-- The entries of a map are messages of a type that is marked as such. -/
theorem mapEntry?_eq_some {entry : MessageType} (h : t.mapEntry? f = some entry) :
    f.kind = .message entry.name ∧ t.message? entry.name = some entry ∧
      entry.isMapEntry = true := by
  unfold mapEntry? at h
  split at h
  · rename_i hk
    obtain ⟨hf, he⟩ := Option.filter_eq_some_iff.mp h
    have hn := message?_name hf
    exact ⟨hn ▸ hk, hn ▸ hf, he⟩
  · cases h

theorem shape_single {kind : Kind} (h : t.shape f = .single kind) :
    f.kind = kind ∧ f.isRepeated = false := by
  unfold shape at h
  split at h
  · repeat' split at h
    all_goals cases h
  · rename_i hr
    cases h
    exact ⟨rfl, by simpa using hr⟩

theorem shape_list {kind : Kind} (h : t.shape f = .list kind) :
    f.kind = kind ∧ f.isRepeated = true ∧ t.mapEntry? f = none := by
  unfold shape at h
  split at h
  · rename_i hr
    split at h
    · split at h <;> cases h
    · rename_i hm
      cases h
      exact ⟨rfl, hr, hm⟩
  · cases h

theorem shape_entry {key value : Kind} (h : t.shape f = .map key value) :
    ∃ entry k v, t.mapEntry? f = some entry ∧ entry.fieldNumbered? 1 = some k ∧
      entry.fieldNumbered? 2 = some v ∧ k.kind = key ∧ v.kind = value := by
  unfold shape at h
  split at h
  · split at h
    · rename_i entry hm
      split at h
      · rename_i k v hk hv
        cases h
        exact ⟨entry, k, v, hm, hk, hv, rfl, rfl⟩
      · cases h
    · cases h
  · cases h

/-- A map has a field for the values of its entries. -/
theorem shape_map {key value : Kind} (h : t.shape f = .map key value) :
    ∃ v, (t.mapEntry? f).bind (fun e => e.fieldNumbered? 2) = some v ∧ v.kind = value := by
  obtain ⟨entry, k, v, hm, -, hv, -, hkind⟩ := shape_entry h
  exact ⟨v, by simp [hm, hv], hkind⟩

/-- The ways of holding values under a field. -/
inductive Form (t : TypeTable) (f : Field) : Prop where
  | single (hr : f.isRepeated = false) (hm : t.mapEntry? f = none)
      (hs : t.shape f = .single f.kind)
  | list (hr : f.isRepeated = true) (hm : t.mapEntry? f = none) (hs : t.shape f = .list f.kind)
  | map {entry : MessageType} {k v : Field} (hr : f.isRepeated = true)
      (he : entry ∈ t.messages) (hm : t.mapEntry? f = some entry) (hk : IsEntry entry k v)
      (hs : t.shape f = .map k.kind v.kind)

theorem Regular.form (h : t.Regular) (f : Field) : t.Form f := by
  cases hr : f.isRepeated with
  | false =>
    have hm : t.mapEntry? f = none := by
      unfold mapEntry?
      split
      · rename_i hl _
        simp [Field.isRepeated, hl] at hr
      · rfl
    exact .single hr hm (by simp [shape, hr])
  | true =>
    cases hm : t.mapEntry? f with
    | none => exact .list hr hm (by simp [shape, hr, hm])
    | some entry =>
      obtain ⟨-, hf, he⟩ := mapEntry?_eq_some hm
      obtain ⟨k, v, hk⟩ := h.entry (message?_mem hf) he
      exact .map hr (message?_mem hf) hm hk (by simp [shape, hr, hm, hk.key, hk.value])

/-- What a map field holds has a key and a value. -/
def HasEntries (t : TypeTable) (f : Field) : Prop :=
  ∀ entry ∈ t.mapEntry? f,
    (entry.fieldNumbered? 1).isSome = true ∧ (entry.fieldNumbered? 2).isSome = true

instance (t : TypeTable) (f : Field) : Decidable (t.HasEntries f) :=
  inferInstanceAs (Decidable (∀ entry ∈ t.mapEntry? f,
    (entry.fieldNumbered? 1).isSome = true ∧ (entry.fieldNumbered? 2).isSome = true))

theorem Regular.hasEntries (h : t.Regular) (f : Field) : t.HasEntries f := by
  intro entry hm
  obtain ⟨-, hf, he⟩ := mapEntry?_eq_some hm
  obtain ⟨k, v, hk⟩ := h.entry (message?_mem hf) he
  simp [hk.key, hk.value]

/-- A field that holds entries if it is a map has one of three shapes. -/
theorem HasEntries.shapes (h : t.HasEntries f) :
    (f.isRepeated = false ∧ t.shape f = .single f.kind) ∨
      (f.isRepeated = true ∧ t.mapEntry? f = none ∧ t.shape f = .list f.kind) ∨
      (f.isRepeated = true ∧ (t.mapEntry? f).isSome = true ∧
        ∃ key value, t.shape f = .map key value) := by
  cases hr : f.isRepeated with
  | false => exact .inl ⟨rfl, by simp [shape, hr]⟩
  | true =>
    cases hm : t.mapEntry? f with
    | none => exact .inr (.inl ⟨rfl, rfl, by simp [shape, hr, hm]⟩)
    | some entry =>
      obtain ⟨hk, hv⟩ := h entry hm
      obtain ⟨k, hk⟩ := Option.isSome_iff_exists.mp hk
      obtain ⟨v, hv⟩ := Option.isSome_iff_exists.mp hv
      exact .inr (.inr ⟨rfl, rfl, k.kind, v.kind, by simp [shape, hr, hm, hk, hv]⟩)

theorem HasEntries.not_torn (h : t.HasEntries f) (entry : Kind) (value : Option Kind) :
    t.shape f ≠ .torn entry value := by
  rcases h.shapes with ⟨-, hs⟩ | ⟨-, -, hs⟩ | ⟨-, -, _, _, hs⟩ <;> simp [hs]

theorem HasEntries.lacksValue (h : t.HasEntries f) : (t.shape f).lacksValue = false := by
  unfold Shape.lacksValue
  split
  · rename_i entry hs
    exact absurd hs (h.not_torn entry none)
  · rfl

theorem hasTorn_eq_false {type : MessageType} (h : ∀ f ∈ type.fields, t.HasEntries f) :
    t.hasTorn type = false :=
  List.any_eq_false.mpr fun f hf => by simp [(h f hf).lacksValue]

end TypeTable
end RpcConsole

import Mathlib.Data.List.Perm.Basic
import RpcConsole.Proofs.Message.Storing
import RpcConsole.Proofs.Message.Stripped
import RpcConsole.Proofs.Schema.Sound
import RpcConsole.Proofs.Wire.Values

namespace RpcConsole.Wire

variable {t : TypeTable} {type : MessageType} {depth : Nat}

/-- The bytes of an unknown field are a key, and behind it what is read as the field. -/
def UnknownReads (depth number : Nat) (v : UnknownValue) : Prop :=
  ∃ wt body, unknownField number v = key number wt ++ body ∧ wt ≠ .endGroup ∧
    ∀ fuel rest, 4 * body.length + 4 ≤ fuel →
      readUnknown fuel depth number wt (body ++ rest) = .ok (v, rest)

mutual

theorem unknownReads (v : UnknownValue) (depth number : Nat) (hn : IsNumber number) (hv : v.Fits)
    (hd : v.depth ≤ depth) (hl : (unknownField number v).length < wordLimit) :
    UnknownReads depth number v := by
  cases v with
  | varint n =>
    refine ⟨.varint, varint n, rfl, by simp, ?_⟩
    intro fuel rest hf
    obtain ⟨fuel, rfl⟩ : ∃ k, fuel = k + 1 := ⟨fuel - 1, by omega⟩
    rw [readUnknown, Reading.bind_of_ok (x := readVarint) (readVarint_varint hv rest)]
    rfl
  | fixed64 n =>
    refine ⟨.fixed64, fixed 8 n, rfl, by simp, ?_⟩
    intro fuel rest hf
    obtain ⟨fuel, rfl⟩ : ∃ k, fuel = k + 1 := ⟨fuel - 1, by omega⟩
    rw [readUnknown, Reading.bind_of_ok (x := readFixed 8) (readFixed_fixed 8 hv rest)]
    rfl
  | fixed32 n =>
    refine ⟨.fixed32, fixed 4 n, rfl, by simp, ?_⟩
    intro fuel rest hf
    obtain ⟨fuel, rfl⟩ : ∃ k, fuel = k + 1 := ⟨fuel - 1, by omega⟩
    rw [readUnknown, Reading.bind_of_ok (x := readFixed 4) (readFixed_fixed 4 hv rest)]
    rfl
  | bytes bs =>
    refine ⟨.counted, counted bs, rfl, by simp, ?_⟩
    intro fuel rest hf
    have hb : bs.length < wordLimit := by
      simp only [unknownField, counted, List.length_append] at hl
      omega
    obtain ⟨fuel, rfl⟩ : ∃ k, fuel = k + 1 := ⟨fuel - 1, by omega⟩
    rw [readUnknown, Reading.bind_of_ok (x := readBytes) (readBytes_counted hb rest)]
    rfl
  | group fields =>
    refine ⟨.startGroup, unknownFields fields ++ key number .endGroup, by simp [unknownField],
      by simp, ?_⟩
    intro fuel rest hf
    have hpos := key_length_pos number .endGroup
    simp only [List.length_append] at hf
    obtain ⟨depth, rfl⟩ : ∃ k, depth = k + 1 := ⟨depth - 1, by
      simp only [UnknownValue.depth] at hd
      omega⟩
    obtain ⟨fuel, rfl⟩ : ∃ k, fuel = k + 1 := ⟨fuel - 1, by omega⟩
    have hlen : (unknownFields fields).length < wordLimit := by
      simp only [unknownField, List.length_append] at hl
      omega
    have hg := readUnknownGroup_fields fields depth number hn hv
      (Nat.le_of_succ_le_succ hd) hlen fuel rest (by omega)
    rw [readUnknown, Reading.bind_of_ok (x := deeper (depth + 1)) (a := depth) rfl,
      List.append_assoc, Reading.bind_of_ok hg]
    rfl

theorem readUnknownGroup_fields (fields : List (Nat × UnknownValue)) (depth number : Nat)
    (hn : IsNumber number) (hv : UnknownValue.FieldsFit fields)
    (hd : UnknownValue.fieldsDepth fields ≤ depth)
    (hl : (unknownFields fields).length < wordLimit) :
    ∀ fuel rest, 4 * (unknownFields fields).length + 4 ≤ fuel →
      readUnknownGroup fuel depth number
        (unknownFields fields ++ (key number .endGroup ++ rest)) = .ok (fields, rest) := by
  intro fuel rest hf
  obtain ⟨fuel, rfl⟩ : ∃ k, fuel = k + 1 := ⟨fuel - 1, by omega⟩
  cases fields with
  | nil =>
    rw [readUnknownGroup, unknownFields, List.nil_append,
      Reading.bind_of_ok (x := readKey) (readKey_key hn .endGroup rest)]
    simp
  | cons u fields =>
    obtain ⟨inner, v⟩ := u
    obtain ⟨⟨hin, hvf⟩, hrest⟩ := hv
    simp only [unknownFields, List.length_append] at hl hf ⊢
    simp only [UnknownValue.fieldsDepth, Nat.max_le] at hd
    obtain ⟨wt, body, he, hwt, hr⟩ := unknownReads v depth inner hin hvf hd.1 (by omega)
    have hpos := key_length_pos inner wt
    rw [he, List.length_append] at hf
    have hw : (wt == .endGroup) = false := by simp [hwt]
    rw [readUnknownGroup, he]
    simp only [List.append_assoc]
    rw [Reading.bind_of_ok (x := readKey) (readKey_key hin wt _)]
    simp only [hw, Bool.false_eq_true, ↓reduceIte]
    rw [Reading.bind_of_ok (hr fuel _ (by omega)), Reading.bind_of_ok
      (readUnknownGroup_fields fields depth number hn hrest hd.2 (by omega) fuel rest (by omega))]
    rfl

end

theorem occurs_unknown {number : Nat} {v : UnknownValue} {m : Message} (hn : IsNumber number)
    (hf : t.fieldNumbered? type number = none) (hv : UnknownReads depth number v) :
    Occurs t depth type (unknownField number v) m (m.addUnknown number v) := by
  obtain ⟨wt, body, he, hwt, hr⟩ := hv
  rw [he]
  refine .one hn hwt ?_
  intro fuel rest hfuel
  obtain ⟨fuel, rfl⟩ : ∃ k, fuel = k + 1 := ⟨fuel - 1, by omega⟩
  unfold readField
  simp only [hf]
  rw [Reading.bind_of_ok (hr fuel rest (by omega))]
  rfl

/-- Messages of some depth are made again by their bytes, less what is redundant. -/
def MessagesOccur (t : TypeTable) (depth : Nat) : Prop :=
  ∀ name type m, t.message? name = some type → m.Fits t type → m.depth ≤ depth →
    (message t name m).length < wordLimit →
    Occurs t depth type (message t name m) .empty (m.stripped t name)

/-- A single value is written as a key, and behind it what is read as the value. -/
def SingleReads (t : TypeTable) (depth : Nat) (f : Field) (v : Value) : Prop :=
  ∃ wt body, field t f v = key f.number wt ++ body ∧ wt ≠ .endGroup ∧
    (wt == .counted && f.kind.isPackable) = false ∧ ValueReads t depth f wt body (v.stripped t f)

theorem field_of_takes {f : Field} {v : Value} (h : f.kind.Takes v) :
    field t f v = plainField t f v ∧ v.stripped t f = v := by
  cases v with
  | bool | int | enum | single | double | str | bytes => exact ⟨rfl, rfl⟩
  | message | list | map => cases hk : f.kind <;> simp [hk, Kind.Takes, Scalar.Takes] at h

theorem wireType_of_takes {kind : Kind} {v : Value} (h : kind.Takes v) :
    kind.wireType ≠ .endGroup ∧ (kind.wireType == .counted && kind.isPackable) = false := by
  cases kind with
  | message name => cases h
  | enum name => simp [Kind.wireType]
  | scalar s =>
    cases s <;> simp [Kind.wireType, Scalar.wireType, Kind.isPackable, Scalar.isPackable]

theorem singleReads (ih : ∀ d < depth, MessagesOccur t d) {f : Field} {v : Value}
    (hn : IsNumber f.number) (hv : v.Fits t (.single f.kind)) (hd : v.depth ≤ depth)
    (hl : (field t f v).length < wordLimit) (hr : t.isRedundant f v = false) :
    SingleReads t depth f v := by
  rcases Value.fits_single hv with ⟨name, type, m, hk, rfl, ht, hm⟩ | htakes
  · obtain ⟨d, rfl⟩ : ∃ d, depth = d + 1 := ⟨depth - 1, by
      simp only [Value.depth] at hd
      omega⟩
    rw [field] at hl
    have hlen : (message t name m).length < wordLimit := by
      refine Nat.lt_of_le_of_lt ?_ hl
      unfold framed counted
      split <;> simp only [List.length_append] <;> omega
    have hb := ih d (Nat.lt_succ_self d) name type m ht hm (Nat.le_of_succ_le_succ hd) hlen
    obtain ⟨wt, body, he, hwt, hp, hreads⟩ := valueReads_message hk ht hn hb hl
    exact ⟨wt, body, he, hwt, hp, hreads⟩
  · obtain ⟨hfield, hstrip⟩ := field_of_takes (t := t) htakes
    obtain ⟨hwt, hp⟩ := wireType_of_takes htakes
    have he : field t f v = key f.number f.kind.wireType ++ plain f.kind v := by
      rw [hfield, plainField, hr]
      rfl
    have hlen : (plain f.kind v).length < wordLimit := by
      rw [he, List.length_append] at hl
      omega
    exact ⟨_, _, he, hwt, hp, by rw [hstrip]; exact valueReads_plain htakes hlen⟩

/-- A single value as a part of an entry. -/
theorem partReads (ih : ∀ d < depth, MessagesOccur t d) {f : Field} {v : Value}
    (hn : IsNumber f.number) (hv : v.Fits t (.single f.kind)) (hs : f.isRepeated = false)
    (hd : v.depth ≤ depth) (hl : (field t f v).length < wordLimit) :
    ∃ value, PartReads t depth f f.number (field t f v) value ∧
      value.getD (t.fieldDefault f) =
        if t.isHidden f v then t.fieldDefault f else v.stripped t f := by
  have hempty : v.isEmpty = false := by
    cases v <;> first | rfl | cases hv
  have hsame : t.isRedundant f v = t.isHidden f v := by
    simp [TypeTable.isRedundant, TypeTable.isHidden, hempty, hs]
  cases hx : t.isHidden f v with
  | true =>
    have hplain : field t f v = [] := by
      rcases Value.fits_single hv with ⟨name, type, m, hk, rfl, -, -⟩ | htakes
      · simp [TypeTable.isHidden, Value.isSingle] at hx
      · rw [(field_of_takes htakes).1, plainField, hsame, hx]
        rfl
    rw [hplain]
    exact ⟨none, .absent, rfl⟩
  | false =>
    obtain ⟨wt, body, he, -, -, hreads⟩ := singleReads ih hn hv hd hl (hsame.trans hx)
    rw [he]
    exact ⟨some (v.stripped t f), .present hreads, rfl⟩

/-- Fields below a number, perhaps with a value for the number behind them. -/
def Slot (known : List (Nat × Value)) (number : Nat) (stored : List (Nat × Value)) : Prop :=
  stored = known ∨ ∃ w, stored = known ++ [(number, w)]

/-- A field behind all that is stored, no rival of which is stored. -/
structure Fresh (type : MessageType) (f : Field) (known : List (Nat × Value)) : Prop where
  above : ∀ k ∈ Message.numbers known, k < f.number
  free : ∀ g ∈ type.rivals f, g.number ∉ Message.numbers known

variable {f : Field} {known stored : List (Nat × Value)} {unknown : List (Nat × UnknownValue)}

theorem rivals_number {g : Field} (h : g ∈ type.rivals f) : g.number ≠ f.number := by
  unfold MessageType.rivals at h
  split at h
  · cases h
  · have hp := (List.mem_filter.mp h).2
    simp only [Bool.and_eq_true, bne_iff_ne] at hp
    exact hp.2

theorem Fresh.not_mem (h : Fresh type f known) : f.number ∉ Message.numbers known := fun hm =>
  Nat.lt_irrefl _ (h.above _ hm)

theorem Fresh.store (h : Fresh type f known) (hs : Slot known f.number stored) (v : Value) :
    type.store f v ⟨stored, unknown⟩ = ⟨known ++ [(f.number, v)], unknown⟩ := by
  rcases hs with rfl | ⟨w, rfl⟩
  · rw [MessageType.store_of_free h.free, Message.insertField_end h.above]
  · have hfree : ∀ g ∈ type.rivals f, g.number ∉ Message.numbers (known ++ [(f.number, w)]) := by
      intro g hg hm
      rw [Message.numbers_append] at hm
      rcases List.mem_append.mp hm with hm | hm
      · exact h.free g hg hm
      · exact rivals_number hg (by simpa [Message.numbers] using hm)
    rw [MessageType.store_of_free hfree, Message.insertField_last h.above]

theorem Fresh.find? (h : Fresh type f known) :
    (⟨known, unknown⟩ : Message).find? f.number = none :=
  Message.lookup_none h.not_mem

theorem Fresh.find?_last (h : Fresh type f known) (v : Value) :
    (⟨known ++ [(f.number, v)], unknown⟩ : Message).find? f.number = some v :=
  Message.lookup_last h.not_mem

theorem readValue_congr {g : Field} (hk : g.kind = f.kind) (hg : g.isGroup = f.isGroup)
    (hn : g.number = f.number) (fuel : Nat) (wt : WireType) (before : Message) :
    readValue t fuel depth g wt before = readValue t fuel depth f wt before := by
  cases fuel with
  | zero =>
    unfold readValue
    rfl
  | succ fuel =>
    unfold readValue
    rw [hk, hg, hn]

theorem stripped_congr {g : Field} {kind : Kind} {v : Value}
    (hv : v.Fits t (.single kind)) : v.stripped t g = v.stripped t f := by
  cases v with
  | bool | int | enum | single | double | str | bytes | message => rfl
  | list | map => cases hv

/-- An item of a list behind its key. -/
theorem itemReads (ih : ∀ d < depth, MessagesOccur t d) {v : Value}
    (hn : IsNumber f.number) (hv : v.Fits t (.single f.kind)) (hd : v.depth ≤ depth)
    (hl : (field t { f with label := .optional, hasPresence := true } v).length < wordLimit) :
    ∃ wt body, field t { f with label := .optional, hasPresence := true } v =
        key f.number wt ++ body ∧ wt ≠ .endGroup ∧
      (wt == .counted && f.kind.isPackable) = false ∧
      ValueReads t depth f wt body (v.stripped t f) := by
  obtain ⟨wt, body, he, hwt, hp, hr⟩ :=
    singleReads ih (f := { f with label := .optional, hasPresence := true }) hn hv hd hl (by
      simp [TypeTable.isRedundant])
  refine ⟨wt, body, he, hwt, hp, ?_⟩
  intro fuel rest hf
  have hs := stripped_congr (t := t) (f := f)
    (g := { f with label := .optional, hasPresence := true }) hv
  have hc := @readValue_congr t depth f { f with label := .optional, hasPresence := true }
    rfl rfl rfl fuel wt .empty
  rw [← hs, ← hc]
  exact hr fuel rest hf

theorem occurs_items (unknown : List (Nat × UnknownValue))
    (ih : ∀ d < depth, MessagesOccur t d) (hn : IsNumber f.number)
    (hf : t.fieldNumbered? type f.number = some f) (hr : f.isRepeated = true)
    (hm : t.mapEntry? f = none) (hfresh : Fresh type f known) :
    ∀ (vs : List Value) (stored : List (Nat × Value)) (done : List Value), vs ≠ [] →
      Slot known f.number stored → heldItems f ⟨stored, unknown⟩ = done →
      Value.ItemsFit t f.kind vs → Value.itemsDepth vs ≤ depth →
      (items t f vs).length < wordLimit →
      Occurs t depth type (items t f vs) ⟨stored, unknown⟩
        ⟨known ++ [(f.number, .list (done ++ Value.strippedItems t f vs))], unknown⟩
  | [], _, _, hne, _, _, _, _, _ => absurd rfl hne
  | v :: vs, stored, done, _, hslot, hheld, hfit, hd, hl => by
    obtain ⟨hv, hvs⟩ := hfit
    obtain ⟨hdv, hdvs⟩ := Nat.max_le.mp hd
    simp only [items, List.length_append] at hl ⊢
    obtain ⟨wt, body, he, hwt, hp, hreads⟩ := itemReads ih hn hv hdv (by omega)
    have hone := Occurs.one hn hwt
      (fieldReads_item (m := ⟨stored, unknown⟩) hf hr hm hp hreads)
    rw [← he, hheld, hfresh.store hslot] at hone
    cases vs with
    | nil =>
      rw [items, List.append_nil]
      exact hone
    | cons w ws =>
      have hrest := occurs_items unknown ih hn hf hr hm hfresh (w :: ws)
        (known ++ [(f.number, .list (done ++ [v.stripped t f]))]) (done ++ [v.stripped t f])
        (by simp) (.inr ⟨_, rfl⟩) (by simp [heldItems, hfresh.find?_last]) hvs hdvs (by omega)
      have happ := hone.append hrest
      rwa [List.append_assoc] at happ

/-- A chunk that puts an entry into the map of a field. -/
def EntryOccurs (t : TypeTable) (depth : Nat) (type : MessageType) (f : Field)
    (chunk : List UInt8) (e : MapKey × Value) : Prop :=
  ∀ m, Occurs t depth type chunk m
    (type.store f (.map (Value.insertEntry e.1 e.2 (heldEntries f m))) m)

theorem key_restored {k : Field} {key' : MapKey} (hk : k.kind.Takes (keyValue key')) :
    field t k (keyValue key') = plainField t k (keyValue key') ∧
      toKey (if t.isHidden k (keyValue key') then t.fieldDefault k
        else (keyValue key').stripped t k) = key' := by
  obtain ⟨hfield, hstrip⟩ := field_of_takes (t := t) hk
  refine ⟨hfield, ?_⟩
  cases hx : t.isHidden k (keyValue key') with
  | false =>
    simp only [Bool.false_eq_true, ↓reduceIte, hstrip]
    cases key' <;> rfl
  | true =>
    obtain ⟨-, hs⟩ := Bool.and_eq_true_iff.mp hx
    simp only [↓reduceIte]
    cases key' <;> cases hd : t.fieldDefault k <;> simp_all [keyValue, Value.isSingle, toKey]

theorem entries_occur (ih : ∀ d < depth, MessagesOccur t d) {entry : MessageType}
    {k v : Field} (hn : IsNumber f.number) (hf : t.fieldNumbered? type f.number = some f)
    (hm : t.mapEntry? f = some entry) (hk : TypeTable.IsEntry entry k v) :
    ∀ es : List (MapKey × Value), Value.EntriesFit t k.kind v.kind es →
      Value.entriesDepth es ≤ depth → (entries t f k v es).flatten.length < wordLimit →
      List.Forall₂ (EntryOccurs t depth type f) (entries t f k v es)
        (Value.strippedEntries t v es)
  | [], _, _, _ => .nil
  | (key', w) :: es, hfit, hd, hl => by
    obtain ⟨⟨hkey, hw⟩, hes⟩ := hfit
    obtain ⟨hdw, hdes⟩ := Nat.max_le.mp hd
    simp only [entries, List.flatten_cons, List.length_append, counted] at hl
    have hrest := entries_occur ih hn hf hm hk es hes hdes (by omega)
    refine .cons ?_ hrest
    intro m
    obtain ⟨d, rfl⟩ : ∃ d, depth = d + 1 := ⟨depth - 1, by omega⟩
    have hkn : k.number = 1 := by simpa using List.find?_some hk.key
    have hvn : v.number = 2 := by simpa using List.find?_some hk.value
    have hnum : IsNumber 1 ∧ IsNumber 2 := by simp [IsNumber]
    have hkf : (keyValue key').Fits t (.single k.kind) := by
      cases key' <;> exact hkey
    have hkd : (keyValue key').depth = 0 := by
      cases key' <;> rfl
    have inner : ∀ e < d, MessagesOccur t e := fun e he => ih e (Nat.lt_succ_of_lt he)
    obtain ⟨hkfield, hrestored⟩ := key_restored (t := t) hkey
    obtain ⟨kv, hkr, hkd'⟩ := partReads inner (hkn ▸ hnum.1) hkf hk.keySingle (by omega)
      (by rw [hkfield]; omega)
    obtain ⟨vv, hvr, hvd⟩ := partReads inner (hvn ▸ hnum.2) hw hk.valueSingle (by omega) (by omega)
    rw [hkfield, hkn] at hkr
    rw [hvn] at hvr
    have hreads := fieldReads_entry (m := m) hf hm hk.key hk.value hkr hvr (by
      rw [List.length_append]
      omega)
    rw [hkd', hvd, hrestored] at hreads
    exact .one hn (by simp) hreads

theorem occurs_entries (unknown : List (Nat × UnknownValue)) (hfresh : Fresh type f known) :
    ∀ (chunks : List (List UInt8)) (es : List (MapKey × Value))
      (stored : List (Nat × Value)) (done : List (MapKey × Value)), chunks ≠ [] →
      List.Forall₂ (EntryOccurs t depth type f) chunks es → Slot known f.number stored →
      heldEntries f ⟨stored, unknown⟩ = done →
      Occurs t depth type chunks.flatten ⟨stored, unknown⟩
        ⟨known ++ [(f.number, .map (Value.insertAll es done))], unknown⟩
  | _, _, _, _, hne, .nil, _, _ => absurd rfl hne
  | _ :: chunks, e :: es, stored, done, _, .cons hhead htail, hslot, hheld => by
    have hone := hhead ⟨stored, unknown⟩
    rw [hheld, hfresh.store hslot] at hone
    cases htail with
    | nil =>
      rw [List.flatten_singleton]
      exact hone
    | cons hhead' htail' =>
      have hrest := occurs_entries unknown hfresh _ _
        (known ++ [(f.number, .map (Value.insertEntry e.1 e.2 done))])
        (Value.insertEntry e.1 e.2 done) (by simp) (.cons hhead' htail') (.inr ⟨_, rfl⟩)
        (by simp [heldEntries, hfresh.find?_last])
      exact hone.append hrest

theorem strippedEntries_sorted (v : Field) {es : List (MapKey × Value)} (h : Value.Sorted es) :
    Value.Sorted (Value.strippedEntries t v es) := by
  have hkeys : ∀ es : List (MapKey × Value),
      (Value.strippedEntries t v es).map Prod.fst = es.map Prod.fst := by
    intro es
    induction es with
    | nil => rfl
    | cons e es ih => simp [Value.strippedEntries, ih]
  exact Value.sorted_of_keys (hkeys es) h

/-- The map of a field, whatever the order in which its entries are written. -/
theorem occurs_map (unknown : List (Nat × UnknownValue)) {chunks : List (List UInt8)}
    {es : List (MapKey × Value)} (hfresh : Fresh type f known) (hne : chunks ≠ [])
    (h : List.Forall₂ (EntryOccurs t depth type f) chunks es) (hs : Value.Sorted es) :
    Occurs t depth type (chunks.mergeSort bytesLe).flatten ⟨known, unknown⟩
      ⟨known ++ [(f.number, .map es)], unknown⟩ := by
  obtain ⟨ds, hds, hperm⟩ :=
    List.perm_comp_forall₂ (List.mergeSort_perm chunks bytesLe) h
  have hne' : chunks.mergeSort bytesLe ≠ [] := by
    intro hnil
    have hl := (List.mergeSort_perm chunks bytesLe).length_eq
    rw [hnil] at hl
    exact hne (List.length_eq_zero_iff.mp hl.symm)
  have hocc := occurs_entries unknown hfresh _ _ known [] hne' hds (.inl rfl)
    (by simp [heldEntries, hfresh.find?])
  rwa [Value.insertAll_of_perm hs hperm] at hocc

/-- What is left of a field. -/
def leftOf (t : TypeTable) (f : Field) (v : Value) : List (Nat × Value) :=
  if t.isRedundant f v then [] else [(f.number, (v.stripped t f).enlisted f)]

theorem field_redundant {f : Field} {v : Value} (hr : t.isRedundant f v = true) :
    field t f v = [] := by
  cases v with
  | bool | int | enum | single | double | str | bytes => simp [field, plainField, hr]
  | message => simp [TypeTable.isRedundant, Value.isEmpty, Value.isSingle] at hr
  | list items =>
    cases items with
    | nil => simp [field]
    | cons => simp [TypeTable.isRedundant, Value.isEmpty, Value.isSingle] at hr
  | map entries =>
    cases entries with
    | nil =>
      simp only [field]
      repeat' split
      all_goals simp [Wire.entries]
    | cons => simp [TypeTable.isRedundant, Value.isEmpty, Value.isSingle] at hr

theorem occurs_list (unknown : List (Nat × UnknownValue))
    (ih : ∀ d < depth, MessagesOccur t d) {vs : List Value} (hsound : f.Sound t)
    (hf : t.fieldNumbered? type f.number = some f) (hrep : f.isRepeated = true)
    (hm : t.mapEntry? f = none) (hfresh : Fresh type f known) (hne : vs ≠ [])
    (hfit : Value.ItemsFit t f.kind vs) (hd : Value.itemsDepth vs ≤ depth)
    (hl : (field t f (.list vs)).length < wordLimit) :
    Occurs t depth type (field t f (.list vs)) ⟨known, unknown⟩
      ⟨known ++ [(f.number, (Value.list vs).stripped t f)], unknown⟩ := by
  have hheld : heldItems f ⟨known, unknown⟩ = [] := by simp [heldItems, hfresh.find?]
  have hempty : vs.isEmpty = false := by
    cases vs with
    | nil => exact absurd rfl hne
    | cons v vs => rfl
  cases hp : f.isPacked with
  | false =>
    have hfield : field t f (.list vs) = items t f vs := by simp [field, hempty, hp]
    rw [hfield] at hl ⊢
    have hitems := occurs_items unknown ih hsound.number hf hrep hm hfresh vs known []
      hne (.inl rfl) hheld hfit hd hl
    exact hitems
  | true =>
    have hfield : field t f (.list vs) =
        key f.number .counted ++ counted (vs.flatMap (plain f.kind)) := by
      simp [field, hempty, hp]
    have hpack := hsound.packed hp
    have htakes : ∀ v ∈ vs, f.kind.Takes v := by
      intro v hv
      rcases Value.fits_single (Value.itemsFit_iff.mp hfit v hv) with ⟨name, -, -, hk, -⟩ | h
      · simp [hk, Kind.isPackable] at hpack
      · exact h
    have hstrip : Value.strippedItems t f vs = vs := by
      clear hfit hd hl hfield hempty hne
      induction vs with
      | nil => rfl
      | cons v vs ih =>
        obtain ⟨hv, hvs⟩ := List.forall_mem_cons.mp htakes
        rw [Value.strippedItems, (field_of_takes hv).2, ih hvs]
    rw [hfield] at hl ⊢
    have hbody : (vs.flatMap (plain f.kind)).length < wordLimit := by
      simp only [counted, List.length_append] at hl
      omega
    have hone : Occurs t depth type _ _ _ := .one hsound.number (by simp)
      (fieldReads_packed (m := ⟨known, unknown⟩) hf hrep hpack htakes hbody)
    rw [hheld, hfresh.store (.inl rfl)] at hone
    rw [Value.stripped, hstrip]
    exact hone

/-- The bytes of a field put what is left of it behind the fields before. -/
theorem occurs_field (hs : t.Sound) (hreg : t.Regular) (ih : ∀ d < depth, MessagesOccur t d)
    {v : Value} (ht : type ∈ t.messages) (hf : t.fieldNumbered? type f.number = some f)
    (hv : v.Fits t (t.shape f)) (hd : v.depth ≤ depth) (hl : (field t f v).length < wordLimit)
    (hfresh : Fresh type f known) :
    Occurs t depth type (field t f v) ⟨known, unknown⟩ ⟨known ++ leftOf t f v, unknown⟩ := by
  have hsound := hs.numbered ht hf
  cases hr : t.isRedundant f v with
  | true =>
    rw [field_redundant hr, leftOf, hr]
    simp only [↓reduceIte, List.append_nil]
    exact .nil _
  | false =>
    simp only [leftOf, hr, Bool.false_eq_true, ↓reduceIte]
    rcases hreg.form f with
      ⟨hrep, -, hshape⟩ | ⟨hrep, hm, hshape⟩ | @⟨entry, k, w, hrep, -, hm, hk, hshape⟩
    · obtain ⟨wt, body, he, hwt, -, hreads⟩ := singleReads ih hsound.number (hshape ▸ hv) hd hl hr
      have hheld : held f ⟨known, unknown⟩ = .empty := by simp [held, hfresh.find?]
      have hone := Occurs.one hsound.number hwt
        (fieldReads_single (m := ⟨known, unknown⟩) hf hrep hheld hreads)
      rw [hfresh.store (.inl rfl), ← he] at hone
      simpa [Value.enlisted, Value.isLone, hrep] using hone
    · rcases Value.fits_list (hshape ▸ hv) with ⟨vs, rfl, hfit⟩ | ⟨-, hlone⟩
      · have hne : vs ≠ [] := by
          rintro rfl
          simp [TypeTable.isRedundant, Value.isEmpty, hsound.presence hrep] at hr
        have hocc := occurs_list unknown ih hsound hf hrep hm hfresh hne hfit hd hl
        simpa [Value.enlisted, Value.isLone, Value.stripped, Value.isCollection] using hocc
      · obtain ⟨wt, body, he, hwt, hp, hreads⟩ := singleReads ih hsound.number hlone hd hl hr
        have hheld : heldItems f ⟨known, unknown⟩ = [] := by simp [heldItems, hfresh.find?]
        have hone := Occurs.one hsound.number hwt
          (fieldReads_item (m := ⟨known, unknown⟩) hf hrep hm hp hreads)
        rw [hheld, hfresh.store (.inl rfl), ← he] at hone
        have hsingle : (v.stripped t f).isLone f = true := by
          rw [Value.isLone, hrep, Value.stripped_isCollection]
          cases v <;> first | rfl | cases hlone
        simpa [Value.enlisted, hsingle] using hone
    · obtain ⟨es, rfl, hsorted, hfit⟩ := Value.fits_map (hshape ▸ hv)
      have hne : entries t f k w es ≠ [] := by
        cases es with
        | nil => simp [TypeTable.isRedundant, Value.isEmpty, hsound.presence hrep] at hr
        | cons e es => simp [entries]
      have hfield : field t f (.map es) =
          ((entries t f k w es).mergeSort bytesLe).flatten := by
        simp [field, hm, hk.key, hk.value]
      have hlen : (entries t f k w es).flatten.length < wordLimit := by
        rw [hfield] at hl
        rwa [((List.mergeSort_perm _ bytesLe).flatten).length_eq] at hl
      have hchunks := entries_occur ih hsound.number hf hm hk es hfit hd hlen
      have hocc := occurs_map unknown hfresh hne hchunks
        (strippedEntries_sorted w hsorted)
      rw [hfield]
      simpa [Value.enlisted, Value.isLone, Value.stripped, Value.isCollection, hm, hk.value]
        using hocc

/-- Chunks that take a state step by step to another one. -/
inductive Run {α : Type} (step : List UInt8 → α → α → Prop) : Chunks → α → α → Prop where
  | nil (a : α) : Run step [] a a
  | cons {number : Nat} {chunk : List UInt8} {chunks : Chunks} {a b c : α}
      (head : step chunk a b) (tail : Run step chunks b c) :
      Run step ((number, chunk) :: chunks) a c

/-- A chunk that adds to the known fields and leaves the unknown ones alone. -/
def KnownStep (t : TypeTable) (depth : Nat) (type : MessageType) (chunk : List UInt8)
    (known known' : List (Nat × Value)) : Prop :=
  ∀ unknown, Occurs t depth type chunk ⟨known, unknown⟩ ⟨known', unknown⟩

/-- A chunk that adds to the unknown fields and leaves the known ones alone. -/
def UnknownStep (t : TypeTable) (depth : Nat) (type : MessageType) (chunk : List UInt8)
    (unknown unknown' : List (Nat × UnknownValue)) : Prop :=
  ∀ known, Occurs t depth type chunk ⟨known, unknown⟩ ⟨known, unknown'⟩

theorem mergeChunks_nil (xs : Chunks) : mergeChunks xs [] = xs := by
  cases xs <;> simp [mergeChunks]

/-- However the two kinds of chunks are mixed, they make both parts of the message. -/
theorem occurs_merge {xs ys : Chunks} {known known' : List (Nat × Value)}
    {unknown unknown' : List (Nat × UnknownValue)}
    (hx : Run (KnownStep t depth type) xs known known')
    (hy : Run (UnknownStep t depth type) ys unknown unknown') :
    Occurs t depth type (joined (mergeChunks xs ys)) ⟨known, unknown⟩ ⟨known', unknown'⟩ := by
  induction hx generalizing ys unknown with
  | nil known =>
    simp only [mergeChunks]
    induction hy with
    | nil => exact .nil _
    | cons head _ ih => exact (head known).append ih
  | @cons i x xs known known₁ known₂ headx tailx ihx =>
    induction hy with
    | nil unknown =>
      have hrest := ihx (.nil unknown)
      rw [mergeChunks_nil] at hrest ⊢
      exact (headx unknown).append hrest
    | @cons j y ys unknown unknown₁ unknown₂ heady taily ihy =>
      by_cases hij : i ≤ j
      · simp only [mergeChunks, hij, ↓reduceIte]
        exact (headx unknown).append (ihx (.cons heady taily))
      · simp only [mergeChunks, hij, ↓reduceIte]
        exact (heady known).append (ihy ihx)

theorem unknown_run (hn : ∀ u ∈ unknown, IsNumber u.1 ∧ t.fieldNumbered? type u.1 = none ∧
      UnknownReads depth u.1 u.2) :
    ∀ before : List (Nat × UnknownValue),
      (Message.numbers (before ++ unknown)).Pairwise (· ≤ ·) →
      Run (UnknownStep t depth type) (unknown.map (fun u => (u.1, unknownField u.1 u.2))) before
        (before ++ unknown) := by
  induction unknown with
  | nil =>
    intro before _
    rw [List.append_nil]
    exact .nil before
  | cons u rest ih =>
    intro before hsorted
    obtain ⟨⟨hnum, hfree, hreads⟩, hrest⟩ := List.forall_mem_cons.mp hn
    have happ : before ++ u :: rest = (before ++ [u]) ++ rest := by simp
    rw [happ] at hsorted ⊢
    refine .cons ?_ (ih hrest (before ++ [u]) hsorted)
    intro known
    have hocc := occurs_unknown (m := ⟨known, before⟩) hnum hfree hreads
    have hle : ∀ k ∈ Message.numbers before, k ≤ u.1 := by
      rw [Message.numbers_append, Message.numbers_append] at hsorted
      have hp := (List.pairwise_append.mp hsorted).1
      intro k hk
      exact (List.pairwise_append.mp hp).2.2 k hk u.1 (by simp [Message.numbers])
    rw [Message.addUnknown, Message.insertUnknown_end hle] at hocc
    exact hocc

theorem leftOf_numbers (v : Value) : ∀ k ∈ Message.numbers (leftOf t f v), k = f.number := by
  unfold leftOf
  split <;> simp [Message.numbers]

theorem known_run (hs : t.Sound) (hreg : t.Regular) (ih : ∀ d < depth, MessagesOccur t d)
    (ht : type ∈ t.messages) {all : List Nat}
    (hexcl : ∀ f ∈ type.fields, f.number ∈ all → ∀ g ∈ type.rivals f, g.number ∉ all) :
    ∀ (rest known : List (Nat × Value)), Message.FieldsFit t type rest →
      (Message.numbers rest).Pairwise (· < ·) →
      (∀ k ∈ Message.numbers known, ∀ n ∈ Message.numbers rest, k < n) →
      (∀ n ∈ Message.numbers known ++ Message.numbers rest, n ∈ all) →
      Message.fieldsDepth rest ≤ depth → (joined (fields t type rest)).length < wordLimit →
      Run (KnownStep t depth type) (fields t type rest) known
        (known ++ Message.strippedFields t type rest)
  | [], known, _, _, _, _, _, _ => by
    rw [Message.strippedFields, List.append_nil]
    exact .nil known
  | (number, v) :: rest, known, hfit, hsorted, habove, hall, hd, hl => by
    obtain ⟨f, hf, hv⟩ := Message.fieldsFit_iff.mp hfit (number, v) (by simp)
    obtain ⟨hlt, hsorted'⟩ := List.pairwise_cons.mp hsorted
    obtain ⟨hdv, hdrest⟩ := Nat.max_le.mp hd
    have hnum : f.number = number := TypeTable.fieldNumbered?_number hf
    subst hnum
    simp only [fields, hf, joined, List.flatMap_cons, List.length_append] at hl
    have hfresh : Fresh type f known := by
      refine ⟨fun k hk => habove k hk f.number (by simp [Message.numbers]), ?_⟩
      intro g hg hmem
      have hmemAll : f.number ∈ all := hall _ (by simp [Message.numbers])
      obtain ⟨-, ho | ⟨x, hx, -, rfl⟩⟩ := TypeTable.fieldNumbered?_cases hf
      · exact hexcl f (List.mem_of_find?_eq_some ho) hmemAll g hg
          (hall _ (List.mem_append_left _ hmem))
      · simp [MessageType.rivals, (hs.extension x hx).alone] at hg
    have hstrip : Message.strippedFields t type ((f.number, v) :: rest) =
        leftOf t f v ++ Message.strippedFields t type rest := by
      cases hr : t.isRedundant f v <;> simp [Message.strippedFields, hf, leftOf, hr]
    have hrest := known_run hs hreg ih ht hexcl rest (known ++ leftOf t f v) hfit.2 hsorted'
      (by
        intro k hk n hn
        rw [Message.numbers_append] at hk
        rcases List.mem_append.mp hk with hk | hk
        · exact habove k hk n (List.mem_cons_of_mem _ hn)
        · rw [leftOf_numbers v k hk]
          exact hlt n hn)
      (by
        intro n hn
        rw [Message.numbers_append] at hn
        rcases List.mem_append.mp hn with hn | hn
        · rcases List.mem_append.mp hn with hn | hn
          · exact hall n (List.mem_append_left _ hn)
          · rw [leftOf_numbers v n hn]
            exact hall _ (by simp [Message.numbers])
        · exact hall n (List.mem_append_right _ (List.mem_cons_of_mem _ hn)))
      hdrest (by
        unfold joined
        omega)
    rw [List.append_assoc, ← hstrip] at hrest
    simp only [fields, hf]
    refine .cons ?_ hrest
    intro unknown
    exact occurs_field hs hreg ih ht hf hv hdv (by omega) hfresh

theorem joined_mergeChunks_length (xs ys : Chunks) :
    (joined (mergeChunks xs ys)).length = (joined xs).length + (joined ys).length := by
  fun_induction mergeChunks xs ys with
  | case1 ys => simp [joined]
  | case2 xs h => simp [joined]
  | case3 i x xs j y ys hij ih =>
    simp only [joined, List.flatMap_cons, List.length_append] at ih ⊢
    omega
  | case4 i x xs j y ys hij ih =>
    simp only [joined, List.flatMap_cons, List.length_append] at ih ⊢
    omega

theorem messagesOccur_step (hs : t.Sound) (hreg : t.Regular)
    (ih : ∀ d < depth, MessagesOccur t d) : MessagesOccur t depth := by
  intro name type m ht hfit hd hl
  obtain ⟨known, unknown⟩ := m
  obtain ⟨harr, hfields⟩ := hfit
  obtain ⟨hdk, hdu⟩ := Nat.max_le.mp hd
  simp only [message, ht] at hl ⊢
  rw [joined_mergeChunks_length] at hl
  have hknown := known_run hs hreg ih (TypeTable.message?_mem ht) harr.exclusive known []
    hfields harr.sorted (by simp [Message.numbers]) (by simp [Message.numbers]) hdk (by omega)
  have hreads : ∀ u ∈ unknown, IsNumber u.1 ∧ t.fieldNumbered? type u.1 = none ∧
      UnknownReads depth u.1 u.2 := by
    intro u hu
    obtain ⟨hnum, hufit⟩ := UnknownValue.fieldsFit_iff.mp harr.unknownFit u hu
    have hle : (unknownField u.1 u.2).length ≤
        (joined (unknown.map (fun u => (u.1, unknownField u.1 u.2)))).length := by
      rw [joined, List.flatMap_map, List.flatMap_def]
      exact (List.sublist_flatten_of_mem (List.mem_map_of_mem
        (f := fun u : Nat × UnknownValue => unknownField u.1 u.2) hu)).length_le
    exact ⟨hnum, harr.unknownFree u.1 (List.mem_map_of_mem hu),
      unknownReads u.2 depth u.1 hnum hufit (UnknownValue.fieldsDepth_le.mp hdu u hu) (by omega)⟩
  have hunknown := unknown_run hreads [] harr.unknownSorted
  have hocc := occurs_merge hknown hunknown
  simpa [Message.stripped, ht, Message.empty] using hocc

theorem messagesOccur (hs : t.Sound) (hreg : t.Regular) (depth : Nat) : MessagesOccur t depth := by
  induction depth using Nat.strongRecOn with
  | ind depth ih => exact messagesOccur_step hs hreg ih

/-- A message is read from its bytes as it was written, less what is redundant. -/
theorem readMessage_message (hs : t.Sound) (hreg : t.Regular) {name : String} {m : Message}
    (ht : t.message? name = some type) (hm : m.Fits t type) (hd : m.depth ≤ depthLimit)
    (hl : (message t name m).length < wordLimit) :
    readMessage t type (message t name m) = .ok (m.stripped t name) := by
  have hocc := messagesOccur hs hreg depthLimit name type m ht hm hd hl
  have hr := hocc.readFields _ [] (Nat.le_refl _)
  rw [List.append_nil] at hr
  unfold readMessage
  rw [show ([] : List UInt8).length = 0 from rfl] at hr
  rw [hr]

end RpcConsole.Wire

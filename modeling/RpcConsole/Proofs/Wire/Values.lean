import RpcConsole.Proofs.Wire.Occurs
import RpcConsole.Wire.Write

namespace RpcConsole.Wire

variable {t : TypeTable} {depth : Nat} {type : MessageType} {f : Field} {m : Message}

/-- A single value is read behind its key, where nothing of it was there before. -/
def ValueReads (t : TypeTable) (depth : Nat) (f : Field) (wt : WireType) (body : List UInt8)
    (v : Value) : Prop :=
  ∀ fuel rest, 4 * body.length + 6 ≤ fuel →
    readValue t fuel depth f wt .empty (body ++ rest) = .ok (v, rest)

theorem expect_self (wt : WireType) (bs : List UInt8) :
    (liftM (expect wt wt) : Reading Unit) bs = .ok ((), bs) := by
  rw [expect, beq_self_eq_true, if_pos rfl]
  rfl

theorem valueReads_plain {v : Value} (hv : f.kind.Takes v)
    (hl : (plain f.kind v).length < wordLimit) :
    ValueReads t depth f f.kind.wireType (plain f.kind v) v := by
  intro fuel rest hf
  obtain ⟨fuel, rfl⟩ : ∃ k, fuel = k + 1 := ⟨fuel - 1, by omega⟩
  have hr := readPlain_plain hv hl rest
  cases hk : f.kind with
  | message name => simp [hk, Kind.Takes] at hv
  | scalar | enum =>
    rw [hk] at hr
    unfold readValue
    simp only [hk]
    rw [Reading.bind_of_ok (expect_self _ _)]
    exact hr

/-- A message is read as what its fields make of nothing. -/
theorem valueReads_message {name : String} {inner : MessageType} {body : List UInt8}
    (hk : f.kind = .message name) (ht : t.message? name = some inner) (hn : IsNumber f.number)
    (hb : Occurs t depth inner body .empty m) (hl : (framed f body).length < wordLimit) :
    ∃ wt rest, framed f body = key f.number wt ++ rest ∧ wt ≠ .endGroup ∧
      (wt == .counted && f.kind.isPackable) = false ∧
      ValueReads t (depth + 1) f wt rest (.message name m) := by
  have hp : f.kind.isPackable = false := by rw [hk]; rfl
  cases hg : f.isGroup with
  | true =>
    refine ⟨.startGroup, body ++ key f.number .endGroup, by simp [framed, hg], by simp,
      by simp [hp], ?_⟩
    intro fuel rest hf
    simp only [List.length_append] at hf
    have hpos := key_length_pos f.number .endGroup
    obtain ⟨fuel, rfl⟩ : ∃ k, fuel = k + 1 := ⟨fuel - 1, by omega⟩
    have hr := hb.readGroup hn fuel rest (by omega)
    unfold readValue
    simp only [hk, ht, hg, ↓reduceIte, List.append_assoc]
    rw [Reading.bind_of_ok (expect_self _ _),
      Reading.bind_of_ok (x := deeper (depth + 1)) (a := depth) rfl, Reading.bind_of_ok hr]
    rfl
  | false =>
    refine ⟨.counted, counted body, by simp [framed, hg], by simp, by simp [hp], ?_⟩
    intro fuel rest hf
    have hbody : body.length < wordLimit := by
      simp only [framed, hg, Bool.false_eq_true, ↓reduceIte, counted, List.length_append] at hl
      omega
    have hpos := varint_length_pos body.length
    simp only [counted, List.length_append] at hf
    obtain ⟨fuel, rfl⟩ : ∃ k, fuel = k + 1 := ⟨fuel - 1, by omega⟩
    have hr := hb.readFields fuel rest (by omega)
    unfold readValue
    simp only [hk, ht, hg, Bool.false_eq_true, ↓reduceIte]
    rw [Reading.bind_of_ok (expect_self _ _),
      Reading.bind_of_ok (x := deeper (depth + 1)) (a := depth) rfl,
      Reading.bind_of_ok (partEnd_counted hbody rest), Reading.bind_of_ok hr]
    rfl

theorem fieldReads_single {wt : WireType} {body : List UInt8} {v : Value}
    (hf : t.fieldNumbered? type f.number = some f) (hs : f.isRepeated = false)
    (hh : held f m = .empty) (hv : ValueReads t depth f wt body v) :
    FieldReads t depth type f.number wt body m (type.store f v m) := by
  intro fuel rest hfuel
  obtain ⟨fuel, rfl⟩ : ∃ k, fuel = k + 1 := ⟨fuel - 1, by omega⟩
  have hm : t.mapEntry? f = none := by
    unfold TypeTable.mapEntry?
    split
    · rename_i name hr _
      simp [Field.isRepeated, hr] at hs
    · rfl
  unfold readField
  simp only [hf, hm, hs, Bool.false_eq_true, ↓reduceIte, hh]
  rw [Reading.bind_of_ok (hv fuel rest (by omega))]
  rfl

theorem fieldReads_item {wt : WireType} {body : List UInt8} {v : Value}
    (hf : t.fieldNumbered? type f.number = some f) (hr : f.isRepeated = true)
    (hm : t.mapEntry? f = none) (hwt : (wt == .counted && f.kind.isPackable) = false)
    (hv : ValueReads t depth f wt body v) :
    FieldReads t depth type f.number wt body m
      (type.store f (.list (heldItems f m ++ [v])) m) := by
  intro fuel rest hfuel
  obtain ⟨fuel, rfl⟩ : ∃ k, fuel = k + 1 := ⟨fuel - 1, by omega⟩
  unfold readField
  simp only [hf, hm, hr, hwt, Bool.false_eq_true, ↓reduceIte]
  rw [Reading.bind_of_ok (hv fuel rest (by omega))]
  rfl

theorem plain_length_pos {kind : Kind} {v : Value} (h : kind.Takes v) :
    1 ≤ (plain kind v).length := by
  cases kind with
  | message name => simp [Kind.Takes] at h
  | enum name =>
    cases v <;> simp only [Kind.Takes] at h
    exact varint_length_pos _
  | scalar s =>
    cases v with
    | bool b => exact varint_length_pos _
    | int r n =>
      cases s <;>
        simp [plain, scalarInt, fixed_length, Nat.succ_le_iff, List.length_pos_iff, varint_ne_nil]
    | single | double => simp [plain, fixed_length]
    | str | bytes =>
      simp only [plain, counted, List.length_append]
      exact Nat.le_add_right_of_le (varint_length_pos _)
    | enum | message | list | map => simp [Kind.Takes, Scalar.Takes] at h

theorem readPacked_plain {kind : Kind} {items : List Value} (hv : ∀ v ∈ items, kind.Takes v)
    (hl : (items.flatMap (plain kind)).length < wordLimit) (rest : List UInt8) :
    ∀ (fuel : Nat) (done : List Value), (items.flatMap (plain kind)).length < fuel →
      readPacked kind rest.length fuel done (items.flatMap (plain kind) ++ rest) =
        .ok (done ++ items, rest) := by
  induction items with
  | nil =>
    intro fuel done hf
    obtain ⟨fuel, rfl⟩ : ∃ k, fuel = k + 1 := ⟨fuel - 1, by omega⟩
    rw [List.flatMap_nil, readPacked, Reading.bind_of_ok (atEnd_append [] rest)]
    simp
  | cons v items ih =>
    intro fuel done hf
    obtain ⟨hhead, htail⟩ := List.forall_mem_cons.mp hv
    have hpos := plain_length_pos hhead
    simp only [List.flatMap_cons, List.length_append] at hl hf ⊢
    obtain ⟨fuel, rfl⟩ : ∃ k, fuel = k + 1 := ⟨fuel - 1, by omega⟩
    have hne : (plain kind v ++ items.flatMap (plain kind)).isEmpty = false := by
      cases hc : plain kind v with
      | nil => simp [hc] at hpos
      | cons b bs => rfl
    rw [readPacked, Reading.bind_of_ok (atEnd_append _ rest), hne]
    simp only [Bool.false_eq_true, ↓reduceIte, List.append_assoc]
    have hr := readPlain_plain hhead (by omega) (items.flatMap (plain kind) ++ rest)
    rw [Reading.bind_of_ok (x := readPlain kind) hr, ih htail (by omega) fuel _ (by omega)]
    simp

theorem fieldReads_packed {items : List Value} (hf : t.fieldNumbered? type f.number = some f)
    (hr : f.isRepeated = true) (hp : f.kind.isPackable = true)
    (hv : ∀ v ∈ items, f.kind.Takes v)
    (hl : (items.flatMap (plain f.kind)).length < wordLimit) :
    FieldReads t depth type f.number .counted (counted (items.flatMap (plain f.kind))) m
      (type.store f (.list (heldItems f m ++ items)) m) := by
  intro fuel rest hfuel
  obtain ⟨fuel, rfl⟩ : ∃ k, fuel = k + 1 := ⟨fuel - 1, by omega⟩
  have hm : t.mapEntry? f = none := by
    unfold TypeTable.mapEntry?
    split
    · rename_i name _ hk
      simp [hk, Kind.isPackable] at hp
    · rfl
  unfold readField
  simp only [hf, hm, hr, hp, beq_self_eq_true, Bool.and_self, ↓reduceIte]
  rw [Reading.bind_of_ok (partEnd_counted hl rest), Reading.bind_of_ok Reading.left_apply,
    Reading.bind_of_ok (readPacked_plain hv hl rest _ (heldItems f m) (by
      rw [List.length_append]
      omega))]
  rfl

/-- Bytes of a part of an entry: none, or a key and what is read behind it. -/
inductive PartReads (t : TypeTable) (depth : Nat) (f : Field) (number : Nat) :
    List UInt8 → Option Value → Prop where
  | absent : PartReads t depth f number [] none
  | present {wt : WireType} {body : List UInt8} {v : Value} (hv : ValueReads t depth f wt body v) :
      PartReads t depth f number (key number wt ++ body) (some v)

theorem readEntry_end (k v : Field) (key' value' : Option Value) (fuel : Nat)
    (rest : List UInt8) :
    readEntry t (fuel + 1) depth k v rest.length key' value' rest =
      .ok ((toKey (key'.getD (t.fieldDefault k)), value'.getD (t.fieldDefault v)), rest) := by
  have he : atEnd rest.length rest = .ok (true, rest) := atEnd_append [] rest
  unfold readEntry
  rw [Reading.bind_of_ok he]
  rfl

theorem readEntry_value {k v : Field} {bs : List UInt8} {value' : Option Value}
    (hb : PartReads t depth v 2 bs value') (key' : Option Value) (fuel : Nat) (rest : List UInt8)
    (hf : 4 * bs.length + 4 ≤ fuel) :
    readEntry t fuel depth k v rest.length key' none (bs ++ rest) =
      .ok ((toKey (key'.getD (t.fieldDefault k)), value'.getD (t.fieldDefault v)), rest) := by
  obtain ⟨fuel, rfl⟩ : ∃ j, fuel = j + 1 := ⟨fuel - 1, by omega⟩
  cases hb with
  | absent => exact readEntry_end k v key' none fuel rest
  | @present wt body w hw =>
    have hpos := key_length_pos 2 wt
    simp only [List.length_append] at hf
    obtain ⟨fuel, rfl⟩ : ∃ j, fuel = j + 1 := ⟨fuel - 1, by omega⟩
    have hne : (key 2 wt ++ body).isEmpty = false := by
      cases hc : key 2 wt with
      | nil => simp [hc] at hpos
      | cons b bs => rfl
    unfold readEntry
    rw [Reading.bind_of_ok (atEnd_append _ rest), hne]
    simp only [Bool.false_eq_true, ↓reduceIte, List.append_assoc]
    rw [Reading.bind_of_ok (x := readKey) (readKey_key ⟨by omega, by omega⟩ wt _)]
    simp only [Nat.reduceBEq, Bool.false_eq_true, beq_self_eq_true, ↓reduceIte]
    rw [Reading.bind_of_ok (hw _ rest (by omega))]
    exact readEntry_end k v key' (some w) fuel rest

theorem readEntry_parts {k v : Field} {bs cs : List UInt8} {key' value' : Option Value}
    (hb : PartReads t depth k 1 bs key') (hc : PartReads t depth v 2 cs value') (fuel : Nat)
    (rest : List UInt8) (hf : 4 * (bs ++ cs).length + 5 ≤ fuel) :
    readEntry t fuel depth k v rest.length none none (bs ++ cs ++ rest) =
      .ok ((toKey (key'.getD (t.fieldDefault k)), value'.getD (t.fieldDefault v)), rest) := by
  simp only [List.length_append] at hf
  cases hb with
  | absent => exact readEntry_value hc none fuel rest (by omega)
  | @present wt body w hw =>
    have hpos := key_length_pos 1 wt
    simp only [List.length_append] at hf
    obtain ⟨fuel, rfl⟩ : ∃ j, fuel = j + 1 := ⟨fuel - 1, by omega⟩
    have hne : (key 1 wt ++ body ++ cs).isEmpty = false := by
      cases hc : key 1 wt with
      | nil => simp [hc] at hpos
      | cons b bs => rfl
    unfold readEntry
    rw [Reading.bind_of_ok (atEnd_append _ rest), hne]
    simp only [Bool.false_eq_true, ↓reduceIte, List.append_assoc]
    rw [Reading.bind_of_ok (x := readKey) (readKey_key ⟨by omega, by omega⟩ wt _)]
    simp only [beq_self_eq_true, ↓reduceIte]
    rw [Reading.bind_of_ok (hw _ (cs ++ rest) (by omega))]
    exact readEntry_value hc (some w) fuel rest (by omega)

theorem fieldReads_entry {entry : MessageType} {k v : Field} {bs cs : List UInt8}
    {key' value' : Option Value} (hf : t.fieldNumbered? type f.number = some f)
    (hm : t.mapEntry? f = some entry) (hk : entry.fieldNumbered? 1 = some k)
    (hv : entry.fieldNumbered? 2 = some v) (hb : PartReads t depth k 1 bs key')
    (hc : PartReads t depth v 2 cs value') (hl : (bs ++ cs).length < wordLimit) :
    FieldReads t (depth + 1) type f.number .counted (counted (bs ++ cs)) m
      (type.store f (.map (Value.insertEntry (toKey (key'.getD (t.fieldDefault k)))
        (value'.getD (t.fieldDefault v)) (heldEntries f m))) m) := by
  intro fuel rest hfuel
  have hpos := varint_length_pos (bs ++ cs).length
  rw [counted, List.length_append] at hfuel
  obtain ⟨fuel, rfl⟩ : ∃ j, fuel = j + 1 := ⟨fuel - 1, by omega⟩
  unfold readField
  simp only [hf, hm, hk, hv]
  rw [Reading.bind_of_ok (x := deeper (depth + 1)) (a := depth) rfl,
    Reading.bind_of_ok (partEnd_counted hl rest),
    Reading.bind_of_ok (readEntry_parts hb hc fuel rest (by omega))]
  rfl

end RpcConsole.Wire

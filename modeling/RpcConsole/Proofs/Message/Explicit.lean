import RpcConsole.Proofs.Message.Retold

namespace RpcConsole

mutual

/-- Whether a message that stands below an extension stores all its fields without presence, and so
do all messages inside it. -/
def Message.isExplicit (t : TypeTable) (below : Bool) (name : String) : Message → Bool
  | ⟨known, _⟩ =>
    match t.message? name with
    | none => true
    | some type =>
      (!below || (type.unstored known).isEmpty) && Message.fieldsExplicit t below type known

def Message.fieldsExplicit (t : TypeTable) (below : Bool) (type : MessageType) :
    List (Nat × Value) → Bool
  | [] => true
  | (number, v) :: rest =>
    (match t.fieldNumbered? type number with
      | some f => v.isExplicit t (below || !(type.fieldNumbered? number).isSome) f
      | none => true) && Message.fieldsExplicit t below type rest

def Value.isExplicit (t : TypeTable) (below : Bool) (f : Field) : Value → Bool
  | .message name m => m.isExplicit t below name
  | .list items => Value.itemsExplicit t below f items
  | .map entries =>
    match (t.mapEntry? f).bind (fun e => e.fieldNumbered? 2) with
    | some v => Value.entriesExplicit t below v entries
    | none => true
  | _ => true

def Value.itemsExplicit (t : TypeTable) (below : Bool) (f : Field) : List Value → Bool
  | [] => true
  | v :: vs => v.isExplicit t below f && Value.itemsExplicit t below f vs

def Value.entriesExplicit (t : TypeTable) (below : Bool) (f : Field) :
    List (MapKey × Value) → Bool
  | [] => true
  | (_, v) :: rest => v.isExplicit t below f && Value.entriesExplicit t below f rest

end

/-- What is set can be seen: no extension is set to something redundant. -/
def TypeTable.isShown (t : TypeTable) (extension : Bool) (f : Field) (v : Value) : Bool :=
  !(extension && t.isRedundant f v)

theorem Message.sameFields_numbers : ∀ {xs ys : List (Nat × Value)},
    Message.sameFields xs ys = true → Message.numbers xs = Message.numbers ys
  | [], [], _ => rfl
  | [], _ :: _, h => by simp [Message.sameFields] at h
  | _ :: _, [], h => by simp [Message.sameFields] at h
  | (_, _) :: xs, (_, _) :: ys, h => by
    simp only [Message.sameFields, Bool.and_eq_true, beq_iff_eq] at h
    simpa [Message.numbers, h.1.1] using Message.sameFields_numbers h.2

theorem Message.clearFields_length (t : TypeTable) (type : MessageType)
    (fields : List (Nat × Value)) :
    (Message.clearFields t type fields).length ≤ fields.length := by
  simpa [Message.numbers] using (Message.clearFields_numbers t type fields).length_le

/-- What is cleared is kept if clearing keeps everything. -/
theorem Message.clearFields_kept {t : TypeTable} {type : MessageType} {e : Nat × Value}
    {rest : List (Nat × Value)} (h : Message.clearFields t type (e :: rest) = e :: rest) :
    Message.clearFields t type rest = rest ∧ ∀ f, type.fieldNumbered? e.1 = some f →
      t.isRedundant f e.2 = false ∧ e.2.clearDefaults t f = e.2 := by
  have hl := Message.clearFields_length t type rest
  simp only [Message.clearFields] at h
  cases ho : type.fieldNumbered? e.1 with
  | none => simpa [ho] using h
  | some f =>
    cases hx : t.isRedundant f e.2 with
    | true =>
      simp only [ho, hx, ↓reduceIte] at h
      have hlength := congrArg List.length h
      rw [List.length_cons] at hlength
      omega
    | false =>
      simp only [ho, hx, Bool.false_eq_true, ↓reduceIte, List.cons.injEq, Prod.ext_iff,
        true_and] at h
      refine ⟨h.2, fun g hg => ?_⟩
      cases hg
      exact ⟨hx, h.1⟩

/-- What equals a single value is a number, if it is of floating point. -/
theorem Value.hasNaN_of_isSingle {v w : Value} (h : v.isSingle w = true) : v.hasNaN = false := by
  cases v with
  | list | map | message => cases h
  | bool | int | enum | str | bytes => rfl
  | single x =>
    cases w with
    | single y =>
      unfold hasNaN
      simp only [isSingle, Binary32.numEq] at h
      by_contra hx
      simp [hx] at h
    | _ => cases h
  | double x =>
    cases w with
    | double y =>
      unfold hasNaN
      simp only [isSingle, Binary64.numEq] at h
      by_contra hx
      simp [hx] at h
    | _ => cases h

/-- What is redundant has no parts. -/
theorem Value.retold_redundant {t : TypeTable} {f : Field} {v : Value}
    (hx : t.isRedundant f v = true) (below : Bool) :
    v.retold t below f = v ∧ v.same v = true ∧ v.isExplicit t below f = true := by
  simp only [TypeTable.isRedundant, Bool.and_eq_true, Bool.or_eq_true] at hx
  rcases hx.2 with hempty | ⟨-, hsingle⟩
  · cases v with
    | list items =>
      cases items with
      | nil => simp [retold, retoldItems, same, sameItems, isExplicit, itemsExplicit]
      | cons => cases hempty
    | map entries =>
      cases entries with
      | nil =>
        cases hw : (t.mapEntry? f).bind (fun e => e.fieldNumbered? 2) <;>
          simp [retold, retoldEntries, same, sameEntries, isExplicit, entriesExplicit, hw]
      | cons => cases hempty
    | bool | int | enum | single | double | str | bytes | message => cases hempty
  · have hself := same_self v (hasNaN_of_isSingle hsingle)
    cases v with
    | list | map | message => cases hsingle
    | bool | int | enum | single | double | str | bytes =>
      exact ⟨by simp [retold], hself, by simp [isExplicit]⟩

/-- What is redundant is the default. -/
theorem Value.default_same {t : TypeTable} (hreg : t.Regular) {f : Field} {v : Value}
    (hv : v.Fits t (t.shape f)) (hx : t.isRedundant f v = true) :
    (t.fieldDefault f).same v = true := by
  simp only [TypeTable.isRedundant, Bool.and_eq_true, Bool.or_eq_true] at hx
  rcases hx.2 with he | ⟨-, hs⟩
  · have hrepeated : f.isRepeated = true ∧
        (v = .list [] ∧ t.mapEntry? f = none ∨ v = .map [] ∧ (t.mapEntry? f).isSome = true) := by
      rcases hreg.form f with ⟨-, -, hf⟩ | ⟨hr, hm, hf⟩ | ⟨hr, -, hm, -, hf⟩
      · rw [hf] at hv
        cases v with
        | list | map => cases hv
        | bool | int | enum | single | double | str | bytes | message => cases he
      · rw [hf] at hv
        rcases Value.fits_list hv with ⟨vs, rfl, -⟩ | ⟨-, hl⟩
        · cases vs with
          | nil => exact ⟨hr, .inl ⟨rfl, hm⟩⟩
          | cons => cases he
        · cases v with
          | list | map => cases hl
          | bool | int | enum | single | double | str | bytes | message => cases he
      · rw [hf] at hv
        obtain ⟨es, rfl, -⟩ := Value.fits_map hv
        cases es with
        | nil => exact ⟨hr, .inr ⟨rfl, by simp [hm]⟩⟩
        | cons => cases he
    obtain ⟨hr, ⟨rfl, hm⟩ | ⟨rfl, hm⟩⟩ := hrepeated
    · have hd : t.fieldDefault f = .list [] := by simp [TypeTable.fieldDefault, hr, hm]
      simp [hd, Value.same, Value.sameItems]
    · have hd : t.fieldDefault f = .map [] := by simp [TypeTable.fieldDefault, hr, hm]
      simp [hd, Value.same, Value.sameEntries]
  · rw [Value.isSingle_comm] at hs
    exact Value.same_of_isSingle hs

section

variable {t : TypeTable}

mutual

/-- A message without floating-point values and unknown fields that is cleared, if it does not stand
below an extension, comes back as an equal one exactly if it is explicit. -/
theorem Message.retold_same (hreg : t.Regular) (below : Bool) (name : String) (type : MessageType)
    (ht : t.message? name = some type) : ∀ m : Message, m.Fits t type →
      (below = false → m.clearDefaults t name = m) → m.all t t.isShown name = true →
      m.hasFloat t name = false → m.hasUnknown = false →
      (m.retold t below name).same m = m.isExplicit t below name
  | ⟨known, unknown⟩, hfit, hclear, hall, hfloat, hunknown => by
    simp only [Message.clearDefaults, ht, Message.mk.injEq, and_true] at hclear
    simp only [Message.all, ht] at hall
    simp only [Message.hasFloat, ht] at hfloat
    simp only [Message.hasUnknown, Bool.or_eq_false_iff, Bool.not_eq_false', List.isEmpty_iff]
      at hunknown
    obtain ⟨rfl, hunknown⟩ := hunknown
    have hk := Message.retoldFields_same hreg below type known hfit.2 hclear hall hfloat hunknown
    simp only [Message.retold, Message.isExplicit, ht, Message.same, UnknownValue.sameFields,
      Bool.and_true]
    cases below with
    | false => simpa using hk
    | true =>
      cases hu : type.unstored known with
      | nil => simpa [Message.withDefaults] using hk
      | cons f fields =>
        have hf : f ∈ type.unstored known := by simp [hu]
        -- one more number is stored than before
        have hno : Message.sameFields (Message.withDefaults t (f :: fields)
            (Message.retoldFields t true type known)) known = false := by
          by_contra hsame
          have hn := Message.sameFields_numbers (Bool.eq_true_of_not_eq_false hsame)
          have hmem : f.number ∈ Message.numbers known :=
            hn ▸ Message.numbers_withDefaults.mpr (.inl (by simp))
          exact (MessageType.mem_unstored.mp hf).2.2 hmem
        simpa using hno

theorem Message.retoldFields_same (hreg : t.Regular) (below : Bool) (type : MessageType) :
    ∀ fields : List (Nat × Value), Message.FieldsFit t type fields →
      (below = false → Message.clearFields t type fields = fields) →
      Message.allFields t t.isShown type fields = true →
      Message.fieldsHaveFloat t type fields = false → Message.fieldsHaveUnknown fields = false →
      Message.sameFields (Message.retoldFields t below type fields) fields =
        Message.fieldsExplicit t below type fields
  | [], _, _, _, _, _ => by
    simp [Message.retoldFields, Message.fieldsExplicit, Message.sameFields]
  | (number, v) :: rest, hfit, hclear, hall, hfloat, hunknown => by
    obtain ⟨hv, hrest⟩ := hfit
    cases hf : t.fieldNumbered? type number with
    | none => simp [hf] at hv
    | some f =>
      simp only [hf] at hv
      simp only [Message.allFields, hf, Bool.and_eq_true] at hall
      simp only [Message.fieldsHaveFloat, hf, Bool.or_eq_false_iff] at hfloat
      obtain ⟨hunknown, hunknowns⟩ := Bool.or_eq_false_iff.mp hunknown
      obtain ⟨⟨hshown, hall⟩, halls⟩ := hall
      have ih := Message.retoldFields_same hreg below type rest hrest
        (fun hb => (Message.clearFields_kept (hclear hb)).1) halls hfloat.2 hunknowns
      cases ho : type.fieldNumbered? number with
      | none =>
        have hx : t.isRedundant f v = false := by simpa [TypeTable.isShown, ho] using hshown
        have hsame := Value.retold_same hreg true f v (t.shape f) (.inl rfl) hv (by simp) hall
          (by simpa [hx] using hfloat.1) hunknown
        simp [Message.retoldFields, Message.fieldsExplicit, Message.sameFields, hf, ho, hx, ih,
          hsame]
      | some g =>
        have hg := TypeTable.fieldNumbered?_own (t := t) ho
        rw [hf, Option.some.injEq] at hg
        subst hg
        have hkept (hb : below = false) := (Message.clearFields_kept (hclear hb)).2 f ho
        cases hx : t.isRedundant f v with
        | true =>
          cases below with
          | false => simp [(hkept rfl).1] at hx
          | true =>
            obtain ⟨hretold, hsame, hexplicit⟩ := Value.retold_redundant hx true
            simp [Message.retoldFields, Message.fieldsExplicit, Message.sameFields, hf, ho, hx, ih,
              hretold, hsame, hexplicit]
        | false =>
          have hsame := Value.retold_same hreg below f v (t.shape f) (.inl rfl) hv
            (fun hb => (hkept hb).2) hall (by simpa [hx] using hfloat.1) hunknown
          simp [Message.retoldFields, Message.fieldsExplicit, Message.sameFields, hf, ho, hx, ih,
            hsame]

theorem Value.retold_same (hreg : t.Regular) (below : Bool) (f : Field) :
    ∀ (v : Value) (shape : Shape), UnderField t f shape → v.Fits t shape →
      (below = false → v.clearDefaults t f = v) → v.all t t.isShown f = true →
      v.hasFloat t f = false → v.hasUnknown = false →
      (v.retold t below f).same v = v.isExplicit t below f
  | .bool _, _, _, _, _, _, _, _ | .int _ _, _, _, _, _, _, _, _ | .enum _, _, _, _, _, _, _, _
  | .str _, _, _, _, _, _, _, _ | .bytes _, _, _, _, _, _, _, _ => by
    simp [Value.retold, Value.same, Value.isSingle, Value.isExplicit]
  | .single _, _, _, _, _, _, hfloat, _ | .double _, _, _, _, _, _, hfloat, _ => by
    simp [Value.hasFloat] at hfloat
  | .message name m, shape, hu, hfit, hclear, hall, hfloat, hunknown => by
    obtain ⟨-, -, type, ht, hm⟩ := hu.message hfit
    simp only [Value.clearDefaults, Value.message.injEq, true_and] at hclear
    simp only [Value.all] at hall
    simp only [Value.hasFloat] at hfloat
    simpa [Value.retold, Value.same, Value.isExplicit] using
      Message.retold_same hreg below name type ht m hm hclear hall hfloat hunknown
  | .list items, shape, hu, hfit, hclear, hall, hfloat, hunknown => by
    obtain ⟨-, hitems⟩ := hu.list hfit
    simp only [Value.clearDefaults, Value.list.injEq] at hclear
    simpa [Value.retold, Value.same, Value.isExplicit] using
      Value.retoldItems_same hreg below f items hitems hclear hall hfloat hunknown
  | .map entries, shape, hu, hfit, hclear, hall, hfloat, hunknown => by
    obtain ⟨entry, k, w, -, hm, hk, -, -, hentries⟩ := hu.map hreg hfit
    have hw : (t.mapEntry? f).bind (fun e => e.fieldNumbered? 2) = some w := by
      simp [hm, hk.value]
    simp only [Value.clearDefaults, hw, Value.map.injEq] at hclear
    simp only [Value.all, hw] at hall
    simp only [Value.hasFloat, hw] at hfloat
    simpa [Value.retold, Value.same, Value.isExplicit, hw] using
      Value.retoldEntries_same hreg below w k.kind entries hentries hclear hall hfloat hunknown

theorem Value.retoldItems_same (hreg : t.Regular) (below : Bool) (f : Field) :
    ∀ items : List Value, Value.ItemsFit t f.kind items →
      (below = false → Value.clearItems t f items = items) →
      Value.allItems t t.isShown f items = true → Value.itemsHaveFloat t f items = false →
      Value.itemsHaveUnknown items = false →
      Value.sameItems (Value.retoldItems t below f items) items =
        Value.itemsExplicit t below f items
  | [], _, _, _, _, _ => by simp [Value.retoldItems, Value.itemsExplicit, Value.sameItems]
  | v :: vs, hfit, hclear, hall, hfloat, hunknown => by
    simp only [Value.clearItems, List.cons.injEq] at hclear
    simp only [Value.allItems, Bool.and_eq_true] at hall
    simp only [Value.itemsHaveFloat, Bool.or_eq_false_iff] at hfloat
    simp only [Value.itemsHaveUnknown, Bool.or_eq_false_iff] at hunknown
    have hv := Value.retold_same hreg below f v (.single f.kind) (.inr rfl) hfit.1
      (fun hb => (hclear hb).1) hall.1 hfloat.1 hunknown.1
    have hvs := Value.retoldItems_same hreg below f vs hfit.2 (fun hb => (hclear hb).2) hall.2
      hfloat.2 hunknown.2
    simp [Value.retoldItems, Value.itemsExplicit, Value.sameItems, hv, hvs]

theorem Value.retoldEntries_same (hreg : t.Regular) (below : Bool) (f : Field) (key : Kind) :
    ∀ entries : List (MapKey × Value), Value.EntriesFit t key f.kind entries →
      (below = false → Value.clearEntries t f entries = entries) →
      Value.allEntries t t.isShown f entries = true →
      Value.entriesHaveFloat t f entries = false → Value.entriesHaveUnknown entries = false →
      Value.sameEntries (Value.retoldEntries t below f entries) entries =
        Value.entriesExplicit t below f entries
  | [], _, _, _, _, _ => by simp [Value.retoldEntries, Value.entriesExplicit, Value.sameEntries]
  | (k, v) :: rest, hfit, hclear, hall, hfloat, hunknown => by
    simp only [Value.clearEntries, List.cons.injEq, Prod.mk.injEq, true_and] at hclear
    simp only [Value.allEntries, Bool.and_eq_true] at hall
    simp only [Value.entriesHaveFloat, Bool.or_eq_false_iff] at hfloat
    simp only [Value.entriesHaveUnknown, Bool.or_eq_false_iff] at hunknown
    have hv := Value.retold_same hreg below f v (.single f.kind) (.inr rfl) hfit.1.2
      (fun hb => (hclear hb).1) hall.1 hfloat.1 hunknown.1
    have hrest := Value.retoldEntries_same hreg below f key rest hfit.2 (fun hb => (hclear hb).2)
      hall.2 hfloat.2 hunknown.2
    simp [Value.retoldEntries, Value.entriesExplicit, Value.sameEntries, hv, hrest]

end

end

end RpcConsole

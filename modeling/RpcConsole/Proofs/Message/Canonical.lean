import RpcConsole.Proofs.Load.Types
import RpcConsole.Proofs.Message.Made
import RpcConsole.Proofs.Message.Shown
import RpcConsole.Proofs.Message.Trimmed
import RpcConsole.Proofs.Wire.RoundTrip

namespace RpcConsole

variable {t : TypeTable} {type : MessageType}

namespace Wire

theorem numbers_fields (t : TypeTable) (type : MessageType) (known : List (Nat × Value)) :
    (Message.numbers (fields t type known)).Sublist (Message.numbers known) := by
  induction known with
  | nil => simp [fields, Message.numbers]
  | cons e rest ih =>
    simp only [fields]
    split
    · exact ih.cons _
    · exact ih.cons_cons _

/-- A chunk without bytes can be left out if those behind it have greater numbers. -/
theorem joined_mergeChunks_blank {i : Nat} {xs : Chunks} (hi : ∀ n ∈ Message.numbers xs, i < n)
    (ys : Chunks) : joined (mergeChunks ((i, []) :: xs) ys) = joined (mergeChunks xs ys) := by
  induction ys with
  | nil => simp [mergeChunks_nil, joined]
  | cons y ys ih =>
    obtain ⟨j, y⟩ := y
    by_cases hij : i ≤ j
    · simp [mergeChunks, hij, joined]
    · rw [mergeChunks, if_neg hij, joined, List.flatMap_cons, ← joined, ih]
      cases xs with
      | nil => simp [mergeChunks, joined]
      | cons x xs =>
        obtain ⟨k, x⟩ := x
        have hk : i < k := hi k (by simp [Message.numbers])
        have hkj : ¬ k ≤ j := by omega
        simp [mergeChunks, hkj, joined]

theorem joined_mergeChunks_cons {xs xs' : Chunks}
    (h : ∀ ys, joined (mergeChunks xs ys) = joined (mergeChunks xs' ys)) (x : Nat × List UInt8)
    (ys : Chunks) : joined (mergeChunks (x :: xs) ys) = joined (mergeChunks (x :: xs') ys) := by
  induction ys with
  | nil =>
    have hnil := h []
    simp only [mergeChunks_nil] at hnil ⊢
    simp only [joined, List.flatMap_cons] at hnil ⊢
    rw [hnil]
  | cons y ys ih =>
    rw [mergeChunks, mergeChunks]
    split
    · rw [joined, List.flatMap_cons, ← joined, h, joined, joined, List.flatMap_cons]
    · rw [joined, List.flatMap_cons, ← joined, ih, joined, joined, List.flatMap_cons]

theorem plain_clearDefaults (kind : Kind) (f : Field) (v : Value) :
    plain kind (v.clearDefaults t f) = plain kind v := by
  cases v with
  | bool | int | enum | single | double | str | bytes => simp [Value.clearDefaults]
  | message name m => simp [Value.clearDefaults, plain]
  | list items => simp [Value.clearDefaults, plain]
  | map entries =>
    simp only [Value.clearDefaults]
    split <;> simp [plain]

theorem plain_clearItems (kind : Kind) (f : Field) (items : List Value) :
    (Value.clearItems t f items).flatMap (plain kind) = items.flatMap (plain kind) := by
  induction items with
  | nil => simp [Value.clearItems]
  | cons v vs ih => simp [Value.clearItems, plain_clearDefaults, ih]

end Wire

mutual

theorem Wire.message_clearDefaults (name : String) (type : MessageType)
    (ht : t.message? name = some type) : ∀ m : Message, m.Fits t type →
      Wire.message t name (m.clearDefaults t name) = Wire.message t name m
  | ⟨known, unknown⟩, hm => by
    simp only [Message.clearDefaults, Wire.message, ht]
    exact Wire.fields_clearFields type known hm.2 hm.1.sorted _

theorem Wire.fields_clearFields (type : MessageType) : ∀ known : List (Nat × Value),
    Message.FieldsFit t type known → (Message.numbers known).Pairwise (· < ·) → ∀ ys,
      Wire.joined (Wire.mergeChunks (Wire.fields t type (Message.clearFields t type known)) ys) =
        Wire.joined (Wire.mergeChunks (Wire.fields t type known) ys)
  | [], _, _, ys => by rw [Message.clearFields]
  | (number, v) :: rest, hfit, hsorted, ys => by
    obtain ⟨hv, hrest⟩ := hfit
    obtain ⟨hlt, hsorted⟩ := List.pairwise_cons.mp hsorted
    have ih := Wire.fields_clearFields type rest hrest hsorted
    cases ho : type.fieldNumbered? number with
    | none =>
      simp only [Message.clearFields, ho, Wire.fields]
      split
      · exact ih ys
      · exact Wire.joined_mergeChunks_cons ih _ ys
    | some f =>
      have hf := TypeTable.fieldNumbered?_own (t := t) ho
      simp only [hf] at hv
      cases hx : t.isRedundant f v with
      | true =>
        have hblank := Wire.joined_mergeChunks_blank (i := number)
          (fun n hn => hlt n ((Wire.numbers_fields t type rest).subset hn)) ys
        simpa [Message.clearFields, Wire.fields, ho, hf, hx, Wire.field_redundant hx, hblank] using
          ih ys
      | false =>
        have hfield := Wire.field_clearDefaults f v (t.shape f) (.inl rfl) hv
        simpa [Message.clearFields, Wire.fields, ho, hf, hx, hfield] using
          Wire.joined_mergeChunks_cons ih _ ys

theorem Wire.field_clearDefaults (f : Field) :
    ∀ (v : Value) (shape : Shape), UnderField t f shape → v.Fits t shape →
      Wire.field t f (v.clearDefaults t f) = Wire.field t f v
  | .bool _, _, _, _ | .int _ _, _, _, _ | .enum _, _, _, _ | .single _, _, _, _
  | .double _, _, _, _ | .str _, _, _, _ | .bytes _, _, _, _ => by simp [Value.clearDefaults]
  | .message name m, shape, hu, hfit => by
    obtain ⟨-, -, type, ht, hm⟩ := hu.message hfit
    simp [Value.clearDefaults, Wire.field, Wire.message_clearDefaults name type ht m hm]
  | .list items, shape, hu, hfit => by
    obtain ⟨-, hitems⟩ := hu.list hfit
    have hempty : (Value.clearItems t f items).isEmpty = items.isEmpty := by
      cases items <;> simp [Value.clearItems]
    simp only [Value.clearDefaults, Wire.field, hempty, Wire.plain_clearItems,
      Wire.items_clearItems f items hitems]
  | .map entries, shape, hu, hfit => by
    obtain ⟨entry, k, w, hm, hk, hw, -, hentries⟩ := hu.entries hfit
    simp [Value.clearDefaults, Wire.field, hm, hk, hw,
      Wire.entries_clearEntries f k w k.kind entries hentries]

theorem Wire.items_clearItems (f : Field) : ∀ items : List Value,
    Value.ItemsFit t f.kind items →
      Wire.items t f (Value.clearItems t f items) = Wire.items t f items
  | [], _ => by rw [Value.clearItems]
  | v :: vs, hfit => by
    -- an item is written as the value of a field of its kind that is not repeated
    have hitem := Wire.field_clearDefaults { f with label := .optional, hasPresence := true } v
      (.single f.kind) (.inr rfl) hfit.1
    have hsame : v.clearDefaults t f =
        v.clearDefaults t { f with label := .optional, hasPresence := true } := by
      cases v with
      | list | map => exact absurd hfit.1 (by simp [Value.Fits])
      | bool | int | enum | single | double | str | bytes | message => simp [Value.clearDefaults]
    simp [Value.clearItems, Wire.items, hsame, hitem, Wire.items_clearItems f vs hfit.2]

theorem Wire.entries_clearEntries (f k w : Field) (key : Kind) :
    ∀ entries : List (MapKey × Value), Value.EntriesFit t key w.kind entries →
      Wire.entries t f k w (Value.clearEntries t w entries) = Wire.entries t f k w entries
  | [], _ => by rw [Value.clearEntries]
  | (_, v) :: rest, hfit => by
    have hvalue := Wire.field_clearDefaults w v (.single w.kind) (.inr rfl) hfit.1.2
    simp [Value.clearEntries, Wire.entries, hvalue,
      Wire.entries_clearEntries f k w key rest hfit.2]

end

mutual

/-- Clearing makes nothing hold that its field could not hold before. -/
theorem Wire.messageHolds_clearDefaults (t : TypeTable) (name : String) : ∀ m : Message,
    Wire.messageHolds t name (m.clearDefaults t name) = Wire.messageHolds t name m
  | ⟨known, unknown⟩ => by
    cases ht : t.message? name with
    | none => simp [Message.clearDefaults, ht]
    | some type =>
      simp [Message.clearDefaults, Wire.messageHolds, ht, Wire.fieldsHold_clearFields t type known]

theorem Wire.fieldsHold_clearFields (t : TypeTable) (type : MessageType) :
    ∀ known : List (Nat × Value),
      Wire.fieldsHold t type (Message.clearFields t type known) = Wire.fieldsHold t type known
  | [] => by rw [Message.clearFields]
  | (number, v) :: rest => by
    have ih := Wire.fieldsHold_clearFields t type rest
    cases ho : type.fieldNumbered? number with
    | none => simp [Message.clearFields, Wire.fieldsHold, ho, ih]
    | some f =>
      have hf := TypeTable.fieldNumbered?_own (t := t) ho
      cases hx : t.isRedundant f v with
      | true => simp [Message.clearFields, Wire.fieldsHold, ho, hf, hx, ih]
      | false =>
        have hr := t.isRedundant_clearDefaults f v
        simp [Message.clearFields, Wire.fieldsHold, ho, hf, hx, hr, ih,
          Wire.fieldHolds_clearDefaults t f v]

theorem Wire.fieldHolds_clearDefaults (t : TypeTable) (f : Field) : ∀ v : Value,
    Wire.fieldHolds t f (v.clearDefaults t f) = Wire.fieldHolds t f v
  | .bool _ | .int _ _ | .enum _ | .single _ | .double _ | .str _ | .bytes _ => by
    simp [Value.clearDefaults]
  | .message name m => by
    simp [Value.clearDefaults, Wire.fieldHolds, Wire.messageHolds_clearDefaults t name m]
  | .list items => by
    simp [Value.clearDefaults, Wire.fieldHolds, Wire.itemsHold_clearItems t f items]
  | .map entries => by
    cases hv : (t.mapEntry? f).bind (fun e => e.fieldNumbered? 2) with
    | none => simp [Value.clearDefaults, hv]
    | some v =>
      obtain ⟨entry, he, hvalue⟩ := Option.bind_eq_some_iff.mp hv
      rw [Value.clearDefaults, hv, Wire.fieldHolds, Wire.fieldHolds, he]
      simp only [hvalue]
      cases entry.fieldNumbered? 1 with
      | none => rfl
      | some k => exact Wire.entriesHold_clearEntries t k v entries

theorem Wire.itemsHold_clearItems (t : TypeTable) (f : Field) : ∀ items : List Value,
    Wire.itemsHold t f (Value.clearItems t f items) = Wire.itemsHold t f items
  | [] => by rw [Value.clearItems]
  | v :: vs => by
    simp [Value.clearItems, Wire.itemsHold, Wire.fieldHolds_clearDefaults t f v,
      Wire.itemsHold_clearItems t f vs]

theorem Wire.entriesHold_clearEntries (t : TypeTable) (k v : Field) :
    ∀ entries : List (MapKey × Value),
      Wire.entriesHold t k v (Value.clearEntries t v entries) = Wire.entriesHold t k v entries
  | [] => by rw [Value.clearEntries]
  | (key, value) :: rest => by
    simp [Value.clearEntries, Wire.entriesHold, t.isRedundant_clearDefaults v value,
      Wire.fieldHolds_clearDefaults t v value, Wire.entriesHold_clearEntries t k v rest]

end

theorem Wire.message?_clearDefaults {name : String} (ht : t.message? name = some type) {m : Message}
    (hm : m.Fits t type) :
    Wire.message? t name (m.clearDefaults t name) = Wire.message? t name m := by
  unfold Wire.message?
  rw [Wire.messageHolds_clearDefaults, Wire.message_clearDefaults name type ht m hm]

mutual

/-- Whether a floating-point number in a message is zero with its sign bit set, at any depth. -/
def Message.hasNegativeZero : Message → Bool
  | ⟨known, _⟩ => Message.fieldsHaveNegativeZero known

def Message.fieldsHaveNegativeZero : List (Nat × Value) → Bool
  | [] => false
  | (_, v) :: rest => v.hasNegativeZero || Message.fieldsHaveNegativeZero rest

def Value.hasNegativeZero : Value → Bool
  | .single x => x == .negativeZero
  | .double x => x == .negativeZero
  | .message _ m => m.hasNegativeZero
  | .list items => Value.itemsHaveNegativeZero items
  | .map entries => Value.entriesHaveNegativeZero entries
  | _ => false

def Value.itemsHaveNegativeZero : List Value → Bool
  | [] => false
  | v :: vs => v.hasNegativeZero || Value.itemsHaveNegativeZero vs

def Value.entriesHaveNegativeZero : List (MapKey × Value) → Bool
  | [] => false
  | (_, v) :: rest => v.hasNegativeZero || Value.entriesHaveNegativeZero rest

end

/-- A number that equals the default of a kind is that default, if it is not negative zero. -/
theorem Value.eq_kindDefault {kind : Kind} {v : Value} (h : v.isSingle (t.kindDefault kind) = true)
    (hz : v.hasNegativeZero = false) : v = t.kindDefault kind := by
  refine Value.eq_of_isSingle h ?_
  have hzero := isZero_of_default h
  cases v with
  | single x =>
    obtain rfl : x = .zero := hzero.resolve_right (by simpa [hasNegativeZero] using hz)
    cases kind with
    | scalar s =>
      cases s with
      | float => simp [sameSign, TypeTable.kindDefault, Scalar.zero]
      | _ => cases h
    | message | enum => cases h
  | double x =>
    obtain rfl : x = .zero := hzero.resolve_right (by simpa [hasNegativeZero] using hz)
    cases kind with
    | scalar s =>
      cases s with
      | double => simp [sameSign, TypeTable.kindDefault, Scalar.zero]
      | _ => cases h
    | message | enum => cases h
  | _ => rfl

theorem TypeTable.hasPresence_of_redundant {f : Field} {v : Value}
    (h : t.isRedundant f v = true) : f.hasPresence = false := by
  simp only [isRedundant, Bool.and_eq_true, Bool.not_eq_true'] at h
  exact h.1

namespace ToJson

/-- What is redundant is shown as if it were not stored. -/
theorem value_redundant {f : Field} {v : Value} (hf : f.Sound t) (inner : Inner)
    (hv : v.Fits t (t.shape f)) (hx : t.isRedundant f v = true) (hz : v.hasNegativeZero = false) :
    value inner t f v = .ok (default t f) := by
  rcases redundant_forms hf hv hx with ⟨kind, rfl, hshape⟩ | ⟨key, kind, rfl, hshape⟩ |
    ⟨hshape, htakes, hsingle⟩
  · rw [default, hshape]
    rfl
  · obtain ⟨v, hw, -⟩ := TypeTable.shape_map hshape
    simp only [default, hshape, value, hw]
    rfl
  · have hr := (TypeTable.shape_single hshape).2
    have hp := TypeTable.hasPresence_of_redundant hx
    have hd : t.fieldDefault f = v := by
      simp [TypeTable.fieldDefault, hr, (hf.bare hp hr).1, ← Value.eq_kindDefault hsingle hz]
    rw [default, hshape, hd]
    exact value_takes inner htakes

/-- The same values are shown, less some that are shown as they are if nothing is stored. -/
inductive Spared (t : TypeTable) (type : MessageType) :
    List (Nat × Json) → List (Nat × Json) → Prop where
  | nil : Spared t type [] []
  | kept {xs ys : List (Nat × Json)} (s : Nat × Json) (h : Spared t type xs ys) :
      Spared t type (s :: xs) (s :: ys)
  | spared {xs ys : List (Nat × Json)} {number : Nat} {f : Field}
      (hf : type.fieldNumbered? number = some f) (hp : f.hasPresence = false)
      (hfree : ys.lookup number = none) (h : Spared t type xs ys) :
      Spared t type ((number, default t f) :: xs) ys

theorem fieldMember_cons (t : TypeTable) (number : Nat) (j : Json) (shown : List (Nat × Json))
    (f : Field) : fieldMember t ((number, j) :: shown) f =
      if f.number = number then [(f.jsonName, j)] else fieldMember t shown f := by
  unfold fieldMember
  rw [List.lookup_cons]
  by_cases h : f.number = number
  · simp [h]
  · simp [h, beq_eq_false_iff_ne.mpr h]

theorem Spared.fieldMember {xs ys : List (Nat × Json)} (h : Spared t type xs ys) {f : Field}
    (hf : type.fieldNumbered? f.number = some f) :
    ToJson.fieldMember t xs f = ToJson.fieldMember t ys f := by
  induction h with
  | nil => rfl
  | kept s h ih => rw [fieldMember_cons, fieldMember_cons, ih]
  | spared hg hp hfree h ih =>
    rw [fieldMember_cons, ih]
    split
    · rename_i he
      subst he
      obtain rfl := Option.some.inj (hf.symm.trans hg)
      simp [ToJson.fieldMember, hfree, hp]
    · rfl

theorem Spared.assemble {xs ys : List (Nat × Json)} (h : Spared t type xs ys) (hs : t.Sound)
    (ht : type ∈ t.messages) : ToJson.assemble t type xs = ToJson.assemble t type ys := by
  have hmembers : (type.fields.mergeSort (fun f g => f.number ≤ g.number)).flatMap
        (ToJson.fieldMember t xs) =
      (type.fields.mergeSort (fun f g => f.number ≤ g.number)).flatMap
        (ToJson.fieldMember t ys) :=
    List.flatMap_congr fun f hf => h.fieldMember
      (MessageType.fieldNumbered?_self hs ht (List.mem_mergeSort.mp hf))
  have hextensions : xs.filter (fun s => (type.fieldNumbered? s.1).isNone) =
      ys.filter (fun s => (type.fieldNumbered? s.1).isNone) := by
    clear hmembers
    induction h with
    | nil => rfl
    | kept s h ih => simp only [List.filter_cons, ih]
    | spared hf hp hfree h ih => simp [hf, ih]
  rw [ToJson.assemble, ToJson.assemble, hmembers, hextensions]

theorem numbers_fields {inner : Inner} {known : List (Nat × Value)} {shown : List (Nat × Json)}
    (h : fields inner t type known = .ok shown) :
    (Message.numbers shown).Sublist (Message.numbers known) := by
  induction known generalizing shown with
  | nil =>
    cases h
    exact List.Sublist.refl _
  | cons e rest ih =>
    simp only [fields] at h
    split at h
    · exact (ih h).cons _
    · split at h
      · exact (ih h).cons _
      · obtain ⟨j, -, h⟩ := bind_eq_ok.mp h
        obtain ⟨shown, hshown, h⟩ := bind_eq_ok.mp h
        cases h
        exact (ih hshown).cons_cons _

/-- What is shown for fields, or why nothing is: less what is spared. -/
inductive SparedIn (t : TypeTable) (type : MessageType) :
    Except RenderFault (List (Nat × Json)) → Except RenderFault (List (Nat × Json)) → Prop where
  | ok {xs ys : List (Nat × Json)} (h : Spared t type xs ys) : SparedIn t type (.ok xs) (.ok ys)
  | error (e : RenderFault) : SparedIn t type (.error e) (.error e)

section

variable {shown shown' : Except RenderFault (List (Nat × Json))}

theorem SparedIn.kept (h : SparedIn t type shown shown') (number : Nat)
    (j : Except RenderFault Json) :
    SparedIn t type (do let j ← j; let rest ← shown; return (number, j) :: rest)
      (do let j ← j; let rest ← shown'; return (number, j) :: rest) := by
  cases j with
  | error e => exact .error e
  | ok j =>
    cases h with
    | ok h => exact .ok (.kept _ h)
    | error e => exact .error e

theorem SparedIn.spared (h : SparedIn t type shown shown') {number : Nat} {f : Field}
    (hf : type.fieldNumbered? number = some f) (hp : f.hasPresence = false)
    (hfree : ∀ ys, shown' = .ok ys → ys.lookup number = none) :
    SparedIn t type
      (do let j ← Except.ok (default t f); let rest ← shown; return (number, j) :: rest)
      shown' := by
  cases h with
  | ok h => exact .ok (.spared hf hp (hfree _ rfl) h)
  | error e => exact .error e

theorem SparedIn.assemble (h : SparedIn t type shown shown') (hs : t.Sound)
    (ht : type ∈ t.messages) :
    (do return Json.obj (ToJson.assemble t type (← shown))) =
      (do return Json.obj (ToJson.assemble t type (← shown'))) := by
  cases h with
  | ok h => exact congrArg (fun ms => Except.ok (Json.obj ms)) (h.assemble hs ht)
  | error e => rfl

end

end ToJson

mutual

theorem ToJson.message_clearDefaults (hs : t.Sound) (inner : ToJson.Inner) (name : String)
    (type : MessageType) (ht : t.message? name = some type) : ∀ m : Message, m.Fits t type →
      m.hasNegativeZero = false →
      ToJson.message inner t name (m.clearDefaults t name) = ToJson.message inner t name m
  | ⟨known, unknown⟩, hm, hz => by
    have hbytes := Wire.message?_clearDefaults ht hm
    have hfields := ToJson.fields_clearFields hs inner type (TypeTable.message?_mem ht) known hm.2
      hm.1.sorted hz
    simp only [Message.clearDefaults, ht] at hbytes ⊢
    simp only [ToJson.message]
    split
    · rfl
    · simp only [ToJson.unsettle, WellKnown.transfer, hbytes]
    · simp only [ht]
      split
      · rfl
      · exact (hfields.assemble hs (TypeTable.message?_mem ht)).symm

theorem ToJson.fields_clearFields (hs : t.Sound) (inner : ToJson.Inner) (type : MessageType)
    (ht : type ∈ t.messages) : ∀ known : List (Nat × Value), Message.FieldsFit t type known →
      (Message.numbers known).Pairwise (· < ·) → Message.fieldsHaveNegativeZero known = false →
      ToJson.SparedIn t type (ToJson.fields inner t type known)
        (ToJson.fields inner t type (Message.clearFields t type known))
  | [], _, _, _ => by
    rw [Message.clearFields, ToJson.fields]
    exact .ok .nil
  | (number, v) :: rest, hfit, hsorted, hz => by
    obtain ⟨hv, hrest⟩ := hfit
    obtain ⟨hlt, hsorted⟩ := List.pairwise_cons.mp hsorted
    obtain ⟨hzv, hzrest⟩ := Bool.or_eq_false_iff.mp hz
    have ih := ToJson.fields_clearFields hs inner type ht rest hrest hsorted hzrest
    cases ho : type.fieldNumbered? number with
    | none =>
      simp only [Message.clearFields, ToJson.fields, ho, Option.isNone_none, Bool.true_and]
      split
      · exact ih
      · split
        · exact ih
        · exact ih.kept number _
    | some f =>
      have hf := TypeTable.fieldNumbered?_own (t := t) ho
      simp only [hf] at hv
      cases hx : t.isRedundant f v with
      | true =>
        have hsound := hs.numbered ht hf
        have hp := TypeTable.hasPresence_of_redundant hx
        have hvalue := ToJson.value_redundant hsound inner hv hx hzv
        have hfree : ∀ ys, ToJson.fields inner t type (Message.clearFields t type rest) = .ok ys →
            ys.lookup number = none := by
          intro ys hys
          rw [List.lookup_eq_none_iff]
          intro e he
          have hmem := (ToJson.numbers_fields hys).subset (List.mem_map_of_mem he)
          have hne := hlt _ ((Message.clearFields_numbers t type rest).subset hmem)
          exact bne_iff_ne.mpr (Nat.ne_of_lt hne)
        simp only [Message.clearFields, ToJson.fields, ho, hf, hx, hvalue, Option.isNone_some,
          Bool.false_and, Bool.false_eq_true, ↓reduceIte]
        exact ih.spared ho hp hfree
      | false =>
        have hvalue := ToJson.value_clearDefaults hs inner f v (t.shape f) (.inl rfl) hv hzv
        simp only [Message.clearFields, ToJson.fields, ho, hf, hx, hvalue, Option.isNone_some,
          Bool.false_and, Bool.false_eq_true, ↓reduceIte]
        exact ih.kept number _

theorem ToJson.value_clearDefaults (hs : t.Sound) (inner : ToJson.Inner) (f : Field) :
    ∀ (v : Value) (shape : Shape), UnderField t f shape → v.Fits t shape →
      v.hasNegativeZero = false →
      ToJson.value inner t f (v.clearDefaults t f) = ToJson.value inner t f v
  | .bool _, _, _, _, _ | .int _ _, _, _, _, _ | .enum _, _, _, _, _ | .single _, _, _, _, _
  | .double _, _, _, _, _ | .str _, _, _, _, _ | .bytes _, _, _, _, _ => by
    simp [Value.clearDefaults]
  | .message name m, shape, hu, hfit, hz => by
    obtain ⟨-, -, type, ht, hm⟩ := hu.message hfit
    simp [Value.clearDefaults, ToJson.value,
      ToJson.message_clearDefaults hs inner name type ht m hm hz]
  | .list items, shape, hu, hfit, hz => by
    obtain ⟨-, hitems⟩ := hu.list hfit
    simp [Value.clearDefaults, ToJson.value, ToJson.items_clearItems hs inner f items hitems hz]
  | .map entries, shape, hu, hfit, hz => by
    obtain ⟨entry, k, w, hm, hk, hw, -, hentries⟩ := hu.entries hfit
    simp [Value.clearDefaults, ToJson.value, hm, hw,
      ToJson.entries_clearEntries hs inner w k.kind entries hentries hz]

theorem ToJson.items_clearItems (hs : t.Sound) (inner : ToJson.Inner) (f : Field) :
    ∀ items : List Value, Value.ItemsFit t f.kind items →
      Value.itemsHaveNegativeZero items = false →
      ToJson.items inner t f (Value.clearItems t f items) = ToJson.items inner t f items
  | [], _, _ => by rw [Value.clearItems]
  | v :: vs, hfit, hz => by
    obtain ⟨hzv, hzvs⟩ := Bool.or_eq_false_iff.mp hz
    have hv := ToJson.value_clearDefaults hs inner f v (.single f.kind) (.inr rfl) hfit.1 hzv
    simp [Value.clearItems, ToJson.items, hv, ToJson.items_clearItems hs inner f vs hfit.2 hzvs]

theorem ToJson.entries_clearEntries (hs : t.Sound) (inner : ToJson.Inner) (f : Field)
    (key : Kind) : ∀ entries : List (MapKey × Value), Value.EntriesFit t key f.kind entries →
      Value.entriesHaveNegativeZero entries = false →
      ToJson.entries inner t f (Value.clearEntries t f entries) =
        ToJson.entries inner t f entries
  | [], _, _ => by rw [Value.clearEntries]
  | (k, v) :: rest, hfit, hz => by
    obtain ⟨hzv, hzrest⟩ := Bool.or_eq_false_iff.mp hz
    have hv := ToJson.value_clearDefaults hs inner f v (.single f.kind) (.inr rfl) hfit.1.2 hzv
    simp [Value.clearEntries, ToJson.entries, hv,
      ToJson.entries_clearEntries hs inner f key rest hfit.2 hzrest]

end

/-- The member of a oneof that is set. -/
def MessageType.setMember? (type : MessageType) (t : TypeTable) (oneof : Nat) (m : Message) :
    Option Field :=
  type.fields.find? fun f => f.oneof == some oneof && t.isSet f m

namespace Message

variable {name : String} {m : Message}

theorem toText_clearDefaults (hs : t.Sound) (ht : t.message? name = some type) (hm : m.Fits t type)
    (hz : m.hasNegativeZero = false) :
    (m.clearDefaults t name).toText t name = m.toText t name := by
  have hrender : ToJson.render t name (m.clearDefaults t name) = ToJson.render t name m := by
    rw [ToJson.render, ToJson.render, Wire.message_clearDefaults name type ht m hm]
    exact ToJson.message_clearDefaults hs _ name type ht m hm hz
  rw [toText, toText, hrender]

theorem setMember?_clearDefaults (hs : t.Sound) (ht : t.message? name = some type)
    (hm : m.Fits t type) (oneof : Nat) :
    type.setMember? t oneof (m.clearDefaults t name) = type.setMember? t oneof m := by
  unfold MessageType.setMember?
  rw [← List.head?_filter, ← List.head?_filter]
  congr 1
  exact List.filter_congr fun f hf => by rw [isSet_clearDefaults hs ht hm hf]

/-- What is set in a field that has presence is kept, be it the default of the field. -/
theorem find?_explicit (hs : t.Sound) (ht : t.message? name = some type) (hm : m.Fits t type)
    {f : Field} (hf : f ∈ type.fields) (hp : f.hasPresence = true) {v : Value}
    (hv : m.find? f.number = some v) :
    ∃ w, (m.clearDefaults t name).find? f.number = some w ∧ v.Agrees t f w := by
  have hown := MessageType.fieldNumbered?_self hs (TypeTable.message?_mem ht) hf
  have hx : t.isRedundant f v = false := by simp [TypeTable.isRedundant, hp]
  have hfits := stored_fits hm (TypeTable.fieldNumbered?_own hown) hv
  refine ⟨v.clearDefaults t f, ?_, Value.agrees_clearDefaults hs f v (t.shape f) (.inl rfl) hfits⟩
  rw [find?_clearDefaults ht hm, hown]
  simp [hv, Option.filter_some, hx]

/-- How a message stands to the one that clearing makes of it: both set the same to the same, and
nobody who reads bytes, text, or what is set can tell them apart. An equality of what is stored can,
if something redundant was stored. -/
structure Cleared (t : TypeTable) (name : String) (type : MessageType) (m m' : Message) :
    Prop where
  agrees : m.Agrees t name m'
  /-- The two are equal exactly if nothing redundant was stored. -/
  same : m'.same m = m.isTrimmed t name
  wire : m'.toWire t name = m.toWire t name
  text : m'.toText t name = m.toText t name
  unknown : m'.unknown = m.unknown
  extensions : ∀ number, type.fieldNumbered? number = none → m'.find? number = m.find? number
  /-- The same member of each oneof is set. -/
  members : ∀ oneof, type.setMember? t oneof m' = type.setMember? t oneof m
  /-- What has presence is kept, a default too. -/
  explicit : ∀ f ∈ type.fields, f.hasPresence = true → ∀ v, m.find? f.number = some v →
    ∃ w, m'.find? f.number = some w ∧ v.Agrees t f w
  again : m'.clearDefaults t name = m'
  trimmed : m'.isTrimmed t name = true

/-- Clearing makes nothing of a message but its form without redundant values. -/
theorem clearDefaults_canonical {d : Disk} {root : String} {importPath : ImportPath} {s : Schema}
    (hload : Schema.load d root importPath = .ok s) (ht : s.types.message? name = some type)
    (hm : m.Fits s.types type) (hnan : m.hasNaN = false) (hzero : m.hasNegativeZero = false) :
    Cleared s.types name type m (m.clearDefaults s.types name) := by
  have hs := Schema.load_sound hload
  have hfind := find?_clearDefaults ht hm
  obtain ⟨known, unknown⟩ := m
  refine
    { agrees := agrees_clearDefaults hs name type ht _ hm
      same := same_clearDefaults s.types name _ hnan
      wire := Wire.message?_clearDefaults ht hm
      text := toText_clearDefaults hs ht hm hzero
      unknown := by simp [clearDefaults, ht]
      extensions := fun number ho => ?_
      members := setMember?_clearDefaults hs ht hm
      explicit := fun f hf hp v hv => find?_explicit hs ht hm hf hp hv
      again := clearDefaults_cleared s.types name _
      trimmed := clearDefaults_trimmed s.types name _ }
  rw [hfind, ho]

/-- The message that is stored for a number. -/
def part? (number : Nat) (m : Message) : Option Message :=
  match m.find? number with
  | some (.message _ n) => some n
  | _ => none

theorem part?_fits {number : Nat} {f : Field} {inner : String} {n : Message} (hm : m.Fits t type)
    (hf : t.fieldNumbered? type number = some f) (hk : f.kind = .message inner)
    (hn : m.part? number = some n) :
    ∃ type, t.message? inner = some type ∧ n.Fits t type := by
  unfold part? at hn
  split at hn
  · rename_i n hv
    cases hn
    obtain ⟨hk', -, type, ht, hn⟩ := UnderField.message (.inl rfl) (stored_fits hm hf hv)
    obtain rfl := Kind.message.inj (hk.symm.trans hk')
    exact ⟨type, ht, hn⟩
  · cases hn

/-- A message of a schema that is part of one that is read from text. -/
structure IsPart (source text : String) (s : Schema) (type : MessageType) (m : Message) :
    Prop where
  load : Schema.load (.ofFile "a.proto" source) "/a.proto" [] = .ok s
  named : s.types.message? "M" = some type
  read : ∃ n, fromText s.types "M" text = .ok n ∧ n.part? 2 = some m
  fits : m.Fits s.types type
  noNaN : m.hasNaN = false
  noNegativeZero : m.hasNegativeZero = false

theorem IsPart.of_runs {source text : String} {p : Schema → Message → Bool}
    (h : ∃ s ∈ (Schema.load (.ofFile "a.proto" source) "/a.proto" []).toOption,
      ∃ n ∈ (fromText s.types "M" text).toOption, ∃ type ∈ s.types.message? "M",
        ∃ f ∈ s.types.fieldNumbered? type 2, ∃ m ∈ n.part? 2, f.kind = .message "M" ∧
          s.types.Regular ∧ m.hasNaN = false ∧ m.hasNegativeZero = false ∧ p s m = true) :
    ∃ s type m, IsPart source text s type m ∧ p s m = true := by
  obtain ⟨s, hload, n, hread, type, ht, f, hf, m, hm, hk, hreg, hnan, hzero, hp⟩ := h
  have hload := ok_of_mem hload
  have hread := ok_of_mem hread
  have hfits := Made.fits (Schema.load_sound hload) hreg ht (.text hread)
  obtain ⟨type', ht', hfit⟩ := part?_fits hfits hf hk hm
  obtain rfl : type = type' := Option.some.inj (ht.symm.trans ht')
  exact ⟨s, type, m, ⟨hload, ht, ⟨n, hread, hm⟩, hfit, hnan, hzero⟩, hp⟩

/-- A type with a field that has presence next to a list, and an extension of the type. -/
def explicitSource : String :=
  "message M{extensions 2;repeated M m=1;optional int32 o=3;}extend M{optional M x=2;}"

def explicitText : String :=
  "\x7b\"[x]\":\x7b\"m\":[\x7b\"m\":[]\x7d],\"o\":0\x7d\x7d"

/-- A default is kept where it is set explicitly, and cleared inside an item of a list. -/
theorem clearDefaults_canonical_part :
    ∃ s type m, IsPart explicitSource explicitText s type m ∧
      ((m.clearDefaults s.types "M").find? 3).isSome = true ∧
      Cleared s.types "M" type m (m.clearDefaults s.types "M") := by
  have hrun : ∃ s type m, IsPart explicitSource explicitText s type m ∧
      ((m.clearDefaults s.types "M").find? 3).isSome = true :=
    IsPart.of_runs (by decide +kernel)
  obtain ⟨s, type, m, h, hkept⟩ := hrun
  exact ⟨s, type, m, h, hkept,
    clearDefaults_canonical h.load h.named h.fits h.noNaN h.noNegativeZero⟩

/-- Text leaves an empty list in an extension, and the message without it is another one. -/
theorem clearDefaults_not_same :
    ∃ s type m, IsPart "message M{extensions 2;repeated M m=1;}extend M{optional M x=2;}"
      "\x7b\"[x]\":\x7b\"m\":[]\x7d\x7d" s type m ∧
      (!(m.clearDefaults s.types "M").same m) = true :=
  IsPart.of_runs (by decide +kernel)

end Message
end RpcConsole

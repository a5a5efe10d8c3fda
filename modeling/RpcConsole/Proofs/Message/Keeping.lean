import RpcConsole.Proofs.Message.Storing
import RpcConsole.Proofs.Message.Stripped
import RpcConsole.Proofs.Number.Integer
import RpcConsole.Proofs.Schema.Sound

namespace RpcConsole

namespace Message

variable {number k : Nat} {v w : Value} {known : List (Nat × Value)}

theorem mem_insertField {e : Nat × Value} (h : e ∈ insertField number v known) :
    e = (number, v) ∨ e ∈ known := by
  induction known with
  | nil => exact .inl (by simpa [insertField] using h)
  | cons d rest ih =>
    unfold insertField at h
    split at h
    · exact List.mem_cons.mp h
    · split at h
      · rcases List.mem_cons.mp h with h | h
        · exact .inl h
        · exact .inr (List.mem_cons_of_mem _ h)
      · rcases List.mem_cons.mp h with rfl | h
        · exact .inr (by simp)
        · exact (ih h).imp_right (List.mem_cons_of_mem _)

theorem mem_numbers_insertField (h : k ∈ numbers (insertField number v known)) :
    k = number ∨ k ∈ numbers known := by
  obtain ⟨e, he, rfl⟩ := List.mem_map.mp h
  rcases mem_insertField he with rfl | he
  · exact .inl rfl
  · exact .inr (List.mem_map_of_mem he)

theorem numbers_insertField :
    k ∈ numbers (insertField number v known) ↔ k = number ∨ k ∈ numbers known := by
  refine ⟨mem_numbers_insertField, ?_⟩
  induction known with
  | nil => simp [insertField, numbers]
  | cons d rest ih =>
    intro h
    unfold insertField
    split
    · simpa [numbers] using h
    · split
      · rename_i he
        rw [beq_iff_eq] at he
        simpa [numbers, he] using h
      · simp only [numbers, List.map_cons, List.mem_cons] at h ih ⊢
        rcases h with h | h | h
        · exact .inr (ih (.inl h))
        · exact .inl h
        · exact .inr (ih (.inr h))

theorem insertField_sorted (h : (numbers known).Pairwise (· < ·)) :
    (numbers (insertField number v known)).Pairwise (· < ·) := by
  induction known with
  | nil => simp [insertField, numbers]
  | cons d rest ih =>
    obtain ⟨hlt, hs⟩ := List.pairwise_cons.mp h
    unfold insertField
    by_cases hnd : number < d.1
    · simp only [hnd, ↓reduceIte]
      refine .cons ?_ h
      intro n hn
      rcases List.mem_cons.mp hn with rfl | hn
      · exact hnd
      · exact Nat.lt_trans hnd (hlt n hn)
    · by_cases heq : number = d.1
      · subst heq
        simp only [hnd, ↓reduceIte, beq_self_eq_true]
        exact .cons hlt hs
      · have hne : (number == d.1) = false := by simp [heq]
        simp only [hnd, ↓reduceIte, hne, Bool.false_eq_true]
        refine .cons ?_ (ih hs)
        intro n hn
        rcases mem_numbers_insertField hn with rfl | hn
        · show d.1 < n
          omega
        · exact hlt n hn

theorem mem_insertUnknown {u e : Nat × UnknownValue} {unknown : List (Nat × UnknownValue)}
    (h : e ∈ insertUnknown u.1 u.2 unknown) : e = u ∨ e ∈ unknown := by
  induction unknown with
  | nil => exact .inl (by simpa [insertUnknown] using h)
  | cons d rest ih =>
    unfold insertUnknown at h
    split at h
    · exact List.mem_cons.mp h
    · rcases List.mem_cons.mp h with rfl | h
      · exact .inr (by simp)
      · exact (ih h).imp_right (List.mem_cons_of_mem _)

theorem insertUnknown_sorted {u : Nat × UnknownValue} {unknown : List (Nat × UnknownValue)}
    (h : (numbers unknown).Pairwise (· ≤ ·)) :
    (numbers (insertUnknown u.1 u.2 unknown)).Pairwise (· ≤ ·) := by
  induction unknown with
  | nil => simp [insertUnknown, numbers]
  | cons d rest ih =>
    obtain ⟨hle, hs⟩ := List.pairwise_cons.mp h
    unfold insertUnknown
    by_cases hlt : u.1 < d.1
    · simp only [hlt, ↓reduceIte]
      refine .cons ?_ h
      intro n hn
      rcases List.mem_cons.mp hn with rfl | hn
      · exact Nat.le_of_lt hlt
      · exact Nat.le_trans (Nat.le_of_lt hlt) (hle n hn)
    · simp only [hlt, ↓reduceIte]
      refine .cons ?_ (ih hs)
      intro n hn
      obtain ⟨e, he, rfl⟩ := List.mem_map.mp hn
      rcases mem_insertUnknown he with rfl | he
      · exact Nat.le_of_not_lt hlt
      · exact hle _ (List.mem_map_of_mem he)

theorem empty_fits (t : TypeTable) (type : MessageType) : empty.Fits t type :=
  ⟨⟨.nil, by simp [numbers], .nil, by simp [numbers], trivial⟩, trivial⟩

end Message

namespace MessageType

variable {t : TypeTable} {type : MessageType} {f g : Field} {v : Value} {m : Message}

theorem clearAll_known (gs : List Field) (m : Message) :
    gs.foldl (fun m g => m.clear g.number) m =
      ⟨m.known.filter (fun e => !(gs.map Field.number).contains e.1), m.unknown⟩ := by
  induction gs generalizing m with
  | nil =>
    cases m
    simp
  | cons g gs ih =>
    rw [List.foldl_cons, ih]
    simp only [Message.clear, List.filter_filter, List.map_cons, List.contains_cons, Bool.not_or]
    congr 1
    refine List.filter_congr fun e _ => ?_
    rw [Bool.and_comm]
    rfl

theorem mem_rivals : g ∈ type.rivals f ↔
    g ∈ type.fields ∧ f.oneof.isSome ∧ g.oneof = f.oneof ∧ g.number ≠ f.number := by
  unfold rivals
  cases ho : f.oneof with
  | none => simp
  | some i => simp

theorem store_eq (type : MessageType) (f : Field) (v : Value) (m : Message) :
    type.store f v m =
      ⟨Message.insertField f.number v (m.known.filter
        (fun e => !((type.rivals f).map Field.number).contains e.1)), m.unknown⟩ := by
  rw [store, clearAll_known]
  rfl

/-- A stored value of the right shape leaves the message fitting. -/
theorem store_fits (hs : t.Sound) (ht : type ∈ t.messages)
    (hf : t.fieldNumbered? type f.number = some f) (hv : v.Fits t (t.shape f))
    (hm : m.Fits t type) : (type.store f v m).Fits t type := by
  obtain ⟨known, unknown⟩ := m
  obtain ⟨harr, hfields⟩ := hm
  rw [store_eq]
  generalize hkept : known.filter
    (fun e => !((type.rivals f).map Field.number).contains e.1) = kept
  have hmem : ∀ n ∈ Message.numbers kept, n ∈ Message.numbers known ∧
      ∀ g ∈ type.rivals f, g.number ≠ n := by
    intro n hn
    obtain ⟨e, he, rfl⟩ := List.mem_map.mp hn
    rw [← hkept, List.mem_filter] at he
    refine ⟨List.mem_map_of_mem he.1, ?_⟩
    intro g hg heq
    have hc : ((type.rivals f).map Field.number).contains e.1 = true := by
      rw [List.contains_iff_mem, ← heq]
      exact List.mem_map_of_mem hg
    rw [hc] at he
    exact Bool.false_ne_true he.2
  have hown : ∀ g ∈ type.fields, g.number = f.number → g = f := by
    intro g hg hn
    have hfind := find?_of_nodup Field.number (hs.numbers type ht) hg
    rw [hn] at hfind
    have := TypeTable.fieldNumbered?_own (t := t) hfind
    rw [hf] at this
    exact (Option.some.inj this).symm
  refine ⟨⟨?_, ?_, harr.unknownSorted, harr.unknownFree, harr.unknownFit⟩, ?_⟩
  · have hsub : (Message.numbers kept).Sublist (Message.numbers known) := by
      rw [← hkept]
      exact List.filter_sublist.map _
    exact Message.insertField_sorted (harr.sorted.sublist hsub)
  · intro g hg hgmem h hh hhmem
    obtain ⟨hhf, hsome, hoh, hne⟩ := mem_rivals.mp hh
    rcases Message.mem_numbers_insertField hgmem with hgn | hgn
    · obtain rfl := hown g hg hgn
      rcases Message.mem_numbers_insertField hhmem with hhn | hhn
      · exact hne hhn
      · exact (hmem _ hhn).2 h hh rfl
    · rcases Message.mem_numbers_insertField hhmem with hhn | hhn
      · obtain rfl := hown h hhf hhn
        -- the stored field is a rival of one that is still there, which it would have cleared
        exact (hmem _ hgn).2 g (mem_rivals.mpr ⟨hg, by rwa [hoh], hoh.symm, hne.symm⟩) rfl
      · exact harr.exclusive g hg (hmem _ hgn).1 h hh (hmem _ hhn).1
  · rw [Message.fieldsFit_iff] at hfields ⊢
    intro e he
    rcases Message.mem_insertField he with rfl | he
    · exact ⟨f, hf, hv⟩
    · rw [← hkept] at he
      exact hfields e (List.mem_filter.mp he).1

end MessageType

/-- What is stored for a field is of its shape. -/
theorem Message.stored_fits {t : TypeTable} {type : MessageType} {m : Message} {number : Nat}
    {f : Field} {v : Value} (hm : m.Fits t type) (hf : t.fieldNumbered? type number = some f)
    (hv : m.find? number = some v) : v.Fits t (t.shape f) := by
  obtain ⟨known, unknown⟩ := m
  have hmem : (number, v) ∈ known := mem_of_lookup hv
  obtain ⟨g, hg, hfit⟩ := Message.fieldsFit_iff.mp hm.2 _ hmem
  rw [hf, Option.some.injEq] at hg
  exact hg ▸ hfit

theorem Message.addUnknown_fits {t : TypeTable} {type : MessageType} {m : Message} {number : Nat}
    {u : UnknownValue} (hn : Wire.IsNumber number) (hf : t.fieldNumbered? type number = none)
    (hu : u.Fits) (hm : m.Fits t type) : (m.addUnknown number u).Fits t type := by
  obtain ⟨known, unknown⟩ := m
  obtain ⟨harr, hfields⟩ := hm
  refine ⟨⟨harr.sorted, harr.exclusive, insertUnknown_sorted (u := (number, u))
    harr.unknownSorted, ?_, ?_⟩, hfields⟩
  · intro n hmem
    obtain ⟨e, he, rfl⟩ := List.mem_map.mp hmem
    rcases mem_insertUnknown (u := (number, u)) he with rfl | he
    · exact hf
    · exact harr.unknownFree _ (List.mem_map_of_mem he)
  · rw [UnknownValue.fieldsFit_iff]
    intro e he
    rcases mem_insertUnknown (u := (number, u)) he with rfl | he
    · exact ⟨hn, hu⟩
    · exact UnknownValue.fieldsFit_iff.mp harr.unknownFit e he

/-- Keys of one kind with one text are one key. -/
theorem MapKey.text_inj {kind : Kind} {k l : MapKey} (hk : kind.Takes (Wire.keyValue k))
    (hl : kind.Takes (Wire.keyValue l)) (h : k.text = l.text) : k = l := by
  cases kind with
  | message | enum => cases k <;> simp [Kind.Takes, Wire.keyValue] at hk
  | scalar s =>
    cases k with
    | bool a =>
      have hs : s = .bool := hk
      subst hs
      cases l with
      | bool b => cases a <;> cases b <;> first | rfl | simp [MapKey.text] at h
      | int r n => cases hl.1
      | str b => cases hl
    | int r m =>
      obtain ⟨hr, -⟩ := hk
      cases l with
      | bool b =>
        have hs : s = .bool := hl
        subst hs
        cases hr
      | int r' n =>
        obtain ⟨hr', -⟩ := hl
        obtain rfl := Option.some.inj (hr.symm.trans hr')
        exact congrArg (MapKey.int r) (toString_inj h)
      | str b =>
        have hs : s = .string := hl
        subst hs
        cases hr
    | str a =>
      have hs : s = .string := hk
      subst hs
      cases l with
      | bool b => cases hl
      | int r n => cases hl.1
      | str b => exact congrArg MapKey.str h

namespace Value

variable {t : TypeTable} {key value : Kind} {k : MapKey} {v : Value} {es : List (MapKey × Value)}

theorem mem_insertEntry {e : MapKey × Value} (h : e ∈ insertEntry k v es) :
    e = (k, v) ∨ e ∈ es := by
  induction es with
  | nil => exact .inl (by simpa [insertEntry] using h)
  | cons d rest ih =>
    unfold insertEntry at h
    split at h
    · exact List.mem_cons.mp h
    · split at h
      · rcases List.mem_cons.mp h with h | h
        · exact .inl h
        · exact .inr (List.mem_cons_of_mem _ h)
      · rcases List.mem_cons.mp h with rfl | h
        · exact .inr (by simp)
        · exact (ih h).imp_right (List.mem_cons_of_mem _)

/-- A map in order stays so, because entries with the text of a key have the key. -/
theorem insertEntry_keeps_sorted (hk : key.Takes (Wire.keyValue k))
    (hes : EntriesFit t key value es) (hs : Sorted es) : Sorted (insertEntry k v es) := by
  induction es with
  | nil => simp [insertEntry, Sorted]
  | cons d rest ih =>
    obtain ⟨hlt, hs⟩ := List.pairwise_cons.mp hs
    obtain ⟨⟨hd, -⟩, hrest⟩ := hes
    unfold insertEntry
    by_cases hkd : k.text < d.1.text
    · simp only [hkd, ↓reduceIte]
      refine .cons ?_ (.cons hlt hs)
      intro e he
      rcases List.mem_cons.mp he with rfl | he
      · exact hkd
      · exact lt_trans hkd (hlt e he)
    · by_cases heq : k = d.1
      · subst heq
        simp only [hkd, ↓reduceIte, beq_self_eq_true]
        exact .cons hlt hs
      · have hne : (k == d.1) = false := by simp [heq]
        simp only [hkd, ↓reduceIte, hne, Bool.false_eq_true]
        refine .cons ?_ (ih hrest hs)
        intro e he
        rcases mem_insertEntry he with rfl | he
        · exact lt_of_le_of_ne (not_lt.mp hkd) fun ht => heq (MapKey.text_inj hk hd ht.symm)
        · exact hlt e he

theorem insertEntry_fits (hk : key.Takes (Wire.keyValue k)) (hv : v.Fits t (.single value))
    (hes : EntriesFit t key value es) : EntriesFit t key value (insertEntry k v es) := by
  rw [entriesFit_iff] at hes ⊢
  intro e he
  rcases mem_insertEntry he with rfl | he
  · exact ⟨hk, hv⟩
  · exact hes e he

end Value
end RpcConsole

import RpcConsole.Proofs.Message.Shown

namespace RpcConsole

variable {t : TypeTable} {type : MessageType} {f : Field} {v : Value}

/-- Fields by number that store the same are the same. -/
theorem Message.eq_of_numbers {as bs : List (Nat × Value)}
    (ha : (Message.numbers as).Pairwise (· < ·)) (hb : (Message.numbers bs).Pairwise (· < ·))
    (hsub : ∀ e ∈ as, e ∈ bs) (hnumbers : ∀ n ∈ Message.numbers bs, n ∈ Message.numbers as) :
    as = bs := by
  have hnodup {es : List (Nat × Value)} (h : (Message.numbers es).Pairwise (· < ·)) :
      (Message.numbers es).Nodup :=
    h.imp fun hlt => Nat.ne_of_lt hlt
  have hperm : as.Perm bs := by
    refine (List.perm_ext_iff_of_nodup (hnodup ha).of_map (hnodup hb).of_map).mpr fun e => ?_
    refine ⟨hsub e, fun he => ?_⟩
    obtain ⟨d, hd, hde⟩ := List.mem_map.mp (hnumbers e.1 (List.mem_map_of_mem he))
    exact List.inj_on_of_nodup_map (hnodup hb) (hsub d hd) he hde ▸ hd
  refine hperm.eq_of_pairwise ?_ (List.pairwise_map.mp ha) (List.pairwise_map.mp hb)
  intro a b _ _ hab hba
  exact absurd (Nat.lt_trans hab hba) (Nat.lt_irrefl _)

namespace FromJson

/-- A member shows the value that is stored for a number. -/
def Means (t : TypeTable) (type : MessageType) (known : List (Nat × Value)) (m : String × Json) :
    Prop :=
  ∃ number f v, m.1 = t.key type number ∧ t.fieldNumbered? type number = some f ∧
    value t (t.shape f) m.2 = .ok (some v) ∧ m.2 ≠ .null ∧ (number, v) ∈ known

/-- Nothing stands in the way of storing a value for a number for which nothing is stored, if other
members of its oneof are not among those that are stored in the end. -/
theorem assign_free (hs : t.Sound) {known acc : List (Nat × Value)}
    (harr : Message.Arranged t type known []) (hacc : ∀ e ∈ acc, e ∈ known) {number : Nat}
    (hf : t.fieldNumbered? type number = some f) (hv : (number, v) ∈ known)
    (hfree : number ∉ Message.numbers acc) :
    assign t type f (some v) ⟨acc, []⟩ = .ok ⟨Message.insertField number v acc, []⟩ := by
  have hn := TypeTable.fieldNumbered?_number hf
  have hsub : ∀ n ∈ Message.numbers acc, n ∈ Message.numbers known := by
    intro n hn
    obtain ⟨e, he, rfl⟩ := List.mem_map.mp hn
    exact List.mem_map_of_mem (hacc e he)
  have hstored : f.number ∈ Message.numbers known := hn ▸ List.mem_map_of_mem hv
  -- members of oneofs are fields of the type, not extensions
  have hrivals : ∀ i, f.oneof = some i → ∀ g ∈ type.fields, g.oneof = some i →
      g.number ∉ Message.numbers acc := by
    intro i hi g hg hgi hgacc
    obtain ⟨-, ho | ⟨x, hx, -, rfl⟩⟩ := TypeTable.fieldNumbered?_cases hf
    · by_cases hsame : g.number = f.number
      · exact hfree (hn ▸ hsame ▸ hgacc)
      · have hrival : g ∈ type.rivals f := MessageType.mem_rivals.mpr
          ⟨hg, by simp [hi], by rw [hgi, hi], hsame⟩
        exact harr.exclusive f (List.mem_of_find?_eq_some ho) hstored g hrival (hsub _ hgacc)
    · rw [(hs.extension x hx).alone] at hi
      cases hi
  have htaken : takenOneof? t type f ⟨acc, []⟩ = none := by
    unfold takenOneof?
    cases hi : f.oneof with
    | none => rfl
    | some i =>
      have hany : type.fields.any (fun g => g.oneof == some i && t.isSet g ⟨acc, []⟩) = false := by
        rw [List.any_eq_false]
        intro g hg hset
        obtain ⟨hgi, hset⟩ := Bool.and_eq_true_iff.mp hset
        have hl := Message.lookup_none (hrivals i hi g hg (beq_iff_eq.mp hgi))
        simp [TypeTable.isSet, Message.find?, hl] at hset
      simp [hany]
  have hstore : type.store f v ⟨acc, []⟩ = ⟨Message.insertField f.number v acc, []⟩ := by
    refine MessageType.store_of_free fun g hg => ?_
    obtain ⟨hgf, hsome, hog, -⟩ := MessageType.mem_rivals.mp hg
    obtain ⟨i, hi⟩ := Option.isSome_iff_exists.mp hsome
    exact hrivals i hi g hgf (by rw [hog, hi])
  rw [← hn]
  simp only [assign, htaken, hstore]

/-- Members that show all that a message stores are read as the message, in whatever order they
come. -/
theorem members_means (hs : t.Sound) (hn : t.Named) (ht : type ∈ t.messages)
    (hl : type.Legible t) {known : List (Nat × Value)} (harr : Message.Arranged t type known [])
    (hknown : ∀ n ∈ Message.numbers known, ∃ f, t.fieldNumbered? type n = some f) :
    ∀ (ms : List (String × Json)) (acc : List (Nat × Value)),
      (Json.keys ms).Nodup → (∀ m ∈ ms, Means t type known m) → (∀ e ∈ acc, e ∈ known) →
      (Message.numbers acc).Pairwise (· < ·) →
      (∀ n ∈ Message.numbers acc, t.key type n ∉ Json.keys ms) →
      (∀ n ∈ Message.numbers known, n ∈ Message.numbers acc ∨ t.key type n ∈ Json.keys ms) →
      members t type none ms ⟨acc, []⟩ = .ok ⟨known, []⟩
  | [], acc, _, _, hacc, hsorted, _, hall => by
    have heq := Message.eq_of_numbers hsorted harr.sorted hacc fun n hn =>
      (hall n hn).resolve_right (by simp [Json.keys])
    rw [members, heq]
  | (k, j) :: ms, acc, hnodup, hmeans, hacc, hsorted, hfree, hall => by
    obtain ⟨hk, hdistinct⟩ := List.nodup_cons.mp hnodup
    obtain ⟨⟨number, f, v, rfl, hf, hv, hfull, hmem⟩, hrest⟩ := List.forall_mem_cons.mp hmeans
    have hnew : number ∉ Message.numbers acc := by
      intro h
      exact hfree number h (by simp [Json.keys])
    have hfield := TypeTable.fieldFor?_key hl hn ht hf
    have hmember : member t f j = .ok (some v) := (member_eq_value hfull).trans hv
    have hassign := assign_free hs harr hacc hf hmem hnew
    have ih := members_means hs hn ht hl harr hknown ms (Message.insertField number v acc)
      hdistinct hrest
    rw [members_cons rfl, hfield]
    simp only [hmember, hassign, bind, Except.bind]
    refine ih ?_ (Message.insertField_sorted hsorted) ?_ ?_
    · intro e he
      rcases Message.mem_insertField he with rfl | he
      · exact hmem
      · exact hacc e he
    · intro n hn hkeys
      rcases Message.mem_numbers_insertField hn with rfl | hn
      · exact hk hkeys
      · exact hfree n hn (List.mem_cons_of_mem _ hkeys)
    · intro n hmemn
      rcases hall n hmemn with h | h
      · exact .inl (Message.numbers_insertField.mpr (.inr h))
      · rcases List.mem_cons.mp h with h | h
        · obtain ⟨g, hg⟩ := hknown n hmemn
          exact .inl (Message.numbers_insertField.mpr (.inl (TypeTable.key_inj hn ht hl hg hf h)))
        · exact .inr h

end FromJson

namespace Message

variable {known : List (Nat × Value)} {fields : List Field}

theorem mem_insertField_self (number : Nat) (v : Value) (known : List (Nat × Value)) :
    (number, v) ∈ insertField number v known := by
  induction known with
  | nil => simp [insertField]
  | cons d rest ih =>
    unfold insertField
    split
    · simp
    · split
      · simp
      · exact List.mem_cons_of_mem _ ih

theorem mem_insertField_of_ne {number : Nat} {e : Nat × Value} (he : e ∈ known)
    (hne : e.1 ≠ number) : e ∈ insertField number v known := by
  induction known with
  | nil => cases he
  | cons d rest ih =>
    unfold insertField
    split
    · exact List.mem_cons_of_mem _ he
    · split
      · rename_i heq
        rw [beq_iff_eq] at heq
        rcases List.mem_cons.mp he with rfl | he
        · exact absurd heq.symm hne
        · exact List.mem_cons_of_mem _ he
      · rcases List.mem_cons.mp he with rfl | he
        · simp
        · exact List.mem_cons_of_mem _ (ih he)

/-- What was stored stays stored. -/
theorem Storable.kept (h : Storable t type known fields) {e : Nat × Value} (he : e ∈ known) :
    e ∈ withDefaults t fields known := by
  induction fields with
  | nil => exact he
  | cons f fields ih =>
    refine mem_insertField_of_ne (ih h.tail) fun hn => ?_
    exact h.free f (by simp) (hn ▸ List.mem_map_of_mem he)

/-- Each default gets stored. -/
theorem Storable.stored (h : Storable t type known fields) (hf : f ∈ fields) :
    (f.number, t.fieldDefault f) ∈ withDefaults t fields known := by
  induction fields with
  | nil => cases hf
  | cons g fields ih =>
    rcases List.mem_cons.mp hf with rfl | hf
    · exact mem_insertField_self ..
    · refine mem_insertField_of_ne (ih h.tail hf) fun hn => ?_
      have hg := (List.nodup_cons.mp h.distinct).1
      exact hg (hn ▸ List.mem_map_of_mem hf)

theorem withDefaults_sorted (hk : (numbers known).Pairwise (· < ·)) :
    (numbers (withDefaults t fields known)).Pairwise (· < ·) := by
  induction fields with
  | nil => exact hk
  | cons f fields ih => exact insertField_sorted ih

/-- What is retold was stored; if it is redundant, it is so in a field. -/
theorem numbers_retoldFields {n : Nat} (h : n ∈ numbers (retoldFields t true type known)) :
    ∃ v f, (n, v) ∈ known ∧ t.fieldNumbered? type n = some f ∧
      (t.isRedundant f v = true → type.fieldNumbered? n = some f) := by
  induction known with
  | nil => simp [retoldFields, numbers] at h
  | cons d rest ih =>
    obtain ⟨k, w⟩ := d
    have hrest (h : n ∈ numbers (retoldFields t true type rest)) :
        ∃ v f, (n, v) ∈ (k, w) :: rest ∧ t.fieldNumbered? type n = some f ∧
          (t.isRedundant f v = true → type.fieldNumbered? n = some f) := by
      obtain ⟨v, f, hv, hf, hx⟩ := ih h
      exact ⟨v, f, List.mem_cons_of_mem _ hv, hf, hx⟩
    simp only [retoldFields] at h
    cases hf : t.fieldNumbered? type k with
    | none =>
      simp only [hf] at h
      exact hrest h
    | some f =>
      simp only [hf] at h
      split at h
      · exact hrest h
      · rename_i hx
        rcases List.mem_cons.mp h with rfl | h
        · refine ⟨w, f, by simp, hf, fun hr => ?_⟩
          cases ho : type.fieldNumbered? n with
          | none => simp [hr, ho] at hx
          | some g => rw [← hf, TypeTable.fieldNumbered?_own ho]
        · exact hrest h

/-- All that the text of a message shows. -/
def told (t : TypeTable) (type : MessageType) (known : List (Nat × Value)) :
    List (Nat × Value) :=
  withDefaults t (type.unstored known) (retoldFields t true type known)

/-- What the text shows is arranged like the message: a member of a oneof is not shown unless it is
set. -/
theorem told_arranged (hs : t.Sound) (ht : type ∈ t.messages)
    {unknown : List (Nat × UnknownValue)} (h : Arranged t type known unknown) :
    Arranged t type (told t type known) [] := by
  have hsub := retoldFields_numbers t true type known
  have hmember : ∀ f ∈ type.fields, f.oneof.isSome = true → f.number ∈ numbers (told t type known) →
      f.number ∈ numbers known := by
    intro f hf ho hn
    rcases numbers_withDefaults.mp hn with hn | hn
    · obtain ⟨g, hg, hgn⟩ := List.mem_map.mp hn
      obtain ⟨hgf, hp, -⟩ := MessageType.mem_unstored.mp hg
      have hsame := List.inj_on_of_nodup_map (hs.numbers type ht) hgf hf hgn
      rw [hsame, (hs.field type ht f hf).oneof ho] at hp
      cases hp
    · exact hsub.subset hn
  refine ⟨withDefaults_sorted (h.sorted.sublist hsub), ?_, .nil, by simp [numbers], trivial⟩
  intro f hf hfn g hg hgn
  obtain ⟨hgf, hsome, hog, -⟩ := MessageType.mem_rivals.mp hg
  have hgo : g.oneof.isSome = true := by rw [hog, hsome]
  exact h.exclusive f hf (hmember f hf hsome hfn) g hg (hmember g hgf hgo hgn)

theorem numbers_told (hs : t.Sound) (ht : type ∈ t.messages) {n : Nat}
    (hn : n ∈ numbers (told t type known)) : ∃ f, t.fieldNumbered? type n = some f := by
  rcases numbers_withDefaults.mp hn with hn | hn
  · obtain ⟨f, hf, rfl⟩ := List.mem_map.mp hn
    have ho := (unstored_storable hs ht true known).own f hf
    exact ⟨f, TypeTable.fieldNumbered?_own ho⟩
  · obtain ⟨-, f, -, hf, -⟩ := numbers_retoldFields hn
    exact ⟨f, hf⟩

end Message

/-- What is shown of what is stored: all of it, redundant extensions aside. -/
structure Shown (t : TypeTable) (type : MessageType) (known : List (Nat × Value))
    (shown : List (Nat × Json)) : Prop where
  told : ∀ s ∈ shown, ∃ f v, t.fieldNumbered? type s.1 = some f ∧ Told t (t.shape f) s.2 v ∧
    (s.1, v) ∈ Message.retoldFields t true type known
  covers : ∀ e ∈ known, ∀ f, t.fieldNumbered? type e.1 = some f →
    (t.isRedundant f e.2 = true → type.fieldNumbered? e.1 = some f) → e.1 ∈ shown.map Prod.fst

namespace Shown

variable {known : List (Nat × Value)} {shown : List (Nat × Json)}

theorem own {number : Nat} {g : Field} (ho : type.fieldNumbered? number = some f)
    (hg : t.fieldNumbered? type number = some g) : g = f := by
  rw [TypeTable.fieldNumbered?_own ho, Option.some.injEq] at hg
  exact hg.symm

/-- Each member that is shown has the key of a number and shows what is told under it. -/
theorem member (h : Shown t type known shown) (hs : t.Sound) (hreg : t.Regular) (hn : t.Named)
    (ht : type ∈ t.messages) (hl : type.Legible t) :
    ∀ m ∈ ToJson.assemble t type shown, ∃ number f v, m.1 = t.key type number ∧
      t.fieldNumbered? type number = some f ∧ Told t (t.shape f) m.2 v ∧
      (number, v) ∈ Message.told t type known := by
  have hstorable := Message.unstored_storable hs ht true known
  intro m hm
  rcases List.mem_append.mp hm with hm | hm
  · obtain ⟨f, hf, hm⟩ := List.mem_flatMap.mp hm
    have hf : f ∈ type.fields := List.mem_mergeSort.mp hf
    have ho : type.fieldNumbered? f.number = some f :=
      find?_of_nodup Field.number (hs.numbers type ht) hf
    have hkey := (TypeTable.key_own (t := t) ho).symm
    unfold ToJson.fieldMember at hm
    cases hj : shown.lookup f.number with
    | some j =>
      simp only [hj, List.mem_singleton] at hm
      subst hm
      obtain ⟨g, v, hg, htold, hv⟩ := h.told _ (mem_of_lookup hj)
      obtain rfl := own ho hg
      exact ⟨g.number, g, v, hkey, hg, htold, hstorable.kept hv⟩
    | none =>
      cases hp : f.hasPresence with
      | true => simp [hj, hp] at hm
      | false =>
        simp only [hj, hp, Bool.false_eq_true, ↓reduceIte, List.mem_singleton] at hm
        subst hm
        have hnull := hl.nulls f (List.mem_append_left _ hf)
        refine ⟨f.number, f, t.fieldDefault f, hkey, TypeTable.fieldNumbered?_own ho,
          default_told hs (hreg.hasEntries f) hn ht hf hp hnull, ?_⟩
        have hstored : f.number ∉ Message.numbers known := by
          intro hstored
          obtain ⟨e, he, hen⟩ := List.mem_map.mp hstored
          have heo : type.fieldNumbered? e.1 = some f := hen ▸ ho
          have hmem := h.covers e he f (TypeTable.fieldNumbered?_own heo) fun _ => heo
          obtain ⟨s, hsm, hse⟩ := List.mem_map.mp hmem
          have hno := List.lookup_eq_none_iff.mp hj s hsm
          simp [hse, hen] at hno
        exact hstorable.stored (MessageType.mem_unstored.mpr ⟨hf, hp, hstored⟩)
  · obtain ⟨s, hsm, hm⟩ := List.mem_flatMap.mp hm
    obtain ⟨hsm, ho⟩ := List.mem_filter.mp hsm
    rw [Option.isNone_iff_eq_none] at ho
    obtain ⟨f, v, hf, htold, hv⟩ := h.told s hsm
    obtain ⟨x, -, hx, -, -⟩ := TypeTable.fieldNumbered?_none ho hf
    simp only [ToJson.extensionMember, hx, List.mem_singleton] at hm
    subst hm
    exact ⟨s.1, f, v, (TypeTable.key_extension ho hx).symm, hf, htold, hstorable.kept hv⟩

/-- A field is shown if a value is shown for it, or if it has no presence. -/
theorem field_key (hf : f ∈ type.fields)
    (h : f.hasPresence = false ∨ f.number ∈ shown.map Prod.fst) :
    f.jsonName ∈ Json.keys (ToJson.assemble t type shown) := by
  have hmember : ∃ j, (f.jsonName, j) ∈ ToJson.fieldMember t shown f := by
    unfold ToJson.fieldMember
    cases hj : shown.lookup f.number with
    | some j => exact ⟨j, by simp⟩
    | none =>
      rcases h with hp | hmem
      · exact ⟨ToJson.default t f, by simp [hp]⟩
      · obtain ⟨s, hsm, hse⟩ := List.mem_map.mp hmem
        have hno := List.lookup_eq_none_iff.mp hj s hsm
        simp [hse] at hno
  obtain ⟨j, hj⟩ := hmember
  refine List.mem_map.mpr ⟨(f.jsonName, j), List.mem_append_left _ ?_, rfl⟩
  exact List.mem_flatMap.mpr ⟨f, List.mem_mergeSort.mpr hf, hj⟩

/-- All that is told stands under the key of its number. -/
theorem key_mem (h : Shown t type known shown) (hs : t.Sound) (ht : type ∈ t.messages) :
    ∀ n ∈ Message.numbers (Message.told t type known),
      t.key type n ∈ Json.keys (ToJson.assemble t type shown) := by
  intro n hn
  rcases Message.numbers_withDefaults.mp hn with hn | hn
  · obtain ⟨f, hf, rfl⟩ := List.mem_map.mp hn
    obtain ⟨hfields, hp, -⟩ := MessageType.mem_unstored.mp hf
    rw [TypeTable.key_own ((Message.unstored_storable hs ht true known).own f hf)]
    exact field_key hfields (.inl hp)
  · obtain ⟨v, f, hv, hf, hx⟩ := Message.numbers_retoldFields hn
    have hshown := h.covers (n, v) hv f hf hx
    cases ho : type.fieldNumbered? n with
    | some g =>
      obtain rfl := own ho hf
      have hnumber : f.number = n := TypeTable.fieldNumbered?_number hf
      rw [TypeTable.key_own ho]
      exact field_key (List.mem_of_find?_eq_some ho) (.inr (hnumber ▸ hshown))
    | none =>
      obtain ⟨x, -, hnum, -, -⟩ := TypeTable.fieldNumbered?_none ho hf
      obtain ⟨s, hsm, rfl⟩ := List.mem_map.mp hshown
      rw [TypeTable.key_extension ho hnum]
      refine List.mem_map.mpr ⟨(x.key, s.2), List.mem_append_right _ ?_, rfl⟩
      refine List.mem_flatMap.mpr ⟨s, List.mem_filter.mpr ⟨hsm, by simp [ho]⟩, ?_⟩
      simp [ToJson.extensionMember, hnum, Extension.key]

end Shown

theorem Json.spelledMembers_self {ms : List (String × Json)}
    (h : ∀ m ∈ ms, ∀ f, type.fieldForSpelling? m.1 = some f → m.2.spelled t (t.shape f) = m.2) :
    Json.spelledMembers t type ms = ms := by
  induction ms with
  | nil => rfl
  | cons m ms ih =>
    obtain ⟨hm, hms⟩ := List.forall_mem_cons.mp h
    have ih := ih hms
    simp only [Json.spelledMembers]
    cases hf : type.fieldForSpelling? m.1 with
    | none => simp [ih]
    | some f => simp [ih, hm f hf]

/-- The object that is shown for a message is read as what it tells. -/
theorem Shown.object_told {known : List (Nat × Value)} {shown : List (Nat × Json)}
    (h : Shown t type known shown) (hs : t.Sound) (hreg : t.Regular) (hn : t.Named)
    (hl : type.Legible t) {name : String} (ht : t.message? name = some type)
    {unknown : List (Nat × UnknownValue)} (harr : Message.Arranged t type known unknown) :
    Told t (.single (.message name)) (.obj (ToJson.assemble t type shown))
      (.message name ⟨Message.told t type known, []⟩) := by
  have hmem := TypeTable.message?_mem ht
  have hmembers := h.member hs hreg hn hmem hl
  have hordinary : WellKnown.ofName? name = none := TypeTable.message?_name ht ▸ hl.ordinary
  generalize hks : Json.sorted (Json.asReadMembers (ToJson.assemble t type shown)) = ks
  have hread : ∀ m ∈ ks, ∃ number f v, m.1 = t.key type number ∧
      t.fieldNumbered? type number = some f ∧ m.2.spelled t (t.shape f) = m.2 ∧
      FromJson.value t (t.shape f) m.2 = .ok (some v) ∧ m.2 ≠ .null ∧
      (number, v) ∈ Message.told t type known := by
    intro m hm
    have hm := Json.mem_sorted (hks ▸ hm)
    rw [Json.asReadMembers_eq] at hm
    obtain ⟨d, hd, rfl⟩ := List.mem_map.mp hm
    obtain ⟨number, f, v, hkey, hf, htold, hv⟩ := hmembers d hd
    exact ⟨number, f, v, hkey, hf, htold.spelled, htold.read, htold.full, hv⟩
  have hkeys : ∀ k, k ∈ Json.keys ks ↔ k ∈ Json.keys (ToJson.assemble t type shown) := by
    intro k
    rw [← hks, Json.mem_keys_sorted, Json.asReadMembers_eq]
    simp [Json.keys, Function.comp_def]
  have hspelled : Json.spelledMembers t type ks = ks := by
    refine Json.spelledMembers_self fun m hm f hf => ?_
    obtain ⟨number, g, v, hkey, hg, hsame, -⟩ := hread m hm
    rw [hkey, TypeTable.fieldForSpelling?_key hl hn hmem hs hg] at hf
    obtain rfl := Shown.own hf hg
    exact hsame
  have hnodup : (Json.keys ks).Nodup := by
    rw [← hks]
    exact (Json.sorted_inOrder _).imp fun hlt => ne_of_lt hlt
  have hvalue : FromJson.members t type none ks .empty =
      .ok ⟨Message.told t type known, []⟩ := by
    refine FromJson.members_means hs hn hmem hl (Message.told_arranged hs hmem harr)
      (fun n hn => Message.numbers_told hs hmem hn) ks [] hnodup ?_ (by simp) .nil
      (by simp [Message.numbers]) fun n hn => .inr ((hkeys _).mpr (h.key_mem hs hmem n hn))
    intro m hm
    obtain ⟨number, f, v, hkey, hf, -, hv, hfull, hstored⟩ := hread m hm
    exact ⟨number, f, v, hkey, hf, hv, hfull, hstored⟩
  constructor
  case plain =>
    refine Json.arePlainMembers_iff.mpr fun m hm => ?_
    obtain ⟨_, _, _, -, -, htold, -⟩ := hmembers m hm
    exact htold.plain
  case spelled => simp [Json.asRead, hks, Json.spelled, ht, hspelled]
  case read =>
    simp only [Json.asRead, hks, FromJson.value, hordinary, ht, hvalue]
    rfl
  case full => simp [Json.asRead]

end RpcConsole

import RpcConsole.Store.Basic

namespace RpcConsole.Store

/-- The indices agree with the list of files. -/
structure Sound (s : Store) : Prop where
  byPlace : ∀ p i, s.byPlace.lookup p = some i ↔ (s.files[i]?).map StoredFile.place = some p
  byName : ∀ n i, s.byName.lookup n = some i ↔ (s.files[i]?).map StoredFile.name = some n

section Index

variable {κ : Type} [BEq κ] {key : StoredFile → κ} {files : List StoredFile}
  {index : List (κ × Nat)} {f g : StoredFile}
  (h : ∀ k i, index.lookup k = some i ↔ (files[i]?).map key = some k)

include h in
/-- What an index finds under a key. -/
theorem index_iff {k : κ} :
    (index.lookup k).bind (fun i => files[i]?) = some f ↔ f ∈ files ∧ key f = k := by
  constructor
  · intro hf
    obtain ⟨i, hi, hf⟩ := Option.bind_eq_some_iff.mp hf
    have hk := (h k i).mp hi
    rw [hf] at hk
    exact ⟨List.mem_of_getElem? hf, Option.some.inj hk⟩
  · rintro ⟨hf, rfl⟩
    obtain ⟨i, hi⟩ := List.mem_iff_getElem?.mp hf
    have hl := (h (key f) i).mpr (by rw [hi]; rfl)
    rw [hl, Option.bind_some, hi]

include h in
/-- Files of one key are one file. -/
theorem eq_of_key (hf : f ∈ files) (hg : g ∈ files) (hk : key f = key g) : f = g := by
  have hl := (index_iff h).mpr ⟨hf, hk⟩
  rw [(index_iff h).mpr ⟨hg, rfl⟩] at hl
  exact (Option.some.inj hl).symm

include h in
/-- No key comes twice. -/
theorem keys_nodup : (files.map key).Nodup := by
  rw [List.Nodup, List.pairwise_iff_getElem]
  intro i j hi hj hij he
  rw [List.length_map] at hi hj
  simp only [List.getElem_map] at he
  have hli := (h (key files[j]) i).mpr (by rw [List.getElem?_eq_getElem hi, ← he]; rfl)
  have hlj := (h (key files[j]) j).mpr (by rw [List.getElem?_eq_getElem hj]; rfl)
  rw [hli] at hlj
  exact absurd (Option.some.inj hlj) (Nat.ne_of_lt hij)

end Index

variable {s s' : Store} {f g : StoredFile}

theorem Sound.empty (importPath : ImportPath) (fallback : Option String) :
    Sound { importPath, fallback } := by
  constructor <;> intros <;> simp

theorem Sound.lookupName_eq_some (h : s.Sound) {name : String} :
    s.lookupName name = some f ↔ f ∈ s.files ∧ f.name = name :=
  index_iff h.byName

theorem Sound.lookupName_eq_none (h : s.Sound) {name : String} :
    s.lookupName name = none ↔ name ∉ s.names := by
  rw [Option.eq_none_iff_forall_ne_some]
  simp only [ne_eq, h.lookupName_eq_some, names, List.mem_map, not_exists]

/-- What the index finds at a place. -/
theorem Sound.byPlace_iff (h : s.Sound) {place : Place} :
    (s.byPlace.lookup place).bind (fun i => s.files[i]?) = some f ↔
      f ∈ s.files ∧ f.place = place :=
  index_iff h.byPlace

theorem Sound.eq_of_place (h : s.Sound) (hf : f ∈ s.files) (hg : g ∈ s.files)
    (hp : f.place = g.place) : f = g :=
  eq_of_key h.byPlace hf hg hp

theorem Sound.eq_of_name (h : s.Sound) (hf : f ∈ s.files) (hg : g ∈ s.files)
    (hn : f.name = g.name) : f = g :=
  eq_of_key h.byName hf hg hn

theorem Sound.places_nodup (h : s.Sound) : (s.files.map StoredFile.place).Nodup :=
  keys_nodup h.byPlace

theorem Sound.names_nodup (h : s.Sound) : s.names.Nodup :=
  keys_nodup h.byName

/-- What the index finds nothing at is no place of a file. -/
theorem Sound.byPlace_eq_none (h : s.Sound) {place : Place} :
    (s.byPlace.lookup place).bind (fun i => s.files[i]?) = none ↔
      ∀ g ∈ s.files, g.place ≠ place := by
  rw [Option.eq_none_iff_forall_ne_some]
  simp only [ne_eq, h.byPlace_iff, not_and]

/-- A place comes before a name. -/
theorem Sound.occupant_eq (h : s.Sound) (place : Place) (name : String) :
    (s.occupant? place name).bind (fun i => s.files[i]?) =
      ((s.byPlace.lookup place).bind fun i => s.files[i]?).or (s.lookupName name) := by
  unfold occupant?
  cases hp : s.byPlace.lookup place with
  | none => rfl
  | some i =>
    obtain ⟨g, hg, -⟩ := Option.map_eq_some_iff.mp ((h.byPlace place i).mp hp)
    simp only [Option.some_or, Option.bind_some, hg]

/-- The file that is found is the one at the place, else the one of the name. -/
theorem Sound.occupant_eq_some (h : s.Sound) {place : Place} {name : String} :
    (s.occupant? place name).bind (fun i => s.files[i]?) = some g ↔
      g ∈ s.files ∧ (g.place = place ∨ (∀ x ∈ s.files, x.place ≠ place) ∧ g.name = name) := by
  rw [h.occupant_eq, Option.or_eq_some_iff, h.byPlace_iff, h.byPlace_eq_none,
    h.lookupName_eq_some]
  constructor
  · rintro (⟨hg, hp⟩ | ⟨hno, hg, hn⟩)
    · exact ⟨hg, .inl hp⟩
    · exact ⟨hg, .inr ⟨hno, hn⟩⟩
  · rintro ⟨hg, hp | ⟨hno, hn⟩⟩
    · exact .inl ⟨hg, hp⟩
    · exact .inr ⟨hno, hg, hn⟩

/-- What a file finds when it comes to the store. -/
theorem Sound.occupant_eq_none (h : s.Sound) :
    (s.occupant? f.place f.name).bind (fun i => s.files[i]?) = none ↔
      ∀ g ∈ s.files, g.place ≠ f.place ∧ g.name ≠ f.name := by
  rw [h.occupant_eq, Option.or_eq_none_iff, h.byPlace_eq_none, h.lookupName_eq_none, names]
  constructor
  · rintro ⟨hp, hn⟩ g hg
    exact ⟨hp g hg, fun he => hn (List.mem_map.mpr ⟨g, hg, he⟩)⟩
  · intro hno
    refine ⟨fun g hg => (hno g hg).1, fun hm => ?_⟩
    obtain ⟨g, hg, he⟩ := List.mem_map.mp hm
    exact (hno g hg).2 he

/-- The store with one more file. -/
def push (s : Store) (f : StoredFile) : Store :=
  { s with
    files := s.files ++ [f]
    byPlace := (f.place, s.files.length) :: s.byPlace
    byName := (f.name, s.files.length) :: s.byName }

@[simp] theorem push_files : (s.push f).files = s.files ++ [f] := rfl

@[simp] theorem push_names : (s.push f).names = s.names ++ [f.name] := by
  simp [names]

@[simp] theorem push_importPath : (s.push f).importPath = s.importPath := rfl

@[simp] theorem push_fallback : (s.push f).fallback = s.fallback := rfl

/-- A file gets in exactly if its place and its name are new. -/
theorem Sound.register_eq_ok (h : s.Sound) :
    s.register f = .ok s' ↔
      (∀ g ∈ s.files, g.place ≠ f.place ∧ g.name ≠ f.name) ∧ s' = s.push f := by
  rw [← h.occupant_eq_none]
  unfold register
  cases ho : (s.occupant? f.place f.name).bind (fun i => s.files[i]?) with
  | some g => simp
  | none => simpa [push] using eq_comm

/-- A file does not get in exactly if its place or its name is taken. The file at the place is told,
and the one of the name only if there is none at the place. -/
theorem Sound.register_eq_error (h : s.Sound) {c : Conflict} :
    s.register f = .error c ↔ c.name = f.name ∧ ∃ g ∈ s.files, c.existing = g.name ∧
      (g.place = f.place ∨ (∀ x ∈ s.files, x.place ≠ f.place) ∧ g.name = f.name) := by
  obtain ⟨name, existing⟩ := c
  unfold register
  cases ho : (s.occupant? f.place f.name).bind (fun i => s.files[i]?) with
  | none =>
    simp only [reduceCtorEq, false_iff]
    rintro ⟨-, g, hg, -, hor⟩
    rw [h.occupant_eq_some.mpr ⟨hg, hor⟩] at ho
    cases ho
  | some g =>
    simp only [Except.error.injEq, Conflict.mk.injEq, eq_comm (a := f.name)]
    refine and_congr_right fun _ => ⟨?_, ?_⟩
    · rintro rfl
      obtain ⟨hg, hor⟩ := h.occupant_eq_some.mp ho
      exact ⟨g, hg, rfl, hor⟩
    · rintro ⟨x, hx, rfl, hor⟩
      rw [h.occupant_eq_some.mpr ⟨hx, hor⟩] at ho
      rw [Option.some.inj ho]

theorem lookup_cons_iff {κ : Type} [BEq κ] [LawfulBEq κ] {k : StoredFile → κ}
    {fs : List StoredFile} {index : List (κ × Nat)}
    (h : ∀ x i, index.lookup x = some i ↔ (fs[i]?).map k = some x)
    (hf : ∀ g ∈ fs, k g ≠ k f) (x : κ) (i : Nat) :
    ((k f, fs.length) :: index).lookup x = some i ↔ ((fs ++ [f])[i]?).map k = some x := by
  rw [List.lookup_cons]
  rcases Nat.lt_trichotomy i fs.length with hi | rfl | hi
  · rw [List.getElem?_append_left hi, ← h]
    by_cases hx : x = k f
    · subst hx
      have hne := hf _ (List.getElem_mem hi)
      simp only [beq_self_eq_true, h, List.getElem?_eq_getElem hi]
      constructor
      · intro he
        exact absurd (Option.some.inj he) (Nat.ne_of_gt hi)
      · intro he
        exact absurd (Option.some.inj he) hne
    · simp [beq_eq_false_iff_ne.mpr hx]
  · by_cases hx : x = k f
    · simp [hx]
    · have hn : index.lookup x ≠ some fs.length := by
        rw [ne_eq, h]
        simp
      simpa [beq_eq_false_iff_ne.mpr hx, hn] using fun he => hx he.symm
  · have hg : (fs ++ [f])[i]? = none := by
      rw [List.getElem?_eq_none_iff, List.length_append, List.length_singleton]
      exact hi
    rw [hg]
    by_cases hx : x = k f
    · simpa [hx] using Nat.ne_of_lt hi
    · have hn : index.lookup x ≠ some i := by
        rw [ne_eq, h, List.getElem?_eq_none (Nat.le_of_lt hi)]
        simp
      simp [beq_eq_false_iff_ne.mpr hx, hn]

theorem Sound.push (h : s.Sound) (hn : ∀ g ∈ s.files, g.place ≠ f.place ∧ g.name ≠ f.name) :
    (s.push f).Sound where
  byPlace := lookup_cons_iff h.byPlace fun g hg => (hn g hg).1
  byName := lookup_cons_iff h.byName fun g hg => (hn g hg).2

end RpcConsole.Store

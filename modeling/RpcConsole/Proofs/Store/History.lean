import RpcConsole.Proofs.Store.Files

namespace RpcConsole.Store

/-- What can be asked of a store. -/
inductive Operation where
  | register (f : StoredFile)
  | resolve (importer wanted : String)
  | lookup (path : String)
  | lookupName (name : String)

/-- The answer to an operation, and the store behind it. -/
def perform (s : Store) (d : Disk) : Operation → Except ResolveError (Option StoredFile) × Store
  | .register f =>
    match s.register f with
    | .ok s' => (.ok (some f), s')
    | .error c => (.error (.conflict c), s)
  | .resolve importer wanted =>
    match s.resolveImport d importer wanted with
    | .ok (f, s') => (.ok (some f), s')
    | .error e => (.error e, s)
  | .lookup path => (.ok (s.lookup d path), s)
  | .lookupName name => (.ok (s.lookupName name), s)

/-- A store behind a history: operations, each with the disk as it is at that time. -/
def after (s : Store) (history : List (Disk × Operation)) : Store :=
  history.foldl (fun s h => (s.perform h.1 h.2).2) s

variable {s : Store} {d : Disk} {op : Operation}

/-- What an operation can do: answer from the files that are there, add a file whose place and name
are new and answer with it, or fail. Only the second one changes the store. -/
inductive Outcome (s : Store) : Except ResolveError (Option StoredFile) × Store → Prop where
  | kept {found : Option StoredFile} (hf : ∀ f ∈ found, f ∈ s.files) : Outcome s (.ok found, s)
  | added {f : StoredFile} (hn : ∀ g ∈ s.files, g.place ≠ f.place ∧ g.name ≠ f.name) :
      Outcome s (.ok (some f), s.push f)
  | failed (e : ResolveError) : Outcome s (.error e, s)

theorem Sound.register_outcome (h : s.Sound) (f : StoredFile) :
    Outcome s (s.perform d (.register f)) := by
  simp only [perform]
  cases hs : s.register f with
  | error c => exact .failed _
  | ok s' =>
    obtain ⟨hn, rfl⟩ := h.register_eq_ok.mp hs
    exact .added hn

theorem Sound.resolve_outcome (h : s.Sound) (importer wanted : String) :
    Outcome s (s.perform d (.resolve importer wanted)) := by
  simp only [perform, resolveImport]
  cases hl : s.lookupName wanted with
  | some f =>
    refine .kept fun g hg => ?_
    rw [← Option.some.inj hg]
    exact (h.lookupName_eq_some.mp hl).1
  | none =>
    cases (s.candidates wanted).find? d.isFile with
    | none => exact .failed _
    | some path =>
      cases hr : StoredFile.read d wanted path with
      | error e => simp only [hr]; exact .failed _
      | ok f =>
        simp only [hr]
        cases hs : s.register f with
        | error c => exact .failed _
        | ok s' =>
          obtain ⟨hn, rfl⟩ := h.register_eq_ok.mp hs
          exact .added hn

/-- What is found by its path is among the files. -/
theorem mem_of_lookup_path {path : String} {f : StoredFile} (h : s.lookup d path = some f) :
    f ∈ s.files := by
  unfold lookup at h
  split at h
  · exact List.mem_of_getElem? h
  · split at h
    · obtain ⟨i, -, hi⟩ := Option.bind_eq_some_iff.mp h
      exact List.mem_of_getElem? hi
    · cases h

theorem Sound.outcome (h : s.Sound) (d : Disk) (op : Operation) : Outcome s (s.perform d op) := by
  cases op with
  | register f => exact h.register_outcome f
  | resolve importer wanted => exact h.resolve_outcome importer wanted
  | lookup path => exact .kept fun _ hf => mem_of_lookup_path hf
  | lookupName name => exact .kept fun _ hf => (h.lookupName_eq_some.mp hf).1

/-- One operation keeps the indices in step. -/
theorem Sound.perform (h : s.Sound) (d : Disk) (op : Operation) : (s.perform d op).2.Sound := by
  have ho := h.outcome d op
  generalize s.perform d op = r at ho
  cases ho with
  | kept => exact h
  | added hn => exact h.push hn
  | failed => exact h

/-- So does a whole history. -/
theorem Sound.after (h : s.Sound) (history : List (Disk × Operation)) :
    (s.after history).Sound := by
  induction history generalizing s with
  | nil => exact h
  | cons a history ih => exact ih (h.perform a.1 a.2)

/-- One operation leaves the files where they are. -/
theorem Sound.perform_files (h : s.Sound) (d : Disk) (op : Operation) :
    s.files <+: (s.perform d op).2.files := by
  have ho := h.outcome d op
  generalize s.perform d op = r at ho
  cases ho with
  | kept => exact List.prefix_rfl
  | added => exact List.prefix_append _ _
  | failed => exact List.prefix_rfl

/-- So does a whole history. -/
theorem Sound.after_files (h : s.Sound) (history : List (Disk × Operation)) :
    s.files <+: (s.after history).files := by
  induction history generalizing s with
  | nil => exact List.prefix_rfl
  | cons a history ih => exact (h.perform_files a.1 a.2).trans (ih (h.perform a.1 a.2))

/-- The answer of an operation is a file of the store behind it. -/
theorem Sound.perform_mem (h : s.Sound) {f : StoredFile} (hf : (s.perform d op).1 = .ok (some f)) :
    f ∈ (s.perform d op).2.files := by
  have ho := h.outcome d op
  generalize s.perform d op = r at ho hf
  cases ho with
  | kept hk => exact hk f (Except.ok.inj hf)
  | added =>
    cases hf
    simp
  | failed => cases hf

theorem Sound.perform_error (h : s.Sound) {e : ResolveError}
    (he : (s.perform d op).1 = .error e) : (s.perform d op).2 = s := by
  have ho := h.outcome d op
  generalize s.perform d op = r at ho he
  cases ho with
  | kept => cases he
  | added => cases he
  | failed => rfl

theorem Sound.place_lt (h : s.Sound) {place : Place} {i : Nat}
    (hi : s.byPlace.lookup place = some i) : i < s.files.length := by
  obtain ⟨f, hf, -⟩ := Option.map_eq_some_iff.mp ((h.byPlace place i).mp hi)
  exact (List.getElem?_eq_some_iff.mp hf).1

theorem Sound.name_lt (h : s.Sound) {name : String} {i : Nat}
    (hi : s.byName.lookup name = some i) : i < s.files.length := by
  obtain ⟨f, hf, -⟩ := Option.map_eq_some_iff.mp ((h.byName name i).mp hi)
  exact (List.getElem?_eq_some_iff.mp hf).1

/-- Behind each history of a store that was empty, the two indices say exactly what the list of
files says, with each place and each name once and no index out of range. What is asked next leaves
the files in front as they are and changes nothing if it fails, and a file is refused exactly if its
place or its name is taken, with the file at the place told before the one of the name. -/
theorem history_indexed (importPath : ImportPath) (fallback : Option String)
    (past : List (Disk × Operation)) :
    let s := after { importPath, fallback } past
    ((∀ p i, s.byPlace.lookup p = some i ↔ (s.files[i]?).map StoredFile.place = some p) ∧
      (∀ n i, s.byName.lookup n = some i ↔ (s.files[i]?).map StoredFile.name = some n) ∧
      s.names.Nodup ∧ (s.files.map StoredFile.place).Nodup ∧
      (∀ p i, s.byPlace.lookup p = some i → i < s.files.length) ∧
      ∀ n i, s.byName.lookup n = some i → i < s.files.length) ∧
    (∀ future, s.files <+: (s.after future).files) ∧
    (∀ d op, s.files <+: (s.perform d op).2.files ∧
      (∀ f, (s.perform d op).1 = .ok (some f) → f ∈ (s.perform d op).2.files) ∧
      ∀ e, (s.perform d op).1 = .error e → (s.perform d op).2 = s) ∧
    ∀ f c, s.register f = .error c ↔ c.name = f.name ∧ ∃ g ∈ s.files, c.existing = g.name ∧
      (g.place = f.place ∨ (∀ x ∈ s.files, x.place ≠ f.place) ∧ g.name = f.name) := by
  intro s
  have h : s.Sound := (Sound.empty importPath fallback).after past
  refine ⟨⟨h.byPlace, h.byName, h.names_nodup, h.places_nodup, fun _ _ => h.place_lt,
    fun _ _ => h.name_lt⟩, h.after_files, fun d op => ?_, fun _ _ => h.register_eq_error⟩
  exact ⟨h.perform_files d op, fun _ => h.perform_mem, fun _ => h.perform_error⟩

end RpcConsole.Store

import RpcConsole.Proofs.Disk.Files
import RpcConsole.Proofs.Store.History

namespace RpcConsole.Store

/-- The directories in which imports are looked for, in this order. -/
def searchList (s : Store) : List String :=
  s.importPath ++ s.fallback.toList

/-- The first of some directories that has a file of a name, and that file. -/
inductive FirstHit (d : Disk) (wanted : String) : List String → Place → Node → Prop where
  | here {dir : String} {dirs : List String} {place : Place} {file : Node}
      (h : d.FileAt (Path.join dir wanted) place file) : FirstHit d wanted (dir :: dirs) place file
  | behind {dir : String} {dirs : List String} {place : Place} {file : Node}
      (hno : ∀ p n, ¬ d.FileAt (Path.join dir wanted) p n) (h : FirstHit d wanted dirs place file) :
      FirstHit d wanted (dir :: dirs) place file

/-- What comes of an import, and the store behind it. -/
inductive Settles (s : Store) (d : Disk) (importer wanted : String) :
    Except ResolveError (StoredFile × Store) → Prop where
  | stored {f : StoredFile} (hf : f ∈ s.files) (hn : f.name = wanted) :
      Settles s d importer wanted (.ok (f, s))
  | missing (hn : wanted ∉ s.names)
      (hno : ∀ dir ∈ s.searchList, ∀ p n, ¬ d.FileAt (Path.join dir wanted) p n) :
      Settles s d importer wanted (.error (.notFound importer wanted))
  | unreadable {place : Place} {file : Node} {failure : Disk.Failure} (hn : wanted ∉ s.names)
      (hf : FirstHit d wanted s.searchList place file) (ht : file.text = .error failure) :
      Settles s d importer wanted (.error (.unreadable wanted failure))
  | malformed {place : Place} {file : Node} {text : String} {e : Proto.ParseError}
      (hn : wanted ∉ s.names) (hf : FirstHit d wanted s.searchList place file)
      (ht : file.text = .ok text) (hp : Proto.parse wanted text = .error e) :
      Settles s d importer wanted (.error (.malformed wanted e))
  | taken {place : Place} {file : Node} {text : String} {decl : FileDecl} {g : StoredFile}
      (hn : wanted ∉ s.names) (hf : FirstHit d wanted s.searchList place file)
      (ht : file.text = .ok text) (hp : Proto.parse wanted text = .ok decl)
      (hg : g ∈ s.files) (hplace : g.place = place) :
      Settles s d importer wanted (.error (.conflict ⟨wanted, g.name⟩))
  | added {place : Place} {file : Node} {text : String} {decl : FileDecl}
      (hn : wanted ∉ s.names) (hf : FirstHit d wanted s.searchList place file)
      (ht : file.text = .ok text) (hp : Proto.parse wanted text = .ok decl)
      (hnew : ∀ g ∈ s.files, g.place ≠ place) :
      Settles s d importer wanted
        (.ok (⟨wanted, place, decl⟩, s.push ⟨wanted, place, decl⟩))

variable {s s' t : Store} {d : Disk} {importer wanted : String} {f : StoredFile}

theorem FirstHit.find? {dirs : List String} {place : Place} {file : Node}
    (h : FirstHit d wanted dirs place file) :
    ∃ path, (dirs.map fun dir => Path.join dir wanted).find? d.isFile = some path ∧
      d.FileAt path place file := by
  induction h with
  | @here dir dirs place file h =>
    have hfile : d.isFile (Path.join dir wanted) = true := Disk.isFile_iff.mpr ⟨place, file, h⟩
    exact ⟨_, by rw [List.map_cons, List.find?_cons_of_pos hfile], h⟩
  | @behind dir dirs place file hno _ ih =>
    have hfile : ¬ d.isFile (Path.join dir wanted) = true := by
      rw [Disk.isFile_iff]
      rintro ⟨p, n, h⟩
      exact hno p n h
    rw [List.map_cons, List.find?_cons_of_neg hfile]
    exact ih

/-- Directories behind the first one that has a file do not count. -/
theorem FirstHit.append {dirs : List String} {place : Place} {file : Node}
    (h : FirstHit d wanted dirs place file) (more : List String) :
    FirstHit d wanted (dirs ++ more) place file := by
  induction h with
  | here h => exact .here h
  | behind hno _ ih => exact .behind hno ih

theorem find?_of_no_file {dirs : List String}
    (hno : ∀ dir ∈ dirs, ∀ p n, ¬ d.FileAt (Path.join dir wanted) p n) :
    (dirs.map fun dir => Path.join dir wanted).find? d.isFile = none := by
  rw [List.find?_eq_none]
  intro path hpath hfile
  obtain ⟨dir, hdir, rfl⟩ := List.mem_map.mp hpath
  obtain ⟨p, n, h⟩ := Disk.isFile_iff.mp hfile
  exact hno dir hdir p n h

theorem hit_or_no_file (d : Disk) (wanted : String) (dirs : List String) :
    (∀ dir ∈ dirs, ∀ p n, ¬ d.FileAt (Path.join dir wanted) p n) ∨
      ∃ place file, FirstHit d wanted dirs place file := by
  induction dirs with
  | nil => exact .inl (by simp)
  | cons dir dirs ih =>
    by_cases hfile : ∃ p n, d.FileAt (Path.join dir wanted) p n
    · obtain ⟨p, n, h⟩ := hfile
      exact .inr ⟨p, n, .here h⟩
    · have hno : ∀ p n, ¬ d.FileAt (Path.join dir wanted) p n := fun p n h => hfile ⟨p, n, h⟩
      rcases ih with hrest | ⟨place, file, hhit⟩
      · exact .inl (List.forall_mem_cons.mpr ⟨hno, hrest⟩)
      · exact .inr ⟨place, file, .behind hno hhit⟩

/-- Something comes of each import. -/
theorem settles_exists (s : Store) (d : Disk) (importer wanted : String) :
    ∃ r, Settles s d importer wanted r := by
  by_cases hn : wanted ∈ s.names
  · obtain ⟨f, hf, hname⟩ := List.mem_map.mp hn
    exact ⟨_, .stored hf hname⟩
  · rcases hit_or_no_file d wanted s.searchList with hno | ⟨place, file, hhit⟩
    · exact ⟨_, .missing hn hno⟩
    · cases ht : file.text with
      | error failure => exact ⟨_, .unreadable hn hhit ht⟩
      | ok text =>
        cases hp : Proto.parse wanted text with
        | error e => exact ⟨_, .malformed hn hhit ht hp⟩
        | ok decl =>
          by_cases hg : ∃ g ∈ s.files, g.place = place
          · obtain ⟨g, hg, hplace⟩ := hg
            exact ⟨_, .taken hn hhit ht hp hg hplace⟩
          · exact ⟨_, .added hn hhit ht hp fun g hm he => hg ⟨g, hm, he⟩⟩

theorem Sound.resolveImport_of_settles (h : s.Sound)
    {r : Except ResolveError (StoredFile × Store)} (hr : Settles s d importer wanted r) :
    s.resolveImport d importer wanted = r := by
  unfold resolveImport candidates
  rw [← searchList]
  cases hr with
  | stored hf hn => simp only [h.lookupName_eq_some.mpr ⟨hf, hn⟩]
  | missing hn hno => simp only [h.lookupName_eq_none.mpr hn, find?_of_no_file hno]
  | unreadable hn hf ht =>
    obtain ⟨path, hpath, hat⟩ := hf.find?
    simp only [h.lookupName_eq_none.mpr hn, hpath, StoredFile.read_of_failure hat ht]
  | malformed hn hf ht hp =>
    obtain ⟨path, hpath, hat⟩ := hf.find?
    simp only [h.lookupName_eq_none.mpr hn, hpath, StoredFile.read_of_error hat ht hp]
  | @taken place file text decl g hn hf ht hp hg hplace =>
    obtain ⟨path, hpath, hat⟩ := hf.find?
    have hregister : s.register ⟨wanted, place, decl⟩ = .error ⟨wanted, g.name⟩ :=
      h.register_eq_error.mpr ⟨rfl, g, hg, rfl, .inl hplace⟩
    simp only [h.lookupName_eq_none.mpr hn, hpath, StoredFile.read_of_ok hat ht hp, hregister]
  | @added place file text decl hn hf ht hp hnew =>
    obtain ⟨path, hpath, hat⟩ := hf.find?
    have hregister : s.register ⟨wanted, place, decl⟩ = .ok (s.push ⟨wanted, place, decl⟩) := by
      refine h.register_eq_ok.mpr ⟨fun g hg => ⟨hnew g hg, fun hname => ?_⟩, rfl⟩
      exact hn (List.mem_map.mpr ⟨g, hg, hname⟩)
    simp only [h.lookupName_eq_none.mpr hn, hpath, StoredFile.read_of_ok hat ht hp, hregister]

theorem Sound.resolveImport_iff (h : s.Sound) {r : Except ResolveError (StoredFile × Store)} :
    s.resolveImport d importer wanted = r ↔ Settles s d importer wanted r := by
  constructor
  · rintro rfl
    obtain ⟨r, hr⟩ := settles_exists s d importer wanted
    rw [h.resolveImport_of_settles hr]
    exact hr
  · intro hr
    exact h.resolveImport_of_settles hr

/-- A stored file is what its name stands for, on whatever disk and however many operations later.
-/
theorem Sound.resolveImport_after (h : s.Sound) (hf : f ∈ s.files)
    (future : List (Disk × Operation)) (d : Disk) (importer : String) :
    (s.after future).resolveImport d importer f.name = .ok (f, s.after future) := by
  apply (h.after future).resolveImport_of_settles
  exact .stored ((h.after_files future).subset hf) rfl

/-- A resolved import is a file of its name, and a sound store has it. -/
theorem Sound.resolved (h : s.Sound) (hr : s.resolveImport d importer wanted = .ok (f, t)) :
    f.name = wanted ∧ f ∈ t.files ∧ t.Sound := by
  cases h.resolveImport_iff.mp hr with
  | stored hf hn => exact ⟨hn, hf, h⟩
  | @added place file text decl hn hf ht hp hnew =>
    refine ⟨rfl, by simp, h.push fun g hg => ⟨hnew g hg, fun hname => ?_⟩⟩
    exact hn (List.mem_map.mpr ⟨g, hg, hname⟩)

/-- One store is another one that goes on to look in more directories. -/
structure Widened (s s' : Store) : Prop where
  files : s'.files = s.files
  byPlace : s'.byPlace = s.byPlace
  byName : s'.byName = s.byName
  searchList : s.searchList <+: s'.searchList

/-- The answers to a history. -/
def answers (s : Store) :
    List (Disk × Operation) → List (Except ResolveError (Option StoredFile))
  | [] => []
  | a :: rest => (s.perform a.1 a.2).1 :: (s.perform a.1 a.2).2.answers rest

namespace Widened

theorem names (h : s.Widened s') : s'.names = s.names := by
  rw [Store.names, h.files, Store.names]

theorem sound (h : s.Widened s') (hs : s.Sound) : s'.Sound where
  byPlace p i := by
    rw [h.byPlace, h.files]
    exact hs.byPlace p i
  byName n i := by
    rw [h.byName, h.files]
    exact hs.byName n i

theorem push (h : s.Widened s') (f : StoredFile) : (s.push f).Widened (s'.push f) where
  files := by simp [h.files]
  byPlace := by simp [Store.push, h.byPlace, h.files]
  byName := by simp [Store.push, h.byName, h.files]
  searchList := h.searchList

theorem firstHit (h : s.Widened s') {place : Place} {file : Node}
    (hf : FirstHit d wanted s.searchList place file) :
    FirstHit d wanted s'.searchList place file := by
  obtain ⟨more, hmore⟩ := h.searchList
  exact hmore ▸ hf.append more

/-- Two stores answer an operation alike, and it changes them alike. -/
def Alike (s s' : Store) (d : Disk) (op : Operation) : Prop :=
  (s'.perform d op).1 = (s.perform d op).1 ∧ (s.perform d op).2.Widened (s'.perform d op).2

theorem register (h : s.Widened s') (hs : s.Sound) (f : StoredFile) :
    Alike s s' d (.register f) := by
  simp only [Alike, perform]
  cases hr : s.register f with
  | ok t =>
    obtain ⟨hnew, rfl⟩ := hs.register_eq_ok.mp hr
    have hr' : s'.register f = .ok (s'.push f) :=
      (h.sound hs).register_eq_ok.mpr ⟨h.files ▸ hnew, rfl⟩
    rw [hr']
    exact ⟨rfl, h.push f⟩
  | error c =>
    have hr' : s'.register f = .error c := by
      rw [(h.sound hs).register_eq_error, h.files]
      exact hs.register_eq_error.mp hr
    rw [hr']
    exact ⟨rfl, h⟩

theorem resolve (h : s.Widened s') (hs : s.Sound)
    (hfound : ∀ i w, s.resolveImport d importer wanted ≠ .error (.notFound i w)) :
    Alike s s' d (.resolve importer wanted) := by
  have hs' := h.sound hs
  have hr : Settles s d importer wanted (s.resolveImport d importer wanted) :=
    hs.resolveImport_iff.mp rfl
  simp only [Alike, perform]
  generalize s.resolveImport d importer wanted = r at hr hfound
  cases hr with
  | stored hf hn =>
    rw [hs'.resolveImport_of_settles (.stored (h.files ▸ hf) hn)]
    exact ⟨rfl, h⟩
  | missing => exact absurd rfl (hfound importer wanted)
  | unreadable hn hf ht =>
    rw [hs'.resolveImport_of_settles (.unreadable (h.names ▸ hn) (h.firstHit hf) ht)]
    exact ⟨rfl, h⟩
  | malformed hn hf ht hp =>
    rw [hs'.resolveImport_of_settles (.malformed (h.names ▸ hn) (h.firstHit hf) ht hp)]
    exact ⟨rfl, h⟩
  | taken hn hf ht hp hg hplace =>
    rw [hs'.resolveImport_of_settles
      (.taken (h.names ▸ hn) (h.firstHit hf) ht hp (h.files ▸ hg) hplace)]
    exact ⟨rfl, h⟩
  | added hn hf ht hp hnew =>
    rw [hs'.resolveImport_of_settles
      (.added (h.names ▸ hn) (h.firstHit hf) ht hp (h.files ▸ hnew))]
    exact ⟨rfl, h.push _⟩

/-- One operation goes as before, unless it is an import that was not found. -/
theorem perform (h : s.Widened s') (hs : s.Sound) {op : Operation}
    (hfound : ∀ i w, (s.perform d op).1 ≠ .error (.notFound i w)) : Alike s s' d op := by
  cases op with
  | register f => exact h.register hs f
  | resolve importer wanted =>
    refine h.resolve hs fun i w he => hfound i w ?_
    simp only [Store.perform, he]
  | lookup path =>
    refine ⟨?_, h⟩
    simp only [Store.perform, lookup, lookupWritten, h.byPlace, h.files]
  | lookupName name =>
    refine ⟨?_, h⟩
    simp only [Store.perform, lookupName, h.byName, h.files]

/-- A whole history goes as before, as long as no import of it was not found. -/
theorem after (h : s.Widened s') (hs : s.Sound) {history : List (Disk × Operation)}
    (hfound : ∀ i w, .error (.notFound i w) ∉ s.answers history) :
    s'.answers history = s.answers history ∧ (s.after history).Widened (s'.after history) := by
  induction history generalizing s s' with
  | nil => exact ⟨rfl, h⟩
  | cons a history ih =>
    simp only [answers, List.mem_cons, not_or] at hfound
    obtain ⟨hanswer, hstores⟩ := h.perform hs fun i w he => (hfound i w).1 he.symm
    obtain ⟨hrest, hafter⟩ := ih hstores (hs.perform a.1 a.2) fun i w => (hfound i w).2
    refine ⟨?_, hafter⟩
    rw [answers, answers, hanswer, hrest]

end Widened

/-- Behind each history of a store that was empty: an import of a stored name is that file, and the
first directory that has a file of any other name decides what comes of its import. What an import
resolved to has the name that was wanted, and that name resolves to it from then on, whatever
becomes of the store and of the disk. More directories behind the others change nothing but imports
that were not found. -/
theorem imports_settled (importPath : ImportPath) (fallback : Option String)
    (past : List (Disk × Operation)) :
    let s := after { importPath, fallback } past
    (∀ d importer wanted r,
      s.resolveImport d importer wanted = r ↔ Settles s d importer wanted r) ∧
    (∀ f ∈ s.files, ∀ future d importer,
      (s.after future).resolveImport d importer f.name = .ok (f, s.after future)) ∧
    (∀ d importer wanted f t, s.resolveImport d importer wanted = .ok (f, t) →
      f.name = wanted ∧ ∀ future d' importer',
        (t.after future).resolveImport d' importer' wanted = .ok (f, t.after future)) ∧
    ∀ s', s.Widened s' → ∀ history, (∀ i w, .error (.notFound i w) ∉ s.answers history) →
      s'.answers history = s.answers history ∧
        (s.after history).Widened (s'.after history) := by
  intro s
  have h : s.Sound := (Sound.empty importPath fallback).after past
  refine ⟨?_, ?_, ?_, ?_⟩
  · intro d importer wanted r
    exact h.resolveImport_iff
  · intro f hf future d importer
    exact h.resolveImport_after hf future d importer
  · intro d importer wanted f t hr
    obtain ⟨rfl, hf, ht⟩ := h.resolved hr
    exact ⟨rfl, fun future d' importer' => ht.resolveImport_after hf future d' importer'⟩
  · intro s' hw history hfound
    exact hw.after h hfound

/-- A disk with one file, in a directory beside which paths start, and a link to that directory. -/
def shelf : Disk :=
  ⟨[(["w"], .directory), (["w", "p"], .directory), (["w", "p", "a"], .file []),
    (["w", "l"], .link "../w/p")], ["w"]⟩

/-- The file on the shelf is imported. -/
def shelved : List (Disk × Operation) :=
  [(shelf, .resolve "r" "a")]

/-- The import stays what it was when the disk is gone, and one more directory makes no difference
to it. -/
theorem imports_settled_shelved :
    (∃ f t, resolveImport { importPath := ["p"] } shelf "r" "a" = .ok (f, t) ∧ f.name = "a" ∧
      t.resolveImport {} "r" "a" = .ok (f, t)) ∧
    Widened { importPath := ["p"] } { importPath := ["p", "q"] } ∧
    (∀ i w, .error (.notFound i w) ∉ answers { importPath := ["p"] } shelved) ∧
    answers { importPath := ["p", "q"] } shelved = answers { importPath := ["p"] } shelved := by
  obtain ⟨-, -, hfinal, hmore⟩ := imports_settled ["p"] none []
  have hok : (resolveImport { importPath := ["p"] } shelf "r" "a").toOption.isSome := by
    decide +kernel
  cases hr : resolveImport { importPath := ["p"] } shelf "r" "a" with
  | error e =>
    rw [hr] at hok
    cases hok
  | ok p =>
    obtain ⟨f, t⟩ := p
    obtain ⟨hname, hlater⟩ := hfinal shelf "r" "a" f t hr
    have hw : Widened { importPath := ["p"] } { importPath := ["p", "q"] } :=
      ⟨rfl, rfl, rfl, List.prefix_append ["p"] ["q"]⟩
    have hfound : ∀ i w, .error (.notFound i w) ∉ answers { importPath := ["p"] } shelved := by
      intro i w
      simp [answers, shelved, perform, hr]
    exact ⟨⟨f, t, rfl, hname, hlater [] {} "r"⟩, hw, hfound, (hmore _ hw shelved hfound).1⟩

end RpcConsole.Store

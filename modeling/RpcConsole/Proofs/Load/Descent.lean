import Mathlib.Data.Finset.Card
import RpcConsole.Proofs.Load.Walk

namespace RpcConsole

/-- The places of the files on a disk. -/
def Disk.filePlaces (d : Disk) : Finset Place :=
  (d.nodes.map Prod.fst).toFinset.filter fun p => (d.node? p).any Node.isFile

theorem Source.file?_place_files {q : Source} {n : String} {f : StoredFile}
    (h : q.file? n = some f) : f.place ∈ q.disk.filePlaces := by
  obtain ⟨path, -, hr⟩ := Source.file?_eq_some.mp h
  obtain ⟨-, -, file, -, hn, hfile⟩ := Source.read_eq_ok hr
  rw [Disk.filePlaces, Finset.mem_filter, List.mem_toFinset, hn]
  exact ⟨Source.file?_place_mem h, hfile⟩

namespace Store

variable {s s' : Store} {d : Disk} {f : StoredFile}

/-- The places of the files on a disk that are not stored. -/
def unstored (s : Store) (d : Disk) : Finset Place :=
  d.filePlaces \ (s.files.map StoredFile.place).toFinset

theorem mem_unstored {p : Place} :
    p ∈ s.unstored d ↔ p ∈ d.filePlaces ∧ ∀ g ∈ s.files, g.place ≠ p := by
  simp [unstored]

/-- When one more file of the disk is stored, fewer are left than at any time before. -/
theorem unstored_push (hf : f.place ∈ d.filePlaces) (hnew : ∀ g ∈ s.files, g.place ≠ f.place)
    (hsub : s'.files ⊆ s.files) :
    ((s.push f).unstored d).card < (s'.unstored d).card := by
  apply Finset.card_lt_card
  rw [Finset.ssubset_iff_of_subset]
  · refine ⟨f.place, mem_unstored.mpr ⟨hf, fun g hg => hnew g (hsub hg)⟩, fun h => ?_⟩
    exact (mem_unstored.mp h).2 f (by simp) rfl
  · intro p hp
    obtain ⟨hfile, hp⟩ := mem_unstored.mp hp
    exact mem_unstored.mpr ⟨hfile, fun g hg => hp g (List.mem_append_left _ (hsub hg))⟩

end Store

namespace Walk

/-- A step down the imports: the state in which the importing file was entered, and the state in
which the file of its import was asked for. -/
structure Descent where
  importer : String
  above : Walk
  asked : Walk

/-- An act of a walk, with the state of the walk in which it is done. -/
inductive Act where
  /-- A file is entered under a name: the root, or the file of an import. -/
  | enter (from? : Option Descent) (name : String) (w : Walk)
  /-- An import of a file is looked at. -/
  | look (importer wanted : String) (w : Walk)
  /-- The file of an import is asked for. -/
  | ask (importer wanted : String) (w : Walk)
  /-- A file has been left. -/
  | leave (name : String) (w : Walk)
  /-- There is no fuel left to enter a file. -/
  | stop

namespace Act

/-- The name under which a file is entered. -/
def name? : Act → Option String
  | .enter _ name _ => some name
  | _ => none

/-- The file that is entered. -/
def file? : Act → Option StoredFile
  | .enter _ name w => w.store.lookupName name
  | _ => none

end Act

/-- What is done for one import of the file that was entered in the state `above`. -/
def followActs (d : Disk) (acts : Option Descent → String → Walk → List Act) (above : Walk)
    (importer : String) (w : Walk) (wanted : String) : List Act :=
  .look importer wanted w ::
    if w.inProgress.contains wanted then []
    else if w.visited.contains wanted || w.failed.contains wanted then []
    else .ask importer wanted w ::
      match w.store.resolveImport d importer wanted with
      | .ok (f, store) => acts (some ⟨importer, above, w⟩) f.name { w with store }
      | .error _ => []

/-- What is done for some imports, one after the other. -/
def importsActs (d : Disk) (visit : String → Walk → Walk)
    (acts : Option Descent → String → Walk → List Act) (above : Walk) (importer : String) :
    Walk → List String → List Act
  | _, [] => []
  | w, n :: ns =>
    followActs d acts above importer w n ++
      importsActs d visit acts above importer (follow d visit importer w n) ns

/-- What is done from where a file is entered to where it is left. -/
def visitActs (d : Disk) : Nat → Option Descent → String → Walk → List Act
  | 0, _, _, _ => [.stop]
  | fuel + 1, from?, name, w =>
    .enter from? name w ::
      match w.store.lookupName name with
      | none => []
      | some f =>
        importsActs d (visit d fuel) (visitActs d fuel) w name (w.enter name) f.imports ++
          [.leave name (visit d (fuel + 1) name w)]

end Walk

namespace Source

/-- The walk from the root of a load with some fuel. -/
def walkWith (q : Source) (fuel : Nat) : Walk :=
  let w : Walk := { store := q.store }
  match StoredFile.read q.disk q.rootName q.root with
  | .error e => w.note (.unresolved e)
  | .ok f =>
    match q.store.register f with
    | .error c => w.note (.unresolved (.conflict c))
    | .ok store => Walk.visit q.disk fuel q.rootName { w with store }

/-- What the walk from the root of a load does with some fuel. -/
def actsWith (q : Source) (fuel : Nat) : List Walk.Act :=
  let w : Walk := { store := q.store }
  match StoredFile.read q.disk q.rootName q.root with
  | .error _ => []
  | .ok f =>
    match q.store.register f with
    | .error _ => []
    | .ok store => Walk.visitActs q.disk fuel none q.rootName { w with store }

/-- What the walk from the root of a load does. -/
def acts (q : Source) : List Walk.Act :=
  q.actsWith (q.disk.nodes.length + 1)

theorem walk_eq (q : Source) : q.walk = q.walkWith (q.disk.nodes.length + 1) :=
  rfl

end Source

namespace Walk

section Fuel

variable {d : Disk} {visit visit' : String → Walk → Walk}
  {acts acts' : Option Descent → String → Walk → List Act}

/-- Two ways to walk on do the same wherever the second one is not stopped. -/
def Agrees (visit visit' : String → Walk → Walk)
    (acts acts' : Option Descent → String → Walk → List Act) : Prop :=
  ∀ from? n w, .stop ∉ acts from? n w → visit' n w = visit n w ∧ acts' from? n w = acts from? n w

theorem follow_agrees (h : Agrees visit visit' acts acts') {above w : Walk} {importer n : String}
    (hs : .stop ∉ followActs d acts above importer w n) :
    follow d visit' importer w n = follow d visit importer w n ∧
      followActs d acts' above importer w n = followActs d acts above importer w n := by
  unfold follow
  unfold followActs at hs ⊢
  split
  · exact ⟨rfl, rfl⟩
  · rename_i hp
    rw [if_neg hp] at hs
    split
    · exact ⟨rfl, rfl⟩
    · rename_i hk
      rw [if_neg hk] at hs
      cases hr : w.store.resolveImport d importer n with
      | ok p =>
        obtain ⟨f, store⟩ := p
        simp only [hr, List.mem_cons, not_or] at hs
        obtain ⟨hv, ha⟩ := h (some ⟨importer, above, w⟩) f.name { w with store } hs.2.2
        exact ⟨hv, by simp only [ha]⟩
      | error e => exact ⟨rfl, rfl⟩

theorem imports_agree (h : Agrees visit visit' acts acts') {above : Walk} {importer : String}
    {names : List String} {w : Walk}
    (hs : .stop ∉ importsActs d visit acts above importer w names) :
    names.foldl (follow d visit' importer) w = names.foldl (follow d visit importer) w ∧
      importsActs d visit' acts' above importer w names =
        importsActs d visit acts above importer w names := by
  induction names generalizing w with
  | nil => exact ⟨rfl, rfl⟩
  | cons n names ih =>
    rw [importsActs, List.mem_append, not_or] at hs
    obtain ⟨hf, ha⟩ := follow_agrees h hs.1
    obtain ⟨hfs, has⟩ := ih hs.2
    simp only [List.foldl_cons, importsActs, hf, ha, hfs, has, and_self]

/-- A walk that is not stopped does not use more fuel. -/
theorem visit_agrees (d : Disk) (fuel : Nat) :
    Agrees (Walk.visit d fuel) (Walk.visit d (fuel + 1)) (visitActs d fuel)
      (visitActs d (fuel + 1)) := by
  induction fuel with
  | zero =>
    intro from? n w hs
    simp [visitActs] at hs
  | succ fuel ih =>
    intro from? n w hs
    have hv : Walk.visit d (fuel + 2) n w = Walk.visit d (fuel + 1) n w := by
      rw [Walk.visit, Walk.visit]
      cases hf : w.store.lookupName n with
      | none => rfl
      | some f =>
        simp only [visitActs, hf, List.mem_cons, List.mem_append, not_or] at hs
        simp only
        rw [(imports_agree ih hs.2.1).1]
    refine ⟨hv, ?_⟩
    rw [visitActs, visitActs, hv]
    cases hf : w.store.lookupName n with
    | none => rfl
    | some f =>
      simp only [visitActs, hf, List.mem_cons, List.mem_append, not_or] at hs
      simp only
      rw [(imports_agree ih hs.2.1).2]

theorem visit_more {fuel : Nat} {from? : Option Descent} {n : String} {w : Walk}
    (hs : .stop ∉ visitActs d fuel from? n w) (more : Nat) :
    Walk.visit d (fuel + more) n w = Walk.visit d fuel n w ∧
      visitActs d (fuel + more) from? n w = visitActs d fuel from? n w := by
  induction more with
  | zero => exact ⟨rfl, rfl⟩
  | succ more ih =>
    obtain ⟨hv, ha⟩ := ih
    obtain ⟨hv', ha'⟩ := visit_agrees d (fuel + more) from? n w (ha ▸ hs)
    exact ⟨hv'.trans hv, ha'.trans ha⟩

end Fuel

/-- Each stored name is in progress or done, and none is among those that do not resolve. -/
structure Settled (w : Walk) : Prop where
  stored : ∀ n ∈ w.store.names, n ∈ w.inProgress ∨ n ∈ w.visited
  apart : ∀ n ∈ w.store.names, n ∉ w.failed

/-- A step down to a file: it was not stored when it was asked for, it has been stored and nothing
else, and fewer files are left than when the importing file was entered. -/
structure Descent.Fresh (d : Disk) (s : Descent) (f : StoredFile) (w : Walk) : Prop where
  current : w.inProgress.getLast? = some s.importer
  asked : s.asked.store.resolveImport d s.importer f.name = .ok (f, w.store)
  stored : s.asked.store.register f = .ok w.store
  only : w = { s.asked with store := w.store }
  fewer : (w.store.unstored d).card < (s.above.store.unstored d).card

/-- A file is entered: the root, when no file is in progress, or the file of an import. -/
structure Entered (q : Source) (from? : Option Descent) (name : String) (f : StoredFile)
    (w : Walk) : Prop where
  found : w.store.lookupName name = some f
  named : f.name = name
  onDisk : f.place ∈ q.disk.filePlaces
  settled : (w.enter name).Settled
  root : from? = none → name = q.rootName ∧ w.inProgress = []
  fresh : ∀ s ∈ from?, s.Fresh q.disk f w

/-- What holds when an act is done. -/
def Act.Holds (q : Source) : Act → Prop
  | .enter from? name w => ∃ f, Entered q from? name f w
  | .look _ _ w => w.Settled
  | .ask _ wanted w => w.Settled ∧ wanted ∉ w.store.names
  | .leave _ w => w.Settled
  | .stop => False

variable {q : Source} {w w' w'' above : Walk} {f : StoredFile} {n importer : String}
  {as bs : List Act} {visit : String → Walk → Walk}
  {acts : Option Descent → String → Walk → List Act}

theorem Inv.settled (h : Inv q w) (ha : ∀ m ∈ w.store.names, m ∉ w.failed) : w.Settled :=
  ⟨fun m hm => ((h.stored m).mp hm).symm, ha⟩

/-- Some acts lead from one state to another: the files that are entered are those that get stored.
-/
structure Told (q : Source) (w w' : Walk) (as : List Act) : Prop where
  sound : w'.store.Sound
  settled : w'.Settled
  files : w'.store.files = w.store.files ++ as.filterMap Act.file?
  holds : ∀ a ∈ as, a.Holds q

theorem Told.trans (h : Told q w w' as) (h' : Told q w' w'' bs) : Told q w w'' (as ++ bs) where
  sound := h'.sound
  settled := h'.settled
  files := by rw [h'.files, h.files, List.filterMap_append, List.append_assoc]
  holds a ha := (List.mem_append.mp ha).elim (h.holds a) (h'.holds a)

theorem followActs_known {d : Disk} (hk : n ∈ w.inProgress ∨ n ∈ w.visited ∨ n ∈ w.failed) :
    followActs d acts above importer w n = [.look importer n w] := by
  unfold followActs
  split
  · rfl
  · rename_i hp
    rw [if_pos]
    simpa using hk.resolve_left (by simpa using hp)

theorem followActs_asked {d : Disk} (hp : n ∉ w.inProgress) (hv : n ∉ w.visited)
    (hf : n ∉ w.failed) :
    followActs d acts above importer w n =
      .look importer n w :: .ask importer n w ::
        match w.store.resolveImport d importer n with
        | .ok (f, store) => acts (some ⟨importer, above, w⟩) f.name { w with store }
        | .error _ => [] := by
  unfold followActs
  rw [if_neg (by simpa using hp), if_neg (by simpa using ⟨hv, hf⟩)]

/-- One more file is stored. -/
abbrev push (w : Walk) (f : StoredFile) : Walk :=
  { w with store := w.store.push f }

/-- What walking on does from a file that has just been stored. -/
def Tells (q : Source) (visit : String → Walk → Walk)
    (acts : Option Descent → String → Walk → List Act) (count : Nat) : Prop :=
  ∀ from? f w, Inv q ((w.push f).enter f.name) → Entered q from? f.name f (w.push f) →
    count ≤ w.store.files.length + 1 →
    Told q w (visit f.name (w.push f)) (acts from? f.name (w.push f))

theorem Tells.mono {count more : Nat} (h : Tells q visit acts count) (hm : count ≤ more) :
    Tells q visit acts more :=
  fun from? f w hw he hc => h from? f w hw he (Nat.le_trans hm hc)

/-- The file of an import is asked for, stored and entered. -/
theorem Inv.entered_push (above : Walk) (h : Inv q w) (hs : w.Settled)
    (hl : w.inProgress.getLast? = some importer) (hn : f.name ∉ w.failed)
    (hres : w.store.resolveImport q.disk importer f.name = .ok (f, w.store.push f))
    (hnew : ∀ g ∈ w.store.files, g.place ≠ f.place ∧ g.name ≠ f.name)
    (habove : above.store.files ⊆ w.store.files) (henter : Inv q ((w.push f).enter f.name)) :
    Entered q (some ⟨importer, above, w⟩) f.name f (w.push f) := by
  have hf : f ∈ ((w.push f).enter f.name).store.files := by simp [enter]
  have hplace := Source.file?_place_files (henter.meant f hf)
  have hsettled : ((w.push f).enter f.name).Settled := by
    apply henter.settled
    intro m hm
    simp only [enter, Store.push_names, List.mem_append, List.mem_singleton] at hm
    rcases hm with hm | rfl
    · exact hs.apart m hm
    · exact hn
  have hfresh : Descent.Fresh q.disk ⟨importer, above, w⟩ f (w.push f) :=
    { current := hl
      asked := hres
      stored := h.sound.register_eq_ok.mpr ⟨hnew, rfl⟩
      only := rfl
      fewer := Store.unstored_push hplace (fun g hg => (hnew g hg).1) habove }
  exact
    { found := henter.sound.lookupName_eq_some.mpr ⟨hf, rfl⟩
      named := rfl
      onDisk := hplace
      settled := hsettled
      root := by simp
      fresh := by simpa using hfresh }

theorem follow_told (above : Walk) (h : Inv q w) (hs : w.Settled)
    (hl : w.inProgress.getLast? = some importer) (hi : q.Imports importer n)
    (habove : above.store.files ⊆ w.store.files)
    (hv : Tells q visit acts (w.store.files.length + 1)) :
    Told q w (follow q.disk visit importer w n)
      (followActs q.disk acts above importer w n) := by
  have himp : importer ∈ w.store.names :=
    (h.stored importer).mpr (.inr (List.mem_of_getLast? hl))
  have hr : q.Reaches n := (h.reached importer himp).import hi
  rcases h.follow_cases visit importer with
    ⟨hp, he⟩ | ⟨hk, he⟩ | ⟨hn, hf, e, hres, -, he⟩ | ⟨hn, hf, f, hres, hq, hnew, he⟩
  · rw [he, followActs_known (.inl hp)]
    exact ⟨h.sound, ⟨hs.stored, hs.apart⟩, by simp [note, Act.file?], by simpa [Act.Holds] using hs⟩
  · rw [he, followActs_known (.inr hk)]
    exact ⟨h.sound, hs, by simp [Act.file?], by simpa [Act.Holds] using hs⟩
  · obtain ⟨hv, hp⟩ := not_or.mp (mt (h.stored n).mpr hn)
    rw [he, followActs_asked hp hv hf, hres]
    refine ⟨h.sound, ⟨hs.stored, fun m hm => ?_⟩, by simp [note, Act.file?], ?_⟩
    · simp only [note, List.mem_append, List.mem_singleton, not_or]
      exact ⟨hs.apart m hm, fun hmn => hn (hmn ▸ hm)⟩
    · simpa [Act.Holds, hn] using hs
  · obtain ⟨hnv, hnp⟩ := not_or.mp (mt (h.stored n).mpr hn)
    rw [he, followActs_asked hnp hnv hf, hres]
    have hname := Source.file?_name hq
    subst hname
    have henter := h.enter_push hl hi hr hq hn hnew
    have hentered := h.entered_push above hs hl hf hres hnew habove henter
    have htold := hv _ f w henter hentered (Nat.le_refl _)
    refine ⟨htold.sound, htold.settled, htold.files, ?_⟩
    intro a ha
    simp only [List.mem_cons] at ha
    rcases ha with rfl | rfl | ha
    · exact hs
    · exact ⟨hs, hn⟩
    · exact htold.holds a ha

theorem imports_told (above : Walk) {names : List String} (h : Inv q w) (hs : w.Settled)
    (hl : w.inProgress.getLast? = some importer) (hi : ∀ n ∈ names, q.Imports importer n)
    (habove : above.store.files ⊆ w.store.files)
    (hw : Walks q visit (w.store.files.length + 1))
    (hv : Tells q visit acts (w.store.files.length + 1)) :
    Told q w (names.foldl (follow q.disk visit importer) w)
      (importsActs q.disk visit acts above importer w names) := by
  induction names generalizing w with
  | nil => exact ⟨h.sound, hs, by simp [importsActs], by simp [importsActs]⟩
  | cons n names ih =>
    have hin := hi n (List.mem_cons_self ..)
    have hpiece := follow_piece h hl hin hw
    have htold := follow_told above h hs hl hin habove hv
    have hle := Nat.succ_le_succ hpiece.stored
    refine htold.trans (ih hpiece.inv htold.settled (hpiece.inProgress ▸ hl) ?_ ?_ (hw.mono hle)
      (hv.mono hle))
    · intro m hm
      exact hi m (List.mem_cons_of_mem _ hm)
    · rw [htold.files]
      intro g hg
      exact List.mem_append_left _ (habove hg)

theorem visit_tells (fuel count : Nat) (hc : q.disk.nodes.length + 2 ≤ fuel + count) :
    Tells q (Walk.visit q.disk fuel) (visitActs q.disk fuel) count := by
  induction fuel generalizing count with
  | zero =>
    intro from? f w h _ hw
    -- The stored files are files of the disk, so the fuel is not used up before they are.
    have hl : (w.store.push f).files.length ≤ q.disk.nodes.length := h.length_le
    simp only [Store.push_files, List.length_append, List.length_singleton] at hl
    omega
  | succ fuel ih =>
    intro from? f w h he hw
    have hfuel : q.disk.nodes.length + 2 ≤ fuel + ((w.store.push f).files.length + 1) := by
      simp only [Store.push_files, List.length_append, List.length_singleton]
      omega
    have hf : (w.store.push f).lookupName f.name = some f := he.found
    have hq : q.file? f.name = some f := h.meant f (by simp [enter])
    have hi : ∀ m ∈ f.imports, q.Imports f.name m := fun m hm => ⟨f, hq, hm⟩
    have hl : ((w.push f).enter f.name).inProgress.getLast? = some f.name := by
      simp [enter]
    have hpiece := fold_piece h hl hi (visit_walks fuel _ hfuel)
    have htold := imports_told (w.push f) h he.settled hl hi (List.Subset.refl _)
      (visit_walks fuel _ hfuel) (ih _ hfuel)
    have hvisit : Walk.visit q.disk (fuel + 1) f.name (w.push f) =
        (f.imports.foldl (follow q.disk (Walk.visit q.disk fuel) f.name)
          ((w.push f).enter f.name)).leave f.name := by
      simp only [Walk.visit, hf]
    have hleft := hpiece.inv.leave hpiece.inProgress
    have hsettled := hleft.settled htold.settled.apart
    rw [visitActs, hvisit]
    simp only [hf]
    refine ⟨hleft.sound, hsettled, ?_, ?_⟩
    · have hfiles := htold.files
      simp only [enter, Store.push_files] at hfiles
      simp [leave, enter, hfiles, Act.file?, hf]
    · intro a ha
      simp only [List.mem_cons, List.mem_append, List.not_mem_nil, or_false] at ha
      rcases ha with rfl | ha | rfl
      · exact ⟨f, he⟩
      · exact htold.holds a ha
      · exact hsettled

theorem walkWith_told (q : Source) {fuel : Nat} (hfuel : q.disk.nodes.length < fuel) :
    Told q { store := q.store } (q.walkWith fuel) (q.actsWith fuel) := by
  have hempty := Store.Sound.empty q.importPath (some q.rootDir)
  unfold Source.walkWith Source.actsWith
  cases hf : StoredFile.read q.disk q.rootName q.root with
  | error e =>
    exact ⟨hempty, ⟨by simp [note, Source.store, Store.names], by simp [note]⟩, by simp [note],
      by simp⟩
  | ok f =>
    have hpath : q.path? q.rootName = some q.root := by simp [Source.path?]
    have hq : q.file? q.rootName = some f := Source.file?_eq_some.mpr ⟨_, hpath, hf⟩
    have hn := Source.file?_name hq
    have hreg : q.store.register f = .ok (q.store.push f) :=
      hempty.register_eq_ok.mpr ⟨by simp, rfl⟩
    have hstart := Inv.start hn hq
    have hentered : Entered q none q.rootName f { store := q.store.push f } :=
      { found := hstart.sound.lookupName_eq_some.mpr ⟨by simp [enter], hn⟩
        named := hn
        onDisk := Source.file?_place_files hq
        settled := hstart.settled (by simp [enter])
        root := fun _ => ⟨rfl, rfl⟩
        fresh := by simp }
    simp only [hreg]
    rw [← hn] at hstart hentered ⊢
    exact visit_tells fuel 1 (by omega) none f { store := q.store } hstart hentered
      (Nat.le_add_left ..)

/-- The walk needs no more fuel than it is given. -/
theorem walkWith_eq (q : Source) {fuel : Nat} (hfuel : q.disk.nodes.length < fuel) :
    q.walkWith fuel = q.walk ∧ q.actsWith fuel = q.acts := by
  obtain ⟨more, rfl⟩ := Nat.exists_eq_add_of_lt hfuel
  have hstop : .stop ∉ q.acts := (walkWith_told q (Nat.lt_succ_self _)).holds _
  rw [Nat.add_right_comm]
  rw [Source.walk_eq]
  unfold Source.acts Source.actsWith at hstop ⊢
  unfold Source.walkWith
  cases hf : StoredFile.read q.disk q.rootName q.root with
  | error e => exact ⟨rfl, rfl⟩
  | ok f =>
    simp only [hf] at hstop ⊢
    cases hs : q.store.register f with
    | error c => exact ⟨rfl, rfl⟩
    | ok store =>
      simp only [hs] at hstop ⊢
      exact visit_more hstop more

/-- The names of entered files, from the files that are entered. -/
theorem entered_names (h : ∀ a ∈ as, a.Holds q) :
    as.filterMap Act.name? = (as.filterMap Act.file?).map StoredFile.name := by
  induction as with
  | nil => rfl
  | cons a as ih =>
    obtain ⟨ha, has⟩ := List.forall_mem_cons.mp h
    cases a with
    | enter from? name w =>
      obtain ⟨f, hf⟩ := ha
      simp [Act.name?, Act.file?, hf.found, hf.named, ih has]
    | look | ask | leave => exact ih has
    | stop => exact ha.elim

/-- The walk from a root comes to an end, whatever stands on the disk and whatever the files import
under whichever names: more fuel than there are nodes on the disk is not used up, and makes no
difference. The files that are entered are those that are stored, in their order, so no name and no
file of the disk is entered twice. Each file but the root is entered right after it was stored, when
fewer files of the disk are left to store than when the importing file was entered. Whenever a file
is entered or left, or an import is looked at, each stored name is in progress or done and none is
among those that do not resolve; and no file is asked for under a name that is stored. -/
theorem walk_ends (q : Source) :
    (∀ fuel, q.disk.nodes.length < fuel →
      q.walkWith fuel = q.walk ∧ q.actsWith fuel = q.acts ∧ .stop ∉ q.actsWith fuel) ∧
    q.acts.filterMap Act.file? = q.walk.store.files ∧
    (q.acts.filterMap Act.name?).Nodup ∧
    ((q.acts.filterMap Act.file?).map StoredFile.place).Nodup ∧
    (q.acts.filterMap Act.name?).length ≤ q.disk.filePlaces.card ∧
    (∀ from? name w, .enter from? name w ∈ q.acts → ∃ f, Entered q from? name f w) ∧
    (∀ importer wanted w, .look importer wanted w ∈ q.acts → w.Settled) ∧
    (∀ importer wanted w, .ask importer wanted w ∈ q.acts →
      w.Settled ∧ wanted ∉ w.store.names) ∧
    (∀ name w, .leave name w ∈ q.acts → w.Settled) := by
  have htold : Told q { store := q.store } q.walk q.acts := walkWith_told q (Nat.lt_succ_self _)
  have hfiles : q.acts.filterMap Act.file? = q.walk.store.files := htold.files.symm
  have hnames : q.acts.filterMap Act.name? = q.walk.store.names := by
    rw [entered_names htold.holds, hfiles]
    rfl
  have hplaces : ((q.acts.filterMap Act.file?).map StoredFile.place).Nodup := by
    rw [hfiles]
    exact htold.sound.places_nodup
  refine ⟨?_, hfiles, ?_, hplaces, ?_, ?_, ?_, ?_, ?_⟩
  · intro fuel hfuel
    obtain ⟨hwalk, hacts⟩ := walkWith_eq q hfuel
    exact ⟨hwalk, hacts, fun hstop => (walkWith_told q hfuel).holds _ hstop⟩
  · rw [hnames]
    exact htold.sound.names_nodup
  · have hlength : (q.acts.filterMap Act.name?).length =
        ((q.acts.filterMap Act.file?).map StoredFile.place).length := by
      rw [entered_names htold.holds, List.length_map, List.length_map]
    rw [hlength, ← List.toFinset_card_of_nodup hplaces]
    apply Finset.card_le_card
    intro p hp
    obtain ⟨f, hf, rfl⟩ := List.mem_map.mp (List.mem_toFinset.mp hp)
    obtain ⟨a, ha, hfile⟩ := List.mem_filterMap.mp hf
    cases a with
    | enter from? name w =>
      obtain ⟨g, hg⟩ := htold.holds _ ha
      cases hg.found.symm.trans hfile
      exact hg.onDisk
    | look | ask | leave | stop => cases hfile
  · intro from? name w ha
    exact htold.holds _ ha
  · intro importer wanted w ha
    exact htold.holds _ ha
  · intro importer wanted w ha
    exact htold.holds _ ha
  · intro name w ha
    exact htold.holds _ ha

/-- Two files that import each other, one of them also under another name. -/
def ring : Source where
  disk :=
    ⟨[(["a"], .file (Utf8.ofString "import 'b';")), (["p"], .directory),
      (["p", "b"], .file (Utf8.ofString "import 'a'; import 'p/b';"))], []⟩
  root := "a"
  rootName := "a"
  rootDir := ""
  importPath := ["p"]

theorem walk_ends_ring :
    ring.disk.nodes.length < 9 ∧ ring.walkWith 9 = ring.walk ∧ .stop ∉ ring.actsWith 9 ∧
    ring.acts.filterMap Act.name? = ["a", "b"] ∧ 2 ≤ ring.disk.filePlaces.card ∧
    ∃ from? w f, .enter from? "b" w ∈ ring.acts ∧ Entered ring from? "b" f w := by
  have hnames : ring.acts.filterMap Act.name? = ["a", "b"] := by decide +kernel
  obtain ⟨hfuel, -, -, -, hcard, hentered, -⟩ := walk_ends ring
  obtain ⟨hwalk, -, hstop⟩ := hfuel 9 (by decide)
  have hb : "b" ∈ ring.acts.filterMap Act.name? := by simp [hnames]
  rw [hnames] at hcard
  refine ⟨by decide, hwalk, hstop, hnames, hcard, ?_⟩
  obtain ⟨a, ha, hb⟩ := List.mem_filterMap.mp hb
  cases a with
  | enter from? name w =>
    cases hb
    obtain ⟨f, hf⟩ := hentered from? _ w ha
    exact ⟨from?, w, f, ha, hf⟩
  | look | ask | leave | stop => cases hb

end Walk
end RpcConsole

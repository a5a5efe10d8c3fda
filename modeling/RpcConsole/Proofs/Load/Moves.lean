import RpcConsole.Proofs.Load.Walk

namespace RpcConsole.Walk

section
variable (w : Walk) (e : LoadError) (n : String)

@[simp] theorem note_store : (w.note e).store = w.store := rfl

@[simp] theorem note_errors : (w.note e).errors = w.errors ++ [e] := rfl

@[simp] theorem note_inProgress : (w.note e).inProgress = w.inProgress := rfl

@[simp] theorem note_visited : (w.note e).visited = w.visited := rfl

@[simp] theorem note_failed : (w.note e).failed = w.failed := rfl

@[simp] theorem enter_store : (w.enter n).store = w.store := rfl

@[simp] theorem enter_errors : (w.enter n).errors = w.errors := rfl

@[simp] theorem enter_inProgress : (w.enter n).inProgress = w.inProgress ++ [n] := rfl

@[simp] theorem enter_visited : (w.enter n).visited = w.visited := rfl

@[simp] theorem enter_failed : (w.enter n).failed = w.failed := rfl

@[simp] theorem leave_store : (w.leave n).store = w.store := rfl

@[simp] theorem leave_errors : (w.leave n).errors = w.errors := rfl

@[simp] theorem leave_inProgress : (w.leave n).inProgress = w.inProgress.dropLast := rfl

@[simp] theorem leave_visited : (w.leave n).visited = w.visited ++ [n] := rfl

@[simp] theorem leave_failed : (w.leave n).failed = w.failed := rfl

end

/-- A file in progress, with the imports that have been followed and those that are left. While the
first of these is walked, it is left. -/
structure Frame where
  file : StoredFile
  done : List String
  left : List String

/-- A point of a walk: its state, and the files in progress, the current one first. -/
structure Point where
  walk : Walk
  frames : List Frame

/-- The moves of a walk. -/
inductive Move (q : Source) : Point → Point → Prop where
  | cycle {w : Walk} {f : StoredFile} {done ns : List String} {n : String} {rest : List Frame}
      (hp : n ∈ w.inProgress) :
      Move q ⟨w, ⟨f, done, n :: ns⟩ :: rest⟩
        ⟨w.note (.importCycle (w.cycle n)), ⟨f, done ++ [n], ns⟩ :: rest⟩
  | known {w : Walk} {f : StoredFile} {done ns : List String} {n : String} {rest : List Frame}
      (hk : n ∈ w.visited ∨ n ∈ w.failed) :
      Move q ⟨w, ⟨f, done, n :: ns⟩ :: rest⟩ ⟨w, ⟨f, done ++ [n], ns⟩ :: rest⟩
  | refuse {w : Walk} {f : StoredFile} {done ns : List String} {n : String} {rest : List Frame}
      {e : ResolveError} (hn : n ∉ w.store.names) (hf : n ∉ w.failed)
      (he : Refused q w f.name n e) :
      Move q ⟨w, ⟨f, done, n :: ns⟩ :: rest⟩
        ⟨{ w with failed := w.failed ++ [n] }.note (.unresolved e), ⟨f, done ++ [n], ns⟩ :: rest⟩
  | enter {w : Walk} {f g : StoredFile} {done ns : List String} {n : String} {rest : List Frame}
      (hn : n ∉ w.store.names) (hf : n ∉ w.failed) (hq : q.file? n = some g)
      (hnew : ∀ x ∈ w.store.files, x.place ≠ g.place ∧ x.name ≠ g.name) :
      Move q ⟨w, ⟨f, done, n :: ns⟩ :: rest⟩
        ⟨{ w with store := w.store.push g }.enter n,
          ⟨g, [], g.imports⟩ :: ⟨f, done, n :: ns⟩ :: rest⟩
  | leave {w : Walk} {f : StoredFile} {done : List String} {rest : List Frame} :
      Move q ⟨w, ⟨f, done, []⟩ :: rest⟩ ⟨w.leave f.name, rest⟩

/-- Some moves, one after the other. -/
abbrev Run (q : Source) : Point → Point → Prop :=
  Relation.ReflTransGen (Move q)

/-- What holds at each point: the frames are those of the files in progress, and each splits the
imports of its file. -/
structure Stands (q : Source) (p : Point) : Prop where
  inv : Inv q p.walk
  inProgress : p.walk.inProgress = (p.frames.map fun fr => fr.file.name).reverse
  stored : ∀ fr ∈ p.frames, fr.file ∈ p.walk.store.files
  imports : ∀ fr ∈ p.frames, fr.file.imports = fr.done ++ fr.left

variable {q : Source} {p p' : Point} {w : Walk} {f : StoredFile} {done ns : List String}
  {n : String} {rest : List Frame}

theorem Stands.last (h : Stands q ⟨w, ⟨f, done, ns⟩ :: rest⟩) :
    w.inProgress.getLast? = some f.name := by
  have hp := h.inProgress
  simp only [List.map_cons, List.reverse_cons] at hp
  simp [hp]

theorem Stands.follows (h : Stands q ⟨w, ⟨f, done, n :: ns⟩ :: rest⟩) : q.Imports f.name n :=
  ⟨f, h.inv.meant f (h.stored _ (List.mem_cons_self ..)), by
    rw [h.imports _ (List.mem_cons_self ..)]
    simp⟩

theorem Stands.reaches (h : Stands q ⟨w, ⟨f, done, n :: ns⟩ :: rest⟩) : q.Reaches n :=
  (h.inv.reached _ (List.mem_map_of_mem (h.stored _ (List.mem_cons_self ..)))).import h.follows

/-- When no file is in progress, all stored files are done. -/
theorem Stands.visited (h : Stands q ⟨w, []⟩) (hf : f ∈ w.store.files) : f.name ∈ w.visited := by
  have hp : w.inProgress = [] := h.inProgress
  rcases (h.inv.stored f.name).mp (List.mem_map_of_mem hf) with hv | hv
  · exact hv
  · simp [hp] at hv

/-- An import has been followed. -/
theorem Stands.step {w' : Walk} (h : Stands q ⟨w, ⟨f, done, n :: ns⟩ :: rest⟩) (hi : Inv q w')
    (hs : w'.store = w.store) (hp : w'.inProgress = w.inProgress) :
    Stands q ⟨w', ⟨f, done ++ [n], ns⟩ :: rest⟩ where
  inv := hi
  inProgress := hp.trans h.inProgress
  stored := by
    simp only [hs]
    exact List.forall_mem_cons.mpr (List.forall_mem_cons.mp h.stored)
  imports := by
    obtain ⟨hf, hr⟩ := List.forall_mem_cons.mp h.imports
    exact List.forall_mem_cons.mpr ⟨by simpa using hf, hr⟩

theorem Move.stands (hm : Move q p p') (h : Stands q p) : Stands q p' := by
  cases hm with
  | cycle hp =>
    have hc : Relation.TransGen q.Imports _ _ :=
      .tail' (leads_last h.inv.chain h.last _ hp) h.follows
    exact h.step (h.inv.noted (.cycle h.reaches hc) _) rfl rfl
  | known hk => exact h.step h.inv rfl rfl
  | refuse hn hf he =>
    exact h.step (h.inv.noted (he.wrong h.inv h.reaches hn) _) rfl rfl
  | @enter w f g done ns n rest hn hf hq hnew =>
    have hname := Source.file?_name hq
    subst hname
    refine ⟨h.inv.enter_push h.last h.follows h.reaches hq hn hnew, ?_, ?_, ?_⟩
    · have hp : w.inProgress = (rest.map fun fr => fr.file.name).reverse ++ [f.name] := by
        simpa using h.inProgress
      simp [hp]
    · refine List.forall_mem_cons.mpr ⟨by simp, fun fr hfr => ?_⟩
      exact List.mem_append_left _ (h.stored fr hfr)
    · exact List.forall_mem_cons.mpr ⟨by simp, h.imports⟩
  | @leave w f done rest =>
    have hp : w.inProgress = (rest.map fun fr => fr.file.name).reverse ++ [f.name] := by
      simpa using h.inProgress
    exact ⟨h.inv.leave hp, by simp [hp], (List.forall_mem_cons.mp h.stored).2,
      (List.forall_mem_cons.mp h.imports).2⟩

/-- What each move keeps holds after a run. -/
theorem Run.keeps {P : Point → Prop} (hP : ∀ p p', Stands q p → Move q p p' → P p → P p')
    (hr : Run q p p') (hs : Stands q p) (hp : P p) : Stands q p' ∧ P p' := by
  induction hr with
  | refl => exact ⟨hs, hp⟩
  | tail _ hm ih => exact ⟨hm.stands ih.1, hP _ _ ih.1 hm ih.2⟩

/-- Walking on from an entered file is a run to the point where the file is left. -/
def Runs (q : Source) (visit : String → Walk → Walk) (count : Nat) : Prop :=
  ∀ n w f rest, Inv q (w.enter n) → count ≤ w.store.files.length → w.store.lookupName n = some f →
    Run q ⟨w.enter n, ⟨f, [], f.imports⟩ :: rest⟩ ⟨visit n w, rest⟩ ∧ n ∈ (visit n w).visited

theorem follow_runs {visit : String → Walk → Walk} (h : Inv q w)
    (hl : w.inProgress.getLast? = some f.name) (hi : q.Imports f.name n)
    (hv : Runs q visit (w.store.files.length + 1)) :
    Run q ⟨w, ⟨f, done, n :: ns⟩ :: rest⟩
      ⟨follow q.disk visit f.name w n, ⟨f, done ++ [n], ns⟩ :: rest⟩ := by
  rcases h.follow_cases visit f.name with
    ⟨hp, he⟩ | ⟨hk, he⟩ | ⟨hn, hf, e, -, hw, he⟩ | ⟨hn, hf, g, -, hq, hnew, he⟩
  · rw [he]
    exact .single (.cycle hp)
  · rw [he]
    exact .single (.known hk)
  · rw [he]
    exact .single (.refuse hn hf hw)
  · rw [he]
    have hname := Source.file?_name hq
    subst hname
    have hr : q.Reaches g.name :=
      (h.reached _ ((h.stored _).mpr (.inr (List.mem_of_getLast? hl)))).import hi
    have hg : (w.store.push g).lookupName g.name = some g :=
      (h.sound.push hnew).lookupName_eq_some.mpr ⟨by simp, rfl⟩
    obtain ⟨hrun, hd⟩ := hv g.name { w with store := w.store.push g } g
      (⟨f, done, g.name :: ns⟩ :: rest) (h.enter_push hl hi hr hq hn hnew) (by simp) hg
    -- The import is looked at once more when its file has been left, and is known then.
    exact (Relation.ReflTransGen.head (.enter hn hf hq hnew) hrun).tail (.known (.inl hd))

theorem fold_runs {visit : String → Walk → Walk} (h : Inv q w)
    (hl : w.inProgress.getLast? = some f.name) (hi : ∀ n ∈ ns, q.Imports f.name n)
    (hw : Walks q visit (w.store.files.length + 1)) (hv : Runs q visit (w.store.files.length + 1)) :
    Run q ⟨w, ⟨f, done, ns⟩ :: rest⟩
      ⟨ns.foldl (follow q.disk visit f.name) w, ⟨f, done ++ ns, []⟩ :: rest⟩ := by
  induction ns generalizing w done with
  | nil => simpa using Relation.ReflTransGen.refl
  | cons n ns ih =>
    have hn := follow_piece h hl (hi n (List.mem_cons_self ..)) hw
    have hs := Nat.succ_le_succ hn.stored
    have hrest : Run q ⟨follow q.disk visit f.name w n, ⟨f, done ++ [n], ns⟩ :: rest⟩ _ :=
      ih hn.inv (hn.inProgress ▸ hl)
      (fun m hm => hi m (List.mem_cons_of_mem _ hm))
      (hw.mono hs)
      (fun m w g fs hw' hc => hv m w g fs hw' (Nat.le_trans hs hc))
    rw [List.append_assoc] at hrest
    exact (follow_runs h hl (hi n (List.mem_cons_self ..)) hv).trans hrest

theorem visit_runs (fuel count : Nat) (hc : q.disk.nodes.length + 2 ≤ fuel + count) :
    Runs q (visit q.disk fuel) count := by
  induction fuel generalizing count with
  | zero =>
    intro n w f rest h hw
    have hl : w.store.files.length ≤ q.disk.nodes.length := h.length_le
    omega
  | succ fuel ih =>
    intro n w f rest h hw hf
    obtain ⟨hname, hq, -⟩ := h.lookupName hf
    subst hname
    have hlen : q.disk.nodes.length + 2 ≤ fuel + ((w.enter f.name).store.files.length + 1) := by
      simp only [enter_store]
      omega
    have hrun : Run q ⟨w.enter f.name, ⟨f, [], f.imports⟩ :: rest⟩ _ :=
      fold_runs h (by simp) (fun m hm => ⟨f, hq, hm⟩) (visit_walks fuel _ hlen) (ih _ hlen)
    have hvisit : visit q.disk (fuel + 1) f.name w =
        (f.imports.foldl (follow q.disk (visit q.disk fuel) f.name) (w.enter f.name)).leave
          f.name := by
      simp [visit, hf]
    rw [hvisit]
    exact ⟨hrun.tail .leave, by simp⟩

/-- The point at which the root file is entered. -/
def atRoot (q : Source) (f : StoredFile) : Point :=
  ⟨({ store := q.store.push f } : Walk).enter q.rootName, [⟨f, [], f.imports⟩]⟩

theorem Stands.atRoot (hf : q.file? q.rootName = some f) : Stands q (atRoot q f) where
  inv := Inv.start (Source.file?_name hf) hf
  inProgress := by simp [Walk.atRoot, Source.file?_name hf]
  stored := by simp [Walk.atRoot]
  imports := by simp [Walk.atRoot]

/-- The walk from a root that cannot be read notes that and ends; the walk from any other root is a
run from there to a point where no file is in progress. -/
theorem walk_runs (q : Source) :
    (q.file? q.rootName = none ∧ ∃ e, StoredFile.read q.disk q.rootName q.root = .error e ∧
      q.walk = ({ store := q.store } : Walk).note (.unresolved e)) ∨
    ∃ f, q.file? q.rootName = some f ∧ Run q (atRoot q f) ⟨q.walk, []⟩ := by
  have hpath : q.path? q.rootName = some q.root := by simp [Source.path?]
  unfold Source.walk fromRoot
  cases hf : StoredFile.read q.disk q.rootName q.root with
  | error e => exact .inl ⟨by simp [Source.file?, hpath, hf, Except.toOption], e, rfl, rfl⟩
  | ok f =>
    have hq : q.file? q.rootName = some f := Source.file?_eq_some.mpr ⟨_, hpath, hf⟩
    have hn := Source.file?_name hq
    have hs : q.store.register f = .ok (q.store.push f) :=
      (Store.Sound.empty q.importPath (some q.rootDir)).register_eq_ok.mpr ⟨by simp, rfl⟩
    have hsound : (q.store.push f).Sound :=
      (Store.Sound.empty q.importPath (some q.rootDir)).push (by simp)
    refine .inr ⟨f, hq, ?_⟩
    simp only [hs]
    exact (visit_runs (q.disk.nodes.length + 1) 1 (by omega) q.rootName _ f [] (Inv.start hn hq)
      (by simp) (hsound.lookupName_eq_some.mpr ⟨by simp, hn⟩)).1

end RpcConsole.Walk

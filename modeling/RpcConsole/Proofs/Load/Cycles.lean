import RpcConsole.Proofs.Load.Reports

namespace RpcConsole

namespace Store

/-- One stored file imports another one, or itself. -/
def Imports (s : Store) (a b : String) : Prop :=
  b ∈ s.names ∧ ∃ f ∈ s.files, f.name = a ∧ b ∈ f.imports

/-- The names lead from a stored file back to itself along imports, past no file twice. -/
def IsCycle (s : Store) (names : List String) : Prop :=
  ∃ first rest, names = first :: (rest ++ [first]) ∧ (first :: rest).Nodup ∧
    (∀ n ∈ names, n ∈ s.names) ∧ names.IsChain s.Imports

variable {s : Store} {f : StoredFile} {a b : String} {names : List String}

theorem Imports.push (h : s.Imports a b) : (s.push f).Imports a b := by
  obtain ⟨hb, g, hg, hn, hi⟩ := h
  exact ⟨by simp [hb], g, List.mem_append_left _ hg, hn, hi⟩

theorem IsCycle.push (h : s.IsCycle names) : (s.push f).IsCycle names := by
  obtain ⟨first, rest, he, hd, hs, hc⟩ := h
  exact ⟨first, rest, he, hd, fun n hn => by simp [hs n hn], hc.imp fun _ _ hi => hi.push⟩

theorem transGen_of_isChain {r : String → String → Prop} {l : List String}
    (h : (a :: (l ++ [b])).IsChain r) : Relation.TransGen r a b := by
  induction l generalizing a with
  | nil => exact .single (List.isChain_cons_cons.mp h).1
  | cons c l ih =>
    obtain ⟨hac, hc⟩ := List.isChain_cons_cons.mp h
    exact .head hac (ih hc)

theorem IsCycle.leads (h : s.IsCycle names) : ∃ n, Relation.TransGen s.Imports n n := by
  obtain ⟨first, rest, rfl, -, -, hc⟩ := h
  exact ⟨first, transGen_of_isChain hc⟩

end Store

namespace Walk

variable {q : Source} {p p' : Point} {w : Walk} {f : StoredFile} {done ns : List String}
  {n : String} {rest : List Frame}

/-- The files in progress import one another. -/
theorem Inv.chain_stored (h : Inv q w) : w.inProgress.IsChain w.store.Imports := by
  refine List.IsChain.imp_of_mem_imp (fun a b ha hb hi => ?_) h.chain
  obtain ⟨f, hf, hi⟩ := hi
  obtain ⟨g, hg, rfl⟩ := List.mem_map.mp ((h.stored a).mpr (.inr ha))
  have hgf := Option.some.inj ((h.meant g hg).symm.trans hf)
  exact ⟨(h.stored b).mpr (.inr hb), g, hg, rfl, hgf ▸ hi⟩

/-- The cycle that an import of the current file closes: the files in progress from the imported one
on, and that one again. -/
theorem Stands.cycle_eq (h : Stands q ⟨w, ⟨f, done, n :: ns⟩ :: rest⟩) (hp : n ∈ w.inProgress) :
    ∃ behind, n :: behind <:+ w.inProgress ∧ w.cycle n = n :: behind ++ [n] ∧
      (n :: behind).getLast? = some f.name := by
  obtain ⟨before, behind, he, hn⟩ := List.eq_append_cons_of_mem hp
  have hpos : ∀ m ∈ before, (m != n) = true := fun m hm => by
    rw [bne_iff_ne]
    exact fun he => hn (he ▸ hm)
  refine ⟨behind, ⟨before, he.symm⟩, ?_, ?_⟩
  · rw [cycle, he, List.dropWhile_append_of_pos hpos]
    simp
  · rw [← h.last, he, List.getLast?_append_of_ne_nil _ (List.cons_ne_nil _ _)]

theorem Stands.isCycle (h : Stands q ⟨w, ⟨f, done, n :: ns⟩ :: rest⟩) (hp : n ∈ w.inProgress) :
    w.store.IsCycle (w.cycle n) := by
  obtain ⟨behind, hsuffix, hcycle, hlast⟩ := h.cycle_eq hp
  have hstored : ∀ m ∈ n :: behind, m ∈ w.store.names := fun m hm =>
    (h.inv.stored m).mpr (.inr (hsuffix.subset hm))
  have himport : w.store.Imports f.name n :=
    ⟨hstored n (List.mem_cons_self ..), f, h.stored _ (List.mem_cons_self ..), rfl, by
      rw [h.imports _ (List.mem_cons_self ..)]
      simp⟩
  refine ⟨n, behind, hcycle, ?_, ?_, ?_⟩
  · exact (List.nodup_append.mp h.inv.nodup).2.1.sublist hsuffix.sublist
  · rw [hcycle]
    intro m hm
    rcases List.mem_append.mp hm with hm | hm
    · exact hstored m hm
    · exact List.mem_singleton.mp hm ▸ hstored n (List.mem_cons_self ..)
  · rw [hcycle, List.isChain_append]
    refine ⟨h.inv.chain_stored.suffix hsuffix, by simp, fun a ha b hb => ?_⟩
    rw [hlast] at ha
    cases ha
    cases hb
    exact himport

/-- Each cycle that is told is one. -/
def CyclesTold (p : Point) : Prop :=
  ∀ names, .importCycle names ∈ p.walk.errors → p.walk.store.IsCycle names

theorem Move.cyclesTold (hs : Stands q p) (hm : Move q p p') (h : CyclesTold p) :
    CyclesTold p' := by
  intro names hn
  cases hm with
  | cycle hp =>
    rcases List.mem_append.mp hn with hn | hn
    · exact h names hn
    · cases List.mem_singleton.mp hn
      exact hs.isCycle hp
  | known => exact h names hn
  | refuse =>
    rcases List.mem_append.mp hn with hn | hn
    · exact h names hn
    · cases List.mem_singleton.mp hn
  | enter => exact (h names hn).push
  | leave => exact h names hn

theorem walk_cycles_told (q : Source) : CyclesTold ⟨q.walk, []⟩ := by
  rcases walk_runs q with ⟨-, e, -, hw⟩ | ⟨f, hf, hrun⟩
  · simp [CyclesTold, hw]
  · exact (hrun.keeps (fun _ _ hs hm h => Move.cyclesTold hs hm h) (Stands.atRoot hf)
      (by simp [CyclesTold, atRoot])).2

/-- What the files that are done import was done before them or is refused. -/
def DoneBefore (w : Walk) : Prop :=
  ∀ before n behind, w.visited = before ++ n :: behind → ∀ f ∈ w.store.files, f.name = n →
    ∀ b ∈ f.imports, b ∈ before ∨ b ∈ w.failed

/-- No cycle is told so far. -/
def Clear (w : Walk) : Prop :=
  ∀ names, .importCycle names ∉ w.errors

/-- How a walk stands as long as no cycle is told: the imports that were followed are done or
refused. -/
structure Ordered (p : Point) : Prop where
  followed : Clear p.walk → ∀ fr ∈ p.frames, ∀ b ∈ fr.done, b ∈ p.walk.visited ∨ b ∈ p.walk.failed
  done : Clear p.walk → DoneBefore p.walk

theorem DoneBefore.failed {more : List String} (h : DoneBefore w) :
    DoneBefore { w with failed := w.failed ++ more } := by
  intro before n behind hv f hf hn b hb
  exact (h before n behind hv f hf hn b hb).imp_right fun hb => List.mem_append_left _ hb

/-- A file that is stored but not done says nothing of the files that are done. -/
theorem DoneBefore.push (h : DoneBefore w) (hf : f.name ∉ w.visited) :
    DoneBefore { w with store := w.store.push f } := by
  intro before n behind hv g hg hn b hb
  rcases List.mem_append.mp hg with hg | hg
  · exact h before n behind hv g hg hn b hb
  · rw [List.mem_singleton.mp hg] at hn
    exact absurd (hn ▸ hv ▸ by simp : f.name ∈ w.visited) hf

/-- A file gets done when its imports are done or refused. -/
theorem DoneBefore.leave (h : DoneBefore w)
    (hf : ∀ f ∈ w.store.files, f.name = n → ∀ b ∈ f.imports, b ∈ w.visited ∨ b ∈ w.failed) :
    DoneBefore (w.leave n) := by
  intro before m behind hv f hfm hn b hb
  rw [leave_visited] at hv
  rcases List.eq_nil_or_concat behind with rfl | ⟨behind', last, rfl⟩
  · obtain ⟨rfl, he⟩ := List.append_inj' hv rfl
    cases he
    exact hf f hfm hn b hb
  · rw [List.concat_eq_append, ← List.cons_append, ← List.append_assoc] at hv
    exact h before m behind' (List.append_inj' hv rfl).1 f hfm hn b hb

theorem Move.ordered (hs : Stands q p) (hm : Move q p p') (h : Ordered p) : Ordered p' := by
  cases hm with
  | @cycle w f done ns n rest hp =>
    have hnot : ¬ Clear (w.note (.importCycle (w.cycle n))) := fun hc =>
      hc (w.cycle n) (by simp)
    exact ⟨fun hc => absurd hc hnot, fun hc => absurd hc hnot⟩
  | @known w f done ns n rest hk =>
    refine ⟨fun hc => ?_, h.done⟩
    obtain ⟨hf, hrest⟩ := List.forall_mem_cons.mp (h.followed hc)
    exact List.forall_mem_cons.mpr ⟨List.forall_mem_append.mpr ⟨hf, by simpa using hk⟩, hrest⟩
  | @refuse w f done ns n rest e hn hf he =>
    have hclear : Clear ({ w with failed := w.failed ++ [n] }.note (.unresolved e)) → Clear w :=
      fun hc names hn => hc names (List.mem_append_left _ hn)
    refine ⟨fun hc => ?_, fun hc => (h.done (hclear hc)).failed⟩
    obtain ⟨hf, hrest⟩ := List.forall_mem_cons.mp (h.followed (hclear hc))
    have hgrow : ∀ b, b ∈ w.visited ∨ b ∈ w.failed → b ∈ w.visited ∨ b ∈ w.failed ++ [n] :=
      fun b hb => hb.imp_right fun hb => List.mem_append_left _ hb
    refine List.forall_mem_cons.mpr ⟨List.forall_mem_append.mpr ⟨fun b hb => hgrow b (hf b hb), ?_⟩,
      fun fr hfr b hb => hgrow b (hrest fr hfr b hb)⟩
    simp
  | @enter w f g done ns n rest hn hf hq hnew =>
    have hv : g.name ∉ w.visited := fun hv =>
      hn (Source.file?_name hq ▸ (hs.inv.stored g.name).mpr (.inl hv))
    exact ⟨fun hc => List.forall_mem_cons.mpr ⟨by simp, h.followed hc⟩,
      fun hc => (h.done hc).push hv⟩
  | @leave w f done rest =>
    have hgrow : ∀ b, b ∈ w.visited ∨ b ∈ w.failed → b ∈ w.visited ++ [f.name] ∨ b ∈ w.failed :=
      fun b hb => hb.imp_left fun hb => List.mem_append_left _ hb
    refine ⟨fun hc fr hfr b hb => hgrow b ((List.forall_mem_cons.mp (h.followed hc)).2 fr hfr b hb),
      fun hc => (h.done hc).leave fun g hg hn => ?_⟩
    have hgf : g = f := hs.inv.sound.eq_of_name hg (hs.stored _ (List.mem_cons_self ..)) hn
    have hi : f.imports = done := by simpa using hs.imports _ (List.mem_cons_self ..)
    rw [hgf, hi]
    exact (List.forall_mem_cons.mp (h.followed hc)).1

/-- If all stored files are done, then what one of them imports was done before it. -/
theorem DoneBefore.import_before (h : DoneBefore w) (hs : Stands q ⟨w, []⟩)
    (hapart : ∀ n ∈ w.failed, n ∉ w.store.names) {a b : String} (hi : w.store.Imports a b) :
    w.visited.idxOf b < w.visited.idxOf a := by
  obtain ⟨hb, f, hf, rfl, hi⟩ := hi
  obtain ⟨before, behind, hv, hn⟩ := List.eq_append_cons_of_mem (hs.visited hf)
  rcases h before f.name behind hv f hf rfl b hi with hb' | hb'
  · rw [hv, List.idxOf_append_of_mem hb', List.idxOf_append_of_notMem hn]
    exact Nat.lt_of_lt_of_le (List.idxOf_lt_length_of_mem hb') (Nat.le_add_right _ _)
  · exact absurd hb (hapart b hb')

theorem DoneBefore.acyclic (h : DoneBefore w) (hs : Stands q ⟨w, []⟩)
    (hapart : ∀ n ∈ w.failed, n ∉ w.store.names) (n : String) :
    ¬ Relation.TransGen w.store.Imports n n := by
  have hlt : ∀ {a b}, Relation.TransGen w.store.Imports a b →
      w.visited.idxOf b < w.visited.idxOf a := fun hr => by
    induction hr with
    | single hi => exact h.import_before hs hapart hi
    | tail _ hi ih => exact Nat.lt_trans (h.import_before hs hapart hi) ih
  exact fun hr => Nat.lt_irrefl _ (hlt hr)

/-- As long as a walk tells no cycle, it ends with each file done behind all that it imports. -/
theorem walk_acyclic (h : Clear q.walk) (n : String) :
    ¬ Relation.TransGen q.walk.store.Imports n n := by
  rcases walk_runs q with ⟨-, e, -, hw⟩ | ⟨f, hf, hrun⟩
  · intro hn
    obtain ⟨m, -, hi⟩ := Relation.TransGen.tail'_iff.mp hn
    simpa [hw, Source.store, Store.names] using hi.1
  · have hstart := Stands.atRoot hf
    obtain ⟨hs, ha⟩ := hrun.keeps (fun _ _ hs hm h => Move.account hs hm h) hstart
      (Account.atRoot hf)
    obtain ⟨-, ho⟩ := hrun.keeps (fun _ _ hs hm h => Move.ordered hs hm h) hstart
      ⟨by simp [atRoot], by simp [atRoot, DoneBefore]⟩
    exact (ho.done h).acyclic hs ha.apart n

/-- A walk tells a cycle exactly if the stored files import one another in a cycle, and each that it
tells is one, past no file twice. -/
theorem cycle_told_iff (q : Source) :
    ((∃ names, .importCycle names ∈ q.walk.errors) ↔
      ∃ n, Relation.TransGen q.walk.store.Imports n n) ∧
    ∀ names, .importCycle names ∈ q.walk.errors → q.walk.store.IsCycle names := by
  refine ⟨⟨fun ⟨names, hn⟩ => (walk_cycles_told q names hn).leads, fun ⟨n, hn⟩ => ?_⟩,
    walk_cycles_told q⟩
  by_contra hnone
  exact walk_acyclic (not_exists.mp hnone) n hn

end Walk
end RpcConsole

import RpcConsole.Proofs.Load.Cycles
import RpcConsole.Proofs.Load.Types

namespace RpcConsole

namespace Walk

variable {q : Source} {p p' : Point} {w : Walk} {f : StoredFile} {done ns : List String}
  {n : String} {rest frames : List Frame}

/-- The names of some files in progress, the current one last. -/
def chain (frames : List Frame) : List String :=
  (frames.map fun fr => fr.file.name).reverse

/-- The way along some files from one of them to the last one and back. -/
def wayBack (names : List String) (n : String) : List String :=
  names.dropWhile (· != n) ++ [n]

/-- How often a cycle is told so far: as often as the import that closes it was followed. -/
structure Tally (p : Point) : Prop where
  followed : ∀ fr behind, fr :: behind <:+ p.frames → ∀ before b,
    p.walk.errors.count (.importCycle (before ++ [fr.file.name, b])) =
      if b ∈ chain (fr :: behind) ∧ before ++ [fr.file.name, b] = wayBack (chain (fr :: behind)) b
      then fr.done.count b else 0
  done : ∀ f ∈ p.walk.store.files, f.name ∈ p.walk.visited → ∀ before b,
    .importCycle (before ++ [f.name, b]) ∈ p.walk.errors →
      p.walk.errors.count (.importCycle (before ++ [f.name, b])) = f.imports.count b
  fresh : ∀ a, a ∉ p.walk.store.names → ∀ before b,
    .importCycle (before ++ [a, b]) ∉ p.walk.errors

theorem count_note (w : Walk) (e e' : LoadError) :
    (w.note e).errors.count e' = w.errors.count e' + if e = e' then 1 else 0 := by
  simp [List.count_append, List.count_singleton]

theorem Stands.chain_eq (h : Stands q ⟨w, frames⟩) : chain frames = w.inProgress :=
  h.inProgress.symm

/-- The current file is no other file in progress. -/
theorem Stands.current_new (h : Stands q ⟨w, ⟨f, done, ns⟩ :: rest⟩) :
    ∀ fr ∈ rest, fr.file.name ≠ f.name := by
  have hn := (List.nodup_append.mp h.inv.nodup).2.1
  rw [← h.chain_eq] at hn
  simp only [chain, List.map_cons, List.reverse_cons] at hn
  intro fr hfr he
  exact (List.nodup_append.mp hn).2.2 f.name
    (List.mem_reverse.mpr (List.mem_map.mpr ⟨fr, hfr, he⟩)) f.name (by simp) rfl

/-- The last two names of the cycle that an import of the current file closes. -/
theorem Stands.closing (h : Stands q ⟨w, ⟨f, done, n :: ns⟩ :: rest⟩) (hp : n ∈ w.inProgress)
    {before : List String} {a b : String} (he : w.cycle n = before ++ [a, b]) :
    a = f.name ∧ b = n := by
  obtain ⟨behind, -, hcycle, hlast⟩ := h.cycle_eq hp
  obtain ⟨front, hfront⟩ := List.getLast?_eq_some_iff.mp hlast
  rw [hcycle, hfront, List.append_assoc] at he
  have hab := (List.append_inj' he rfl).2
  simp only [List.cons_append, List.nil_append, List.cons.injEq, and_true] at hab
  exact ⟨hab.1.symm, hab.2.symm⟩

/-- An import that closes no cycle changes no count. -/
theorem Tally.skip (hs : Stands q ⟨w, ⟨f, done, n :: ns⟩ :: rest⟩)
    (h : Tally ⟨w, ⟨f, done, n :: ns⟩ :: rest⟩) (hn : n ∉ w.inProgress) :
    Tally ⟨w, ⟨f, done ++ [n], ns⟩ :: rest⟩ where
  followed fr behind hsuf before b := by
    rcases List.suffix_cons_iff.mp hsuf with he | hsuf
    · cases he
      refine (h.followed _ _ (List.suffix_refl _) before b).trans ?_
      refine ite_congr rfl (fun hc => ?_) fun _ => rfl
      have hb : b ≠ n := fun he => hn (he ▸ hs.chain_eq ▸ hc.1)
      simp [List.count_append, hb.symm]
    · exact h.followed fr behind (List.suffix_cons_iff.mpr (.inr hsuf)) before b
  done := h.done
  fresh := h.fresh

/-- Neither does what is told of a name that does not resolve. -/
theorem Tally.noted {e : ResolveError} {failed : List String} (h : Tally ⟨w, frames⟩) :
    Tally ⟨{ w with failed }.note (.unresolved e), frames⟩ where
  followed fr behind hsuf before b := by
    rw [count_note]
    simpa using h.followed fr behind hsuf before b
  done g hg hv before b hm := by
    rw [count_note]
    simpa using h.done g hg hv before b (by simpa using hm)
  fresh a ha before b hm := h.fresh a ha before b (by simpa using hm)

/-- An import that closes a cycle raises the count of that cycle, and no other one. -/
theorem Tally.cycle (hs : Stands q ⟨w, ⟨f, done, n :: ns⟩ :: rest⟩)
    (h : Tally ⟨w, ⟨f, done, n :: ns⟩ :: rest⟩) (hp : n ∈ w.inProgress) :
    Tally ⟨w.note (.importCycle (w.cycle n)), ⟨f, done ++ [n], ns⟩ :: rest⟩ := by
  have hother {before : List String} {a b : String} (hne : ¬ (a = f.name ∧ b = n)) :
      LoadError.importCycle (w.cycle n) ≠ .importCycle (before ++ [a, b]) := fun he =>
    hne (hs.closing hp (LoadError.importCycle.inj he))
  have hcount {before : List String} {a b : String} (hne : ¬ (a = f.name ∧ b = n)) :
      (w.note (.importCycle (w.cycle n))).errors.count (.importCycle (before ++ [a, b])) =
        w.errors.count (.importCycle (before ++ [a, b])) := by
    rw [count_note, if_neg (hother hne), Nat.add_zero]
  have hmem {before : List String} {a b : String} (hne : ¬ (a = f.name ∧ b = n))
      (hm : .importCycle (before ++ [a, b]) ∈ (w.note (.importCycle (w.cycle n))).errors) :
      .importCycle (before ++ [a, b]) ∈ w.errors := by
    rcases List.mem_append.mp hm with hm | hm
    · exact hm
    · exact absurd (List.mem_singleton.mp hm).symm (hother hne)
  have hstored : f.name ∈ w.store.names := List.mem_map_of_mem (hs.stored _ (List.mem_cons_self ..))
  refine ⟨fun fr behind hsuf before b => ?_, fun g hg hv before b hm => ?_,
    fun a ha before b hm => ?_⟩
  · rcases List.suffix_cons_iff.mp hsuf with he | hsuf
    · cases he
      have hchain : chain (⟨f, done ++ [n], ns⟩ :: rest) = w.inProgress := hs.chain_eq
      have hold := h.followed _ _ (List.suffix_refl _) before b
      rw [hs.chain_eq] at hold
      rw [hchain]
      by_cases hb : b = n
      · subst hb
        rw [count_note, hold, List.count_append, List.count_singleton_self]
        by_cases he : before ++ [f.name, b] = w.cycle b
        · rw [if_pos ⟨hp, he⟩, if_pos (congrArg _ he.symm), if_pos ⟨hp, he⟩]
        · rw [if_neg fun h => he h.2, if_neg fun h => he (LoadError.importCycle.inj h).symm,
            if_neg fun h => he h.2]
      · rw [hcount fun he => hb he.2]
        refine hold.trans (ite_congr rfl (fun _ => ?_) fun _ => rfl)
        simp [List.count_append, Ne.symm hb]
    · rw [hcount fun he => hs.current_new fr (hsuf.subset (List.mem_cons_self ..)) he.1]
      exact h.followed fr behind (List.suffix_cons_iff.mpr (.inr hsuf)) before b
  · have hne : g.name ≠ f.name := fun he =>
      (List.nodup_append.mp hs.inv.nodup).2.2 g.name hv f.name (List.mem_of_getLast? hs.last) he
    rw [hcount fun he => hne he.1]
    exact h.done g hg hv before b (hmem (fun he => hne he.1) hm)
  · have hne : a ≠ f.name := fun he => ha (he ▸ hstored)
    exact h.fresh a ha before b (hmem (fun he => hne he.1) hm)

theorem Move.tally (hs : Stands q p) (ha : Account q p) (hm : Move q p p') (h : Tally p) :
    Tally p' := by
  cases hm with
  | cycle hp => exact h.cycle hs hp
  | @known w f done ns n rest hk =>
    refine h.skip hs fun hp => ?_
    rcases hk with hv | hf
    · exact (List.nodup_append.mp hs.inv.nodup).2.2 n hv n hp rfl
    · exact ha.apart n hf ((hs.inv.stored n).mpr (.inr hp))
  | refuse hn hf he => exact (h.skip hs fun hp => hn ((hs.inv.stored _).mpr (.inr hp))).noted
  | @enter w f g done ns n rest hn hf hq hnew =>
    have hg : g.name ∉ w.store.names := Source.file?_name hq ▸ hn
    refine ⟨fun fr behind hsuf before b => ?_, fun x hx hv => ?_, fun a ha => h.fresh a ?_⟩
    · rcases List.suffix_cons_iff.mp hsuf with he | hsuf
      · cases he
        simpa using List.count_eq_zero.mpr (h.fresh g.name hg before b)
      · exact h.followed fr behind hsuf before b
    · rcases List.mem_append.mp hx with hx | hx
      · exact h.done x hx hv
      · exact absurd ((hs.inv.stored x.name).mpr (.inl hv)) (List.mem_singleton.mp hx ▸ hg)
    · intro hm
      exact ha (by simp [hm])
  | @leave w f done rest =>
    refine ⟨fun fr behind hsuf => h.followed fr behind (List.suffix_cons_iff.mpr (.inr hsuf)),
      fun g hg hv before b hm => ?_, h.fresh⟩
    rcases List.mem_append.mp hv with hv | hv
    · exact h.done g hg hv before b hm
    · have hgf : g = f := hs.inv.sound.eq_of_name hg (hs.stored _ (List.mem_cons_self ..))
        (List.mem_singleton.mp hv)
      subst hgf
      have hi : g.imports = done := by simpa using hs.imports _ (List.mem_cons_self ..)
      have hold := h.followed _ _ (List.suffix_refl _) before b
      rw [hi]
      split at hold
      · exact hold
      · exact absurd hm (List.count_eq_zero.mp hold)

theorem Tally.atRoot (f : StoredFile) : Tally (atRoot q f) where
  followed fr behind hsuf before b := by
    rcases List.suffix_cons_iff.mp hsuf with he | hsuf
    · cases he
      simp [Walk.atRoot]
    · simp at hsuf
  done := by simp [Walk.atRoot]
  fresh := by simp [Walk.atRoot]

/-- A cycle is told as often as the import that closes it is written. -/
theorem walk_cycle_count {before : List String} {a b : String}
    (h : .importCycle (before ++ [a, b]) ∈ q.walk.errors) :
    ∃ f, q.file? a = some f ∧
      q.walk.errors.count (.importCycle (before ++ [a, b])) = f.imports.count b := by
  rcases walk_runs q with ⟨-, e, -, hw⟩ | ⟨f, hf, hrun⟩
  · simp [hw] at h
  · obtain ⟨hs, -, ht⟩ := hrun.keeps (P := fun p => Account q p ∧ Tally p)
      (fun _ _ hs hm h => ⟨Move.account hs hm h.1, Move.tally hs h.1 hm h.2⟩) (Stands.atRoot hf)
      ⟨Account.atRoot hf, Tally.atRoot f⟩
    have ha : a ∈ q.walk.store.names := by
      by_contra ha
      exact ht.fresh a ha before b h
    obtain ⟨g, hg, rfl⟩ := List.mem_map.mp ha
    exact ⟨g, hs.inv.meant g hg, ht.done g hg (hs.visited hg) before b h⟩

end Walk

/-- The file that does not link, if that is what is wrong. -/
def LoadError.unlinked? : LoadError → Option String
  | .link file _ => some file
  | _ => none

/-- Linking tells something of each file once at most, and nothing else. -/
theorem Linking.run_errors (store : Store) (order : List String) :
    ((run store order).errors.filterMap LoadError.unlinked?).Sublist order ∧
      ∀ e ∈ (run store order).errors, ∃ file fault, e = .link file fault := by
  induction order using List.reverseRecOn with
  | nil => simp [run]
  | append_singleton order n ih =>
    obtain ⟨hsub, hlink⟩ := ih
    rw [run, List.foldl_append, List.foldl_cons, List.foldl_nil]
    change (List.filterMap _ (step store (run store order) n).errors).Sublist _ ∧
      ∀ e ∈ (step store (run store order) n).errors, _
    unfold step
    split
    · exact ⟨hsub.trans (List.sublist_append_left _ _), hlink⟩
    · split
      · exact ⟨hsub.trans (List.sublist_append_left _ _), hlink⟩
      · split
        · exact ⟨hsub.trans (List.sublist_append_left _ _), hlink⟩
        · refine ⟨?_, List.forall_mem_append.mpr ⟨hlink, by simp⟩⟩
          rw [List.filterMap_append]
          exact hsub.append (by simp [LoadError.unlinked?])

namespace Source

variable {q : Source}

/-- Only cycles can be told twice by a walk. -/
theorem walk_errors_nodup (q : Source) :
    q.walk.errors.Nodup ↔ ∀ before a b f, .importCycle (before ++ [a, b]) ∈ q.walk.errors →
      q.file? a = some f → f.imports.count b = 1 := by
  constructor
  · intro hn before a b f hm hf
    obtain ⟨g, hg, hcount⟩ := Walk.walk_cycle_count hm
    rw [hf] at hg
    cases hg
    rw [← hcount]
    exact List.count_eq_one_of_mem hn hm
  · intro hone
    refine List.nodup_iff_count_eq_one.mpr fun e he => ?_
    have hunresolved : ∀ r : ResolveError, .unresolved r ∈ q.walk.errors →
        q.walk.errors.count (.unresolved r) = 1 := fun r hm =>
      Nat.le_antisymm (count_le_one (Walk.unresolved_nodup q) rfl) (List.count_pos_iff.mpr hm)
    cases (Walk.walk_result q).wrong e he with
    | missing => exact hunresolved _ he
    | shared => exact hunresolved _ he
    | cycle =>
      obtain ⟨first, rest, rfl, -⟩ := Walk.walk_cycles_told q _ he
      obtain ⟨before, a, hlast⟩ : ∃ before a, first :: rest = before ++ [a] :=
        ⟨_, _, (List.dropLast_append_getLast (List.cons_ne_nil first rest)).symm⟩
      rw [← List.cons_append, hlast, List.append_assoc, List.singleton_append] at he ⊢
      obtain ⟨f, hf, hcount⟩ := Walk.walk_cycle_count he
      rw [hcount]
      exact hone _ _ _ f he hf

end Source

namespace Schema

variable {d : Disk} {root : String} {importPath : ImportPath} {es : List LoadError} {q : Source}

/-- The errors of a load whose root path has a parent and a file name. -/
theorem ofWalk_error (h : ofWalk q.rootName q.walk = .error es) :
    es = q.walk.errors ∨ (es.filterMap LoadError.unlinked?).Nodup ∧
      ∀ e ∈ es, ∃ file fault, e = .link file fault := by
  have hr := Walk.walk_result q
  unfold ofWalk at h
  split at h
  · exact .inl (Except.error.inj h).symm
  · rename_i he
    have he : q.walk.errors = [] := by simpa using he
    obtain ⟨hsub, hlink⟩ := Linking.run_errors q.walk.store q.walk.order
    dsimp only at h
    split at h
    · cases h
      exact .inr ⟨hsub.nodup (hr.found he).layered.nodup, hlink⟩
    · split at h
      · cases h
      · cases h
        exact .inr ⟨by simp [LoadError.unlinked?], by simp⟩

/-- Each name is told once at most not to resolve, however many imports of it there are, and each
file once at most not to link. A cycle is told as often as the import that closes it is written, and
so the errors of a load differ from one another exactly if each such import is written once. -/
theorem told_once_iff (h : load d root importPath = .error es) :
    (es.filterMap LoadError.subject?).Nodup ∧ (es.filterMap LoadError.unlinked?).Nodup ∧
    ∀ q, Source.of? d root importPath = some q →
      (∀ before a b, .importCycle (before ++ [a, b]) ∈ es → ∃ f, q.file? a = some f ∧
        es.count (.importCycle (before ++ [a, b])) = f.imports.count b) ∧
      (es.Nodup ↔ ∀ before a b f, .importCycle (before ++ [a, b]) ∈ es → q.file? a = some f →
        f.imports.count b = 1) := by
  rw [load_eq] at h
  cases hq : Source.of? d root importPath with
  | none =>
    simp only [hq] at h
    cases h
    exact ⟨List.nodup_nil, List.nodup_nil, by simp⟩
  | some q =>
    simp only [hq] at h
    simp only [Option.some.injEq, forall_eq']
    rcases ofWalk_error h with rfl | ⟨hn, hlink⟩
    · have hnone : q.walk.errors.filterMap LoadError.unlinked? = [] := by
        refine List.filterMap_eq_nil_iff.mpr fun e he => ?_
        cases (Walk.walk_result q).wrong e he <;> rfl
      exact ⟨Walk.unresolved_nodup q, hnone ▸ List.nodup_nil, fun _ _ _ => Walk.walk_cycle_count,
        Source.walk_errors_nodup q⟩
    · have hnone : es.filterMap LoadError.subject? = [] := by
        refine List.filterMap_eq_nil_iff.mpr fun e he => ?_
        obtain ⟨_, _, rfl⟩ := hlink e he
        rfl
      have hcycle : ∀ names, .importCycle names ∉ es := fun names hm => by
        obtain ⟨_, _, he⟩ := hlink _ hm
        cases he
      refine ⟨hnone ▸ List.nodup_nil, hn, fun _ _ _ hm => absurd hm (hcycle _),
        fun _ _ _ _ _ hm => absurd hm (hcycle _), fun _ => ?_⟩
      refine List.nodup_iff_count_eq_one.mpr fun e he => ?_
      obtain ⟨_, _, rfl⟩ := hlink e he
      exact Nat.le_antisymm (count_le_one hn rfl) (List.count_pos_iff.mpr he)

/-- The errors of a load, none if it succeeds. -/
def errors : Except (List LoadError) Schema → List LoadError
  | .error es => es
  | .ok _ => []

theorem eq_error {r : Except (List LoadError) Schema} {e : LoadError} (h : errors r = e :: es) :
    r = .error (e :: es) := by
  cases r with
  | error es' => exact congrArg _ h
  | ok s => cases h

/-- A file that imports itself twice. -/
def selfImport : String :=
  "import \"a\";import \"a\";"

theorem errors_selfImport : errors (load (.ofFile "a" selfImport) "/a" []) =
    [.importCycle ["a", "a"], .importCycle ["a", "a"]] := by
  decide +kernel

theorem told_once_iff_self :
    ∃ es, load (.ofFile "a" selfImport) "/a" [] = .error es ∧
      (es.filterMap LoadError.subject?).Nodup ∧ (es.filterMap LoadError.unlinked?).Nodup ∧
      ∃ f, Source.file? ⟨.ofFile "a" selfImport, "/a", "a", "/", []⟩ "a" = some f ∧
        es.count (.importCycle ["a", "a"]) = f.imports.count "a" := by
  have hq : Source.of? (.ofFile "a" selfImport) "/a" [] =
      some ⟨.ofFile "a" selfImport, "/a", "a", "/", []⟩ := by
    rfl
  have hload := eq_error errors_selfImport
  obtain ⟨hname, hfile, hcycles⟩ := told_once_iff hload
  exact ⟨_, hload, hname, hfile, (hcycles _ hq).1 [] "a" "a" (by simp)⟩

/-- A disk on which one file that cannot be parsed is imported under two names. -/
def aliased : Disk :=
  ⟨[(["r"], .file (Utf8.encode "import \"b\";import \"x/b\";".toList)), (["x"], .directory),
    (["x", "b"], .file (Utf8.encode "?".toList))], []⟩

/-- One cycle can be told twice, and so can one file that cannot be parsed. -/
theorem load_tells_twice :
    (∃ es, load (.ofFile "a" selfImport) "/a" [] = .error es ∧ ¬ es.Nodup) ∧
    ∃ es fault fault', load aliased "r" ["x"] = .error es ∧
      .unresolved (.malformed "b" fault) ∈ es ∧ .unresolved (.malformed "x/b" fault') ∈ es ∧
      ∃ q, Source.of? aliased "r" ["x"] = some q ∧ (q.path? "b").isSome ∧
        q.path? "b" = q.path? "x/b" := by
  have haliased : errors (load aliased "r" ["x"]) =
      [.unresolved (.malformed "b" ⟨⟨1, 1⟩, .invalidToken⟩),
        .unresolved (.malformed "x/b" ⟨⟨1, 1⟩, .invalidToken⟩)] := by
    decide +kernel
  refine ⟨⟨_, eq_error errors_selfImport, by simp⟩, ?_⟩
  exact ⟨_, ⟨⟨1, 1⟩, .invalidToken⟩, ⟨⟨1, 1⟩, .invalidToken⟩, eq_error haliased, by simp, by simp,
    ⟨aliased, "r", "r", "", ["x"]⟩, rfl, by decide +kernel, by decide +kernel⟩

end Schema
end RpcConsole

import RpcConsole.Proofs.Load.Moves

namespace RpcConsole

/-- The name that does not resolve. -/
def ResolveError.subject : ResolveError → String
  | .notFound _ wanted => wanted
  | .unreadable file _ => file
  | .malformed file _ => file
  | .conflict c => c.name

/-- The name that does not resolve, if that is what is wrong. -/
def LoadError.subject? : LoadError → Option String
  | .unresolved e => some e.subject
  | _ => none

/-- What is wrong with reading a file is told under the name that it is read for. -/
theorem Source.read_eq_error {d : Disk} {name path : String} {e : ResolveError}
    (h : StoredFile.read d name path = .error e) :
    (∃ failure, e = .unreadable name failure) ∨ ∃ error, e = .malformed name error := by
  unfold StoredFile.read at h
  split at h
  · exact .inl ⟨_, (Except.error.inj h).symm⟩
  · split at h
    · exact .inr ⟨_, (Except.error.inj h).symm⟩
    · split at h
      · exact .inl ⟨_, (Except.error.inj h).symm⟩
      · cases h

namespace Walk

/-- The names that do not resolve, one for each error that says so. -/
def unresolved (w : Walk) : List String :=
  w.errors.filterMap LoadError.subject?

/-- The names that a walk meets: that of the root, and those that stored files import. -/
def Meets (w : Walk) (rootName n : String) : Prop :=
  n = rootName ∨ ∃ f ∈ w.store.files, n ∈ f.imports

variable {q : Source} {p p' : Point} {w : Walk} {f : StoredFile} {n : String}

theorem Refused.subject {importer : String} {e : ResolveError} (h : Refused q w importer n e) :
    e.subject = n := by
  cases h with
  | missing => rfl
  | unread _ hr => rcases Source.read_eq_error hr with ⟨_, rfl⟩ | ⟨_, rfl⟩ <;> rfl
  | taken => rfl

theorem Refused.importer {importer importer' wanted : String}
    (h : Refused q w importer n (.notFound importer' wanted)) :
    importer' = importer ∧ wanted = n := by
  cases h with
  | missing => exact ⟨rfl, rfl⟩
  | unread _ hr => rcases Source.read_eq_error hr with ⟨_, he⟩ | ⟨_, he⟩ <;> cases he

/-- What has become of the names so far: those that are refused are told once each, and a name that
was followed is stored or refused. -/
structure Account (q : Source) (p : Point) : Prop where
  told : p.walk.unresolved = p.walk.failed
  once : p.walk.failed.Nodup
  apart : ∀ n ∈ p.walk.failed, n ∉ p.walk.store.names
  met : ∀ n, n ∈ p.walk.store.names ∨ n ∈ p.walk.failed → p.walk.Meets q.rootName n
  importers : ∀ importer n, .unresolved (.notFound importer n) ∈ p.walk.errors →
    ∃ f ∈ p.walk.store.files, f.name = importer ∧ n ∈ f.imports
  followed : ∀ fr ∈ p.frames, ∀ n ∈ fr.done, n ∈ p.walk.store.names ∨ n ∈ p.walk.failed
  visited : ∀ f ∈ p.walk.store.files, f.name ∈ p.walk.visited →
    ∀ n ∈ f.imports, n ∈ p.walk.store.names ∨ n ∈ p.walk.failed

theorem unresolved_note (w : Walk) (e : LoadError) :
    (w.note e).unresolved = w.unresolved ++ e.subject?.toList := by
  cases h : e.subject? <;> simp [unresolved, h]

/-- One more import of the current file is settled. -/
theorem Account.followed_step (w : Walk) (failed : List String) {done ns : List String}
    {rest : List Frame} (h : ∀ fr ∈ (⟨f, done, n :: ns⟩ :: rest : List Frame), ∀ m ∈ fr.done,
      m ∈ w.store.names ∨ m ∈ w.failed)
    (hsub : w.failed ⊆ failed) (hn : n ∈ w.store.names ∨ n ∈ failed) :
    ∀ fr ∈ (⟨f, done ++ [n], ns⟩ :: rest : List Frame), ∀ m ∈ fr.done,
      m ∈ w.store.names ∨ m ∈ failed := by
  obtain ⟨hf, hrest⟩ := List.forall_mem_cons.mp h
  refine List.forall_mem_cons.mpr ⟨fun m hm => ?_, fun fr hfr m hm => ?_⟩
  · rcases List.mem_append.mp hm with hm | hm
    · exact (hf m hm).imp_right fun h => hsub h
    · exact List.mem_singleton.mp hm ▸ hn
  · exact (hrest fr hfr m hm).imp_right fun h => hsub h

theorem Move.account (hs : Stands q p) (hm : Move q p p') (h : Account q p) : Account q p' := by
  cases hm with
  | @cycle w f done ns n rest hp =>
    refine { h with
      told := by simpa [unresolved_note, LoadError.subject?] using h.told
      importers := fun i m hm => h.importers i m (by simpa using hm)
      followed := Account.followed_step w w.failed h.followed (List.Subset.refl _) (.inl ?_) }
    exact (hs.inv.stored n).mpr (.inr hp)
  | @known w f done ns n rest hk =>
    refine { h with
      followed := Account.followed_step w w.failed h.followed (List.Subset.refl _) ?_ }
    exact hk.imp_left fun hv => (hs.inv.stored n).mpr (.inl hv)
  | @refuse w f done ns n rest e hn hf he =>
    have hfile : f ∈ w.store.files ∧ n ∈ f.imports :=
      ⟨hs.stored _ (List.mem_cons_self ..), by rw [hs.imports _ (List.mem_cons_self ..)]; simp⟩
    refine
      { told := ?_
        once := ?_
        apart := ?_
        met := ?_
        importers := ?_
        followed := ?_
        visited := ?_ }
    · rw [unresolved_note, LoadError.subject?, he.subject]
      exact congrArg (· ++ [n]) h.told
    · simpa [List.nodup_append] using ⟨h.once, fun m hm he => hf (he ▸ hm)⟩
    · intro m hm
      rcases List.mem_append.mp hm with hm | hm
      · exact h.apart m hm
      · exact List.mem_singleton.mp hm ▸ hn
    · intro m hm
      rcases hm with hm | hm
      · exact h.met m (.inl hm)
      · rcases List.mem_append.mp hm with hm | hm
        · exact h.met m (.inr hm)
        · exact .inr ⟨f, hfile.1, List.mem_singleton.mp hm ▸ hfile.2⟩
    · intro i m hm
      rcases List.mem_append.mp hm with hm | hm
      · exact h.importers i m hm
      · cases List.mem_singleton.mp hm
        obtain ⟨rfl, rfl⟩ := he.importer
        exact ⟨f, hfile.1, rfl, hfile.2⟩
    · exact Account.followed_step w (w.failed ++ [n]) h.followed (List.subset_append_left _ _)
        (.inr (by simp))
    · intro g hg hv m hm
      exact (h.visited g hg hv m hm).imp_right fun hm => List.mem_append_left _ hm
  | @enter w f g done ns n rest hn hf hq hnew =>
    have hname := Source.file?_name hq
    have hfile : f ∈ w.store.files ∧ n ∈ f.imports :=
      ⟨hs.stored _ (List.mem_cons_self ..), by rw [hs.imports _ (List.mem_cons_self ..)]; simp⟩
    have hold : ∀ m, m ∈ w.store.names ∨ m ∈ w.failed →
        m ∈ (w.store.push g).names ∨ m ∈ w.failed := fun m hm => by
      rw [Store.push_names]
      exact hm.imp_left fun hm => List.mem_append_left _ hm
    refine
      { h with
        apart := ?_
        met := ?_
        importers := ?_
        followed := ?_
        visited := ?_ }
    · intro m hm
      simp only [enter_store, Store.push_names, List.mem_append, List.mem_singleton, not_or, hname]
      exact ⟨h.apart m hm, fun he => hf (he ▸ hm)⟩
    · intro m hm
      have hm : m ∈ w.store.names ∨ m ∈ w.failed ∨ m = n := by
        simp only [enter_store, enter_failed, Store.push_names, List.mem_append,
          List.mem_singleton, hname] at hm
        tauto
      rcases hm with hm | hm | rfl
      · exact (h.met m (.inl hm)).imp_right fun ⟨x, hx, hi⟩ => ⟨x, List.mem_append_left _ hx, hi⟩
      · exact (h.met m (.inr hm)).imp_right fun ⟨x, hx, hi⟩ => ⟨x, List.mem_append_left _ hx, hi⟩
      · exact .inr ⟨f, List.mem_append_left _ hfile.1, hfile.2⟩
    · intro i m hm
      obtain ⟨x, hx, hi⟩ := h.importers i m hm
      exact ⟨x, List.mem_append_left _ hx, hi⟩
    · refine List.forall_mem_cons.mpr ⟨by simp, fun fr hfr m hm => ?_⟩
      exact hold m (h.followed fr hfr m hm)
    · intro x hx hv m hm
      rcases List.mem_append.mp hx with hx | hx
      · exact hold m (h.visited x hx hv m hm)
      · rw [List.mem_singleton.mp hx, hname] at hv
        exact absurd ((hs.inv.stored n).mpr (.inl hv)) hn
  | @leave w f done rest =>
    refine { h with
      followed := (List.forall_mem_cons.mp h.followed).2
      visited := ?_ }
    intro x hx hv m hm
    rcases List.mem_append.mp hv with hv | hv
    · exact h.visited x hx hv m hm
    · have hfiles := hs.stored _ (List.mem_cons_self ..)
      have hxf : x = f := hs.inv.sound.eq_of_name hx hfiles (List.mem_singleton.mp hv)
      subst hxf
      have hi : x.imports = done := by simpa using hs.imports _ (List.mem_cons_self ..)
      exact (List.forall_mem_cons.mp h.followed).1 m (hi ▸ hm)

theorem Account.atRoot (hf : q.file? q.rootName = some f) : Account q (atRoot q f) where
  told := rfl
  once := List.nodup_nil
  apart := by simp [Walk.atRoot]
  met m hm := by
    have hn := Source.file?_name hf
    exact .inl (by simpa [Walk.atRoot, Store.names, Source.store, hn] using hm)
  importers := by simp [Walk.atRoot]
  followed := by simp [Walk.atRoot]
  visited := by simp [Walk.atRoot]

/-- No name is told twice not to resolve. -/
theorem unresolved_nodup (q : Source) : q.walk.unresolved.Nodup := by
  rcases walk_runs q with ⟨-, e, -, hw⟩ | ⟨f, hf, hrun⟩
  · rw [hw, unresolved_note]
    exact List.nodup_singleton _
  · obtain ⟨-, ha⟩ := hrun.keeps (fun _ _ hs hm h => Move.account hs hm h) (Stands.atRoot hf)
      (Account.atRoot hf)
    rw [ha.told]
    exact ha.once

/-- At the end of a walk each name that it meets is stored or is the subject of exactly one error,
never both. No other name is stored or told about. A file that is told to import a name that is not
found is stored and does import that name. -/
theorem names_accounted (q : Source) :
    (∀ n, q.walk.Meets q.rootName n →
      n ∈ q.walk.store.names ∧ q.walk.unresolved.count n = 0 ∨
        n ∉ q.walk.store.names ∧ q.walk.unresolved.count n = 1) ∧
    (∀ n, ¬ q.walk.Meets q.rootName n →
      n ∉ q.walk.store.names ∧ q.walk.unresolved.count n = 0) ∧
    q.walk.store.names.Nodup ∧
    ∀ importer n, .unresolved (.notFound importer n) ∈ q.walk.errors →
      ∃ f ∈ q.walk.store.files, f.name = importer ∧ n ∈ f.imports := by
  rcases walk_runs q with ⟨-, e, hr, hw⟩ | ⟨f, hf, hrun⟩
  · have hs : e.subject = q.rootName := by
      rcases Source.read_eq_error hr with ⟨_, rfl⟩ | ⟨_, rfl⟩ <;> rfl
    have hne : ∀ importer n, e ≠ .notFound importer n := fun _ _ => by
      rcases Source.read_eq_error hr with ⟨_, rfl⟩ | ⟨_, rfl⟩ <;> simp
    have hmeets : ∀ n, q.walk.Meets q.rootName n ↔ n = q.rootName := fun n => by
      simp [hw, Meets, Source.store]
    have htold : q.walk.unresolved = [q.rootName] := by
      rw [hw, unresolved_note, LoadError.subject?, hs]
      rfl
    have hnames : q.walk.store.names = [] := by simp [hw, Source.store, Store.names]
    refine ⟨fun n hn => .inr ?_, fun n hn => ?_, by simp [hnames], fun i n hn => ?_⟩
    · simp [hnames, htold, (hmeets n).mp hn]
    · rw [hmeets] at hn
      rw [hnames, htold, List.count_singleton]
      exact ⟨List.not_mem_nil, if_neg fun he => hn (beq_iff_eq.mp he).symm⟩
    · rw [hw] at hn
      exact absurd (by simpa using hn : LoadError.unresolved _ = .unresolved e)
        fun h => hne i n (LoadError.unresolved.inj h).symm
  · obtain ⟨hs, ha⟩ := hrun.keeps (fun _ _ hs hm h => Move.account hs hm h) (Stands.atRoot hf)
      (Account.atRoot hf)
    have hcount : ∀ n, q.walk.unresolved.count n = if n ∈ q.walk.failed then 1 else 0 := fun n => by
      rw [ha.told, ha.once.count]
    have hmet : ∀ n, q.walk.Meets q.rootName n → n ∈ q.walk.store.names ∨ n ∈ q.walk.failed := by
      rintro n (rfl | ⟨x, hx, hn⟩)
      · exact .inl (List.mem_of_head? hs.inv.root)
      · exact ha.visited x hx (hs.visited hx) n hn
    refine ⟨fun n hn => ?_, fun n hn => ?_, hs.inv.sound.names_nodup, ha.importers⟩
    · rw [hcount]
      rcases hmet n hn with hn | hn
      · exact .inl ⟨hn, if_neg fun hf => ha.apart n hf hn⟩
      · exact .inr ⟨ha.apart n hn, if_pos hn⟩
    · rw [hcount]
      exact ⟨fun h => hn (ha.met n (.inl h)), if_neg fun h => hn (ha.met n (.inr h))⟩

end Walk
end RpcConsole

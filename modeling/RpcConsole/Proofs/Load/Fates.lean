import RpcConsole.Proofs.Load.Repeats

namespace RpcConsole

/-- What becomes of a file that is to be linked. -/
inductive Fate where
  | taken
  | rejected (c : LinkError)
  | left

namespace Fate

/-- The name of a file, if it is taken. -/
def taken? (p : String × Fate) : Option String :=
  match p.2 with
  | .taken => some p.1
  | _ => none

/-- What is told of a file. -/
def error? (p : String × Fate) : Option LoadError :=
  match p.2 with
  | .rejected c => some (.link p.1 (.rejected c))
  | _ => none

variable {done : List (String × Fate)} {n b : String} {c : LinkFault} {x y : Fate}

theorem mem_taken : n ∈ done.filterMap taken? ↔ (n, .taken) ∈ done := by
  rw [List.mem_filterMap]
  constructor
  · rintro ⟨⟨m, x⟩, hm, he⟩
    cases x <;> simp only [taken?, Option.some.injEq, reduceCtorEq] at he
    exact he ▸ hm
  · exact fun hm => ⟨_, hm, rfl⟩

theorem mem_errors {e : LoadError} :
    e ∈ done.filterMap error? ↔ ∃ n c, e = .link n (.rejected c) ∧ (n, .rejected c) ∈ done := by
  rw [List.mem_filterMap]
  constructor
  · rintro ⟨⟨m, x⟩, hm, he⟩
    cases x with
    | taken => cases he
    | left => cases he
    | rejected c => exact ⟨m, c, (Option.some.inj he).symm, hm⟩
  · rintro ⟨n, c, rfl, hm⟩
    exact ⟨_, hm, rfl⟩

theorem rejected_mem_errors {c : LinkError} :
    .link n (.rejected c) ∈ done.filterMap error? ↔ (n, .rejected c) ∈ done := by
  rw [mem_errors]
  constructor
  · rintro ⟨_, _, he, hm⟩
    cases he
    exact hm
  · exact fun hm => ⟨_, _, rfl, hm⟩

/-- Something is told of a file exactly if it is rejected. -/
theorem exists_mem_errors :
    (∃ c, .link n c ∈ done.filterMap error?) ↔ ∃ c, (n, .rejected c) ∈ done := by
  constructor
  · rintro ⟨c, hc⟩
    obtain ⟨m, c, he, hm⟩ := mem_errors.mp hc
    cases he
    exact ⟨c, hm⟩
  · rintro ⟨c, hc⟩
    exact ⟨_, rejected_mem_errors.mpr hc⟩

/-- A file has one fate. -/
theorem unique (hn : (done.map Prod.fst).Nodup) (hx : (n, x) ∈ done) (hy : (n, y) ∈ done) :
    x = y :=
  Option.some.inj ((lookup_of_nodup hn hx).symm.trans (lookup_of_nodup hn hy))

/-- A file is left out exactly if it is not taken and nothing is told of it. -/
theorem left_iff_silent (hn : (done.map Prod.fst).Nodup) (hm : n ∈ done.map Prod.fst) :
    (n, .left) ∈ done ↔
      n ∉ done.filterMap taken? ∧ ∀ c, .link n c ∉ done.filterMap error? := by
  rw [mem_taken, ← not_exists, exists_mem_errors]
  constructor
  · intro hl
    refine ⟨fun ht => ?_, fun ⟨c, hc⟩ => ?_⟩
    · cases unique hn hl ht
    · cases unique hn hl hc
  · rintro ⟨ht, hr⟩
    obtain ⟨⟨n, x⟩, hx, rfl⟩ := List.mem_map.mp hm
    cases x with
    | taken => exact absurd hx ht
    | rejected c => exact absurd ⟨c, hx⟩ hr
    | left => exact hx

/-- The names of files that are taken, picked out of all names. -/
theorem filter_names {names : List String}
    (h : ∀ p ∈ done, names.contains p.1 = (taken? p).isSome) :
    (done.map Prod.fst).filter names.contains = done.filterMap taken? := by
  induction done with
  | nil => rfl
  | cons p done ih =>
    have hp := h p (List.mem_cons_self ..)
    rw [List.map_cons, List.filter_cons, hp, ih fun p hm => h p (List.mem_cons_of_mem _ hm),
      List.filterMap_cons]
    obtain ⟨m, y⟩ := p
    cases y <;> rfl

/-- The files that are taken of those in front of one. -/
theorem taken_before {before after : List (String × Fate)}
    (hn : ((before ++ (n, x) :: after).map Prod.fst).Nodup) :
    (((before ++ (n, x) :: after).map Prod.fst).takeWhile (· != n)).filter
        ((before ++ (n, x) :: after).filterMap taken?).contains =
      before.filterMap taken? := by
  have hsplit := hn
  rw [List.map_append, List.map_cons] at hsplit
  have hfront : ∀ m ∈ before.map Prod.fst, (m != n) = true := by
    intro m hm
    rw [bne_iff_ne]
    rintro rfl
    exact (List.nodup_append.mp hsplit).2.2 m hm m (List.mem_cons_self ..) rfl
  rw [List.map_append, List.map_cons, List.takeWhile_append_of_pos hfront,
    List.takeWhile_cons_of_neg (by simp), List.append_nil]
  apply filter_names
  rintro ⟨m, y⟩ hm
  have hy : (m, y) ∈ before ++ (n, x) :: after := List.mem_append_left _ hm
  rw [List.contains_eq_mem, Bool.eq_iff_iff, decide_eq_true_iff, mem_taken]
  constructor
  · intro ht
    rw [unique hn hy ht]
    rfl
  · cases y with
    | taken => exact fun _ => hy
    | rejected c => exact fun h => by cases h
    | left => exact fun h => by cases h

end Fate

/-- The turn of a file: it is offered to the pool if all its imports are taken, and left out
otherwise. -/
inductive Turn (done : List (String × Fate)) (p : Pool) (f : StoredFile) : Fate → Pool → Prop where
  | taken {p' : Pool} (hi : ∀ b ∈ f.imports, (b, .taken) ∈ done) (ha : p.add f.decl = .ok p') :
      Turn done p f .taken p'
  | rejected {c : LinkError} (hi : ∀ b ∈ f.imports, (b, .taken) ∈ done)
      (ha : p.add f.decl = .error c) : Turn done p f (.rejected c) p
  | left {b : String} {x : Fate} (hb : b ∈ f.imports) (hx : (b, x) ∈ done) (hne : x ≠ .taken) :
      Turn done p f .left p

/-- The fates of files that are linked one after the other, and the pool that this gives. -/
inductive Source.Fates (q : Source) : List (String × Fate) → Pool → Prop where
  | nil : Fates q [] {}
  | snoc {done : List (String × Fate)} {p p' : Pool} {n : String} {f : StoredFile} {x : Fate}
      (h : Fates q done p) (hf : q.file? n = some f) (ht : Turn done p f x p') :
      Fates q (done ++ [(n, x)]) p'

namespace Source.Fates

variable {q : Source} {done : List (String × Fate)} {p : Pool} {n b : String} {x : Fate}
  {c : LinkError}

/-- The turn that a file had. -/
theorem turn (h : q.Fates done p) (hm : (n, x) ∈ done) :
    ∃ before after p₀ p₁ f, done = before ++ (n, x) :: after ∧ q.Fates before p₀ ∧
      q.file? n = some f ∧ Turn before p₀ f x p₁ := by
  induction h with
  | nil => cases hm
  | @snoc done p p' m f y h hf ht ih =>
    rcases List.mem_append.mp hm with hm | hm
    · obtain ⟨before, after, p₀, p₁, g, rfl, hturn⟩ := ih hm
      exact ⟨before, after ++ [(m, y)], p₀, p₁, g, by simp, hturn⟩
    · cases List.mem_singleton.mp hm
      exact ⟨done, [], p, p', f, rfl, h, hf, ht⟩

/-- The pool is that of the files that are taken. -/
theorem linked (h : q.Fates done p) : q.linked (done.filterMap Fate.taken?) = .ok p := by
  induction h with
  | nil => rfl
  | snoc h hf ht ih =>
    rw [List.filterMap_append]
    cases ht with
    | taken hi ha =>
      simp only [List.filterMap_cons, Fate.taken?, List.filterMap_nil, linked_snoc hf, ih]
      exact ha
    | rejected hi ha =>
      simp only [List.filterMap_cons, Fate.taken?, List.filterMap_nil, List.append_nil]
      exact ih
    | left hb hx hne =>
      simp only [List.filterMap_cons, Fate.taken?, List.filterMap_nil, List.append_nil]
      exact ih

theorem names (h : q.Fates done p) :
    p.files.map FileDecl.name = done.filterMap Fate.taken? := by
  induction h with
  | nil => rfl
  | snoc h hf ht ih =>
    rw [List.filterMap_append, ← ih]
    cases ht with
    | taken hi ha =>
      obtain ⟨g, hfiles, -, -, hg⟩ := Pool.add_eq_ok ha
      have hname := hg.name.trans ((file?_decl hf).trans (file?_name hf))
      simp [hfiles, hname, Fate.taken?]
    | rejected hi ha => simp [Fate.taken?]
    | left hb hx hne => simp [Fate.taken?]

/-- Whatever a file that is taken leads to is taken. -/
theorem taken_closed (h : q.Fates done p) (hn : (done.map Prod.fst).Nodup)
    (hm : (n, .taken) ∈ done) (hr : Relation.ReflTransGen q.Imports n b) : (b, .taken) ∈ done := by
  induction hr with
  | refl => exact hm
  | tail _ hi ih =>
    obtain ⟨before, after, p₀, p₁, f, rfl, -, hf, ht⟩ := h.turn ih
    obtain ⟨g, hg, hb⟩ := hi
    rw [hf] at hg
    cases hg
    cases ht with
    | taken hi ha => exact List.mem_append_left _ (hi _ hb)

/-- All that a file leads to is taken if the file is offered to the pool. -/
theorem rejected_closed (h : q.Fates done p) (hn : (done.map Prod.fst).Nodup)
    (hm : (n, .rejected c) ∈ done) (hr : Relation.TransGen q.Imports n b) :
    (b, .taken) ∈ done := by
  obtain ⟨before, after, p₀, p₁, f, hd, -, hf, ht⟩ := h.turn hm
  obtain ⟨a, ⟨g, hg, ha⟩, hr⟩ := Relation.TransGen.head'_iff.mp hr
  rw [hf] at hg
  cases hg
  cases ht with
  | rejected hi _ =>
    have htaken : (a, Fate.taken) ∈ done := hd ▸ List.mem_append_left _ (hi a ha)
    exact h.taken_closed hn htaken hr

/-- A file that is left out leads to a file that is rejected. -/
theorem left_leads (h : q.Fates done p) (hm : (n, .left) ∈ done) :
    ∃ b c, (b, .rejected c) ∈ done ∧ Relation.TransGen q.Imports n b := by
  induction h generalizing n with
  | nil => cases hm
  | @snoc done p p' m f x h hf ht ih =>
    have hold {a : String} (ha : (a, .left) ∈ done) :
        ∃ b c, (b, .rejected c) ∈ done ++ [(m, x)] ∧ Relation.TransGen q.Imports a b := by
      obtain ⟨b, c, hb, hr⟩ := ih ha
      exact ⟨b, c, List.mem_append_left _ hb, hr⟩
    rcases List.mem_append.mp hm with hm | hm
    · exact hold hm
    · cases List.mem_singleton.mp hm
      cases ht with
      | @left b y hb hy hne =>
        have hi : q.Imports m b := ⟨f, hf, hb⟩
        cases y with
        | taken => exact absurd rfl hne
        | rejected c => exact ⟨b, c, List.mem_append_left _ hy, .single hi⟩
        | left =>
          obtain ⟨b', c, hb', hr⟩ := hold hy
          exact ⟨b', c, hb', .head hi hr⟩

end Source.Fates

/-- The files in front come after their imports as well. -/
theorem Source.Layered.front {q : Source} {before order : List String} (h : q.Layered order)
    (hb : before <+: order) : q.Layered before := by
  induction h with
  | nil => exact List.prefix_nil.mp hb ▸ .nil
  | @snoc n f order hl hn hf hi ih =>
    rcases List.prefix_concat_iff.mp hb with rfl | hb
    · exact .snoc hl hn hf hi
    · exact ih hb

namespace Linking

variable {q : Source} {store : Store} {order : List String} {done : List (String × Fate)}
  {l : Linking} {n : String} {f : StoredFile}

/-- What the link loop has noted of files with some fates. -/
structure Notes (done : List (String × Fate)) (l : Linking) : Prop where
  errors : l.errors = done.filterMap Fate.error?
  unlinked : ∀ b, b ∈ l.unlinked ↔ ∃ x, (b, x) ∈ done ∧ x ≠ .taken

/-- A file is offered to the pool when none of its imports is left out. -/
def Offers (store : Store) (l : Linking) (n : String) (f : StoredFile) : Prop :=
  store.lookupName n = some f ∧ ∀ b ∈ f.imports, b ∉ l.unlinked

/-- A file whose imports had their turns and are not noted has imports that are taken. -/
theorem Notes.imports_taken (h : Notes done l) (hi : ∀ b ∈ f.imports, b ∈ done.map Prod.fst)
    (ho : ∀ b ∈ f.imports, b ∉ l.unlinked) : ∀ b ∈ f.imports, (b, .taken) ∈ done := by
  intro b hb
  obtain ⟨⟨b, x⟩, hx, rfl⟩ := List.mem_map.mp (hi b hb)
  by_cases ht : x = .taken
  · exact ht ▸ hx
  · exact absurd ((h.unlinked _).mpr ⟨x, hx, ht⟩) (ho _ hb)

/-- A file that is taken is not noted. -/
theorem Notes.taken {p : Pool} (h : Notes done l) :
    Notes (done ++ [(n, .taken)]) { l with pool := p } where
  errors := by simpa [Fate.error?, List.filterMap_cons] using h.errors
  unlinked b := by
    rw [h.unlinked]
    simp only [List.mem_append, List.mem_singleton, Prod.mk.injEq]
    constructor
    · rintro ⟨x, hx, hne⟩
      exact ⟨x, .inl hx, hne⟩
    · rintro ⟨x, hx | ⟨-, rfl⟩, hne⟩
      · exact ⟨x, hx, hne⟩
      · exact absurd rfl hne

/-- Any other file is noted, and told if it is rejected. -/
theorem Notes.noted {x : Fate} (h : Notes done l) (hne : x ≠ .taken) {es : List LoadError}
    (he : es = l.errors ++ (Fate.error? (n, x)).toList) :
    Notes (done ++ [(n, x)]) { l with unlinked := l.unlinked ++ [n], errors := es } where
  errors := by
    rw [he, h.errors, List.filterMap_append]
    cases x <;> rfl
  unlinked b := by
    simp only [List.mem_append, List.mem_singleton, Prod.mk.injEq, h.unlinked]
    constructor
    · rintro (⟨y, hy, hne⟩ | rfl)
      · exact ⟨y, .inl hy, hne⟩
      · exact ⟨x, .inr ⟨rfl, rfl⟩, hne⟩
    · rintro ⟨y, hy | ⟨rfl, -⟩, hne⟩
      · exact .inl ⟨y, hy, hne⟩
      · exact .inr rfl

/-- One more file, whose imports had their turns. -/
theorem step_fates (h : q.Fates done l.pool) (hn : Notes done l)
    (hs : store.lookupName n = some f) (hf : q.file? n = some f)
    (hi : ∀ b ∈ f.imports, b ∈ done.map Prod.fst) :
    ∃ x, q.Fates (done ++ [(n, x)]) (step store l n).pool ∧
      Notes (done ++ [(n, x)]) (step store l n) := by
  unfold step
  simp only [hs]
  split
  · rename_i hany
    obtain ⟨b, hb, hu⟩ := List.any_eq_true.mp hany
    obtain ⟨x, hx, hne⟩ := (hn.unlinked b).mp (by simpa using hu)
    exact ⟨.left, .snoc h hf (.left hb hx hne), hn.noted (by simp) (by simp [Fate.error?])⟩
  · rename_i hany
    have htaken := hn.imports_taken hi fun b hb hu =>
      hany (List.any_eq_true.mpr ⟨b, hb, by simpa using hu⟩)
    cases ha : l.pool.add f.decl with
    | ok p => exact ⟨.taken, .snoc h hf (.taken htaken ha), hn.taken⟩
    | error c =>
      exact ⟨.rejected c, .snoc h hf (.rejected htaken ha),
        hn.noted (by simp) (by simp [Fate.error?])⟩

/-- The whole loop over files that come after their imports. -/
theorem run_fates (ho : q.Layered order)
    (hs : ∀ n ∈ order, ∃ f, store.lookupName n = some f ∧ q.file? n = some f) :
    ∃ done, done.map Prod.fst = order ∧ q.Fates done (run store order).pool ∧
      Notes done (run store order) := by
  induction ho with
  | nil => exact ⟨[], rfl, .nil, ⟨rfl, by simp [run]⟩⟩
  | @snoc n f order hl hn hf hi ih =>
    obtain ⟨done, hd, h, hnotes⟩ := ih fun m hm => hs m (by simp [hm])
    obtain ⟨g, hg, hf'⟩ := hs n (by simp)
    rw [hf] at hf'
    cases hf'
    obtain ⟨x, hx, hnotes⟩ := step_fates h hnotes hg hf fun b hb => hd ▸ hi b hb
    rw [run, List.foldl_append]
    exact ⟨done ++ [(n, x)], by simp [hd], hx, hnotes⟩

/-- A file that is offered to the pool has all its imports in it. -/
theorem Offers.imports {before : List String} (ho : q.Layered (before ++ [n]))
    (hs : ∀ m ∈ before ++ [n], ∃ f, store.lookupName m = some f ∧ q.file? m = some f)
    (h : Offers store (run store before) n f) :
    ∀ b ∈ f.imports, b ∈ (run store before).pool.files.map FileDecl.name := by
  obtain ⟨done, hd, hfates, hnotes⟩ := run_fates (ho.front (List.prefix_append _ _))
    fun m hm => hs m (List.mem_append_left _ hm)
  obtain ⟨g, hg, hf⟩ := hs n (by simp)
  rw [h.1] at hg
  cases hg
  have hbefore : ∀ b ∈ f.imports, b ∈ done.map Prod.fst := by
    intro b hb
    obtain ⟨hm, hlt⟩ := ho.import_before (by simp) ⟨f, hf, hb⟩
    rcases List.mem_append.mp hm with hm | hm
    · exact hd ▸ hm
    · exact absurd (List.mem_singleton.mp hm ▸ hlt) (Nat.lt_irrefl _)
  intro b hb
  rw [hfates.names, Fate.mem_taken]
  exact hnotes.imports_taken hbefore h.2 b hb

end Linking

namespace Source

/-- The names of the files in the pool when linking ends. -/
def taken (q : Source) : List String :=
  (Linking.run q.walk.store q.walk.order).pool.files.map FileDecl.name

/-- The names of those that were linked before a file. -/
def takenBefore (q : Source) (n : String) : List String :=
  (q.walk.order.takeWhile (· != n)).filter q.taken.contains

end Source

namespace Schema

variable {d : Disk} {root : String} {importPath : ImportPath} {q : Source}

/-- What is told of a load whose walk found nothing wrong is what the link loop tells. -/
theorem errors_load (hq : Source.of? d root importPath = some q) (hw : q.walk.errors = []) :
    errors (load d root importPath) = (Linking.run q.walk.store q.walk.order).errors := by
  rw [load_eq, hq]
  have hends := ofWalk_ends q
  dsimp only
  unfold ofWalk at hends ⊢
  rw [if_neg (by simp [hw])] at hends ⊢
  dsimp only at hends ⊢
  split
  · rfl
  · rename_i he
    rw [if_neg he] at hends
    have hnone : (Linking.run q.walk.store q.walk.order).errors = [] := by simpa using he
    cases hroot : (Linking.run q.walk.store q.walk.order).pool.file? q.rootName with
    | some g => exact hnone.symm
    | none =>
      rw [hroot] at hends
      generalize hr : (Except.error [LoadError.link q.rootName .missingRoot] :
        Except (List LoadError) Schema) = r at hends
      cases hends with
      | walked he => exact absurd hw he
      | rejected _ _ hl =>
        cases hr
        obtain ⟨_, _, he⟩ := hl _ (List.mem_singleton_self _)
        cases he
      | loaded => cases hr

/-- What the link loop makes of the files of a walk that found nothing wrong. -/
theorem walk_fates (hw : q.walk.errors = []) :
    ∃ done, done.map Prod.fst = q.walk.order ∧ q.taken = done.filterMap Fate.taken? ∧
      q.Fates done (Linking.run q.walk.store q.walk.order).pool ∧
      (Linking.run q.walk.store q.walk.order).errors = done.filterMap Fate.error? := by
  have hfound := (Walk.walk_result q).found hw
  obtain ⟨done, hd, h, hnotes⟩ := Linking.run_fates hfound.layered fun n hn => hfound.lookup hn
  exact ⟨done, hd, h.names, h, hnotes.errors⟩

end Schema

namespace Source.Fates

variable {q : Source} {done : List (String × Fate)} {p : Pool} {n : String} {f : StoredFile}
  {c : LinkError}

/-- A file is rejected exactly if all that it leads to is taken and the pool of what was taken
before it rejects it. -/
theorem rejected_iff (h : q.Fates done p) (hn : (done.map Prod.fst).Nodup) (hf : q.file? n = some f)
    (hm : n ∈ done.map Prod.fst) :
    (n, .rejected c) ∈ done ↔
      (∀ b, Relation.TransGen q.Imports n b → (b, .taken) ∈ done) ∧
        ∃ p, q.linked (((done.map Prod.fst).takeWhile (· != n)).filter
          (done.filterMap Fate.taken?).contains) = .ok p ∧ p.add f.decl = .error c := by
  obtain ⟨⟨n, x⟩, hx, rfl⟩ := List.mem_map.mp hm
  obtain ⟨before, after, p₀, p₁, g, rfl, h₀, hg, ht⟩ := h.turn hx
  rw [hf] at hg
  cases hg
  rw [Fate.taken_before hn, h₀.linked]
  constructor
  · intro hr
    cases Fate.unique hn hx hr
    cases ht with
    | rejected _ ha => exact ⟨fun b hb => h.rejected_closed hn hr hb, p₀, rfl, ha⟩
  · rintro ⟨hall, p, hp, ha⟩
    cases hp
    cases ht with
    | taken _ ha' =>
      rw [ha] at ha'
      cases ha'
    | rejected _ ha' =>
      rw [ha] at ha'
      cases ha'
      exact hx
    | @left b y hb hy hne =>
      have htaken := hall b (.single ⟨f, hf, hb⟩)
      exact absurd (Fate.unique hn (List.mem_append_left _ hy) htaken) hne

/-- A file is left out exactly if it leads to a file that is rejected. -/
theorem left_iff (h : q.Fates done p) (hn : (done.map Prod.fst).Nodup)
    (hm : n ∈ done.map Prod.fst) :
    (n, .left) ∈ done ↔ ∃ b c, (b, .rejected c) ∈ done ∧ Relation.TransGen q.Imports n b := by
  refine ⟨h.left_leads, ?_⟩
  rintro ⟨b, c, hb, hr⟩
  obtain ⟨⟨n, x⟩, hx, rfl⟩ := List.mem_map.mp hm
  have hno : (b, .taken) ∉ done := fun ht => by cases Fate.unique hn ht hb
  cases x with
  | taken => exact absurd (h.taken_closed hn hx hr.to_reflTransGen) hno
  | rejected c => exact absurd (h.rejected_closed hn hx hr) hno
  | left => exact hx

end Source.Fates

namespace Schema

variable {d : Disk} {root : String} {importPath : ImportPath} {q : Source}

/-- If the walk of a load found nothing wrong, a stored file is told not to link exactly if all that
it leads to is in the pool and the pool, with what was linked before the file, rejects it; nothing
is told of a file that is not in the pool exactly if it leads to a file that is told. Each file is
told once at most, in an order in which files come after their imports, and nothing else is told. No
file is offered to the pool before all its imports are in it. -/
theorem link_told_iff (hq : Source.of? d root importPath = some q) (hw : q.walk.errors = []) :
    (∀ f ∈ q.walk.store.files,
      (∀ c, .link f.name (.rejected c) ∈ errors (load d root importPath) ↔
        (∀ b, Relation.TransGen q.Imports f.name b → b ∈ q.taken) ∧
          ∃ p, q.linked (q.takenBefore f.name) = .ok p ∧ p.add f.decl = .error c) ∧
      (f.name ∉ q.taken ∧ (∀ c, .link f.name c ∉ errors (load d root importPath)) ↔
        ∃ b c, .link b c ∈ errors (load d root importPath) ∧
          Relation.TransGen q.Imports f.name b)) ∧
    (∀ e ∈ errors (load d root importPath),
      ∃ f ∈ q.walk.store.files, ∃ c, e = .link f.name (.rejected c)) ∧
    ((errors (load d root importPath)).filterMap LoadError.unlinked?).Nodup ∧
    ((errors (load d root importPath)).filterMap LoadError.unlinked?).Sublist q.walk.order ∧
    q.Layered q.walk.order ∧
    ∀ before n f, before ++ [n] <+: q.walk.order →
      Linking.Offers q.walk.store (Linking.run q.walk.store before) n f →
        ∀ b ∈ f.imports,
          b ∈ (Linking.run q.walk.store before).pool.files.map FileDecl.name := by
  have hfound := (Walk.walk_result q).found hw
  obtain ⟨done, hd, htaken, h, herrors⟩ := walk_fates hw
  have hn : (done.map Prod.fst).Nodup := hd ▸ hfound.layered.nodup
  have hsub := (Linking.run_errors q.walk.store q.walk.order).1
  rw [errors_load hq hw]
  refine ⟨fun f hf => ?_, fun e he => ?_, hsub.nodup hfound.layered.nodup, hsub, hfound.layered,
    fun before n f hb ho => ?_⟩
  · have hname : f.name ∈ done.map Prod.fst := hd ▸ (hfound.names _).mp (List.mem_map_of_mem hf)
    rw [herrors]
    constructor
    · intro c
      rw [Fate.rejected_mem_errors, h.rejected_iff hn (hfound.inv.meant f hf) hname, hd, ← htaken]
      simp only [htaken, Fate.mem_taken, Source.takenBefore]
    · rw [htaken, ← Fate.left_iff_silent hn hname, h.left_iff hn hname]
      refine exists_congr fun b => ?_
      rw [exists_and_right, exists_and_right, Fate.exists_mem_errors]
  · rw [herrors] at he
    obtain ⟨n, c, rfl, hm⟩ := Fate.mem_errors.mp he
    have ho : n ∈ q.walk.order := hd ▸ List.mem_map_of_mem hm
    obtain ⟨f, hf, rfl⟩ := List.mem_map.mp ((hfound.names n).mpr ho)
    exact ⟨f, hf, c, rfl⟩
  · exact ho.imports (hfound.layered.front hb) fun m hm => hfound.lookup (hb.subset hm)

/-- A disk on which the root imports a file that does not link. -/
def clashing : Disk :=
  ⟨[(["r"], .file (Utf8.encode "import \"b\";".toList)),
    (["b"], .file (Utf8.encode "message A{}message A{}".toList))], []⟩

theorem link_told_iff_clashing :
    ∃ q, Source.of? clashing "r" [] = some q ∧ q.walk.errors = [] ∧
      .link "b" (.rejected (.definedTwice "A")) ∈ errors (load clashing "r" []) ∧
      (∃ p, q.linked (q.takenBefore "b") = .ok p) ∧
      "r" ∉ q.taken ∧ ∀ c, .link "r" c ∉ errors (load clashing "r" []) := by
  let q : Source := ⟨clashing, "r", "r", "", []⟩
  have hq : Source.of? clashing "r" [] = some q := rfl
  have hruns : q.walk.errors = [] ∧
      .link "b" (.rejected (.definedTwice "A")) ∈ errors (load clashing "r" []) ∧
      (∃ f ∈ q.walk.store.files, f.name = "r") ∧ (∃ f ∈ q.walk.store.files, f.name = "b") ∧
      ∃ f ∈ q.file? "r", "b" ∈ f.imports := by
    decide +kernel
  obtain ⟨hw, he, ⟨r, hr, hrn⟩, ⟨b, hb, hbn⟩, f, hf, hi⟩ := hruns
  obtain ⟨hfiles, -⟩ := link_told_iff hq hw
  have htold := (hfiles b hb).1 (.definedTwice "A")
  have hsilent := (hfiles r hr).2
  rw [hbn] at htold
  rw [hrn] at hsilent
  obtain ⟨-, p, hp, -⟩ := htold.mp he
  exact ⟨q, hq, hw, he, ⟨p, hp⟩, hsilent.mpr ⟨"b", _, he, .single ⟨f, hf, hi⟩⟩⟩

end Schema
end RpcConsole

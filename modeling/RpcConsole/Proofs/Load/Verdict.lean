import RpcConsole.Proofs.Load.Linking
import RpcConsole.Proofs.Load.Walk
import RpcConsole.Service.Tree

namespace RpcConsole

/-- The files of a load fit together: each name that the root leads to stands for a file that can be
read and parsed, no two of these names stand for files at one place, no name leads back to itself,
and the pool takes all files when each is added after its imports. -/
structure Source.Fits (q : Source) : Prop where
  files : ∀ n, q.Reaches n → ∃ f, q.file? n = some f
  places : ∀ a b f g, q.Reaches a → q.Reaches b → q.file? a = some f → q.file? b = some g →
    f.place = g.place → a = b
  acyclic : ∀ n, q.Reaches n → ¬ Relation.TransGen q.Imports n n
  accepted : ∀ order, q.PostOrder [] [q.rootName] order → ∃ p, q.linked order = .ok p

/-- What is in a schema that was loaded. -/
structure Schema.Complete (q : Source) (s : Schema) : Prop where
  rootFirst : s.store.names.head? = some q.rootName
  nodup : s.store.names.Nodup
  reached : ∀ n, n ∈ s.store.names ↔ q.Reaches n
  meant : ∀ f ∈ s.store.files, q.file? f.name = some f
  order : q.PostOrder [] [q.rootName] (s.pool.files.map FileDecl.name)
  linked : (s.pool.files.map FileDecl.name).Perm s.store.names
  pool : q.linked (s.pool.files.map FileDecl.name) = .ok s.pool
  imports : ∀ g ∈ s.pool.files, ∀ i ∈ g.imports,
    i ∈ s.pool.files.map FileDecl.name ∧
      (s.pool.files.map FileDecl.name).idxOf i < (s.pool.files.map FileDecl.name).idxOf g.name
  root : s.pool.file? q.rootName = some s.root
  methods : ∀ service ∈ s.serviceTree.services, ∀ m ∈ service.methods,
    (∃ f ∈ s.store.files, m.input ∈ f.decl.messageNames) ∧
      ∃ f ∈ s.store.files, m.output ∈ f.decl.messageNames

namespace Source

variable {q : Source} {f : StoredFile}

theorem file?_decl (h : q.file? n = some f) : f.decl.name = f.name := by
  obtain ⟨path, -, hr⟩ := file?_eq_some.mp h
  obtain ⟨hn, source, -, hp, -⟩ := read_eq_ok hr
  exact (Proto.parse_reads hp).name_eq.trans hn.symm

/-- If the files fit together, nothing is wrong. -/
theorem Fits.not_wrong (h : q.Fits) {e : LoadError} : ¬ q.Wrong e := by
  intro hw
  cases hw with
  | missing hr hf =>
    obtain ⟨f, hf'⟩ := h.files _ hr
    rw [hf] at hf'
    cases hf'
  | shared ha hb hab hf hg hp => exact hab (h.places _ _ _ _ ha hb hf hg hp)
  | cycle hr hc => exact h.acyclic _ hr hc

end Source

namespace Walk

variable {q : Source}

/-- What a walk without errors has found. -/
structure Found (q : Source) (w : Walk) : Prop where
  inv : Inv q w
  names : ∀ n, n ∈ w.store.names ↔ n ∈ w.order
  order : q.PostOrder [] [q.rootName] w.order
  layered : q.Layered w.order
  reached : ∀ n, n ∈ w.order ↔ q.Reaches n

theorem Result.found {w : Walk} (h : Result q w) (he : w.errors = []) : Found q w := by
  have hi := h.inv he
  have ho := h.ordered he
  have hl := ho.layered .nil
  have hn : ∀ n, n ∈ w.store.names ↔ n ∈ w.order := by
    intro n
    rw [hi.stored, h.inProgress he, hi.order]
    simp
  refine ⟨hi, hn, ho, hl, fun n => ⟨fun hm => hi.reached n ((hn n).mpr hm), fun hr => ?_⟩⟩
  exact hl.closed (ho.mem (by simp)) hr

variable {w : Walk}

theorem Found.lookup (h : Found q w) {n : String} (hn : n ∈ w.order) :
    ∃ f, w.store.lookupName n = some f ∧ q.file? n = some f := by
  cases hf : w.store.lookupName n with
  | none => exact absurd ((h.names n).mpr hn) (h.inv.sound.lookupName_eq_none.mp hf)
  | some f => exact ⟨f, rfl, (h.inv.lookupName hf).2.1⟩

/-- The names that were found fit together, the pool aside. -/
theorem Found.places (h : Found q w) {a b : String} {f g : StoredFile} (ha : q.Reaches a)
    (hb : q.Reaches b) (hf : q.file? a = some f) (hg : q.file? b = some g)
    (hp : f.place = g.place) : a = b := by
  have hstored {n : String} {x : StoredFile} (hr : q.Reaches n) (hx : q.file? n = some x) :
      x ∈ w.store.files := by
    obtain ⟨y, hy, hy'⟩ := h.lookup ((h.reached n).mpr hr)
    rw [hx] at hy'
    cases hy'
    exact (h.inv.sound.lookupName_eq_some.mp hy).1
  have he := h.inv.sound.eq_of_place (hstored ha hf) (hstored hb hg) hp
  rw [← Source.file?_name hf, ← Source.file?_name hg, he]

/-- The files that are linked, in order. -/
theorem Found.files_names (h : Found q w) :
    ((w.order.filterMap q.file?).map StoredFile.decl).map FileDecl.name = w.order := by
  have ho := fun n hn => h.layered.file (a := n) hn
  generalize w.order = l at ho
  induction l with
  | nil => rfl
  | cons n l ih =>
    obtain ⟨f, hf⟩ := ho n (by simp)
    rw [List.filterMap_cons, hf]
    simp only [List.map_cons]
    rw [ih fun m hm => ho m (by simp [hm]), Source.file?_decl hf, Source.file?_name hf]

/-- What a schema holds whose walk and whose link loop found nothing wrong. -/
theorem Found.complete (h : Found q w) {p : Pool} {root : FileDecl}
    (hp : q.linked w.order = .ok p) (hr : p.file? q.rootName = some root) :
    Schema.Complete q ⟨w.store, p, root⟩ := by
  have hpool := Source.linked_poolOf hp fun n hn => h.layered.file hn
  have hnames : p.files.map FileDecl.name = w.order := hpool.names.trans h.files_names
  have hperm : w.order.Perm w.store.names :=
    (List.perm_ext_iff_of_nodup h.layered.nodup h.inv.sound.names_nodup).mpr
      fun n => (h.names n).symm
  have hdeclared {name : String}
      (hd : ∃ d ∈ (w.order.filterMap q.file?).map StoredFile.decl, name ∈ d.messageNames) :
      ∃ f ∈ w.store.files, name ∈ f.decl.messageNames := by
    obtain ⟨d, hd, hm⟩ := hd
    obtain ⟨f, hf, rfl⟩ := List.mem_map.mp hd
    obtain ⟨n, hn, hq⟩ := List.mem_filterMap.mp hf
    obtain ⟨g, hg, hq'⟩ := h.lookup hn
    rw [hq] at hq'
    cases hq'
    exact ⟨f, (h.inv.sound.lookupName_eq_some.mp hg).1, hm⟩
  refine ⟨h.inv.root, h.inv.sound.names_nodup, fun n => (h.names n).trans (h.reached n),
    h.inv.meant, by rw [hnames]; exact h.order, by rw [hnames]; exact hperm,
    by rw [hnames]; exact hp, ?_, hr, ?_⟩
  · intro g hg i hi
    rw [hnames]
    obtain ⟨k, hk⟩ := List.mem_iff_getElem?.mp hg
    have hkn := congrArg (fun l => l[k]?) hpool.names
    have hki := congrArg (fun l => l[k]?) hpool.imports
    simp only [List.getElem?_map, hk, Option.map_some] at hkn hki
    cases hd : (w.order.filterMap q.file?)[k]? with
    | none => simp [hd] at hkn
    | some f =>
      simp only [hd, Option.map_some, Option.some.injEq] at hkn hki
      obtain ⟨n, hn, hq⟩ := List.mem_filterMap.mp (List.mem_of_getElem? hd)
      have hgn : g.name = n := by
        rw [hkn, Source.file?_decl hq, Source.file?_name hq]
      have hif : i ∈ f.imports := by
        rw [StoredFile.imports, ← hki]
        exact hi
      exact hgn ▸ h.layered.import_before hn ⟨f, hq, hif⟩
  · intro service hs m hm
    obtain ⟨declared, hds, rfl⟩ := List.mem_map.mp hs
    obtain ⟨method, hdm, rfl⟩ := List.mem_map.mp hm
    have hrm := hpool.methods root (List.mem_of_find?_eq_some hr) declared hds method hdm
    exact ⟨hdeclared hrm.1, hdeclared hrm.2⟩

end Walk

namespace Schema

variable {q : Source}

/-- The ways in which a load ends. -/
inductive Ends (q : Source) : Except (List LoadError) Schema → Prop where
  | walked (he : q.walk.errors ≠ []) (hw : ¬ q.Fits) : Ends q (.error q.walk.errors)
  | rejected (he : q.walk.errors = []) {es : List LoadError} (hne : es ≠ [])
      (hl : ∀ e ∈ es, ∃ n c, e = .link n (.rejected c)) (hw : ¬ q.Fits) : Ends q (.error es)
  | loaded {s : Schema} (hf : q.Fits) (hs : s.Complete q) : Ends q (.ok s)

theorem ofWalk_ends (q : Source) : Ends q (ofWalk q.rootName q.walk) := by
  have hr := Walk.walk_result q
  unfold ofWalk
  by_cases he : q.walk.errors = []
  · have hfound := hr.found he
    rw [if_neg (by simp [he])]
    dsimp only
    cases Linking.run_after (fun n hn => hfound.lookup hn) with
    | failed hle hl hp =>
      rw [if_pos (by simpa using hle)]
      refine .rejected he hle hl fun hf => ?_
      obtain ⟨p, hp'⟩ := hf.accepted _ hfound.order
      rw [hp] at hp'
      cases hp'
    | clean hle hu hp =>
      rw [if_neg (by simpa using hle)]
      have hpool := Source.linked_poolOf hp fun n hn => hfound.layered.file hn
      have hroot : q.rootName ∈
          (Linking.run q.walk.store q.walk.order).pool.files.map FileDecl.name := by
        rw [hpool.names, hfound.files_names]
        exact hfound.order.mem (by simp)
      cases hfile : (Linking.run q.walk.store q.walk.order).pool.file? q.rootName with
      | none =>
        obtain ⟨g, hg, hn⟩ := List.mem_map.mp hroot
        exact absurd hn (by simpa using List.find?_eq_none.mp hfile g hg)
      | some root =>
        refine .loaded ⟨fun n hn => ?_, fun a b f g => hfound.places, fun n hn => ?_, ?_⟩
          (hfound.complete hp hfile)
        · exact hfound.layered.file ((hfound.reached n).mpr hn)
        · exact hfound.layered.acyclic ((hfound.reached n).mpr hn)
        · exact fun order ho => ⟨_, (ho.unique hfound.order) ▸ hp⟩
  · rw [if_pos (by simpa using he)]
    refine .walked he fun hf => ?_
    obtain ⟨e, hm⟩ := List.exists_mem_of_ne_nil _ he
    exact hf.not_wrong (hr.wrong e hm)

theorem load_eq (d : Disk) (root : String) (importPath : ImportPath) :
    load d root importPath =
      match Source.of? d root importPath with
      | some q => ofWalk q.rootName q.walk
      | none => .error [.invalidRoot root] := by
  unfold load Source.of?
  cases Path.parent? root with
  | none => rfl
  | some dir =>
    cases Path.fileName? root with
    | none => rfl
    | some name => rfl

theorem load_complete {d : Disk} {root : String} {importPath : ImportPath} {s : Schema}
    (h : load d root importPath = .ok s) :
    ∃ q, Source.of? d root importPath = some q ∧ s.Complete q := by
  rw [load_eq] at h
  cases hq : Source.of? d root importPath with
  | none => simp [hq] at h
  | some q =>
    simp only [hq] at h
    have hends := ofWalk_ends q
    rw [h] at hends
    cases hends with
    | loaded hf hs => exact ⟨q, rfl, hs⟩

/-- Errors of a load that are no errors of linking. -/
theorem wrong_not_link {e : LoadError} (h : q.Wrong e) (n : String) (c : LinkFault) :
    e ≠ .link n c := by
  cases h <;> simp

/-- A schema loads exactly if its root path has a parent and a file name and its files fit together.
Then the store and the pool hold the files that the root leads to, each once, and each is linked
after its imports. Otherwise something is told, errors of linking only if the walk found nothing
wrong, and never that the root is missing from the pool. -/
theorem load_verdict (d : Disk) (root : String) (importPath : ImportPath) :
    ((∃ s, load d root importPath = .ok s) ↔
      ∃ q, Source.of? d root importPath = some q ∧ q.Fits) ∧
    (∀ s, load d root importPath = .ok s →
      ∃ q, Source.of? d root importPath = some q ∧ s.Complete q) ∧
    ∀ es, load d root importPath = .error es →
      es ≠ [] ∧ (∀ n, .link n .missingRoot ∉ es) ∧
        ∀ n c, .link n c ∈ es →
          ∃ q, Source.of? d root importPath = some q ∧ q.walk.errors = [] := by
  rw [and_left_comm]
  refine ⟨fun s h => load_complete h, ?_⟩
  rw [load_eq]
  cases hq : Source.of? d root importPath with
  | none => exact ⟨by simp, fun es he => by cases he; simp⟩
  | some q =>
    simp only [Option.some.injEq, exists_eq_left']
    have hends := ofWalk_ends q
    generalize ofWalk q.rootName q.walk = r at hends
    cases hends with
    | walked he hw =>
      refine ⟨by simpa using hw, fun es h => ?_⟩
      cases h
      have hr := (Walk.walk_result q).wrong
      exact ⟨he, fun n hn => wrong_not_link (hr _ hn) n _ rfl,
        fun n c hn => absurd rfl (wrong_not_link (hr _ hn) n c)⟩
    | rejected he hne hl hw =>
      refine ⟨by simpa using hw, fun es h => ?_⟩
      cases h
      refine ⟨hne, fun n hn => ?_, fun _ _ _ => he⟩
      obtain ⟨_, _, h⟩ := hl _ hn
      cases h
    | loaded hf hs => exact ⟨by simpa using hf, by simp⟩

end Schema
end RpcConsole

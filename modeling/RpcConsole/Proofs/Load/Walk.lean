import Mathlib.Data.List.Chain
import Mathlib.Data.List.Perm.Subperm
import Mathlib.Tactic.Push
import RpcConsole.Load.Walk
import RpcConsole.Proofs.Load.Imports

namespace RpcConsole

namespace Source

/-- The store that a load starts with. -/
def store (q : Source) : Store :=
  { importPath := q.importPath, fallback := some q.rootDir }

/-- The walk from the root of a load. -/
def walk (q : Source) : Walk :=
  Walk.fromRoot q.disk q.rootName q.root q.store

/-- What can be wrong with the files that the root leads to. -/
inductive Wrong (q : Source) : LoadError → Prop where
  | missing {name : String} {e : ResolveError} (hr : q.Reaches name)
      (hf : q.file? name = none) : Wrong q (.unresolved e)
  | shared {a b : String} {f g : StoredFile} {c : Conflict} (ha : q.Reaches a) (hb : q.Reaches b)
      (hab : a ≠ b) (hf : q.file? a = some f) (hg : q.file? b = some g) (hp : f.place = g.place) :
      Wrong q (.unresolved (.conflict c))
  | cycle {name : String} {names : List String} (hr : q.Reaches name)
      (hc : Relation.TransGen q.Imports name name) : Wrong q (.importCycle names)

end Source

namespace Walk

/-- What holds at each point of a walk. -/
structure Inv (q : Source) (w : Walk) : Prop where
  sound : w.store.Sound
  dirs : w.store.importPath ++ w.store.fallback.toList = q.dirs
  meant : ∀ f ∈ w.store.files, q.file? f.name = some f
  root : w.store.names.head? = some q.rootName
  reached : ∀ n ∈ w.store.names, q.Reaches n
  stored : ∀ n, n ∈ w.store.names ↔ n ∈ w.visited ∨ n ∈ w.inProgress
  nodup : (w.visited ++ w.inProgress).Nodup
  chain : w.inProgress.IsChain q.Imports
  order : w.order = w.visited
  wrong : ∀ e ∈ w.errors, q.Wrong e
  failed : w.errors = [] → w.failed = []

variable {q : Source} {w w' w'' : Walk} {n : String} {f : StoredFile}

theorem Inv.lookupName (h : Inv q w) (hf : w.store.lookupName n = some f) :
    f.name = n ∧ q.file? n = some f ∧ q.Reaches n := by
  obtain ⟨hm, rfl⟩ := h.sound.lookupName_eq_some.mp hf
  exact ⟨rfl, h.meant f hm, h.reached _ (List.mem_map.mpr ⟨f, hm, rfl⟩)⟩

/-- There are no more stored files than files on the disk. -/
theorem Inv.length_le (h : Inv q w) : w.store.files.length ≤ q.disk.nodes.length := by
  have hs : (w.store.files.map StoredFile.place) ⊆ q.disk.nodes.map Prod.fst := by
    intro p hp
    obtain ⟨f, hf, rfl⟩ := List.mem_map.mp hp
    exact Source.file?_place_mem (h.meant f hf)
  simpa using (List.Nodup.subperm h.sound.places_nodup hs).length_le

/-- Looking for the file of a name that is not stored. -/
theorem Inv.path_eq (h : Inv q w) (hn : n ∉ w.store.names) :
    (w.store.candidates n).find? q.disk.isFile = q.path? n := by
  have hr : n ≠ q.rootName := fun he => hn (he ▸ List.mem_of_head? h.root)
  rw [Store.candidates, h.dirs, Source.path?, if_neg (by simpa using hr)]

/-- Why an import is refused: there is no file for it, its file cannot be read or parsed, or its
file is stored under another name. -/
inductive Refused (q : Source) (w : Walk) (importer wanted : String) : ResolveError → Prop where
  | missing (hp : q.path? wanted = none) : Refused q w importer wanted (.notFound importer wanted)
  | unread {path : String} {e : ResolveError} (hp : q.path? wanted = some path)
      (hr : StoredFile.read q.disk wanted path = .error e) : Refused q w importer wanted e
  | taken {f g : StoredFile} (hf : q.file? wanted = some f) (hg : g ∈ w.store.files)
      (hp : g.place = f.place) : Refused q w importer wanted (.conflict ⟨wanted, g.name⟩)

theorem Refused.wrong {importer : String} {e : ResolveError} (he : Refused q w importer n e)
    (h : Inv q w) (hr : q.Reaches n) (hn : n ∉ w.store.names) : q.Wrong (.unresolved e) := by
  cases he with
  | missing hp => exact .missing hr (by simp [Source.file?, hp])
  | unread hp hf => exact .missing hr (by simp [Source.file?, hp, hf, Except.toOption])
  | @taken f g hf hg hp =>
    have hstored : g.name ∈ w.store.names := List.mem_map.mpr ⟨g, hg, rfl⟩
    exact .shared (h.reached _ hstored) hr (fun he => hn (he ▸ hstored)) (h.meant g hg) hf hp

/-- What comes of an import whose name is not stored. -/
theorem Inv.resolve (h : Inv q w) (importer : String) (hn : n ∉ w.store.names) :
    (∃ e, w.store.resolveImport q.disk importer n = .error e ∧ Refused q w importer n e) ∨
    ∃ f, w.store.resolveImport q.disk importer n = .ok (f, w.store.push f) ∧
      q.file? n = some f ∧ (∀ g ∈ w.store.files, g.place ≠ f.place ∧ g.name ≠ f.name) := by
  unfold Store.resolveImport
  rw [h.sound.lookupName_eq_none.mpr hn]
  simp only [h.path_eq hn]
  cases hp : q.path? n with
  | none => exact .inl ⟨_, rfl, .missing hp⟩
  | some path =>
    dsimp only
    cases hf : StoredFile.read q.disk n path with
    | error e => exact .inl ⟨e, rfl, .unread hp hf⟩
    | ok f =>
      have hq : q.file? n = some f := Source.file?_eq_some.mpr ⟨path, hp, hf⟩
      dsimp only
      cases hs : w.store.register f with
      | ok s =>
        obtain ⟨hnew, rfl⟩ := h.sound.register_eq_ok.mp hs
        exact .inr ⟨f, rfl, hq, hnew⟩
      | error c =>
        obtain ⟨name, existing⟩ := c
        obtain ⟨rfl, g, hg, rfl, hor⟩ := h.sound.register_eq_error.mp hs
        have hname := Source.file?_name hq
        have hplace : g.place = f.place := by
          rcases hor with hp | ⟨-, he⟩
          · exact hp
          · exact absurd (List.mem_map.mpr ⟨g, hg, he.trans hname⟩) hn
        subst hname
        exact .inl ⟨_, rfl, .taken hq hg hplace⟩

/-- What following an import can do. -/
theorem Inv.follow_cases (h : Inv q w) (visit : String → Walk → Walk) (importer : String) :
    (n ∈ w.inProgress ∧ follow q.disk visit importer w n = w.note (.importCycle (w.cycle n))) ∨
    ((n ∈ w.visited ∨ n ∈ w.failed) ∧ follow q.disk visit importer w n = w) ∨
    (n ∉ w.store.names ∧ n ∉ w.failed ∧ ∃ e,
      w.store.resolveImport q.disk importer n = .error e ∧ Refused q w importer n e ∧
      follow q.disk visit importer w n =
        { w with failed := w.failed ++ [n] }.note (.unresolved e)) ∨
    (n ∉ w.store.names ∧ n ∉ w.failed ∧ ∃ f,
      w.store.resolveImport q.disk importer n = .ok (f, w.store.push f) ∧ q.file? n = some f ∧
      (∀ g ∈ w.store.files, g.place ≠ f.place ∧ g.name ≠ f.name) ∧
      follow q.disk visit importer w n = visit n { w with store := w.store.push f }) := by
  unfold follow
  by_cases hp : n ∈ w.inProgress
  · exact .inl ⟨hp, if_pos (List.contains_iff_mem.mpr hp)⟩
  · rw [if_neg (by simpa using hp)]
    by_cases hk : n ∈ w.visited ∨ n ∈ w.failed
    · exact .inr (.inl ⟨hk, if_pos (by simpa using hk)⟩)
    · rw [if_neg (by simpa using hk)]
      obtain ⟨hd, hf⟩ := not_or.mp hk
      have hn : n ∉ w.store.names := by
        rw [h.stored]
        exact not_or_intro hd hp
      rcases h.resolve importer hn with ⟨e, hres, he⟩ | ⟨f, hres, hq, hnew⟩
      · exact .inr (.inr (.inl ⟨hn, hf, e, hres, he, by rw [hres]⟩))
      · refine .inr (.inr (.inr ⟨hn, hf, f, hres, hq, hnew, ?_⟩))
        rw [hres]
        simp only [Source.file?_name hq]

/-- A piece of a walk that follows some names from inside a file. -/
structure Piece (q : Source) (w : Walk) (names : List String) (w' : Walk) : Prop where
  inv : Inv q w'
  inProgress : w'.inProgress = w.inProgress
  stored : w.store.files.length ≤ w'.store.files.length
  errors : w.errors <+: w'.errors
  ordered : w'.errors = [] → q.PostOrder w.visited names w'.visited

theorem Piece.refl (h : Inv q w) : Piece q w [] w :=
  ⟨h, rfl, Nat.le_refl _, List.prefix_rfl, fun _ => .nil⟩

theorem Piece.trans {ns ms : List String} (h : Piece q w ns w') (h' : Piece q w' ms w'') :
    Piece q w (ns ++ ms) w'' where
  inv := h'.inv
  inProgress := h'.inProgress.trans h.inProgress
  stored := h.stored.trans h'.stored
  errors := h.errors.trans h'.errors
  ordered he :=
    have he' : w'.errors = [] := List.prefix_nil.mp (he ▸ h'.errors)
    (h.ordered he').append (h'.ordered he)

/-- Something wrong is noted, and nothing else happens that counts. -/
theorem Inv.noted (h : Inv q w) {e : LoadError} (he : q.Wrong e) (failed : List String) :
    Inv q ({ w with failed }.note e) :=
  { h with
    wrong := by
      intro e' he'
      rcases List.mem_append.mp he' with he' | he'
      · exact h.wrong e' he'
      · exact List.mem_singleton.mp he' ▸ he
    failed := by simp [note] }

theorem Piece.noted (h : Inv q w) {e : LoadError} (he : q.Wrong e) (failed : List String) :
    Piece q w [n] ({ w with failed }.note e) where
  inv := h.noted he failed
  inProgress := rfl
  stored := Nat.le_refl _
  errors := List.prefix_append _ _
  ordered := by simp [note]

theorem leads_last {l : List String} {last : String} (hc : l.IsChain q.Imports)
    (hl : l.getLast? = some last) : ∀ n ∈ l, Relation.ReflTransGen q.Imports n last := by
  induction l with
  | nil => simp
  | cons a l ih =>
    cases l with
    | nil =>
      have ha : a = last := by simpa using hl
      simpa [ha] using Relation.ReflTransGen.refl
    | cons b l =>
      rw [List.getLast?_cons_cons] at hl
      rw [List.isChain_cons_cons] at hc
      intro n hn
      rcases List.mem_cons.mp hn with rfl | hn
      · exact .head hc.1 (ih hc.2 hl b (List.mem_cons_self ..))
      · exact ih hc.2 hl n hn

/-- A file that is stored and gets entered. -/
theorem Inv.enter_push (h : Inv q w) {last : String} (hl : w.inProgress.getLast? = some last)
    (hi : q.Imports last f.name) (hr : q.Reaches f.name) (hf : q.file? f.name = some f)
    (hn : f.name ∉ w.store.names)
    (hnew : ∀ g ∈ w.store.files, g.place ≠ f.place ∧ g.name ≠ f.name) :
    Inv q ({ w with store := w.store.push f }.enter f.name) where
  sound := h.sound.push hnew
  dirs := h.dirs
  meant g hg := by
    rcases List.mem_append.mp hg with hg | hg
    · exact h.meant g hg
    · exact List.mem_singleton.mp hg ▸ hf
  root := by
    rw [enter, Store.push_names, List.head?_append, h.root]
    rfl
  reached m hm := by
    simp only [enter, Store.push_names] at hm
    rcases List.mem_append.mp hm with hm | hm
    · exact h.reached m hm
    · exact List.mem_singleton.mp hm ▸ hr
  stored m := by
    simp only [enter, Store.push_names, List.mem_append, h.stored m, or_assoc]
  nodup := by
    have hv : f.name ∉ w.visited ++ w.inProgress := by
      rw [List.mem_append, ← h.stored]
      exact hn
    simp only [enter, ← List.append_assoc]
    rw [List.nodup_append]
    refine ⟨h.nodup, by simp, fun a ha b hb hab => hv ?_⟩
    rw [List.mem_singleton.mp hb] at hab
    exact hab ▸ ha
  chain := by
    simp only [enter]
    rw [List.isChain_append]
    refine ⟨h.chain, by simp, fun a ha b hb => ?_⟩
    rw [hl] at ha
    simp only [Option.mem_def, Option.some.injEq, List.head?_cons] at ha hb
    exact ha ▸ hb ▸ hi
  order := h.order
  wrong := h.wrong
  failed := h.failed

/-- What the walk on from a file does: `visit` is asked to walk on from entered files only. -/
def Walks (q : Source) (visit : String → Walk → Walk) (count : Nat) : Prop :=
  ∀ n w, Inv q (w.enter n) → count ≤ w.store.files.length → Piece q w [n] (visit n w)

theorem Walks.mono {visit : String → Walk → Walk} {count more : Nat} (h : Walks q visit count)
    (hm : count ≤ more) : Walks q visit more :=
  fun n w hw hc => h n w hw (Nat.le_trans hm hc)

/-- Following one import of the current file. -/
theorem follow_piece {visit : String → Walk → Walk} {importer : String} (h : Inv q w)
    (hl : w.inProgress.getLast? = some importer) (hi : q.Imports importer n)
    (hv : Walks q visit (w.store.files.length + 1)) :
    Piece q w [n] (follow q.disk visit importer w n) := by
  have himp : importer ∈ w.store.names :=
    (h.stored importer).mpr (.inr (List.mem_of_getLast? hl))
  have hr : q.Reaches n := (h.reached importer himp).import hi
  rcases h.follow_cases visit importer with
    ⟨hp, he⟩ | ⟨hk, he⟩ | ⟨hn, -, e, -, hw, he⟩ | ⟨hn, -, f, -, hq, hnew, he⟩
  · have hc : Relation.TransGen q.Imports n n := .tail' (leads_last h.chain hl n hp) hi
    exact he ▸ Piece.noted h (.cycle hr hc) w.failed
  · rw [he]
    refine ⟨h, rfl, Nat.le_refl _, List.prefix_rfl, fun hnone => ?_⟩
    rcases hk with hd | hf
    · exact .done hd .nil
    · simp [h.failed hnone] at hf
  · exact he ▸ Piece.noted h (hw.wrong h hr hn) _
  · rw [he]
    have hname := Source.file?_name hq
    subst hname
    have hw := hv f.name { w with store := w.store.push f }
      (h.enter_push hl hi hr hq hn hnew) (by simp)
    exact
      { hw with
        stored := Nat.le_trans (by simp) hw.stored }

/-- Following all imports of the current file, or those that are left. -/
theorem fold_piece {visit : String → Walk → Walk} {importer : String} {names : List String}
    (h : Inv q w) (hl : w.inProgress.getLast? = some importer)
    (hi : ∀ n ∈ names, q.Imports importer n) (hv : Walks q visit (w.store.files.length + 1)) :
    Piece q w names (names.foldl (follow q.disk visit importer) w) := by
  induction names generalizing w with
  | nil => exact .refl h
  | cons n names ih =>
    have hn := follow_piece h hl (hi n (List.mem_cons_self ..)) hv
    exact hn.trans (ih hn.inv (hn.inProgress ▸ hl)
      (fun m hm => hi m (List.mem_cons_of_mem _ hm)) (hv.mono (Nat.succ_le_succ hn.stored)))

/-- The current file is left. -/
theorem Inv.leave {before : List String} (h : Inv q w) (hp : w.inProgress = before ++ [n]) :
    Inv q (w.leave n) := by
  have hdrop : (w.leave n).inProgress = before := by simp [Walk.leave, hp]
  refine { h with stored := ?_, nodup := ?_, chain := ?_, order := ?_ }
  · intro m
    rw [hdrop]
    have hm := h.stored m
    rw [hp] at hm
    simp only [Walk.leave, List.mem_append, List.mem_singleton] at hm ⊢
    tauto
  · rw [hdrop]
    refine (List.Perm.nodup_iff ?_).mp h.nodup
    rw [Walk.leave, hp, List.append_assoc]
    exact List.Perm.append_left _ List.perm_append_comm
  · rw [hdrop]
    have hc := h.chain
    rw [hp, List.isChain_append] at hc
    exact hc.1
  · simp [Walk.leave, h.order]

/-- A file is left when all its imports are done. -/
theorem Piece.leave (h : Inv q (w.enter n)) (hf : q.file? n = some f)
    (hp : Piece q (w.enter n) f.imports w') : Piece q w [n] (w'.leave n) := by
  have hin : w'.inProgress = w.inProgress ++ [n] := hp.inProgress
  have hdrop : (w'.leave n).inProgress = w.inProgress := by simp [Walk.leave, hin]
  have hnodup : (w'.visited ++ (w.inProgress ++ [n])).Nodup := hin ▸ hp.inv.nodup
  refine ⟨hp.inv.leave hin, hdrop, hp.stored, hp.errors, fun he => ?_⟩
  have hv : n ∉ w.visited := by
    have hd := h.nodup
    simp only [enter, ← List.append_assoc] at hd
    rw [List.nodup_append] at hd
    exact fun hv => hd.2.2 n (List.mem_append_left _ hv) n (by simp) rfl
  have hm : n ∉ w'.visited := by
    rw [← List.append_assoc, List.nodup_append] at hnodup
    exact fun hv => hnodup.2.2 n (List.mem_append_left _ hv) n (by simp) rfl
  exact .file hv hf (hp.ordered he) hm .nil

/-- The fuel lasts: with each file that the walk goes down, a file is stored that was not stored
before, and there are no more files than there are on the disk. -/
theorem visit_walks (fuel count : Nat) (hc : q.disk.nodes.length + 2 ≤ fuel + count) :
    Walks q (visit q.disk fuel) count := by
  induction fuel generalizing count with
  | zero =>
    intro n w h hw
    have hl : w.store.files.length ≤ q.disk.nodes.length := h.length_le
    omega
  | succ fuel ih =>
    intro n w h hw
    have hn : n ∈ w.store.names := (h.stored n).mpr (.inr (by simp [enter]))
    unfold visit
    cases hf : w.store.lookupName n with
    | none => exact absurd hn (h.sound.lookupName_eq_none.mp hf)
    | some f =>
      obtain ⟨-, hq, -⟩ := h.lookupName hf
      refine Piece.leave h hq (fold_piece h (by simp [enter]) ?_ ?_)
      · exact fun m hm => ⟨f, hq, hm⟩
      · refine ih _ ?_
        simp only [enter]
        omega

/-- What a walk from the root leads to. -/
structure Result (q : Source) (w : Walk) : Prop where
  wrong : ∀ e ∈ w.errors, q.Wrong e
  inv : w.errors = [] → Inv q w
  inProgress : w.errors = [] → w.inProgress = []
  ordered : w.errors = [] → q.PostOrder [] [q.rootName] w.order

/-- The walk from a root file that can be read starts with the root alone. -/
theorem Inv.start (hn : f.name = q.rootName) (hf : q.file? q.rootName = some f) :
    Inv q (({ store := q.store.push f } : Walk).enter q.rootName) where
  sound := (Store.Sound.empty q.importPath (some q.rootDir)).push (by simp)
  dirs := rfl
  meant g hg := by
    have hg : g = f := by simpa [enter, Source.store] using hg
    rw [hg, hn]
    exact hf
  root := by simp [enter, Store.names, Source.store, hn]
  reached m hm := by
    have hm : m = q.rootName := by simpa [enter, Store.names, Source.store, hn] using hm
    exact hm ▸ .root q
  stored m := by simp [enter, Store.names, Source.store, hn]
  nodup := by simp [enter]
  chain := by simp [enter]
  order := rfl
  wrong := by simp [enter]
  failed _ := rfl

theorem walk_result (q : Source) : Result q q.walk := by
  have hpath : q.path? q.rootName = some q.root := by simp [Source.path?]
  unfold Source.walk fromRoot
  cases hf : StoredFile.read q.disk q.rootName q.root with
  | error e =>
    refine ⟨?_, by simp [note], by simp [note], by simp [note]⟩
    intro e' he'
    have he' : e' = .unresolved e := by simpa [note] using he'
    exact he' ▸ .missing (.root q) (by simp [Source.file?, hpath, hf, Except.toOption])
  | ok f =>
    have hq : q.file? q.rootName = some f := Source.file?_eq_some.mpr ⟨_, hpath, hf⟩
    have hn := Source.file?_name hq
    have hs : q.store.register f = .ok (q.store.push f) :=
      (Store.Sound.empty q.importPath (some q.rootDir)).register_eq_ok.mpr
        ⟨by simp, rfl⟩
    simp only [hs]
    have hp := visit_walks (q := q) (q.disk.nodes.length + 1) 1 (by omega) q.rootName _
      (Inv.start hn hq) (by simp)
    exact ⟨hp.inv.wrong, fun _ => hp.inv, fun _ => hp.inProgress,
      fun he => hp.inv.order ▸ hp.ordered he⟩

end Walk
end RpcConsole

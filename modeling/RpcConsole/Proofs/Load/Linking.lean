import Mathlib.Data.List.Induction
import RpcConsole.Load.Basic
import RpcConsole.Proofs.Load.Imports
import RpcConsole.Proofs.Pool.Adding
import RpcConsole.Proofs.Proto.Grammar

namespace RpcConsole

namespace Source

/-- The pool of the files that some names stand for, added in the order of the names. -/
def linked (q : Source) (order : List String) : Except LinkError Pool :=
  (order.filterMap q.file?).foldlM (fun p f => p.add f.decl) {}

theorem linked_snoc {q : Source} {order : List String} {n : String} {f : StoredFile}
    (hf : q.file? n = some f) :
    q.linked (order ++ [n]) = (q.linked order).bind fun p => p.add f.decl := by
  simp only [linked, List.filterMap_append, List.filterMap_cons, hf, List.filterMap_nil,
    List.foldlM_append, List.foldlM_cons, List.foldlM_nil, bind_pure]
  rfl

end Source

namespace Linking

variable {q : Source} {store : Store} {order : List String}

/-- How the link loop stands after some files: either nothing was wrong so far, or the files cannot
all be added. -/
inductive After (q : Source) (order : List String) (l : Linking) : Prop where
  | clean (he : l.errors = []) (hu : l.unlinked = []) (hp : q.linked order = .ok l.pool)
  | failed (he : l.errors ≠ []) (hl : ∀ e ∈ l.errors, ∃ n c, e = .link n (.rejected c))
      {c : LinkError}
      (hp : q.linked order = .error c)

/-- One more file. -/
theorem step_after {l : Linking} {n : String} {f : StoredFile} (h : After q order l)
    (hs : store.lookupName n = some f) (hf : q.file? n = some f) :
    After q (order ++ [n]) (step store l n) := by
  unfold step
  simp only [hs]
  cases h with
  | clean he hu hp =>
    rw [if_neg (by simp [hu])]
    cases ha : l.pool.add f.decl with
    | ok p =>
      refine .clean he hu ?_
      rw [Source.linked_snoc hf, hp]
      exact ha
    | error c =>
      refine .failed (by simp) (by simp [he]) (c := c) ?_
      rw [Source.linked_snoc hf, hp]
      exact ha
  | @failed he hl c hp =>
    have hp' : q.linked (order ++ [n]) = .error c := by
      rw [Source.linked_snoc hf, hp]
      rfl
    split
    · exact .failed he hl hp'
    · split
      · exact .failed he hl hp'
      · refine .failed (by simp) (fun e he => ?_) hp'
        rcases List.mem_append.mp he with he | he
        · exact hl e he
        · exact ⟨_, _, List.mem_singleton.mp he⟩

/-- The whole loop over files that are stored. -/
theorem run_after (h : ∀ n ∈ order, ∃ f, store.lookupName n = some f ∧ q.file? n = some f) :
    After q order (run store order) := by
  induction order using List.reverseRecOn with
  | nil => exact .clean rfl rfl rfl
  | append_singleton order n ih =>
    obtain ⟨f, hs, hf⟩ := h n (by simp)
    rw [run, List.foldl_append]
    exact step_after (ih fun m hm => h m (by simp [hm])) hs hf

end Linking

/-- A pool to which some files were added. -/
structure PoolOf (decls : List FileDecl) (p : Pool) : Prop where
  names : p.files.map FileDecl.name = decls.map FileDecl.name
  imports : p.files.map FileDecl.imports = decls.map FileDecl.imports
  messages : ∀ s ∈ p.symbols, ∀ r, s.kind = .message r → ∃ d ∈ decls, s.name ∈ d.messageNames
  methods : ∀ g ∈ p.files, ∀ s ∈ g.services, ∀ m ∈ s.methods,
    (∃ d ∈ decls, Name.undotted m.input ∈ d.messageNames) ∧
      ∃ d ∈ decls, Name.undotted m.output ∈ d.messageNames
  declared : ∀ g ∈ p.files, ∃ d ∈ decls, d.name = g.name ∧ d.package = g.package ∧
    List.Forall₂ Pool.SameNames d.services g.services

namespace PoolOf

variable {decls : List FileDecl} {p p' : Pool} {f : FileDecl}

theorem empty : PoolOf [] {} := by
  constructor <;> simp

theorem add (h : PoolOf decls p) (ha : p.add f = .ok p') : PoolOf (decls ++ [f]) p' := by
  obtain ⟨g, hfiles, -, hsym, hg⟩ := Pool.add_eq_ok ha
  have hmessages : ∀ s ∈ p'.symbols, ∀ r, s.kind = .message r →
      ∃ d ∈ decls ++ [f], s.name ∈ d.messageNames := by
    intro s hs r hk
    rcases Pool.declare_message hsym hs hk with hs | hs
    · obtain ⟨d, hd, hn⟩ := h.messages s hs r hk
      exact ⟨d, by simp [hd], hn⟩
    · exact ⟨f, by simp, hs⟩
  have hdeclared {name : String}
      (hk : Pool.Scope.KindDeclared ⟨p'.symbols, p.visible f⟩ (.message name)) :
      ∃ d ∈ decls ++ [f], name ∈ d.messageNames := by
    cases hk with
    | message hs hk => exact hmessages _ hs _ hk
  refine ⟨by simp [hfiles, h.names, hg.name], by simp [hfiles, h.imports, hg.imports],
    hmessages, fun x hx s hs m hm => ?_, fun x hx => ?_⟩ <;> rw [hfiles] at hx <;>
    rcases List.mem_append.mp hx with hx | hx
  · obtain ⟨⟨d, hd, hi⟩, ⟨e, he, ho⟩⟩ := h.methods x hx s hs m hm
    exact ⟨⟨d, by simp [hd], hi⟩, ⟨e, by simp [he], ho⟩⟩
  · rw [List.mem_singleton] at hx
    subst hx
    have hl := hg.methods s hs m hm
    exact ⟨hdeclared hl.input, hdeclared hl.output⟩
  · obtain ⟨d, hd, he⟩ := h.declared x hx
    exact ⟨d, by simp [hd], he⟩
  · rw [List.mem_singleton.mp hx]
    exact ⟨f, by simp, hg.name.symm, hg.package.symm, hg.services⟩

end PoolOf

theorem Source.linked_poolOf {q : Source} {order : List String} {p : Pool}
    (h : q.linked order = .ok p) (hf : ∀ n ∈ order, ∃ f, q.file? n = some f) :
    PoolOf ((order.filterMap q.file?).map StoredFile.decl) p := by
  induction order using List.reverseRecOn generalizing p with
  | nil =>
    cases h
    exact .empty
  | append_singleton order n ih =>
    obtain ⟨f, hn⟩ := hf n (by simp)
    rw [Source.linked_snoc hn] at h
    cases hp : q.linked order with
    | error e =>
      rw [hp] at h
      cases h
    | ok p₀ =>
      rw [hp] at h
      simpa [hn] using (ih hp fun m hm => hf m (by simp [hm])).add h

end RpcConsole

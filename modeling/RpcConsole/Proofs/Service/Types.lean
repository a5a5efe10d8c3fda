import RpcConsole.Proofs.Load.Types
import RpcConsole.Service.Tree

namespace RpcConsole

/-- The messages that the methods of a pool take and give are among its types. -/
def Pool.Typed (p : Pool) : Prop :=
  ∀ f ∈ p.files, ∀ s ∈ f.services, ∀ m ∈ s.methods,
    (p.types.message? (Name.undotted m.input)).isSome ∧
      (p.types.message? (Name.undotted m.output)).isSome

namespace Pool

variable {p p' : Pool} {f : FileDecl}

/-- Adding a file keeps them there. -/
theorem Typed.add (h : p.Typed) (hs : p.Sound) (hf : f.Plain) (ha : p.add f = .ok p') :
    p'.Typed := by
  have hknown := (hs.add hf ha).known
  obtain ⟨g, hfiles, htypes, -, hg⟩ := add_eq_ok ha
  have hdeclared {name : String}
      (hk : Scope.KindDeclared ⟨p'.symbols, p.visible f⟩ (.message name)) :
      (p'.types.message? name).isSome := by
    cases hk with
    | message hs hk => exact hknown _ hs _ hk
  intro x hx s hs m hm
  rw [hfiles] at hx
  rcases List.mem_append.mp hx with hx | hx
  · rw [htypes]
    exact (h x hx s hs m hm).imp TypeTable.message?_append TypeTable.message?_append
  · obtain rfl := List.mem_singleton.mp hx
    have hl := hg.methods s hs m hm
    exact ⟨hdeclared hl.input, hdeclared hl.output⟩

end Pool

/-- The messages that the methods of a loaded schema take and give are among its types. -/
theorem Schema.load_methods {d : Disk} {root : String} {importPath : ImportPath} {s : Schema}
    (h : load d root importPath = .ok s) {service : Service}
    (hservice : service ∈ s.serviceTree.services) {m : Method} (hm : m ∈ service.methods) :
    (∃ type, s.types.message? m.input = some type) ∧
      ∃ type, s.types.message? m.output = some type := by
  have hp := load_keeps (P := fun p => p.Sound ∧ p.Typed) ⟨.empty, by simp [Pool.Typed]⟩
    (fun p p' f hf hp ha => ⟨hp.1.add hf ha, hp.2.add hp.1 hf ha⟩) h
  obtain ⟨q, -, hs⟩ := load_complete h
  obtain ⟨decl, hdecl, rfl⟩ := List.mem_map.mp hservice
  obtain ⟨method, hmethod, rfl⟩ := List.mem_map.mp hm
  have hroot := List.mem_of_find?_eq_some hs.root
  obtain ⟨hin, hout⟩ := hp.2 _ hroot decl hdecl method hmethod
  exact ⟨Option.isSome_iff_exists.mp hin, Option.isSome_iff_exists.mp hout⟩

end RpcConsole

import RpcConsole.Proofs.Pool.Unique

namespace RpcConsole

/-- The services of a file, and the methods of each of them, are told apart by their names, which
are identifiers. -/
structure FileDecl.Addressed (g : FileDecl) : Prop where
  plain : ∀ s ∈ g.services, s.Plain
  services : (g.services.map ServiceDecl.name).Nodup
  methods : ∀ s ∈ g.services, (s.methods.map MethodDecl.name).Nodup

namespace Pool

namespace Naming

variable {kind : SymbolKind}

/-- Inside messages there are no services. -/
theorem owns_nothing (hk : kind = .service ∨ kind = .method) : Owns kind fun _ => [] := by
  intro file dialect scope m
  rw [declared_message]
  rcases hk with rfl | rfl <;>
    simp [declared_enum, flatMap_none]

theorem none_of_messages (hk : kind = .service ∨ kind = .method) (f : FileDecl) :
    namesOf kind (declared (messagesSteps f.name f.dialect f.packageName f.messages)) = [] := by
  have h := (owns_nothing hk).messages f.name f.dialect f.packageName f.messages
  rw [flatMap_none] at h
  exact h.eq_nil

/-- The services of a file. -/
theorem services_of_file (f : FileDecl) :
    namesOf .service (declared (fileSteps f)) =
      f.services.map fun s => Name.join f.packageName s.name := by
  rw [declared_file]
  simp only [namesOf_append, namesOf_flatMap, namesOf_map, none_of_messages (.inl rfl)]
  simp [declared_enum, declared_service, flatMap_none, List.map_eq_flatMap]

/-- The methods of a file. -/
theorem methods_of_file (f : FileDecl) :
    namesOf .method (declared (fileSteps f)) = f.services.flatMap fun s =>
      s.methods.map fun m => Name.join (Name.join f.packageName s.name) m.name := by
  rw [declared_file]
  simp only [namesOf_append, namesOf_flatMap, namesOf_map, none_of_messages (.inr rfl)]
  simp [declared_enum, declared_service, flatMap_none]

end Naming

open Naming

variable {sc : Scope} {p p' : Pool} {f g : FileDecl}

/-- A linked file has the services that it was read with, under their names. -/
theorem LinkedFile.addressed (h : LinkedFile sc f g) (hf : f.Plain)
    (hs : (namesOf .service (declared (fileSteps f))).Nodup)
    (hm : (namesOf .method (declared (fileSteps f))).Nodup) : g.Addressed := by
  rw [services_of_file] at hs
  rw [methods_of_file] at hm
  constructor
  case plain =>
    intro u hu
    obtain ⟨s, hsm, hn, hms⟩ := mem_of_forall₂ h.services hu
    refine ⟨hn ▸ (hf.services s hsm).name, fun n hn' => ?_⟩
    have hmem : n.name ∈ s.methods.map MethodDecl.name := hms ▸ List.mem_map_of_mem hn'
    obtain ⟨m, hm', he⟩ := List.mem_map.mp hmem
    exact he ▸ (hf.services s hsm).methods m hm'
  case services =>
    rw [map_eq_of_forall₂ (fun s u (h : SameNames s u) => h.1) h.services]
    rw [← Function.comp_def (Name.join f.packageName), ← List.map_map] at hs
    exact hs.of_map
  case methods =>
    intro u hu
    obtain ⟨s, hsm, -, hms⟩ := mem_of_forall₂ h.services hu
    have hnames := (List.nodup_flatMap.mp hm).1 s hsm
    rw [← Function.comp_def (Name.join (Name.join f.packageName s.name)), ← List.map_map] at hnames
    exact hms ▸ hnames.of_map

/-- Adding a file keeps the services of the others and tells its own apart. -/
theorem Named.addressed_add (h : p.Named) (hp : ∀ g ∈ p.files, g.Addressed) (hf : f.Plain)
    (ha : p.add f = .ok p') : ∀ g ∈ p'.files, g.Addressed := by
  obtain ⟨g, hfiles, -, hd, hg⟩ := add_eq_ok ha
  have hnames := (enterAll_eq_ok hd).2 h.names
  have hnew {kind : SymbolKind} (hk : kind ≠ .package) :
      (namesOf kind (declared (fileSteps f))).Nodup := by
    have hn := namesOf_nodup kind hnames
    rw [namesOf_enterAll hk hd] at hn
    exact List.nodup_reverse.mp (List.nodup_append.mp hn).1
  intro g' hg'
  rw [hfiles] at hg'
  rcases List.mem_append.mp hg' with hg' | hg'
  · exact hp g' hg'
  · rw [List.mem_singleton.mp hg']
    exact hg.addressed hf (hnew (by simp)) (hnew (by simp))

end Pool
end RpcConsole

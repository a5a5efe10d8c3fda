import RpcConsole.Proofs.Load.Verdict
import RpcConsole.Proofs.Pool.Unique

namespace RpcConsole

/-- A disk with one file at its root. -/
def Disk.ofFile (name source : String) : Disk :=
  ⟨[([name], .file (Utf8.encode source.toList))], []⟩

theorem Source.file?_plain {q : Source} {n : String} {f : StoredFile} (h : q.file? n = some f) :
    f.decl.Plain := by
  obtain ⟨path, -, hr⟩ := file?_eq_some.mp h
  obtain ⟨-, source, -, hp, -⟩ := read_eq_ok hr
  exact (Proto.parse_reads hp).plain

/-- What files that are added keep holds of the pool of all files. -/
theorem Source.linked_keeps {P : Pool → Prop} (hempty : P {})
    (hadd : ∀ p p' f, f.Plain → P p → Pool.add p f = .ok p' → P p') {q : Source}
    {order : List String} {p : Pool} (h : q.linked order = .ok p)
    (hf : ∀ n ∈ order, ∃ f, q.file? n = some f) : P p := by
  induction order using List.reverseRecOn generalizing p with
  | nil =>
    cases h
    exact hempty
  | append_singleton order n ih =>
    obtain ⟨f, hn⟩ := hf n (by simp)
    rw [linked_snoc hn] at h
    cases hp : q.linked order with
    | error e =>
      rw [hp] at h
      cases h
    | ok p₀ =>
      rw [hp] at h
      exact hadd p₀ p f.decl (file?_plain hn) (ih hp fun m hm => hf m (by simp [hm])) h

theorem Schema.load_keeps {P : Pool → Prop} (hempty : P {})
    (hadd : ∀ p p' f, f.Plain → P p → Pool.add p f = .ok p' → P p') {d : Disk} {root : String}
    {importPath : ImportPath} {s : Schema} (h : load d root importPath = .ok s) : P s.pool := by
  obtain ⟨q, -, hs⟩ := load_complete h
  have hfile : ∀ n ∈ s.pool.files.map FileDecl.name, ∃ f, q.file? n = some f := by
    intro n hn
    obtain ⟨f, hf, hfn⟩ := List.mem_map.mp (hs.linked.mem_iff.mp hn)
    exact ⟨f, hfn ▸ hs.meant f hf⟩
  exact Source.linked_keeps hempty hadd hs.pool hfile

/-- The types of a schema that was loaded are sound. -/
theorem Schema.load_sound {d : Disk} {root : String} {importPath : ImportPath} {s : Schema}
    (h : load d root importPath = .ok s) : s.types.Sound :=
  (load_keeps Pool.Sound.empty (fun _ _ _ hf hp ha => hp.add hf ha) h).types

theorem Schema.load_named {d : Disk} {root : String} {importPath : ImportPath} {s : Schema}
    (h : load d root importPath = .ok s) : s.types.Named :=
  (load_keeps Pool.Named.empty (fun _ _ _ _ hp ha => hp.add ha) h).types

end RpcConsole

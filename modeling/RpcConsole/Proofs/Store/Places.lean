import RpcConsole.Proofs.Basic
import RpcConsole.Proofs.Disk.Paths
import RpcConsole.Proofs.Store.Resolving

namespace RpcConsole.Store

/-- A file was read from a disk of some kind. -/
def Given (P : Disk → Prop) (f : StoredFile) : Prop :=
  ∃ d name path, P d ∧ StoredFile.read d name path = .ok f

/-- A history on disks of some kind: what it registers was read from such disks as well. -/
def ReadFrom (P : Disk → Prop) (history : List (Disk × Operation)) : Prop :=
  ∀ a ∈ history, P a.1 ∧ ∀ f, a.2 = .register f → Given P f

variable {s : Store} {d : Disk} {path : String} {place : Place} {f : StoredFile}
  {P : Disk → Prop}

theorem Sound.perform_given {op : Operation} (hs : s.Sound) (hd : P d)
    (hop : ∀ f, op = .register f → Given P f) (h : ∀ f ∈ s.files, Given P f) :
    ∀ f ∈ (s.perform d op).2.files, Given P f := by
  cases op with
  | register f =>
    simp only [Store.perform]
    cases hr : s.register f with
    | error c => exact h
    | ok t =>
      obtain ⟨-, rfl⟩ := hs.register_eq_ok.mp hr
      exact List.forall_mem_append.mpr ⟨h, by simpa using hop f rfl⟩
  | resolve importer wanted =>
    simp only [Store.perform]
    cases hr : s.resolveImport d importer wanted with
    | error e => exact h
    | ok p =>
      cases hs.resolveImport_iff.mp hr with
      | stored => exact h
      | added hn hf ht hp hnew =>
        obtain ⟨path, -, hat⟩ := hf.find?
        refine List.forall_mem_append.mpr ⟨h, ?_⟩
        simpa using ⟨d, wanted, path, hd, StoredFile.read_of_ok hat ht hp⟩
  | lookup path => exact h
  | lookupName name => exact h

/-- All files that a history stores were read from disks like its own. -/
theorem Sound.after_given {history : List (Disk × Operation)} (hs : s.Sound)
    (hh : ReadFrom P history) (h : ∀ f ∈ s.files, Given P f) :
    ∀ f ∈ (s.after history).files, Given P f := by
  induction history generalizing s with
  | nil => exact h
  | cons a history ih =>
    obtain ⟨⟨hd, hop⟩, hrest⟩ := List.forall_mem_cons.mp hh
    exact ih (hs.perform a.1 a.2) hrest (hs.perform_given hd hop h)

/-- A file that was read from a disk stands there, below directories. -/
theorem Given.standing (h : Given (fun d => d = d') f) (hd : d'.Rooted) :
    d'.Standing f.place ∧ f.place ≠ [] := by
  obtain ⟨d, name, path, rfl, hr⟩ := h
  obtain ⟨-, file, -, hat, -⟩ := StoredFile.fileAt_of_read hr
  refine ⟨hd.resolve_standing hat.resolves, fun hnil => ?_⟩
  have hholds := hat.holds
  have hfile := hat.isFile
  rw [hnil] at hholds
  cases hholds
  cases hfile

theorem Given.names (h : Given Disk.Rooted f) : ∀ name ∈ f.place, Path.IsName name := by
  obtain ⟨d, name, path, hd, hr⟩ := h
  exact (Given.standing ⟨d, name, path, rfl, hr⟩ hd).1.names

/-- A path that writes down the place of a stored file finds it without a look at the disk. -/
theorem Sound.lookup_written (h : s.Sound) (hf : f ∈ s.files) (ha : Path.isAbsolute path = true)
    (hp : f.place = Path.names path) : s.lookup d path = some f := by
  obtain ⟨i, hi, hfile⟩ := Option.bind_eq_some_iff.mp (h.byPlace_iff.mpr ⟨hf, hp⟩)
  simp only [lookup, lookupWritten, if_pos ha, hi, hfile]

/-- Any other path is resolved first. -/
theorem Sound.lookup_resolved (h : s.Sound)
    (hno : ∀ f ∈ s.files, ¬ (Path.isAbsolute path = true ∧ f.place = Path.names path)) :
    s.lookup d path = (d.resolve path).toOption.bind fun place =>
      (s.byPlace.lookup place).bind fun i => s.files[i]? := by
  have hnone : s.lookupWritten path = none := by
    unfold lookupWritten
    split
    · rename_i ha
      rw [Option.eq_none_iff_forall_ne_some]
      intro i hi
      obtain ⟨f, hf, hp⟩ := Option.map_eq_some_iff.mp ((h.byPlace _ i).mp hi)
      exact hno f (List.mem_of_getElem? hf) ⟨ha, hp⟩
    · rfl
  simp only [lookup, hnone]
  cases d.resolve path <;> rfl

/-- A path that leads to a place finds the stored file there. -/
theorem Sound.lookup_of_resolve (h : s.Sound)
    (hn : ∀ f ∈ s.files, ∀ name ∈ f.place, Path.IsName name)
    (hl : ∀ f ∈ s.files, d.Unlinked f.place) (hr : d.resolve path = .ok place) :
    s.lookup d path = some f ↔ f ∈ s.files ∧ f.place = place := by
  by_cases hw : ∃ g ∈ s.files, Path.isAbsolute path = true ∧ g.place = Path.names path
  · obtain ⟨g, hg, ha, hp⟩ := hw
    -- What is written down has no double dots and no links, so the path leads where it says.
    have hplace : place = g.place := by
      rw [hp]
      refine Disk.resolve_written ha (fun hm => ?_) (hp ▸ hl g hg) hr
      exact (hn g hg ".." (hp ▸ hm)).dots rfl
    rw [h.lookup_written hg ha hp, Option.some.injEq, hplace]
    constructor
    · rintro rfl
      exact ⟨hg, rfl⟩
    · rintro ⟨hf, he⟩
      exact h.eq_of_place hg hf he.symm
  · rw [h.lookup_resolved fun g hg hc => hw ⟨g, hg, hc⟩, hr]
    exact h.byPlace_iff

/-- A path that leads nowhere finds only a file whose place it writes down. -/
theorem Sound.lookup_of_error {e : Disk.Failure} (h : s.Sound) (hr : d.resolve path = .error e) :
    s.lookup d path = some f ↔
      f ∈ s.files ∧ Path.isAbsolute path = true ∧ f.place = Path.names path := by
  constructor
  · intro hf
    by_cases hw : ∃ g ∈ s.files, Path.isAbsolute path = true ∧ g.place = Path.names path
    · obtain ⟨g, hg, ha, hp⟩ := hw
      rw [h.lookup_written hg ha hp] at hf
      cases hf
      exact ⟨hg, ha, hp⟩
    · rw [h.lookup_resolved fun g hg hc => hw ⟨g, hg, hc⟩, hr] at hf
      cases hf
  · rintro ⟨hf, ha, hp⟩
    exact h.lookup_written hf ha hp

/-- Behind each history of a store that was empty, on disks whose starting directories are there. On
a disk where no link stands on the way to a stored file, a path that leads to a place finds exactly
the stored file there, so that two paths to one place find the same; that is so if the files still
stand where they were read, and if things are removed then. A path that leads nowhere finds exactly
the file whose place it writes down; if the files still stand where they were read, then only a path
that goes on behind the name of a file, or is too long, does so. The absolute path of the place of a
stored file finds it on any disk. -/
theorem lookup_places (importPath : ImportPath) (fallback : Option String)
    (past : List (Disk × Operation)) (hpast : ReadFrom Disk.Rooted past) :
    let s := after { importPath, fallback } past
    (∀ d, (∀ f ∈ s.files, d.Unlinked f.place) →
      (∀ path place, d.resolve path = .ok place →
        ∀ f, s.lookup d path = some f ↔ f ∈ s.files ∧ f.place = place) ∧
      ∀ path path' place, d.resolve path = .ok place → d.resolve path' = .ok place →
        s.lookup d path = s.lookup d path') ∧
    (∀ d path e, d.resolve path = .error e →
      ∀ f, s.lookup d path = some f ↔
        f ∈ s.files ∧ Path.isAbsolute path = true ∧ f.place = Path.names path) ∧
    (∀ d, ReadFrom (· = d) past → ∀ f ∈ s.files, Given (· = d) f) ∧
    (∀ d, d.Rooted → (∀ f ∈ s.files, Given (· = d) f) →
      (∀ d', d.Remains d' → ∀ f ∈ s.files, d'.Unlinked f.place) ∧
      (∀ f ∈ s.files, (Disk.pathOf f.place).utf8ByteSize < Disk.pathLimit →
        d.resolve (Disk.pathOf f.place) = .ok f.place) ∧
      ∀ path e, d.resolve path = .error e →
        ¬ (Path.isAbsolute path = true ∧
          (Path.GoesOn path ∨ Disk.pathLimit ≤ path.utf8ByteSize)) → s.lookup d path = none) ∧
    ∀ f ∈ s.files, ∀ d, s.lookup d (Disk.pathOf f.place) = some f := by
  intro s
  have h : s.Sound := (Sound.empty importPath fallback).after past
  have hgiven {P : Disk → Prop} (hp : ReadFrom P past) : ∀ f ∈ s.files, Given P f :=
    (Sound.empty importPath fallback).after_given hp (by simp)
  have hn : ∀ f ∈ s.files, ∀ name ∈ f.place, Path.IsName name := fun f hf =>
    (hgiven hpast f hf).names
  refine ⟨?_, ?_, ?_, ?_, ?_⟩
  · intro d hl
    constructor
    · intro path place hr f
      exact h.lookup_of_resolve hn hl hr
    · intro path path' place hr hr'
      ext f
      rw [h.lookup_of_resolve hn hl hr, h.lookup_of_resolve hn hl hr']
  · intro d path e hr f
    exact h.lookup_of_error hr
  · intro d hp
    exact hgiven hp
  · intro d hd hstand
    refine ⟨?_, ?_, ?_⟩
    · intro d' hd' f hf
      exact ((hstand f hf).standing hd).1.unlinked.remains hd'
    · intro f hf hlen
      obtain ⟨hs, hne⟩ := (hstand f hf).standing hd
      exact hs.resolve_pathOf hne hlen
    · intro path e hr hplain
      rw [Option.eq_none_iff_forall_ne_some]
      intro f hf
      obtain ⟨hf, ha, hp⟩ := (h.lookup_of_error hr).mp hf
      have hs : d.Standing (Path.names path) := hp ▸ ((hstand f hf).standing hd).1
      have hok := hs.resolve ha (fun hg => hplain ⟨ha, .inl hg⟩)
        (Nat.not_le.mp fun hl => hplain ⟨ha, .inr hl⟩)
      rw [hok] at hr
      cases hr
  · intro f hf d
    exact h.lookup_written hf (Path.isAbsolute_pathOf _) (Path.names_pathOf (hn f hf)).symm

theorem shelf_rooted : shelf.Rooted where
  names name hm := by
    rw [List.mem_singleton.mp hm]
    constructor <;> decide +kernel
  directories p hp := by
    have hp : p <+: [] ++ ["w"] := hp
    rcases List.prefix_concat_iff.mp hp with rfl | hp
    · decide
    · rw [List.prefix_nil.mp hp]
      decide

theorem shelved_read {P : Disk → Prop} (h : P shelf) : ReadFrom P shelved := by
  intro a ha
  rw [List.mem_singleton.mp ha]
  exact ⟨h, fun f hf => by cases hf⟩

theorem shelved_places :
    (after { importPath := ["p"] } shelved).files.map StoredFile.place = [["w", "p", "a"]] := by
  decide +kernel

theorem lookup_places_shelved :
    ReadFrom Disk.Rooted shelved ∧
    ∃ f ∈ (after { importPath := ["p"] } shelved).files,
      (after { importPath := ["p"] } shelved).lookup shelf "p/../p//a" = some f ∧
      (after { importPath := ["p"] } shelved).lookup shelf "/w/./l/a" = some f ∧
      (after { importPath := ["p"] } shelved).lookup shelf "p/b" = none ∧
      (after { importPath := ["p"] } shelved).lookup {} (Disk.pathOf f.place) = some f ∧
      (after { importPath := ["p"] } shelved).lookup {} "p/a" = none := by
  have hread : ReadFrom Disk.Rooted shelved := shelved_read shelf_rooted
  obtain ⟨hplace, herror, hstand, hstill, hpath⟩ := lookup_places ["p"] none shelved hread
  obtain ⟨f, hf, hp⟩ := List.mem_map.mp (shelved_places.symm ▸ List.mem_singleton_self _)
  obtain ⟨hlinks, -, hnone⟩ := hstill shelf shelf_rooted (hstand shelf (shelved_read rfl))
  have hfound := (hplace shelf (hlinks shelf fun _ _ hn => hn)).1
  have hlinked : shelf.resolve "/w/./l/a" = .ok ["w", "p", "a"] := ok_of_mem (by decide +kernel)
  refine ⟨hread, f, hf, ?_, ?_, ?_, hpath f hf {}, ?_⟩
  · exact (hfound _ ["w", "p", "a"] rfl f).mpr ⟨hf, hp⟩
  · exact (hfound _ _ hlinked f).mpr ⟨hf, hp⟩
  · exact hnone _ .notFound rfl fun h => absurd h.1 (by decide +kernel)
  · rw [Option.eq_none_iff_forall_ne_some]
    intro g hg
    have hg := (herror {} _ .notFound rfl g).mp hg
    exact absurd hg.2.1 (by decide +kernel)

/-- A path that goes on behind the name of a stored file leads nowhere, and finds the file if it
starts at the root, although the disk is still as it was. Written from the starting directory it
finds nothing. -/
theorem lookup_behind_name :
    shelf.Rooted ∧ ReadFrom (· = shelf) shelved ∧
      shelf.resolve "/w/p/a/" = .error .notDirectory ∧
      ((after { importPath := ["p"] } shelved).lookup shelf "/w/p/a/").isSome ∧
      shelf.resolve "p/a/" = .error .notDirectory ∧
      (after { importPath := ["p"] } shelved).lookup shelf "p/a/" = none := by
  refine ⟨shelf_rooted, shelved_read rfl, rfl, ?_, rfl, rfl⟩
  decide +kernel

end RpcConsole.Store

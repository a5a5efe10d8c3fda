import Mathlib.Data.List.Nodup
import Mathlib.Logic.Relation
import RpcConsole.Proofs.Disk.Files
import RpcConsole.Proofs.Store.Files

namespace RpcConsole

/-- A load: a disk, a root file, and where its imports are looked for. -/
structure Source where
  disk : Disk
  root : String
  rootName : String
  rootDir : String
  importPath : ImportPath

namespace Source

/-- The load of the file at a path, if the path has a parent and a file name. -/
def of? (d : Disk) (root : String) (importPath : ImportPath) : Option Source :=
  match Path.parent? root, Path.fileName? root with
  | some rootDir, some rootName => some ⟨d, root, rootName, rootDir, importPath⟩
  | _, _ => none

/-- The directories in which imports are looked for, in this order. -/
def dirs (q : Source) : List String :=
  q.importPath ++ [q.rootDir]

/-- The path of the file that a name stands for. -/
def path? (q : Source) (name : String) : Option String :=
  if name == q.rootName then some q.root
  else (q.dirs.map (fun dir => Path.join dir name)).find? q.disk.isFile

/-- The file that a name stands for, if it is there and can be read and parsed. -/
def file? (q : Source) (name : String) : Option StoredFile :=
  (q.path? name).bind fun path => (StoredFile.read q.disk name path).toOption

/-- The file of one name imports another name. -/
def Imports (q : Source) (a b : String) : Prop :=
  ∃ f, q.file? a = some f ∧ b ∈ f.imports

/-- The names that the root leads to. -/
def Reaches (q : Source) (name : String) : Prop :=
  Relation.ReflTransGen q.Imports q.rootName name

variable {q : Source} {a b n : String} {f g : StoredFile}

theorem Reaches.root (q : Source) : q.Reaches q.rootName :=
  Relation.ReflTransGen.refl

theorem Reaches.import (h : q.Reaches a) (hi : q.Imports a b) : q.Reaches b :=
  Relation.ReflTransGen.tail h hi

/-- A file that was read has the name that it was read for, and a file stands at its place. -/
theorem read_eq_ok {d : Disk} {name path : String} (h : StoredFile.read d name path = .ok f) :
    f.name = name ∧ ∃ source file, Proto.parse name source = .ok f.decl ∧
      d.node? f.place = some file ∧ file.isFile = true := by
  obtain ⟨hn, file, text, hat, -, hp⟩ := StoredFile.fileAt_of_read h
  exact ⟨hn, text, file, hp, hat.holds, hat.isFile⟩

theorem file?_eq_some :
    q.file? n = some f ↔ ∃ path, q.path? n = some path ∧ StoredFile.read q.disk n path = .ok f := by
  unfold file?
  rw [Option.bind_eq_some_iff]
  refine exists_congr fun path => and_congr_right fun _ => ?_
  cases StoredFile.read q.disk n path <;> simp [Except.toOption]

theorem file?_name (h : q.file? n = some f) : f.name = n := by
  obtain ⟨path, -, hr⟩ := file?_eq_some.mp h
  exact (read_eq_ok hr).1

theorem file?_place_mem (h : q.file? n = some f) : f.place ∈ q.disk.nodes.map Prod.fst := by
  obtain ⟨path, -, hr⟩ := file?_eq_some.mp h
  obtain ⟨-, -, file, -, hn, hfile⟩ := read_eq_ok hr
  unfold Disk.node? at hn
  split at hn
  · cases hn
    cases hfile
  · obtain ⟨before, after, he, -⟩ := List.lookup_eq_some_iff.mp hn
    rw [he, List.map_append]
    exact List.mem_append_right _ (List.mem_cons_self ..)

end Source

namespace Source

/-- Each name comes once, and after all that its file imports. -/
inductive Layered (q : Source) : List String → Prop where
  | nil : Layered q []
  | snoc {n : String} {f : StoredFile} {l : List String} (hl : Layered q l) (hn : n ∉ l)
      (hf : q.file? n = some f)
      (hi : ∀ b ∈ f.imports, b ∈ l) : Layered q (l ++ [n])

/-- The order in which files are done when each file is done after its imports, which are done in
the order in which they are written, and nothing is done twice. From the names that are done
already, some names lead to the names that are done in the end. A file that gets done while its
imports are done has no place in such an order. -/
inductive PostOrder (q : Source) : List String → List String → List String → Prop where
  | nil {l : List String} : PostOrder q l [] l
  | done {n : String} {l ns l' : List String} (hn : n ∈ l) (h : PostOrder q l ns l') :
      PostOrder q l (n :: ns) l'
  | file {n : String} {f : StoredFile} {l ns m l' : List String} (hn : n ∉ l)
      (hf : q.file? n = some f)
      (hi : PostOrder q l f.imports m) (hm : n ∉ m) (h : PostOrder q (m ++ [n]) ns l') :
      PostOrder q l (n :: ns) l'

namespace PostOrder

variable {q : Source} {a : String} {l l' l'' ns ms : List String}

theorem append (h : PostOrder q l ns l') (h' : PostOrder q l' ms l'') :
    PostOrder q l (ns ++ ms) l'' := by
  induction h with
  | nil => exact h'
  | done hn _ ih => exact .done hn (ih h')
  | file hn hf hi hm _ _ ih => exact .file hn hf hi hm (ih h')

/-- What is done stays in front. -/
theorem front (h : PostOrder q l ns l') : l <+: l' := by
  induction h with
  | nil => exact List.prefix_rfl
  | done _ _ ih => exact ih
  | file _ _ _ _ _ ihi ih => exact ihi.trans ((List.prefix_append _ _).trans ih)

theorem mem (h : PostOrder q l ns l') (ha : a ∈ ns) : a ∈ l' := by
  induction h with
  | nil => simp at ha
  | @done n _ _ _ hn h ih =>
    rcases List.mem_cons.mp ha with rfl | ha
    · exact h.front.subset hn
    · exact ih ha
  | @file n _ _ _ m _ hn hf hi _ h _ ih =>
    rcases List.mem_cons.mp ha with rfl | ha
    · exact h.front.subset (by simp)
    · exact ih ha

/-- There is one such order only. -/
theorem unique (h : PostOrder q l ns l') (h' : PostOrder q l ns l'') : l' = l'' := by
  induction h generalizing l'' with
  | nil => cases h'; rfl
  | done hn _ ih =>
    cases h' with
    | done _ h' => exact ih h'
    | file hn' => exact absurd hn hn'
  | file hn hf _ _ _ ihi ih =>
    cases h' with
    | done hn' => exact absurd hn' hn
    | file _ hf' hi' _ h' =>
      have he := Option.some.inj (hf.symm.trans hf')
      subst he
      have hm := ihi hi'
      subst hm
      exact ih h'

theorem layered (h : PostOrder q l ns l') (hl : Layered q l) : Layered q l' := by
  induction h with
  | nil => exact hl
  | done _ _ ih => exact ih hl
  | file _ hf hi hm _ ihi ih => exact ih (.snoc (ihi hl) hm hf fun b hb => hi.mem hb)

end PostOrder

namespace Layered

variable {q : Source} {a b : String} {l : List String}

theorem nodup (h : Layered q l) : l.Nodup := by
  induction h with
  | nil => exact List.nodup_nil
  | snoc _ hn _ _ ih => simpa [List.nodup_append] using ⟨ih, fun a ha hb => hn (hb ▸ ha)⟩

theorem file (h : Layered q l) (ha : a ∈ l) : ∃ f, q.file? a = some f := by
  induction h with
  | nil => simp at ha
  | snoc _ _ hf _ ih =>
    rcases List.mem_append.mp ha with ha | ha
    · exact ih ha
    · exact ⟨_, List.mem_singleton.mp ha ▸ hf⟩

/-- An import stands before the file that imports it. -/
theorem import_before (h : Layered q l) (ha : a ∈ l) (hi : q.Imports a b) :
    b ∈ l ∧ l.idxOf b < l.idxOf a := by
  induction h with
  | nil => simp at ha
  | @snoc n f l hl hn hf himp ih =>
    by_cases hal : a ∈ l
    · obtain ⟨hb, hlt⟩ := ih hal
      rw [List.idxOf_append_of_mem hal, List.idxOf_append_of_mem hb]
      exact ⟨List.mem_append_left _ hb, hlt⟩
    · have han : a = n := by simpa [hal] using ha
      subst han
      obtain ⟨g, hg, hb⟩ := hi
      have he := Option.some.inj (hf.symm.trans hg)
      subst he
      have hbl := himp b hb
      rw [List.idxOf_append_of_mem hbl, List.idxOf_append_of_notMem hal]
      exact ⟨List.mem_append_left _ hbl,
        Nat.lt_of_lt_of_le (List.idxOf_lt_length_of_mem hbl) (Nat.le_add_right _ _)⟩

theorem reaches_before (h : Layered q l) (ha : a ∈ l) (hr : Relation.TransGen q.Imports a b) :
    b ∈ l ∧ l.idxOf b < l.idxOf a := by
  induction hr with
  | single hi => exact h.import_before ha hi
  | tail _ hi ih =>
    obtain ⟨hb, hlt⟩ := h.import_before ih.1 hi
    exact ⟨hb, Nat.lt_trans hlt ih.2⟩

/-- Names that come in such an order do not lead back to themselves. -/
theorem acyclic (h : Layered q l) (ha : a ∈ l) : ¬ Relation.TransGen q.Imports a a :=
  fun hr => Nat.lt_irrefl _ (h.reaches_before ha hr).2

theorem closed (h : Layered q l) (ha : a ∈ l) (hr : Relation.ReflTransGen q.Imports a b) :
    b ∈ l := by
  rcases Relation.reflTransGen_iff_eq_or_transGen.mp hr with rfl | hr
  · exact ha
  · exact (h.reaches_before ha hr).1

end Layered
end Source
end RpcConsole

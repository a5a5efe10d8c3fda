import RpcConsole.Store.Basic

namespace RpcConsole

namespace Disk

/-- A path leads to a file: the place of the file, and what stands there. -/
structure FileAt (d : Disk) (path : String) (place : Place) (file : Node) : Prop where
  resolves : d.resolve path = .ok place
  holds : d.node? place = some file
  isFile : file.isFile = true

variable {d : Disk} {path text : String} {place : Place} {file : Node}

theorem isFile_iff : d.isFile path = true ↔ ∃ place file, d.FileAt path place file := by
  unfold isFile
  constructor
  · intro h
    cases hr : d.resolve path with
    | error e => simp [hr] at h
    | ok place =>
      simp only [hr, Option.any_eq_true] at h
      obtain ⟨file, hn, hf⟩ := h
      exact ⟨place, file, hr, hn, hf⟩
  · rintro ⟨place, file, h⟩
    simp [h.resolves, h.holds, h.isFile]

theorem FileAt.readText (h : d.FileAt path place file) : d.readText path = file.text := by
  simp only [Disk.readText, h.resolves, h.holds]

/-- What can be read as a text is a file. -/
theorem fileAt_of_readText (h : d.readText path = .ok text) :
    ∃ place file, d.FileAt path place file ∧ file.text = .ok text := by
  unfold Disk.readText at h
  cases hr : d.resolve path with
  | error e => simp [hr] at h
  | ok place =>
    cases hn : d.node? place with
    | none => simp [hr, hn] at h
    | some node =>
      simp only [hr, hn] at h
      refine ⟨place, node, ⟨hr, hn, ?_⟩, h⟩
      cases node with
      | file | sealed => rfl
      | directory | link => cases h

end Disk

namespace StoredFile

variable {d : Disk} {name path text : String} {place : Place} {file : Node} {decl : FileDecl}
  {f : StoredFile}

theorem read_of_failure {failure : Disk.Failure} (h : d.FileAt path place file)
    (ht : file.text = .error failure) : read d name path = .error (.unreadable name failure) := by
  simp only [read, h.readText, ht]

theorem read_of_error {e : Proto.ParseError} (h : d.FileAt path place file)
    (ht : file.text = .ok text) (hp : Proto.parse name text = .error e) :
    read d name path = .error (.malformed name e) := by
  simp only [read, h.readText, ht, hp]

theorem read_of_ok (h : d.FileAt path place file) (ht : file.text = .ok text)
    (hp : Proto.parse name text = .ok decl) : read d name path = .ok ⟨name, place, decl⟩ := by
  simp only [read, h.readText, ht, hp, h.resolves]

/-- A file that was read stands where its path leads, and its text is what it declares. -/
theorem fileAt_of_read (h : read d name path = .ok f) :
    f.name = name ∧ ∃ file text, d.FileAt path f.place file ∧
      file.text = .ok text ∧ Proto.parse name text = .ok f.decl := by
  unfold read at h
  cases ht : d.readText path with
  | error e => simp [ht] at h
  | ok text =>
    obtain ⟨place, file, hat, htext⟩ := Disk.fileAt_of_readText ht
    cases hp : Proto.parse name text with
    | error e => simp [ht, hp] at h
    | ok decl =>
      simp only [ht, hp, hat.resolves, Except.ok.injEq] at h
      subst h
      exact ⟨rfl, file, text, hat, htext, hp⟩

end StoredFile
end RpcConsole

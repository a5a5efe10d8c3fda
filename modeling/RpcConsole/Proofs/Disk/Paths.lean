import RpcConsole.Disk.Basic
import RpcConsole.Proofs.Text.Pieces

namespace RpcConsole

namespace Path

/-- A name of a place: a piece of a path that leads down. -/
structure IsName (name : String) : Prop where
  nonempty : name ≠ ""
  dot : name ≠ "."
  dots : name ≠ ".."
  short : name.utf8ByteSize ≤ Disk.nameLimit
  slash : '/' ∉ name.toList
  nul : '\x00' ∉ name.toList

/-- Whether a piece of a path matters for telling paths apart. -/
def counts (piece : String) : Bool :=
  piece != "" && piece != "."

/-- A path goes on behind its last name, with a slash or a dot. -/
def GoesOn (path : String) : Prop :=
  ∃ piece, (pieces path).getLast? = some piece ∧ counts piece = false

variable {path name : String} {place : Place}

theorem counts_eq_true {piece : String} : counts piece = true ↔ piece ≠ "" ∧ piece ≠ "." := by
  simp [counts]

theorem counts_eq_false {piece : String} : counts piece = false ↔ piece = "" ∨ piece = "." := by
  rw [← Bool.not_eq_true, counts_eq_true, ne_eq, ne_eq, ← not_or, Classical.not_not]

theorem IsName.counts (h : IsName name) : counts name = true :=
  counts_eq_true.mpr ⟨h.nonempty, h.dot⟩

theorem pieces_absolute (h : isAbsolute path = true) :
    ∃ rest, pieces path = "" :: pieces rest := by
  obtain ⟨rest, hrest⟩ : ∃ rest, path.toList = '/' :: rest := by
    rw [isAbsolute, Text.startsWith, beq_iff_eq] at h
    exact List.head?_eq_some_iff.mp h
  exact ⟨String.ofList rest, Text.pieces_mark hrest⟩

theorem names_absolute (h : isAbsolute path = true) :
    names path = (pieces path).filter counts := by
  obtain ⟨rest, hpieces⟩ := pieces_absolute h
  rw [names, hpieces]
  rfl

section PathOf

variable (hn : ∀ name ∈ place, IsName name)

theorem isAbsolute_pathOf (place : Place) : isAbsolute (Disk.pathOf place) = true := by
  simp [isAbsolute, Text.startsWith, Disk.pathOf]

include hn in
theorem pieces_pathOf (hne : place ≠ []) : pieces (Disk.pathOf place) = "" :: place := by
  have hrest : (Disk.pathOf place).toList = '/' :: ("/".intercalate place).toList := by
    simp [Disk.pathOf]
  rw [pieces, Text.pieces_mark hrest, String.ofList_toList,
    Text.pieces_intercalate (by simp) hne fun name hm => (hn name hm).slash]

include hn in
theorem names_pathOf : names (Disk.pathOf place) = place := by
  rw [names_absolute (isAbsolute_pathOf place)]
  by_cases hne : place = []
  · subst hne
    decide +kernel
  · rw [pieces_pathOf hn hne, List.filter_cons_of_neg (by decide)]
    exact List.filter_eq_self.mpr fun name hm => (hn name hm).counts

include hn in
theorem not_goesOn_pathOf (hne : place ≠ []) : ¬ GoesOn (Disk.pathOf place) := by
  rintro ⟨piece, hlast, hcounts⟩
  rw [pieces_pathOf hn hne, List.getLast?_cons_of_ne_nil hne] at hlast
  rw [(hn piece (List.mem_of_getLast? hlast)).counts] at hcounts
  cases hcounts

end PathOf
end Path

namespace Disk

open RpcConsole.Path (IsName counts)

/-- Something stands at a place, below directories. It is no link, and so no path is followed
further. -/
structure Standing (d : Disk) (place : Place) : Prop where
  names : ∀ name ∈ place, IsName name
  there : ∃ node, d.node? place = some node ∧ node.isLink = false
  above : ∀ p, p <+: place → p ≠ place → d.node? p = some .directory

/-- No link stands on the way to a place, nor at the place. -/
def Unlinked (d : Disk) (place : Place) : Prop :=
  ∀ p, p <+: place → ∀ target, d.node? p ≠ some (.link target)

/-- What is left of a disk from which things were removed. -/
def Remains (d d' : Disk) : Prop :=
  ∀ p node, d'.node? p = some node → d.node? p = some node

/-- The starting directory is there. -/
structure Rooted (d : Disk) : Prop where
  names : ∀ name ∈ d.start, IsName name
  directories : ∀ p, p <+: d.start → d.node? p = some .directory

variable {d : Disk} {place place' : Place} {path piece : String} {pieces : List String}
  {node : Node} {jump : Place → String → List String → Except Failure Place}

theorem Rooted.standing (h : d.Rooted) : d.Standing d.start where
  names := h.names
  there := ⟨.directory, h.directories d.start List.prefix_rfl, rfl⟩
  above p hp _ := h.directories p hp

theorem Standing.root (d : Disk) : d.Standing [] where
  names := by simp
  there := ⟨.directory, rfl, rfl⟩
  above p hp hne := absurd (List.prefix_nil.mp hp) hne

theorem Standing.unlinked (h : d.Standing place) : d.Unlinked place := by
  intro p hp target hlink
  by_cases he : p = place
  · obtain ⟨node, hn, hl⟩ := h.there
    rw [← he, hlink] at hn
    cases hn
    cases hl
  · rw [h.above p hp he] at hlink
    cases hlink

theorem Unlinked.remains {d' : Disk} (h : d.Unlinked place) (hr : d.Remains d') :
    d'.Unlinked place :=
  fun p hp target hlink => h p hp target (hr p _ hlink)

/-- Something stands at all places on the way, too. -/
theorem Standing.front {front : Place} (h : d.Standing place) (hp : front <+: place) :
    d.Standing front where
  names name hm := h.names name (hp.subset hm)
  there := by
    by_cases he : front = place
    · exact he ▸ h.there
    · exact ⟨.directory, h.above front hp he, rfl⟩
  above p hfront hne := by
    refine h.above p (hfront.trans hp) fun he => hne ?_
    exact hfront.eq_of_length_le (he ▸ hp.length_le)

/-- A name in a directory. -/
theorem Standing.snoc (h : d.Standing place) (hd : d.node? place = some .directory)
    (hn : IsName piece) (ht : d.node? (place ++ [piece]) = some node) (hl : node.isLink = false) :
    d.Standing (place ++ [piece]) where
  names := List.forall_mem_append.mpr ⟨h.names, by simpa using hn⟩
  there := ⟨node, ht, hl⟩
  above p hp hne := by
    rcases List.prefix_concat_iff.mp hp with rfl | hp
    · exact absurd rfl hne
    · by_cases he : p = place
      · exact he ▸ hd
      · exact h.above p hp he

/-- How a path goes on past one of its pieces. -/
inductive GoesPast (d : Disk) (jump : Place → String → List String → Except Failure Place)
    (place : Place) (piece : String) (pieces : List String) (place' : Place) : Prop where
  | stay (hc : counts piece = false) (h : d.follow jump place pieces = .ok place')
  | up (hu : piece = "..") (h : d.follow jump place.dropLast pieces = .ok place')
  | across {target : String} (hc : counts piece = true)
      (ht : d.node? (place ++ [piece]) = some (.link target))
      (h : jump place target pieces = .ok place')
  | down {node : Node} (hc : counts piece = true) (hd : piece ≠ "..")
      (hs : piece.utf8ByteSize ≤ nameLimit) (ht : d.node? (place ++ [piece]) = some node)
      (hl : node.isLink = false) (h : d.follow jump (place ++ [piece]) pieces = .ok place')

theorem follow_cons_ok (h : d.follow jump place (piece :: pieces) = .ok place') :
    d.node? place = some .directory ∧ GoesPast d jump place piece pieces place' := by
  unfold follow at h
  split at h
  · cases h
  · rename_i hdir
    refine ⟨by simpa using hdir, ?_⟩
    split at h
    · rename_i hstay
      exact .stay (Path.counts_eq_false.mpr (by simpa using hstay)) h
    · rename_i hcounts
      have hc : counts piece = true := Path.counts_eq_true.mpr (by simpa using hcounts)
      split at h
      · rename_i hup
        exact .up (by simpa using hup) h
      · rename_i hup
        split at h
        · cases h
        · rename_i hshort
          split at h
          · cases h
          · rename_i ht
            exact .across hc ht h
          · rename_i node hlink ht
            refine .down hc (by simpa using hup) (Nat.not_lt.mp hshort) ht ?_ h
            cases node with
            | link target => exact absurd rfl (hlink target)
            | directory | file | sealed => rfl

/-- Past the name of what stands in a directory, the path goes on from there. -/
theorem follow_name (hd : d.node? place = some .directory) (hn : IsName piece)
    (ht : d.node? (place ++ [piece]) = some node) (hl : node.isLink = false) :
    d.follow jump place (piece :: pieces) = d.follow jump (place ++ [piece]) pieces := by
  rw [follow, if_neg (by simp [hd]), if_neg (by simp [hn.nonempty, hn.dot]),
    if_neg (by simp [hn.dots]), if_neg (Nat.not_lt.mpr hn.short), ht]
  cases node with
  | link => cases hl
  | directory | file | sealed => rfl

/-- Pieces as they stand in a path. -/
def ArePieces (pieces : List String) : Prop :=
  ∀ piece ∈ pieces, '/' ∉ piece.toList ∧ '\x00' ∉ piece.toList

theorem arePieces (h : pathFault? path = none) : ArePieces (Path.pieces path) := by
  unfold pathFault? at h
  split at h
  · cases h
  · rename_i hnul
    intro piece hp
    obtain ⟨hslash, hchars⟩ := Text.mem_pieces hp
    exact ⟨hslash, fun hc => hnul (by simpa using hchars _ hc)⟩

/-- Going on at a link leads to a place where something stands. -/
def Lands (d : Disk) (jump : Place → String → List String → Except Failure Place) : Prop :=
  ∀ place target pieces place', d.Standing place → ArePieces pieces →
    jump place target pieces = .ok place' → d.Standing place'

theorem follow_standing (hj : d.Lands jump) (hp : ArePieces pieces) (h : d.Standing place)
    (hr : d.follow jump place pieces = .ok place') : d.Standing place' := by
  induction pieces generalizing place with
  | nil =>
    cases hr
    exact h
  | cons piece pieces ih =>
    obtain ⟨⟨hslash, hnul⟩, hrest⟩ := List.forall_mem_cons.mp hp
    obtain ⟨hdir, hpast⟩ := follow_cons_ok hr
    cases hpast with
    | stay _ hr => exact ih hrest h hr
    | up _ hr => exact ih hrest (h.front (List.dropLast_prefix place)) hr
    | across _ _ hr => exact hj _ _ _ _ h hrest hr
    | down hc hdots hshort ht hl hr =>
      obtain ⟨hne, hdot⟩ := Path.counts_eq_true.mp hc
      exact ih hrest (h.snoc hdir ⟨hne, hdot, hdots, hshort, hslash, hnul⟩ ht hl) hr

theorem followPath_lands (hj : d.Lands jump) : d.Lands (d.followPath jump) := by
  intro place path rest place' h hp hr
  unfold followPath at hr
  split at hr
  · cases hr
  · rename_i hfault
    refine follow_standing hj (List.forall_mem_append.mpr ⟨arePieces hfault, hp⟩) ?_ hr
    split
    · exact .root d
    · exact h

/-- However many links are followed. -/
theorem followLinks_lands (d : Disk) (links : Nat) : d.Lands (d.followLinks links) := by
  induction links with
  | zero =>
    refine followPath_lands fun _ _ _ _ _ _ hr => ?_
    cases hr
  | succ links ih => exact followPath_lands ih

/-- Without double dots and links, pieces lead to what they write down. -/
theorem follow_written (hd : ".." ∉ pieces) (hl : d.Unlinked (place ++ pieces.filter counts))
    (hr : d.follow jump place pieces = .ok place') : place' = place ++ pieces.filter counts := by
  induction pieces generalizing place with
  | nil =>
    cases hr
    simp
  | cons piece pieces ih =>
    rw [List.mem_cons, not_or] at hd
    cases (follow_cons_ok hr).2 with
    | stay hc hr =>
      rw [List.filter_cons_of_neg (by simp [hc])] at hl ⊢
      exact ih hd.2 hl hr
    | up hu => exact absurd hu.symm hd.1
    | across hc ht =>
      rw [List.filter_cons_of_pos hc, List.append_cons] at hl
      exact absurd ht (hl _ (List.prefix_append _ _) _)
    | down hc _ _ _ _ hr =>
      rw [List.filter_cons_of_pos hc, List.append_cons] at hl ⊢
      exact ih hd.2 hl hr

/-- Pieces that write down a place where something stands, and end with a name, lead there. -/
theorem follow_of_standing (h : d.Standing (place ++ pieces.filter counts))
    (hlast : ∀ piece, pieces.getLast? = some piece → counts piece = true) :
    d.follow jump place pieces = .ok (place ++ pieces.filter counts) := by
  induction pieces generalizing place with
  | nil => simp [follow]
  | cons piece pieces ih =>
    have hrest : ∀ p, pieces.getLast? = some p → counts p = true := by
      intro p hp
      apply hlast p
      rw [List.getLast?_cons_of_ne_nil (List.ne_nil_of_mem (List.mem_of_getLast? hp))]
      exact hp
    have hdir : d.node? place = some .directory := by
      refine h.above place (List.prefix_append _ _) fun he => ?_
      have hnone : (piece :: pieces).filter counts = [] := by simpa using he
      obtain ⟨last, hl⟩ : ∃ last, (piece :: pieces).getLast? = some last :=
        ⟨_, List.getLast?_eq_some_getLast (List.cons_ne_nil _ _)⟩
      exact List.filter_eq_nil_iff.mp hnone last (List.mem_of_getLast? hl) (hlast last hl)
    by_cases hc : counts piece = true
    · rw [List.filter_cons_of_pos hc, List.append_cons] at h ⊢
      obtain ⟨node, ht, hl⟩ := (h.front (List.prefix_append (place ++ [piece]) _)).there
      rw [follow_name hdir (h.names piece (by simp)) ht hl]
      exact ih h hrest
    · rw [List.filter_cons_of_neg hc] at h ⊢
      rw [follow, if_neg (by simp [hdir]),
        if_pos (by simpa using Path.counts_eq_false.mp (Bool.not_eq_true _ ▸ hc))]
      exact ih h hrest

/-- What a path leads to is found by following its pieces. -/
theorem resolve_ok (h : d.resolve path = .ok place) :
    ∃ jump, d.follow jump (if Path.isAbsolute path then [] else d.start) (Path.pieces path) =
      .ok place := by
  unfold resolve linkLimit followLinks followPath at h
  split at h
  · cases h
  · rw [List.append_nil] at h
    exact ⟨_, h⟩

/-- Where a path leads, something stands below directories. -/
theorem Rooted.resolve_standing (h : d.Rooted) (hr : d.resolve path = .ok place) :
    d.Standing place :=
  followLinks_lands d linkLimit _ _ _ _ h.standing (by simp [ArePieces]) hr

/-- An absolute path without double dots leads to what it writes down, if it leads anywhere and no
link stands on the way. -/
theorem resolve_written (ha : Path.isAbsolute path = true) (hd : ".." ∉ Path.names path)
    (hl : d.Unlinked (Path.names path)) (hr : d.resolve path = .ok place) :
    place = Path.names path := by
  obtain ⟨jump, hfollow⟩ := resolve_ok hr
  rw [if_pos ha] at hfollow
  rw [Path.names_absolute ha] at hd hl ⊢
  refine follow_written (fun hm => hd ?_) hl hfollow
  exact List.mem_filter.mpr ⟨hm, by decide⟩

/-- It does lead there if something stands there, unless it goes on behind the last name or is too
long. -/
theorem Standing.resolve (h : d.Standing (Path.names path)) (ha : Path.isAbsolute path = true)
    (hend : ¬ Path.GoesOn path) (hlen : path.utf8ByteSize < pathLimit) :
    d.resolve path = .ok (Path.names path) := by
  have hnul : '\x00' ∉ path.toList := by
    intro hm
    obtain ⟨piece, hp, hc⟩ := Text.exists_mem_pieces hm (show '\x00' ≠ '/' by decide)
    have hcounts : counts piece = true := by
      rw [Path.counts_eq_true]
      constructor <;> rintro rfl <;> simp at hc
    refine (h.names piece ?_).nul hc
    rw [Path.names_absolute ha]
    exact List.mem_filter.mpr ⟨hp, hcounts⟩
  have hne : path ≠ "" := by
    rintro rfl
    cases ha
  have hfault : pathFault? path = none := by
    rw [pathFault?, if_neg (by simpa using hnul), if_neg (by simpa using hne),
      if_neg (Nat.not_le.mpr hlen)]
  unfold Disk.resolve linkLimit followLinks followPath
  simp only [hfault, ha, if_true, List.append_nil]
  rw [Path.names_absolute ha] at h ⊢
  refine follow_of_standing h fun piece hp => ?_
  cases hc : counts piece with
  | true => rfl
  | false => exact absurd ⟨piece, hp, hc⟩ hend

/-- The absolute path of a place leads to it. -/
theorem Standing.resolve_pathOf (h : d.Standing place) (hne : place ≠ [])
    (hlen : (pathOf place).utf8ByteSize < pathLimit) : d.resolve (pathOf place) = .ok place := by
  have hnames := Path.names_pathOf h.names
  have hr := Standing.resolve (hnames.symm ▸ h) (Path.isAbsolute_pathOf place)
    (Path.not_goesOn_pathOf h.names hne) hlen
  rw [hr, hnames]

end Disk
end RpcConsole

import Mathlib.Data.List.TakeWhile
import RpcConsole.Proofs.Text.Utf8
import RpcConsole.Proto.Grammar

namespace RpcConsole.Position

/-- Some characters from the front of `source` have exactly `offset` bytes. -/
def IsBoundary (source : List Char) (offset : Nat) : Prop :=
  ∃ before, before <+: source ∧ (Utf8.encode before).length = offset

/-- The bytes passed on the way down over `down` lines and then along `right` characters of the
line below them; nothing where there is no such line or the line is shorter. -/
def walk : List (List Char) → Nat → Nat → Option Nat
  | [], _, _ => none
  | line :: _, 0, right =>
    if right ≤ line.length then some (Utf8.encode (line.take right)).length else none
  | line :: lines, down + 1, right =>
    (walk lines down right).map ((Utf8.encode (line ++ ['\n'])).length + ·)

/-- The byte offset at which a position stands in `source`. -/
def offset? (source : List Char) : Position → Option Nat
  | ⟨down + 1, right + 1⟩ => walk (source.splitOn '\n') down right
  | _ => none

/-- On a line of `source`, and there in front of one of its characters or behind the last. -/
def IsWithin (source : List Char) (p : Position) : Prop :=
  1 ≤ p.line ∧ p.line ≤ (source.splitOn '\n').length ∧
    1 ≤ p.column ∧ p.column ≤ ((source.splitOn '\n')[p.line - 1]?.getD []).length + 1

/-- Further down, or further right on the same line. -/
instance : LT Position where
  lt p q := p.line < q.line ∨ p.line = q.line ∧ p.column < q.column

theorem lt_iff {p q : Position} :
    p < q ↔ p.line < q.line ∨ p.line = q.line ∧ p.column < q.column :=
  Iff.rfl

theorem lt_irrefl (p : Position) : ¬ p < p := by
  rw [lt_iff]
  omega

theorem lt_trans {p q r : Position} (hp : p < q) (hq : q < r) : p < r := by
  rw [lt_iff] at *
  omega

theorem walk_within {lines : List (List Char)} {down right n : Nat}
    (h : walk lines down right = some n) :
    ∃ line, lines[down]? = some line ∧ right ≤ line.length := by
  induction lines generalizing down n with
  | nil => cases h
  | cons line lines ih =>
    cases down with
    | zero =>
      simp only [walk] at h
      split at h
      · exact ⟨line, rfl, ‹_›⟩
      · cases h
    | succ down =>
      obtain ⟨m, hm, -⟩ := Option.map_eq_some_iff.mp h
      exact ih hm

section After

variable {line : List Char}

theorem after_of_not_mem (h : '\n' ∉ line) : after line = ⟨1, line.length + 1⟩ := by
  have hall : ∀ c ∈ line.reverse, (c != '\n') = true := fun c hc =>
    bne_iff_ne.mpr fun he => h (he ▸ List.mem_reverse.mp hc)
  rw [after, List.count_eq_zero_of_not_mem h, List.takeWhile_eq_self_iff.mpr hall,
    List.length_reverse]

/-- A line that is over moves what stands behind it down, and not along. -/
theorem after_line (h : '\n' ∉ line) (before : List Char) :
    after (line ++ '\n' :: before) = ⟨(after before).line + 1, (after before).column⟩ := by
  have hlines : (line ++ '\n' :: before).count '\n' = before.count '\n' + 1 := by
    rw [List.count_append, List.count_eq_zero_of_not_mem h, List.count_cons_self, Nat.zero_add]
  have hcolumn : (line ++ '\n' :: before).reverse.takeWhile (· != '\n') =
      before.reverse.takeWhile (· != '\n') := by
    rw [List.reverse_append, List.reverse_cons, List.append_assoc, List.singleton_append,
      List.takeWhile_append, List.takeWhile_cons_of_neg (by simp), List.append_nil]
    split
    · rename_i hall
      exact ((List.takeWhile_prefix _).eq_of_length hall).symm
    · rfl
  rw [after, hlines, hcolumn]
  rfl

/-- One character more is one step further: to the next line, or along the line. -/
theorem after_concat (before : List Char) (c : Char) : after (before ++ [c]) =
    if c = '\n' then ⟨(after before).line + 1, 1⟩
    else ⟨(after before).line, (after before).column + 1⟩ := by
  unfold after
  rw [List.reverse_append, List.reverse_singleton, List.singleton_append, List.takeWhile_cons,
    List.count_append, List.count_singleton]
  by_cases hc : c = '\n'
  · simp [hc]
  · simp [hc]

theorem after_lt_concat (before : List Char) (c : Char) : after before < after (before ++ [c]) := by
  rw [after_concat, lt_iff]
  split
  · exact .inl (Nat.lt_succ_self _)
  · exact .inr ⟨rfl, Nat.lt_succ_self _⟩

theorem after_lt_append (before : List Char) (c : Char) (rest : List Char) :
    after before < after (before ++ c :: rest) := by
  induction rest generalizing before c with
  | nil => exact after_lt_concat before c
  | cons d rest ih =>
    have hstep := ih (before ++ [c]) d
    rw [List.append_assoc] at hstep
    exact lt_trans (after_lt_concat before c) hstep

end After

/-- The line that is begun goes on in what follows. -/
theorem splitOn_begun {line : List Char} (h : '\n' ∉ line) (rest : List Char) :
    ∃ tail lines, (line ++ rest).splitOn '\n' = (line ++ tail) :: lines := by
  by_cases hr : '\n' ∈ rest
  · obtain ⟨tail, more, rfl, ht⟩ := List.eq_append_cons_of_mem hr
    refine ⟨tail, more.splitOn '\n', ?_⟩
    rw [← List.append_assoc, List.splitOn_append_cons_self_of_not_mem (by simp [h, ht])]
  · exact ⟨rest, [], List.splitOn_eq_singleton (by simp [h, hr])⟩

/-- The position behind some characters is reached by walking over their bytes, whatever follows.
Each step takes off the first line that is over. -/
theorem offset?_after (before rest : List Char) :
    offset? (before ++ rest) (after before) = some (Utf8.encode before).length := by
  by_cases h : '\n' ∈ before
  · obtain ⟨line, more, hb, hline⟩ := List.eq_append_cons_of_mem h
    have ih := offset?_after more rest
    obtain ⟨down, right, hafter⟩ : ∃ down right, after more = ⟨down + 1, right + 1⟩ := ⟨_, _, rfl⟩
    subst hb
    rw [hafter, offset?] at ih
    rw [after_line hline, hafter, offset?, List.append_assoc, List.cons_append,
      List.splitOn_append_cons_self_of_not_mem hline, walk, ih, Option.map_some,
      ← List.length_append, ← Utf8.encode_append, List.append_assoc, List.singleton_append]
  · obtain ⟨tail, lines, hsplit⟩ := splitOn_begun h rest
    rw [after_of_not_mem h, offset?, hsplit, walk, List.length_append,
      if_pos (Nat.le_add_right _ _), List.take_left]
termination_by before.length
decreasing_by simp only [hb, List.length_append, List.length_cons]; omega

section Prefixes

variable {source before : List Char} {n : Nat}

theorem prefixAt?_length (h : before <+: source) :
    prefixAt? source (Utf8.encode before).length = some before := by
  induction before generalizing source with
  | nil =>
    cases source
    · rfl
    · rfl
  | cons c before ih =>
    obtain ⟨rest, rfl⟩ := h
    obtain ⟨k, hk⟩ := Nat.exists_eq_succ_of_ne_zero (Nat.ne_of_gt c.utf8Size_pos)
    have hlength : (Utf8.encode (c :: before)).length =
        k + (Utf8.encode before).length + 1 := by
      rw [Utf8.encode_cons, List.length_append, Utf8.length_encodeChar, hk]
      omega
    rw [hlength, List.cons_append, prefixAt?, if_pos (by omega),
      show k + (Utf8.encode before).length + 1 - c.utf8Size = (Utf8.encode before).length by omega,
      ih (List.prefix_append _ _), Option.map_some]

theorem of_prefixAt? (h : prefixAt? source n = some before) :
    before <+: source ∧ (Utf8.encode before).length = n := by
  fun_induction prefixAt? source n generalizing before with
  | case1 => cases h; exact ⟨List.nil_prefix, rfl⟩
  | case2 => cases h
  | case3 c cs n hle ih =>
    obtain ⟨front, hat, rfl⟩ := Option.map_eq_some_iff.mp h
    obtain ⟨hrest, hlength⟩ := ih hat
    refine ⟨List.cons_prefix_cons.mpr ⟨rfl, hrest⟩, ?_⟩
    rw [Utf8.encode_cons, List.length_append, Utf8.length_encodeChar, hlength]
    omega
  | case4 => cases h

theorem isBoundary_iff : IsBoundary source n ↔ (prefixAt? source n).isSome = true := by
  constructor
  · rintro ⟨before, hfront, rfl⟩
    rw [prefixAt?_length hfront, Option.isSome_some]
  · intro h
    obtain ⟨before, hat⟩ := Option.isSome_iff_exists.mp h
    exact ⟨before, of_prefixAt? hat⟩

instance : Decidable (IsBoundary source n) :=
  decidable_of_iff _ isBoundary_iff.symm

theorem locate_front (h : before <+: source) :
    locate source (Utf8.encode before).length = after before := by
  rw [locate, prefixAt?_length h, Option.getD_some]

theorem locate_elsewhere (h : ¬ IsBoundary source n) : locate source n = after source := by
  rw [isBoundary_iff, Option.not_isSome_iff_eq_none] at h
  rw [locate, h, Option.getD_none]

/-- Every offset is shown as the position behind some of the characters. -/
theorem exists_locate (source : List Char) (n : Nat) :
    ∃ before, before <+: source ∧ locate source n = after before := by
  by_cases h : IsBoundary source n
  · obtain ⟨before, hfront, rfl⟩ := h
    exact ⟨before, hfront, locate_front hfront⟩
  · exact ⟨source, List.prefix_rfl, locate_elsewhere h⟩

/-- A position that is reached stands within the source. -/
theorem isWithin_of_offset? {p : Position} (h : offset? source p = some n) : p.IsWithin source := by
  obtain ⟨line, column⟩ := p
  unfold offset? at h
  split at h
  · rename_i down right heq
    obtain ⟨rfl, rfl⟩ := Position.mk.inj heq
    obtain ⟨text, htext, hle⟩ := walk_within h
    obtain ⟨hdown, -⟩ := List.getElem?_eq_some_iff.mp htext
    refine ⟨Nat.le_add_left _ _, hdown, Nat.le_add_left _ _, ?_⟩
    simp only [Nat.succ_eq_add_one, Nat.add_sub_cancel, htext, Option.getD_some]
    exact Nat.succ_le_succ hle
  · cases h

theorem isWithin_locate (source : List Char) (n : Nat) : (locate source n).IsWithin source := by
  obtain ⟨before, ⟨rest, rfl⟩, hlocate⟩ := exists_locate source n
  rw [hlocate]
  exact isWithin_of_offset? (offset?_after before rest)

/-- The end of one of two prefixes is further on than that of the other if it has more bytes. -/
theorem after_lt {p q : List Char} (hp : p <+: source) (hq : q <+: source)
    (h : (Utf8.encode p).length < (Utf8.encode q).length) : after p < after q := by
  rcases List.prefix_or_prefix_of_prefix hp hq with hpq | hqp
  · obtain ⟨rest, rfl⟩ := hpq
    cases rest with
    | nil => rw [List.append_nil] at h; exact absurd h (Nat.lt_irrefl _)
    | cons c rest => exact after_lt_append p c rest
  · obtain ⟨rest, rfl⟩ := hqp
    rw [Utf8.encode_append, List.length_append] at h
    omega

end Prefixes

/-- A fault is shown at the place of its offset, wherever the reading met it. -/
theorem parse_error {name source : String} {e : Proto.ParseError}
    (h : Proto.parse name source = .error e) :
    ∃ offset, e.position = locate source.toList offset := by
  unfold Proto.parse at h
  simp only at h
  split at h
  · cases h
  · rename_i fault _
    cases h
    exact ⟨fault.offset, rfl⟩
  · rename_i fault _
    cases h
    exact ⟨fault.offset, rfl⟩

/-- Positions of offsets between characters are exact, and so they are told apart and stand in the
order of the offsets; all other offsets are shown at the end; and what is said of a source that
cannot be read is said of a place in it. -/
theorem locate_exact (source : String) :
    (∀ offset, IsBoundary source.toList offset →
      offset? source.toList (locate source.toList offset) = some offset) ∧
    (∀ a b, IsBoundary source.toList a → IsBoundary source.toList b →
      (locate source.toList a = locate source.toList b → a = b) ∧
      (locate source.toList a < locate source.toList b ↔ a < b)) ∧
    (∀ offset, ¬ IsBoundary source.toList offset →
      locate source.toList offset = locate source.toList (Utf8.ofString source).length) ∧
    ∀ name e, Proto.parse name source = .error e → e.position.IsWithin source.toList := by
  have hwalk : ∀ offset, IsBoundary source.toList offset →
      offset? source.toList (locate source.toList offset) = some offset := by
    rintro offset ⟨before, hfront, rfl⟩
    rw [locate_front hfront]
    obtain ⟨rest, hrest⟩ := hfront
    rw [← hrest]
    exact offset?_after before rest
  have hlt : ∀ a b, IsBoundary source.toList a → IsBoundary source.toList b → a < b →
      locate source.toList a < locate source.toList b := by
    rintro a b ⟨p, hp, rfl⟩ ⟨q, hq, rfl⟩ h
    rw [locate_front hp, locate_front hq]
    exact after_lt hp hq h
  have hinj : ∀ a b, IsBoundary source.toList a → IsBoundary source.toList b →
      locate source.toList a = locate source.toList b → a = b := by
    intro a b ha hb h
    have he := hwalk a ha
    rw [h, hwalk b hb] at he
    exact (Option.some.inj he).symm
  refine ⟨hwalk, fun a b ha hb => ⟨hinj a b ha hb, fun h => ?_, hlt a b ha hb⟩, fun offset h => ?_,
    fun name e h => ?_⟩
  · rcases Nat.lt_trichotomy a b with hab | rfl | hba
    · exact hab
    · exact absurd h (lt_irrefl _)
    · exact absurd (lt_trans h (hlt b a hb ha hba)) (lt_irrefl _)
  · rw [locate_elsewhere h, Utf8.ofString, locate_front List.prefix_rfl]
  · obtain ⟨offset, hposition⟩ := parse_error h
    rw [hposition]
    exact isWithin_locate _ offset

/-- With a letter of two bytes before the offset, in front of it, and in the middle of it. -/
theorem locate_exact_accented :
    (IsBoundary "ab\ncdé\nfg".toList 7 ∧ offset? "ab\ncdé\nfg".toList
      (locate "ab\ncdé\nfg".toList 7) = some 7) ∧
    (IsBoundary "ab\ncdé\nfg".toList 5 ∧
      locate "ab\ncdé\nfg".toList 5 < locate "ab\ncdé\nfg".toList 7) ∧
    (¬ IsBoundary "ab\ncdé\nfg".toList 6 ∧ locate "ab\ncdé\nfg".toList 6 = ⟨3, 3⟩) ∧
    ∃ e, Proto.parse "m.proto" "ab\ncdé\nfg" = .error e ∧
      e.position.IsWithin "ab\ncdé\nfg".toList := by
  obtain ⟨hwalk, hpair, helse, hparse⟩ := locate_exact "ab\ncdé\nfg"
  have hseven : IsBoundary "ab\ncdé\nfg".toList 7 := by decide
  have hfive : IsBoundary "ab\ncdé\nfg".toList 5 := by decide
  have hsix : ¬ IsBoundary "ab\ncdé\nfg".toList 6 := by decide
  refine ⟨⟨hseven, hwalk 7 hseven⟩, ⟨hfive, (hpair 5 7 hfive hseven).2.mpr (by decide)⟩,
    ⟨hsix, (helse 6 hsix).trans (by decide)⟩, ?_⟩
  cases h : Proto.parse "m.proto" "ab\ncdé\nfg" with
  | error e => exact ⟨e, rfl, hparse _ e h⟩
  | ok f =>
    have hrefused : (Proto.parse "m.proto" "ab\ncdé\nfg").isOk = false := by decide +kernel
    rw [h] at hrefused
    cases hrefused

end RpcConsole.Position

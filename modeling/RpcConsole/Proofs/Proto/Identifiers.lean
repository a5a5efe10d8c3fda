import RpcConsole.Proto.Lexeme
import RpcConsole.Schema.Name
import RpcConsole.Text.Space

namespace RpcConsole

namespace Proto.Lexeme

theorem isIdentChar_range {c : Char} (h : isIdentChar c = true) :
    48 ≤ c.toNat ∧ c.toNat ≤ 122 ∧ (c.toNat ≤ 57 ∨ 65 ≤ c.toNat) := by
  -- letters and digits as they are compared, then as ranges of numbers
  change (((decide (c.val ≥ 'A'.val ∧ c.val ≤ 'Z'.val) ||
    decide (c.val ≥ 'a'.val) && decide (c.val ≤ 'z'.val)) ||
    decide (c.val ≥ '0'.val) && decide (c.val ≤ '9'.val)) || c == '_') = true at h
  simp only [Bool.or_eq_true, Bool.and_eq_true, decide_eq_true_eq, ge_iff_le,
    UInt32.le_iff_toNat_le, beq_iff_eq] at h
  change (((65 ≤ c.toNat ∧ c.toNat ≤ 90) ∨ (97 ≤ c.toNat ∧ c.toNat ≤ 122)) ∨
    (48 ≤ c.toNat ∧ c.toNat ≤ 57)) ∨ c = '_' at h
  rcases h with h | rfl
  · omega
  · decide

theorem isIdentifier_char {cs : List Char} (h : isIdentifier cs = true) :
    ∀ c ∈ cs, isIdentChar c = true := by
  cases cs with
  | nil => simp
  | cons c cs =>
    simp only [isIdentifier, Bool.and_eq_true, List.all_eq_true] at h
    intro d hd
    rcases List.mem_cons.mp hd with rfl | hd
    · have hs := h.1
      simp only [isIdentStart, Bool.or_eq_true] at hs
      simp only [isIdentChar, Char.isAlphanum, Bool.or_eq_true]
      exact hs.imp_left .inl
    · exact h.2 d hd

/-- An identifier has neither slashes nor dots. -/
theorem not_mem_of_isIdentifier {cs : List Char} (h : isIdentifier cs = true) :
    '/' ∉ cs ∧ '.' ∉ cs := by
  constructor <;> intro hc
  · exact absurd (isIdentifier_char h _ hc) (by decide)
  · exact absurd (isIdentifier_char h _ hc) (by decide)

theorem not_space_of_isIdentChar {c : Char} (h : isIdentChar c = true) :
    Text.isSpace c = false := by
  have hr := isIdentChar_range h
  simp only [Text.isSpace, Bool.or_eq_false_iff, Bool.and_eq_false_iff, decide_eq_false_iff_not,
    List.contains_eq_mem, List.mem_cons, List.not_mem_nil, or_false]
  omega

theorem not_blank_of_isIdentifier {cs : List Char} (h : isIdentifier cs = true) :
    cs.all Text.isSpace = false := by
  cases cs with
  | nil => cases h
  | cons c cs => simp [not_space_of_isIdentChar (isIdentifier_char h c (by simp))]

/-- A capital letter in place of a small one is a letter. -/
theorem isIdentChar_toUpper {c : Char} (h : isIdentChar c = true) :
    isIdentChar c.toUpper = true := by
  unfold Char.toUpper
  split
  · rename_i hc
    have hlow : 97 ≤ c.val.toNat := UInt32.le_iff_toNat_le.mp hc.1
    have hhigh : c.val.toNat ≤ 122 := UInt32.le_iff_toNat_le.mp hc.2
    have hraised : (c.val + ('A'.val - 'a'.val)).toNat = c.val.toNat - 32 := by
      show (c.val + 4294967264).toNat = _
      rw [UInt32.toNat_add]
      show (c.val.toNat + 4294967264) % 4294967296 = _
      omega
    have hupper : decide (c.val + ('A'.val - 'a'.val) ≥ 'A'.val ∧
        c.val + ('A'.val - 'a'.val) ≤ 'Z'.val) = true := by
      rw [decide_eq_true_iff, ge_iff_le, UInt32.le_iff_toNat_le, UInt32.le_iff_toNat_le, hraised]
      show 65 ≤ c.val.toNat - 32 ∧ c.val.toNat - 32 ≤ 90
      omega
    show (((decide (c.val + ('A'.val - 'a'.val) ≥ 'A'.val ∧
      c.val + ('A'.val - 'a'.val) ≤ 'Z'.val) || _) || _) || _) = true
    rw [hupper]
    rfl
  · exact h

end Proto.Lexeme

namespace Name
open Proto.Lexeme

/-- A name is made of the characters of identifiers and of dots. -/
def IsDotted (name : String) : Prop :=
  ∀ c ∈ name.toList, isIdentChar c = true ∨ c = '.'

variable {a b : String}

theorem IsDotted.of_identifier (h : isIdentifier a.toList = true) : IsDotted a :=
  fun c hc => .inl (isIdentifier_char h c hc)

theorem IsDotted.append (ha : IsDotted a) (hb : IsDotted b) : IsDotted (a ++ b) := by
  intro c hc
  rw [String.toList_append] at hc
  rcases List.mem_append.mp hc with hc | hc
  · exact ha c hc
  · exact hb c hc

theorem IsDotted.dot : IsDotted "." := by
  intro c hc
  exact .inr (List.mem_singleton.mp hc)

theorem IsDotted.join (ha : IsDotted a) (hb : IsDotted b) : IsDotted (join a b) := by
  unfold Name.join
  split
  · exact hb
  · exact (ha.append .dot).append hb

theorem raiseAfterUnderscore_identChar {cs : List Char} (h : ∀ c ∈ cs, isIdentChar c = true) :
    ∀ raise, ∀ c ∈ raiseAfterUnderscore raise cs, isIdentChar c = true := by
  induction cs with
  | nil => simp [raiseAfterUnderscore]
  | cons d cs ih =>
    obtain ⟨hd, hcs⟩ := List.forall_mem_cons.mp h
    intro raise
    unfold raiseAfterUnderscore
    split
    · exact ih hcs true
    · refine List.forall_mem_cons.mpr ⟨?_, ih hcs false⟩
      split
      · exact isIdentChar_toUpper hd
      · exact hd

theorem IsDotted.mapEntry (h : isIdentifier a.toList = true) : IsDotted (mapEntry a) := by
  refine IsDotted.append (fun c hc => .inl ?_) fun c hc => .inl ?_
  · rw [String.toList_ofList] at hc
    exact raiseAfterUnderscore_identChar (isIdentifier_char h) true c hc
  · have hall : "Entry".toList.all isIdentChar = true := by decide
    exact List.all_eq_true.mp hall c hc

/-- A name keeps to its line, and has no slashes. -/
theorem IsDotted.not_mem (h : IsDotted a) : '\n' ∉ a.toList ∧ '/' ∉ a.toList := by
  constructor <;> intro hc
  · exact absurd (h _ hc) (by decide)
  · exact absurd (h _ hc) (by decide)

end Name
end RpcConsole

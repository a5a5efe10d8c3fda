import RpcConsole.Number.Integer

namespace RpcConsole

namespace IntRange

variable {r : IntRange}

theorem contains_iff {n : Int} : r.contains n = true ↔ r.low ≤ n ∧ n ≤ r.high := by
  simp [contains]

theorem le_ofDigitChars (cs : List Char) (n : Nat) : n ≤ Nat.ofDigitChars 10 cs n := by
  induction cs generalizing n with
  | nil => simp
  | cons c cs ih =>
    rw [Nat.ofDigitChars_cons]
    have := ih (10 * n + (c.toNat - '0'.toNat))
    omega

theorem readDigits_ok (negative : Bool) {cs : List Char} (hd : ∀ c ∈ cs, c.isDigit = true) :
    ∀ n : Nat,
      (if negative then r.low ≤ -(Nat.ofDigitChars 10 cs n : Int)
        else (Nat.ofDigitChars 10 cs n : Int) ≤ r.high) →
      r.readDigits negative n cs =
        .ok (if negative then -(Nat.ofDigitChars 10 cs n : Int) else Nat.ofDigitChars 10 cs n) := by
  induction cs with
  | nil =>
    intro n _
    simp [readDigits]
  | cons c cs ih =>
    intro n hr
    obtain ⟨hc, hcs⟩ := List.forall_mem_cons.mp hd
    have hv : n * 10 + Spelled.digitValue c = 10 * n + (c.toNat - '0'.toNat) := by
      rw [Spelled.digitValue, Nat.mul_comm]
    rw [Nat.ofDigitChars_cons, ← hv] at hr ⊢
    have hle := le_ofDigitChars cs (n * 10 + Spelled.digitValue c)
    cases negative with
    | true =>
      have hin : ¬ -((n * 10 + Spelled.digitValue c : Nat) : Int) < r.low := by
        simp only [↓reduceIte] at hr
        omega
      simp only [readDigits, hc, Bool.not_true, Bool.false_eq_true, ↓reduceIte, hin]
      simpa using ih hcs _ hr
    | false =>
      have hin : ¬ r.high < ((n * 10 + Spelled.digitValue c : Nat) : Int) := by
        simp only [Bool.false_eq_true, ↓reduceIte] at hr
        omega
      simp only [readDigits, hc, Bool.not_true, Bool.false_eq_true, ↓reduceIte, hin]
      simpa using ih hcs _ hr

theorem toDigits_isDigit {n : Nat} {c : Char} (h : c ∈ Nat.toDigits 10 n) : c.isDigit = true :=
  Nat.isDigit_of_mem_toDigits (by omega) (by omega) h

theorem toString_ofNat (n : Nat) : (toString (Int.ofNat n)).toList = Nat.toDigits 10 n :=
  Nat.toList_repr

theorem toString_negSucc (n : Nat) :
    (toString (Int.negSucc n)).toList = '-' :: Nat.toDigits 10 (n + 1) := by
  show ("-" ++ Nat.repr (n + 1)).toList = _
  rw [String.toList_append, Nat.toList_repr]
  rfl

/-- The text of an integer of a range is read as this integer. -/
theorem read_toString {n : Int} (h : r.contains n = true) :
    r.read (toString n).toList = .ok n := by
  obtain ⟨hl, hu⟩ := contains_iff.mp h
  cases n with
  | ofNat m =>
    have hr := readDigits_ok (r := r) false (fun c hc => toDigits_isDigit (n := m) hc) 0 (by
      simpa [Nat.ofDigitChars_ten_toDigits] using hu)
    rw [Nat.ofDigitChars_ten_toDigits] at hr
    rw [toString_ofNat]
    have hdigit := fun c hc => toDigits_isDigit (n := m) (c := c) hc
    have hne := Nat.toDigits_ne_nil (n := m) (b := 10)
    generalize Nat.toDigits 10 m = ds at hr hdigit hne
    match ds, hne with
    | [c], _ => exact hr
    | c :: d :: ds, _ =>
      have hc := hdigit c (by simp)
      have hplus : c ≠ '+' := by
        rintro rfl
        exact absurd hc (by decide)
      have hminus : c ≠ '-' := by
        rintro rfl
        exact absurd hc (by decide)
      simpa [read, hplus, hminus] using hr
  | negSucc m =>
    have hr := readDigits_ok (r := r) true (fun c hc => toDigits_isDigit (n := m + 1) hc) 0 (by
      simp only [Nat.ofDigitChars_ten_toDigits, ↓reduceIte]
      exact hl)
    rw [Nat.ofDigitChars_ten_toDigits] at hr
    rw [toString_negSucc]
    have hne := Nat.toDigits_ne_nil (n := m + 1) (b := 10)
    have hlow : r.low < 0 := by omega
    generalize Nat.toDigits 10 (m + 1) = ds at hr hne
    match ds, hne with
    | c :: ds, _ =>
      simp only [read, hlow, ↓reduceIte]
      exact hr

theorem readDigits_contains {negative : Bool} {cs : List Char} {n : Int} :
    ∀ m : Nat, r.contains (if negative then -(m : Int) else m) = true →
      r.readDigits negative m cs = .ok n → r.contains n = true := by
  induction cs with
  | nil =>
    intro m hm h
    cases h
    exact hm
  | cons c cs ih =>
    intro m hm h
    unfold readDigits at h
    split at h
    · cases h
    · simp only [contains_iff] at hm ih ⊢
      have hle : m ≤ m * 10 + Spelled.digitValue c := by omega
      cases negative with
      | true =>
        simp only [↓reduceIte] at h hm ih
        split at h
        · cases h
        · rename_i hlow
          exact ih _ ⟨by omega, by omega⟩ h
      | false =>
        simp only [Bool.false_eq_true, ↓reduceIte] at h hm ih
        split at h
        · cases h
        · rename_i hhigh
          exact ih _ ⟨by omega, by omega⟩ h

theorem read_contains {cs : List Char} {n : Int} (hl : r.low ≤ 0) (hu : 0 ≤ r.high)
    (h : r.read cs = .ok n) : r.contains n = true := by
  have hzero (negative : Bool) :
      r.contains (if negative then -((0 : Nat) : Int) else (0 : Nat)) = true := by
    cases negative <;> simp [contains_iff, hl, hu]
  unfold read at h
  split at h
  · cases h
  · exact readDigits_contains 0 (hzero false) h
  · exact readDigits_contains 0 (hzero false) h
  · split at h
    · exact readDigits_contains 0 (hzero true) h
    · cases h
  · exact readDigits_contains 0 (hzero false) h

end IntRange

/-- Different integers have different texts. -/
theorem toString_inj {m n : Int} (h : toString m = toString n) : m = n := by
  have hm := IntRange.read_toString (r := ⟨min m n, max m n⟩) (n := m)
    (IntRange.contains_iff.mpr ⟨Int.min_le_left m n, Int.le_max_left m n⟩)
  have hn := IntRange.read_toString (r := ⟨min m n, max m n⟩) (n := n)
    (IntRange.contains_iff.mpr ⟨Int.min_le_right m n, Int.le_max_right m n⟩)
  rw [h, hn] at hm
  exact (Except.ok.inj hm).symm

end RpcConsole

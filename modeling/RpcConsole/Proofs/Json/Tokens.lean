import RpcConsole.Json.Print
import RpcConsole.Json.Read
import RpcConsole.Proofs.Number.Integer

namespace RpcConsole.Json

theorem hexValue?_hexDigit : ∀ n < 16, hexValue? (hexDigit n) = some n := by
  decide

/-- A character that stands for itself. -/
theorem stringTail_plain {c : Char} (hq : c ≠ '"') (hb : c ≠ '\\') (hc : ¬ c.toNat < 32)
    (rest : List Char) :
    stringTail (c :: rest) = (stringTail rest).map fun r => (c :: r.1, r.2) := by
  rw [stringTail]
  simp only [beq_iff_eq, hq, hb, hc, ↓reduceIte]
  cases stringTail rest <;> rfl

theorem stringTail_escaped {c : Char} {cs rest : List Char}
    (h : escapeAt (cs ++ rest) = .ok (c, rest)) :
    stringTail ('\\' :: (cs ++ rest)) = (stringTail rest).map fun r => (c :: r.1, r.2) := by
  rw [stringTail]
  simp only [beq_iff_eq, Char.reduceEq, ↓reduceIte]
  split
  · rename_i hf
    rw [h] at hf
    cases hf
  · rename_i d rest' hd
    rw [h] at hd
    cases hd
    cases stringTail rest <;> rfl

/-- A control character in four hexadecimal digits. -/
theorem unicodeEscape_control {c : Char} (hc : c.toNat < 32) (rest : List Char) :
    unicodeEscape ('0' :: '0' :: hexDigit (c.toNat / 16) :: hexDigit (c.toNat % 16) :: rest) =
      .ok (c, rest) := by
  have hhigh := hexValue?_hexDigit (c.toNat / 16) (by omega)
  have hlow := hexValue?_hexDigit (c.toNat % 16) (by omega)
  have hzero : hexValue? '0' = some 0 := by decide
  have hn : 0 * 4096 + 0 * 256 + c.toNat / 16 * 16 + c.toNat % 16 = c.toNat := by omega
  have hunit : hexUnit ('0' :: '0' :: hexDigit (c.toNat / 16) :: hexDigit (c.toNat % 16) :: rest) =
      .ok (c.toNat, rest) := by
    simp only [hexUnit, hexUnit?, hzero, hhigh, hlow, Option.bind_eq_bind, Option.bind_some, hn,
      Option.pure_def]
  have hlone : ¬ (0xdc00 ≤ c.toNat ∧ c.toNat ≤ 0xdfff) := by omega
  have hpair : c.toNat < 0xd800 ∨ 0xdfff < c.toNat := by omega
  simp only [unicodeEscape, hunit, bind, Except.bind, Bool.and_eq_true, decide_eq_true_eq, hlone,
    ↓reduceIte, Bool.or_eq_true, hpair, pure, Except.pure, Char.ofNat_toNat]

theorem stringTail_escapeChar (c : Char) (rest : List Char) :
    stringTail (escapeChar c ++ rest) =
      (stringTail rest).map fun r => (c :: r.1, r.2) := by
  have letter {d : Char} (h : d ≠ 'u') (hd : letterEscape? d = some c) :
      stringTail ('\\' :: d :: rest) = (stringTail rest).map fun r => (c :: r.1, r.2) := by
    have he : escapeAt ([d] ++ rest) = .ok (c, rest) := by simp [escapeAt, hd]
    exact stringTail_escaped he
  unfold escapeChar
  simp only [beq_iff_eq]
  split
  · subst_vars
    exact letter (by decide) rfl
  split
  · subst_vars
    exact letter (by decide) rfl
  split
  · subst_vars
    exact letter (by decide) rfl
  split
  · subst_vars
    exact letter (by decide) rfl
  split
  · subst_vars
    exact letter (by decide) rfl
  split
  · rename_i h8
    exact letter (by decide) (by rw [← Char.ofNat_toNat c, h8]; rfl)
  split
  · rename_i h12
    exact letter (by decide) (by rw [← Char.ofNat_toNat c, h12]; rfl)
  split
  · rename_i hc
    have he : escapeAt (['u', '0', '0', hexDigit (c.toNat / 16), hexDigit (c.toNat % 16)] ++ rest) =
        .ok (c, rest) := unicodeEscape_control hc rest
    exact stringTail_escaped he
  · rename_i hq hb _ _ _ _ _ hc
    exact stringTail_plain hq hb hc rest

/-- A string is read as it was written. -/
theorem stringTail_escape (cs rest : List Char) :
    stringTail (escape cs ++ '"' :: rest) = .ok (cs, rest) := by
  induction cs with
  | nil => simp [escape, stringTail]
  | cons c cs ih =>
    have he : escape (c :: cs) = escapeChar c ++ escape cs := by simp [escape]
    rw [he, List.append_assoc, stringTail_escapeChar, ih]
    rfl

/-- What can stand behind a value on several lines. -/
def Ends (rest : List Char) : Prop :=
  ∀ c cs, rest = c :: cs → c = ',' ∨ c = '\n'

theorem Ends.not_digit {rest : List Char} (h : Ends rest) : startsWithDigit rest = false := by
  cases rest with
  | nil => rfl
  | cons c cs => rcases h c cs rfl with rfl | rfl <;> rfl

theorem takeDigits_all {rest : List Char} (hr : startsWithDigit rest = false) {ds : List Char}
    (hd : ∀ d ∈ ds, d.isDigit = true) :
    ∀ n count : Nat, Nat.ofDigitChars 10 ds n ≤ maxSignificand →
      takeDigits n count (ds ++ rest) = (Nat.ofDigitChars 10 ds n, count + ds.length, rest) := by
  induction ds with
  | nil =>
    intro n count _
    cases rest with
    | nil => rfl
    | cons c cs =>
      have hc : c.isDigit = false := hr
      simp [takeDigits, hc]
  | cons d ds ih =>
    intro n count hn
    obtain ⟨hdigit, hds⟩ := List.forall_mem_cons.mp hd
    have hv : n * 10 + Spelled.digitValue d = 10 * n + (d.toNat - '0'.toNat) := by
      rw [Spelled.digitValue, Nat.mul_comm]
    rw [Nat.ofDigitChars_cons, ← hv] at hn ⊢
    have hle := IntRange.le_ofDigitChars ds (n * 10 + Spelled.digitValue d)
    have hfits : n * 10 + Spelled.digitValue d ≤ maxSignificand := Nat.le_trans hle hn
    rw [List.cons_append, takeDigits, if_pos (by simp [hdigit, hfits]), ih hds _ _ hn]
    simp only [List.length_cons, Prod.mk.injEq, true_and, and_true]
    omega

/-- Only zero starts with the digit zero. -/
theorem toDigits_head {n : Nat} (h : 0 < n) {c : Char} {cs : List Char}
    (hd : Nat.toDigits 10 n = c :: cs) : c ≠ '0' := by
  induction n using Nat.strongRecOn generalizing c cs with
  | _ n ih =>
    by_cases hn : n < 10
    · rw [Nat.toDigits_of_lt_base hn] at hd
      cases hd
      have hall : ∀ k < 10, 0 < k → k.digitChar ≠ '0' := by decide
      exact hall n hn h
    · rw [Nat.toDigits_of_base_le (by omega) (by omega)] at hd
      cases hq : Nat.toDigits 10 (n / 10) with
      | nil => exact absurd hq Nat.toDigits_ne_nil
      | cons d ds =>
        rw [hq, List.cons_append] at hd
        cases hd
        exact ih (n / 10) (by omega) (by omega) hq

theorem integerPart_ends {negative : Bool} {n : Nat} {rest : List Char} (hr : Ends rest) :
    integerPart negative n 0 rest = .ok (ofWord negative n, rest) := by
  cases rest with
  | nil => rfl
  | cons c cs => rcases hr c cs rfl with rfl | rfl <;> rfl

/-- A natural number behind its sign. -/
theorem number_toDigits {negative : Bool} {n : Nat} {rest : List Char} (hn : n ≤ maxSignificand)
    (hr : Ends rest) :
    number negative (Nat.toDigits 10 n ++ rest) = .ok (ofWord negative n, rest) := by
  have hstop := hr.not_digit
  by_cases h0 : n = 0
  · subst h0
    rw [Nat.toDigits_zero]
    simp [number, hstop, integerPart_ends hr]
  · have hdigits := fun d hd => IntRange.toDigits_isDigit (n := n) (c := d) hd
    have htake := takeDigits_all hstop hdigits 0 0 (by
      rwa [Nat.ofDigitChars_ten_toDigits])
    rw [Nat.ofDigitChars_ten_toDigits] at htake
    cases hd : Nat.toDigits 10 n with
    | nil => exact absurd hd Nat.toDigits_ne_nil
    | cons c cs =>
      have hc := toDigits_head (Nat.pos_of_ne_zero h0) hd
      have hdigit := hdigits c (by simp [hd])
      have htakeWhile : rest.takeWhile Char.isDigit = [] ∧ rest.dropWhile Char.isDigit = rest := by
        cases rest with
        | nil => exact ⟨rfl, rfl⟩
        | cons d ds =>
          have hno : d.isDigit = false := hstop
          simp [hno]
      rw [hd] at htake
      simp only [List.cons_append] at htake ⊢
      simp [number, hc, hdigit, htake, htakeWhile, integerPart_ends hr]

end RpcConsole.Json

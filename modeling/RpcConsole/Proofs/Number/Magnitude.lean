import Mathlib.Data.Nat.Bitwise
import RpcConsole.Message.FromJson
import RpcConsole.Proofs.Number.Rounding

namespace RpcConsole

namespace Format

theorem scale_eq (n d : Nat) (e : Int) :
    scale n d e = (n * 2 ^ (-e).toNat, d * 2 ^ e.toNat) := by
  cases e with
  | ofNat k => simp [scale]
  | negSucc k => simp [scale, Int.neg_negSucc]

end Format

namespace Meaning

/-- A number that is not less than an integer, or no finite number. -/
def AtLeast (b : Nat) : Meaning → Prop
  | .finite negative m e => negative = false ∧ b * 2 ^ (-e).toNat ≤ m * 2 ^ e.toNat
  | .infinite _ | .nan => True

instance (b : Nat) : DecidablePred (AtLeast b)
  | .finite _ _ _ => inferInstanceAs (Decidable (_ ∧ _))
  | .infinite _ | .nan => inferInstanceAs (Decidable True)

/-- The number with the other sign. -/
def neg : Meaning → Meaning
  | .finite negative m e => .finite (!negative) m e
  | .infinite negative => .infinite !negative
  | .nan => .nan

variable {x : Meaning} {b : Nat} {n : Int}

theorem toInt?_neg (h : x.neg.toInt? = some n) : x.toInt? = some (-n) := by
  cases x with
  | infinite | nan => cases h
  | finite negative m e =>
    have hsign (k : Nat) : (if negative then -(k : Int) else k) =
        -(if !negative then -(k : Int) else k) := by
      cases negative <;> simp
    cases e with
    | ofNat k =>
      cases h
      exact congrArg some (hsign _)
    | negSucc k =>
      simp only [neg, toInt?, Option.ite_none_right_eq_some, Option.some.injEq] at h ⊢
      exact ⟨h.1, h.2 ▸ hsign _⟩

theorem AtLeast.mono {c : Nat} (h : x.AtLeast c) (hb : b ≤ c) : x.AtLeast b := by
  cases x with
  | infinite | nan => trivial
  | finite negative m e => exact ⟨h.1, Nat.le_trans (Nat.mul_le_mul_right _ hb) h.2⟩

theorem AtLeast.le (h : x.AtLeast b) (hn : x.toInt? = some n) : (b : Int) ≤ n := by
  cases x with
  | infinite | nan => cases hn
  | finite negative m e =>
    obtain ⟨rfl, h⟩ := h
    cases e with
    | ofNat k =>
      cases hn
      have hb : b ≤ m * 2 ^ k := by simpa using h
      exact Int.ofNat_le.mpr hb
    | negSucc k =>
      simp only [toInt?, Option.ite_none_right_eq_some, Option.some.injEq] at hn
      obtain ⟨-, rfl⟩ := hn
      have hb : b * 2 ^ (k + 1) ≤ m := by simpa [Int.neg_negSucc] using h
      exact Int.ofNat_le.mpr ((Nat.le_div_iff_mul_le (Nat.two_pow_pos (k + 1))).mpr hb)

theorem AtLeast.not_zero (h : x.AtLeast b) (hb : 0 < b) : x.isZero = false := by
  cases x with
  | infinite | nan => rfl
  | finite negative m e =>
    refine beq_eq_false_iff_ne.mpr ?_
    rintro rfl
    have hpos := Nat.mul_pos hb (Nat.two_pow_pos (-e).toNat)
    rw [AtLeast, Nat.zero_mul] at h
    omega

/-- An integer is its own floor. -/
theorem floor?_of_toInt? (h : x.toInt? = some n) : x.floor? = some n := by
  cases x with
  | infinite | nan => cases h
  | finite negative m e =>
    cases e with
    | ofNat k => exact h
    | negSucc k =>
      simp only [toInt?, Option.ite_none_right_eq_some, beq_iff_eq, Option.some.injEq] at h
      obtain ⟨hmod, rfl⟩ := h
      have hunit : ((2 ^ (k + 1) : Nat) : Int) ≠ 0 :=
        Int.natCast_ne_zero.mpr (Nat.two_pow_pos (k + 1)).ne'
      obtain ⟨q, rfl⟩ := Nat.dvd_of_mod_eq_zero hmod
      simp only [Nat.pow_eq] at hmod ⊢
      have hq : 2 ^ (k + 1) * q / 2 ^ (k + 1) = q :=
        Nat.mul_div_cancel_left q (Nat.two_pow_pos (k + 1))
      simp only [floor?, Nat.pow_eq, hq, Int.natCast_mul]
      cases negative with
      | false => exact congrArg some (Int.mul_fdiv_cancel_left _ hunit)
      | true =>
        simp only [↓reduceIte, ← Int.mul_neg]
        exact congrArg some (Int.mul_fdiv_cancel_left _ hunit)

end Meaning

namespace Format

variable {n d q u b c m k : Nat} {e e' : Int}

theorem round_le_infinity (f : Format) (n d : Nat) : f.round n d ≤ f.infinity := by
  unfold round
  split
  · exact Nat.zero_le _
  · exact Nat.min_le_left _ _

/-- What is above the middle below `q * 2 ^ u` is rounded to at least that. -/
theorem meaning_round_atLeast (hd : 0 < d) (hq : 2 ^ 52 < q) (hq' : q ≤ 2 ^ 53)
    (h : (2 * q - 1) * (d * 2 ^ u) < 2 * n) :
    (binary64.meaning (binary64.round n d)).AtLeast (q * 2 ^ u) := by
  have hword := word_le_round (f := binary64) (by decide) hd hq hq' h
  rcases Nat.lt_or_ge (binary64.round n d) binary64.infinity with hlt | hge
  · rcases min_le_iff.mp hword with hle | hle
    · exact absurd hle (Nat.not_le.mpr hlt)
    · obtain ⟨m, k, hm, hk⟩ :=
        meaning_of_word_le (f := binary64) (by decide) hq.le hq' hle hlt
      rw [hm]
      exact ⟨rfl, by simpa using hk⟩
  · have hinfinite : binary64.meaning binary64.infinity = .infinite false := by decide +kernel
    rw [Nat.le_antisymm (round_le_infinity binary64 n d) hge, hinfinite]
    trivial

theorem meaning_ofScaled_atLeast (hq : 2 ^ 52 < q) (hq' : q ≤ 2 ^ 53)
    (hb : b * 2 ^ (-e).toNat ≤ m * 2 ^ e.toNat) (hc : c * 2 ^ (-e').toNat ≤ k * 2 ^ e'.toNat)
    (h : (2 * q - 1) * 2 ^ u < 2 * (b * c)) :
    (binary64.meaning (binary64.ofScaled false (m * k) (e + e'))).AtLeast (q * 2 ^ u) := by
  unfold ofScaled roundSigned
  rw [scale_eq]
  simp only [Bool.false_eq_true, ↓reduceIte, Nat.add_zero, Nat.one_mul, Int.neg_neg]
  refine meaning_round_atLeast (Nat.two_pow_pos _) hq hq' ?_
  have hprod : b * c * 2 ^ (-(e + e')).toNat ≤ m * k * 2 ^ (e + e').toNat := by
    -- what the two exponents have against each other cancels
    obtain ⟨δ, hδ, hδ'⟩ : ∃ δ, (-e).toNat + (-e').toNat = (-(e + e')).toNat + δ ∧
        e.toNat + e'.toNat = (e + e').toNat + δ :=
      ⟨e.toNat + e'.toNat - (e + e').toNat, by omega, by omega⟩
    refine Nat.le_of_mul_le_mul_right ?_ (Nat.two_pow_pos δ)
    calc b * c * 2 ^ (-(e + e')).toNat * 2 ^ δ
        = b * 2 ^ (-e).toNat * (c * 2 ^ (-e').toNat) := by
          rw [Nat.mul_assoc (b * c), ← Nat.pow_add, ← hδ]
          ring
      _ ≤ m * 2 ^ e.toNat * (k * 2 ^ e'.toNat) := Nat.mul_le_mul hb hc
      _ = m * k * 2 ^ (e + e').toNat * 2 ^ δ := by
          rw [Nat.mul_assoc (m * k), ← Nat.pow_add, ← hδ']
          ring
  calc (2 * q - 1) * (2 ^ (-(e + e')).toNat * 2 ^ u)
      = (2 * q - 1) * 2 ^ u * 2 ^ (-(e + e')).toNat := by ring
    _ < 2 * (b * c) * 2 ^ (-(e + e')).toNat :=
      Nat.mul_lt_mul_of_pos_right h (Nat.two_pow_pos _)
    _ ≤ 2 * (m * k * 2 ^ (e + e').toNat) := by
      rw [Nat.mul_assoc]
      exact Nat.mul_le_mul_left 2 hprod

end Format

namespace Binary64

variable {n q u b c : Nat} {x y : Binary64}

theorem meaning_ofWord {w : Nat} (h : w ≤ Format.binary64.infinity) :
    (ofWord w).meaning = Format.binary64.meaning w := by
  have hinfinity : Format.binary64.infinity < 2 ^ 64 := by decide
  unfold ofWord meaning
  rw [Nat.toUInt64, UInt64.toNat_ofNat', Nat.mod_eq_of_lt (Nat.lt_of_le_of_lt h hinfinity)]

/-- An integer above the middle below `q * 2 ^ u` is rounded to at least that. -/
theorem ofNat_atLeast (hq : 2 ^ 52 < q) (hq' : q ≤ 2 ^ 53) (h : (2 * q - 1) * 2 ^ u < 2 * n) :
    (ofNat n).meaning.AtLeast (q * 2 ^ u) := by
  rw [ofNat, meaning_ofWord (Format.round_le_infinity _ _ _)]
  exact Format.meaning_round_atLeast (by omega) hq hq' (by rwa [Nat.one_mul])

/-- A product of numbers that are at least two integers, with the product of these above the middle
below `q * 2 ^ u`. -/
theorem mul_atLeast (hq : 2 ^ 52 < q) (hq' : q ≤ 2 ^ 53) (hx : x.meaning.AtLeast b)
    (hy : y.meaning.AtLeast c) (h : (2 * q - 1) * 2 ^ u < 2 * (b * c)) :
    (x.mul y).meaning.AtLeast (q * 2 ^ u) := by
  have hnan : nan.meaning = .nan := by decide +kernel
  unfold mul
  cases hmx : x.meaning with
  | infinite | nan => simp [hnan, Meaning.AtLeast]
  | finite s m e =>
    cases hmy : y.meaning with
    | infinite | nan => simp [hnan, Meaning.AtLeast]
    | finite s' k e' =>
      rw [hmx] at hx
      rw [hmy] at hy
      obtain ⟨rfl, hx⟩ := hx
      obtain ⟨rfl, hy⟩ := hy
      have hscaled := Format.meaning_ofScaled_atLeast hq hq' hx hy h
      simp only [bne_self_eq_false]
      rwa [meaning_ofWord]
      unfold Format.ofScaled Format.roundSigned
      exact Format.round_le_infinity _ _ _

/-- Turning the sign bit over changes the sign. -/
theorem meaning_neg (x : Binary64) : x.neg.meaning = x.meaning.neg := by
  have hbits : x.neg.bits.toNat = x.bits.toNat ^^^ 2 ^ 63 := UInt64.toNat_xor _ _
  have hword : x.bits.toNat < 2 ^ 64 := x.bits.toNat_lt
  unfold meaning
  rw [hbits]
  generalize x.bits.toNat = w at hword
  have hexponent : (w ^^^ 2 ^ 63) / 2 ^ 52 % 2 ^ 11 = w / 2 ^ 52 % 2 ^ 11 := by
    rw [Nat.xor_div_two_pow, Nat.xor_mod_two_pow]
    exact Nat.xor_zero _
  have hfraction : (w ^^^ 2 ^ 63) % 2 ^ 52 = w % 2 ^ 52 := by
    rw [Nat.xor_mod_two_pow]
    exact Nat.xor_zero _
  have hsign : ((w ^^^ 2 ^ 63) / 2 ^ 63 % 2 == 1) = !(w / 2 ^ 63 % 2 == 1) := by
    have hflip : ∀ b < 2, ((b ^^^ 1) % 2 == 1) = !(b % 2 == 1) := by decide
    rw [Nat.xor_div_two_pow, Nat.div_self (Nat.two_pow_pos 63)]
    exact hflip _ (Nat.div_lt_of_lt_mul (by omega))
  have hbit : Format.binary64.signBit = 2 ^ 63 := rfl
  have hwide : Format.binary64.exponent = 11 := rfl
  have hlong : Format.binary64.fraction = 52 := rfl
  unfold Format.meaning
  simp only [hbit, hwide, hlong, Nat.pow_eq, hsign, hexponent, hfraction]
  repeat' split
  all_goals rfl

end Binary64

namespace IntRange

/-- What a floating-point number is taken for is the integer that it is, brought into the range. It
is not taken for anything if it is out of the range, or above the number nearest to its end. -/
theorem ofBinary64_ok {r : IntRange} {x : Binary64} {v : Int} (h : r.ofBinary64 x = .ok v) :
    ∃ k, x.meaning.toInt? = some k ∧ r.low ≤ k ∧ k ≤ r.nearHigh ∧ v = r.clamp k := by
  unfold ofBinary64 at h
  dsimp only at h
  split at h
  · cases h
  · rename_i hrange
    split at h
    · rename_i k hk
      simp only [Meaning.isBelow, Meaning.floor?_of_toInt? hk, Meaning.isAbove, hk, Bool.or_eq_true,
        decide_eq_true_eq, not_or, Int.not_lt] at hrange
      exact ⟨k, hk, hrange.1, hrange.2, (Except.ok.inj h).symm⟩
    · cases h

end IntRange
end RpcConsole

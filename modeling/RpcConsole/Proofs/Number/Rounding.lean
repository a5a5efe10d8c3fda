import Mathlib.Order.MinMax
import Mathlib.Tactic.Ring
import RpcConsole.Number.Binary

namespace RpcConsole.Format

variable {f : Format} {n d q u : Nat}

/-- Rounding takes at most one half away. -/
theorem roundHalfEven_ge (n : Nat) (hd : 0 < d) :
    2 * n ≤ (2 * roundHalfEven n d + 1) * d := by
  have hn := Nat.div_add_mod n d
  have hr := Nat.mod_lt n hd
  have hq (k : Nat) : (2 * (n / d + k) + 1) * d = 2 * (d * (n / d)) + (2 * k + 1) * d := by ring
  unfold roundHalfEven
  dsimp only
  split
  · rw [← Nat.add_zero (n / d), hq]
    omega
  · split
    · rw [hq]
      omega
    · rw [hq]
      have := Nat.le_mul_of_pos_left d (show 0 < 2 * (n / d % 2) + 1 by omega)
      omega

/-- What is more than `q - 1/2` is rounded to `q` at least. -/
theorem le_roundHalfEven (hd : 0 < d) (h : (2 * q - 1) * d < 2 * n) : q ≤ roundHalfEven n d := by
  have hr := roundHalfEven_ge n hd
  have hlt : 2 * q - 1 < 2 * roundHalfEven n d + 1 :=
    Nat.lt_of_mul_lt_mul_right (Nat.lt_of_lt_of_le h hr)
  omega

/-- The word of `q * 2 ^ u`, where `q` has all its bits, or is the next power of two. -/
def word (f : Format) (q u : Nat) : Nat :=
  (u - f.least).toNat * 2 ^ f.fraction + q

/-- In finer units the rounded number counts for more words than there are units between. -/
theorem word_fine {a b k : Nat} (hb : 0 < b) (hq : 2 ^ f.fraction < q)
    (h : (2 * q - 1) * 2 ^ k * b < 2 * a) : k * 2 ^ f.fraction + q ≤ roundHalfEven a b := by
  have hunits : 2 * (k * 2 ^ f.fraction + q) - 1 ≤ (2 * q - 1) * 2 ^ k := by
    clear h
    induction k with
    | zero => simp
    | succ k ih =>
      have hself : 2 * q - 1 ≤ (2 * q - 1) * 2 ^ k := Nat.le_mul_of_pos_right _ Nat.one_le_two_pow
      have htwice : (2 * q - 1) * 2 ^ (k + 1) = 2 * ((2 * q - 1) * 2 ^ k) := by ring
      rw [htwice, Nat.add_mul, Nat.one_mul]
      omega
  exact le_roundHalfEven hb (Nat.lt_of_le_of_lt (Nat.mul_le_mul_right b hunits) h)

/-- In units twice as coarse the rounded number is at least half as many. -/
theorem word_coarse {a b : Nat} (hb : 0 < b) (hq : q ≤ 2 ^ (f.fraction + 1))
    (h : (2 * q - 1) * b < 2 * (2 * a)) : q ≤ 2 ^ f.fraction + roundHalfEven a b := by
  have hr := roundHalfEven_ge a hb
  have hlt : 2 * q - 1 < 2 * (2 * roundHalfEven a b + 1) := by
    refine Nat.lt_of_mul_lt_mul_right (Nat.lt_of_lt_of_le h ?_) (a := b)
    rw [Nat.mul_assoc]
    omega
  rw [Nat.pow_succ] at hq
  omega

/-- The word of `q * 2 ^ u` comes before the one that is made with any unit. -/
theorem word_le_of_unit {unit : Int} (hl : f.least ≤ 0) (hunit : f.least ≤ unit) (hd : 0 < d)
    (hq : 2 ^ f.fraction < q) (hq' : q ≤ 2 ^ (f.fraction + 1))
    (h : (2 * q - 1) * (d * 2 ^ u) < 2 * n) :
    f.word q u ≤ (unit - f.least).toNat * 2 ^ f.fraction +
      roundHalfEven (scale n d unit).1 (scale n d unit).2 := by
  have hmove {x y : Int} {k : Nat} (hy : f.least ≤ y) (hx : x = y + k) :
      (x - f.least).toNat * 2 ^ f.fraction =
        (y - f.least).toNat * 2 ^ f.fraction + k * 2 ^ f.fraction := by
    rw [← Nat.add_mul]
    congr 1
    omega
  unfold word
  cases unit with
  | negSucc k =>
    have hfine : (2 * q - 1) * 2 ^ (u + k + 1) * d < 2 * (n * 2 ^ (k + 1)) := by
      have hmul := Nat.mul_lt_mul_of_pos_right h (Nat.two_pow_pos (k + 1))
      calc (2 * q - 1) * 2 ^ (u + k + 1) * d
          = (2 * q - 1) * (d * 2 ^ u) * 2 ^ (k + 1) := by ring
        _ < 2 * n * 2 ^ (k + 1) := hmul
        _ = 2 * (n * 2 ^ (k + 1)) := by ring
    have hle := word_fine hd hq hfine
    rw [hmove hunit (k := u + k + 1) (by omega)]
    simp only [scale, Nat.pow_eq]
    omega
  | ofNat k =>
    simp only [scale, Nat.pow_eq, Int.ofNat_eq_natCast] at hunit ⊢
    have hpos : 0 < d * 2 ^ k := Nat.mul_pos hd (Nat.two_pow_pos k)
    rcases Nat.lt_or_ge u k with hk | hk
    · obtain ⟨e, rfl⟩ := Nat.exists_eq_add_of_lt hk
      rw [hmove (x := ((u + e + 1 : Nat) : Int)) (y := u) (k := e + 1) (by omega) (by omega)]
      rw [Nat.add_mul, Nat.one_mul]
      cases e with
      | zero =>
        have hcoarse : (2 * q - 1) * (d * 2 ^ (u + 0 + 1)) < 2 * (2 * n) := by
          calc (2 * q - 1) * (d * 2 ^ (u + 0 + 1))
              = 2 * ((2 * q - 1) * (d * 2 ^ u)) := by ring
            _ < 2 * (2 * n) := Nat.mul_lt_mul_of_pos_left h (by omega)
        have hle := word_coarse hpos hq' hcoarse
        omega
      | succ e =>
        have hle : 2 ^ f.fraction ≤ (e + 1) * 2 ^ f.fraction :=
          Nat.le_mul_of_pos_left _ (by omega)
        rw [Nat.pow_succ] at hq'
        omega
    · obtain ⟨e, rfl⟩ := Nat.exists_eq_add_of_le hk
      have hfine : (2 * q - 1) * 2 ^ e * (d * 2 ^ k) < 2 * n := by
        calc (2 * q - 1) * 2 ^ e * (d * 2 ^ k)
            = (2 * q - 1) * (d * 2 ^ (k + e)) := by ring
          _ < 2 * n := h
      have hle := word_fine hpos hq hfine
      rw [hmove hunit (k := e) (by omega)]
      omega

/-- A fraction above the middle between the word of `q * 2 ^ u` and the one below is rounded to the
upper word at least. -/
theorem word_le_round (hl : f.least ≤ 0) (hd : 0 < d) (hq : 2 ^ f.fraction < q)
    (hq' : q ≤ 2 ^ (f.fraction + 1)) (h : (2 * q - 1) * (d * 2 ^ u) < 2 * n) :
    min f.infinity (f.word q u) ≤ f.round n d := by
  have hn : (n == 0 || d == 0) = false := by
    have hn : n ≠ 0 := by omega
    simp [hn, hd.ne']
  unfold round
  rw [hn]
  simp only [Bool.false_eq_true, ↓reduceIte, Nat.pow_eq]
  refine min_le_min_left _ (word_le_of_unit hl ?_ hd hq hq' h)
  split
  · exact le_max_right _ _
  · exact (le_max_right _ _).trans (Int.le_add_one (Int.le_refl _))

/-- A finite word that does not come before the one of `q * 2 ^ u` stands for a number that is not
less. -/
theorem meaning_of_word_le {w : Nat} (hl : f.least ≤ 0) (hq : 2 ^ f.fraction ≤ q)
    (hq' : q ≤ 2 ^ (f.fraction + 1)) (h : f.word q u ≤ w) (hw : w < f.infinity) :
    ∃ m k, f.meaning w = .finite false m (.ofNat k) ∧ q * 2 ^ u ≤ m * 2 ^ k := by
  have hpos := Nat.two_pow_pos f.fraction
  have hsplit := Nat.div_add_mod w (2 ^ f.fraction)
  unfold infinity at hw
  simp only [Nat.pow_eq] at hw
  have hexponent : w / 2 ^ f.fraction < 2 ^ f.exponent - 1 := Nat.div_lt_of_lt_mul (by
    rwa [Nat.mul_comm] at hw)
  have hsign : w / 2 ^ (f.fraction + f.exponent) = 0 := by
    refine Nat.div_eq_of_lt (Nat.lt_of_lt_of_le hw ?_)
    rw [Nat.pow_add, Nat.mul_comm]
    exact Nat.mul_le_mul_left _ (Nat.sub_le _ _)
  have hunits : (u - f.least).toNat + 1 ≤ w / 2 ^ f.fraction := by
    rw [Nat.le_div_iff_mul_le hpos, Nat.add_mul, Nat.one_mul]
    exact Nat.le_trans (Nat.add_le_add_left hq _) h
  obtain ⟨e, he⟩ := Nat.exists_eq_add_of_le hunits
  have hmeaning : f.meaning w =
      .finite false (2 ^ f.fraction + w % 2 ^ f.fraction) (.ofNat (u + e)) := by
    have hmod : w / 2 ^ f.fraction % 2 ^ f.exponent = w / 2 ^ f.fraction :=
      Nat.mod_eq_of_lt (by omega)
    have hne : (w / 2 ^ f.fraction == 2 ^ f.exponent - 1) = false :=
      beq_eq_false_iff_ne.mpr hexponent.ne
    have hnormal : (w / 2 ^ f.fraction == 0) = false := beq_eq_false_iff_ne.mpr (by omega)
    have hunit : f.least + (w / 2 ^ f.fraction - 1 : Nat) = Int.ofNat (u + e) := by
      rw [Int.ofNat_eq_natCast]
      omega
    unfold meaning signBit
    simp only [Nat.pow_eq, hsign, hmod, hne, hnormal, hunit, Nat.zero_mod]
    rfl
  refine ⟨_, _, hmeaning, ?_⟩
  cases e with
  | zero =>
    refine Nat.mul_le_mul_right _ ?_
    unfold word at h
    rw [he] at hsplit
    simp only [Nat.add_zero, Nat.mul_add, Nat.mul_one] at hsplit
    rw [Nat.mul_comm] at h
    omega
  | succ e =>
    have hpow : 2 * 2 ^ u ≤ 2 ^ (u + (e + 1)) := by
      rw [← Nat.pow_succ']
      exact Nat.pow_le_pow_right (by omega) (by omega)
    calc q * 2 ^ u ≤ 2 ^ (f.fraction + 1) * 2 ^ u := Nat.mul_le_mul_right _ hq'
      _ = 2 ^ f.fraction * (2 * 2 ^ u) := by ring
      _ ≤ (2 ^ f.fraction + w % 2 ^ f.fraction) * 2 ^ (u + (e + 1)) :=
        Nat.mul_le_mul (Nat.le_add_right _ _) hpow

end RpcConsole.Format

import Mathlib.Algebra.Group.Int.Defs
import Mathlib.Algebra.Group.Nat.Defs
import RpcConsole.Wire.Varint

namespace RpcConsole.Wire

theorem toNat_low {n : Nat} (h : n < 256) : n.toUInt8.toNat = n := by
  rw [UInt8.toNat_ofNat']
  omega

theorem varint_of_lt {n : Nat} (h : n < 128) : varint n = [n.toUInt8] := by
  rw [varint, if_pos h]

theorem varint_of_le {n : Nat} (h : 128 ≤ n) :
    varint n = (128 + n % 128).toUInt8 :: varint (n / 128) := by
  rw [varint, if_neg (by omega)]

theorem varint_ne_nil (n : Nat) : varint n ≠ [] := by
  rw [varint]
  split <;> simp

theorem varint_length_pos (n : Nat) : 1 ≤ (varint n).length :=
  List.length_pos_iff.mpr (varint_ne_nil n)

/-- The bytes from some index on have room for what is left of 64 bits. -/
theorem readVarintFrom_varint (n index : Nat) (hi : index ≤ 9) (hn : n < 2 ^ (64 - 7 * index))
    (rest : List UInt8) : readVarintFrom index (varint n ++ rest) = .ok (n, rest) := by
  induction n using Nat.strongRecOn generalizing index with
  | ind n ih =>
    by_cases h : n < 128
    · rw [varint_of_lt h]
      have hb : n.toUInt8.toNat = n := toNat_low (by omega)
      have hlt : n.toUInt8 < 128 := by
        rw [UInt8.lt_iff_toNat_lt, hb]
        exact h
      have hlast : (index + 1 == varintLimit && decide (2 ≤ n.toUInt8)) = false := by
        by_cases h9 : index = 9
        · subst h9
          have hnlt : ¬ 2 ≤ n.toUInt8 := by
            rw [UInt8.le_iff_toNat_le, hb]
            have : n < 2 := hn
            simpa using this
          simp [hnlt]
        · have hne : index + 1 ≠ varintLimit := by
            simp only [varintLimit]
            omega
          simp [hne]
      simp only [List.singleton_append, readVarintFrom, hlt, ↓reduceIte, hlast, Bool.false_eq_true,
        hb]
    · rw [varint_of_le (by omega)]
      have hb : (128 + n % 128).toUInt8.toNat = 128 + n % 128 := toNat_low (by omega)
      have hge : ¬ (128 + n % 128).toUInt8 < 128 := by
        rw [UInt8.lt_iff_toNat_lt, hb]
        simp
      have h9 : index ≠ 9 := by
        rintro rfl
        have : n < 2 := hn
        omega
      have hne : (index + 1 == varintLimit) = false := by
        simp only [varintLimit, beq_eq_false_iff_ne, ne_eq]
        omega
      have hpow : 2 ^ (64 - 7 * index) = 128 * 2 ^ (64 - 7 * (index + 1)) := by
        have he : 64 - 7 * index = 7 + (64 - 7 * (index + 1)) := by omega
        rw [he, Nat.pow_add]
      have hrec := ih (n / 128) (by omega) (index + 1) (by omega) (by
        rw [hpow] at hn
        exact Nat.div_lt_of_lt_mul hn)
      simp only [List.cons_append, readVarintFrom, hge, ↓reduceIte, hne, Bool.false_eq_true, hrec,
        hb, Except.ok.injEq, Prod.mk.injEq, and_true]
      omega

/-- The greatest number that is read, and one. -/
abbrev wordLimit : Nat := 2 ^ 64

theorem readVarint_varint {n : Nat} (h : n < wordLimit) (rest : List UInt8) :
    readVarint (varint n ++ rest) = .ok (n, rest) :=
  readVarintFrom_varint n 0 (by omega) h rest

theorem readVarintFrom_lt {index : Nat} {bs rest : List UInt8} {n : Nat} (hi : index ≤ 9)
    (h : readVarintFrom index bs = .ok (n, rest)) :
    n < 2 ^ (64 - 7 * index) ∧ rest.length < bs.length := by
  induction bs generalizing index n with
  | nil => cases h
  | cons b bs ih =>
    unfold readVarintFrom at h
    split at h
    · rename_i hb
      split at h
      · cases h
      · rename_i hlast
        cases h
        have hb : b.toNat < 128 := hb
        refine ⟨?_, by simp⟩
        by_cases h9 : index = 9
        · subst h9
          have hlt : ¬ 2 ≤ b := by simpa [varintLimit] using hlast
          rw [UInt8.le_iff_toNat_le] at hlt
          simp only [UInt8.reduceToNat, Nat.not_le] at hlt
          exact hlt
        · have hp : (2 : Nat) ^ 7 ≤ 2 ^ (64 - 7 * index) :=
            Nat.pow_le_pow_right (by omega) (by omega)
          omega
    · split at h
      · cases h
      · rename_i h9
        have h9 : index ≠ 9 := by simpa [varintLimit] using h9
        split at h
        · rename_i high rest' hr
          cases h
          obtain ⟨hh, hl⟩ := ih (by omega) hr
          have he : 64 - 7 * index = 7 + (64 - 7 * (index + 1)) := by omega
          rw [he, Nat.pow_add]
          exact ⟨by omega, by simp only [List.length_cons]; omega⟩
        · cases h

theorem readVarint_lt {bs rest : List UInt8} {n : Nat} (h : readVarint bs = .ok (n, rest)) :
    n < wordLimit ∧ rest.length < bs.length :=
  readVarintFrom_lt (by omega) h

theorem fixed_length (width n : Nat) : (fixed width n).length = width := by
  induction width generalizing n with
  | zero => rfl
  | succ width ih => simp [fixed, ih]

theorem ofFixed_fixed (width : Nat) {n : Nat} (h : n < 256 ^ width) :
    ofFixed (fixed width n) = n := by
  induction width generalizing n with
  | zero =>
    have hn : n = 0 := by simpa using h
    rw [hn]
    rfl
  | succ width ih =>
    have hb : n.toUInt8.toNat = n % 256 := UInt8.toNat_ofNat'
    rw [Nat.pow_succ] at h
    rw [fixed, ofFixed, ih (by omega), hb]
    omega

theorem ofFixed_lt (bs : List UInt8) : ofFixed bs < 256 ^ bs.length := by
  induction bs with
  | nil => simp [ofFixed]
  | cons b bs ih =>
    have hb := b.toNat_lt
    rw [ofFixed, List.length_cons, Nat.pow_succ]
    omega

theorem takeBytes_append (front rest : List UInt8) :
    takeBytes front.length (front ++ rest) = .ok (front, rest) := by
  unfold takeBytes
  rw [if_neg (by simp), List.take_left, List.drop_left]

theorem takeBytes_ok {count : Nat} {bs front rest : List UInt8}
    (h : takeBytes count bs = .ok (front, rest)) : bs = front ++ rest ∧ front.length = count := by
  unfold takeBytes at h
  split at h
  · cases h
  · cases h
    exact ⟨(List.take_append_drop count bs).symm, by rw [List.length_take]; omega⟩

theorem readFixed_fixed (width : Nat) {n : Nat} (h : n < 256 ^ width) (rest : List UInt8) :
    readFixed width (fixed width n ++ rest) = .ok (n, rest) := by
  have ht := takeBytes_append (fixed width n) rest
  rw [fixed_length] at ht
  rw [readFixed, ht]
  simp only [ofFixed_fixed width h]

theorem readFixed_lt {width n : Nat} {bs rest : List UInt8}
    (h : readFixed width bs = .ok (n, rest)) : n < 256 ^ width := by
  unfold readFixed at h
  split at h
  · rename_i front rest' ht
    cases h
    obtain ⟨-, hl⟩ := takeBytes_ok ht
    exact hl ▸ ofFixed_lt front
  · cases h

theorem readBytes_counted {bs : List UInt8} (h : bs.length < wordLimit) (rest : List UInt8) :
    readBytes (counted bs ++ rest) = .ok (bs, rest) := by
  rw [readBytes, counted, List.append_assoc, readVarint_varint h]
  exact takeBytes_append bs rest

theorem word_lt (n : Int) : word 64 n < wordLimit := by
  have h : (0 : Int) < Nat.pow 2 64 := by decide
  have hl := Int.emod_lt_of_pos n h
  have hn := Int.emod_nonneg n (Int.ne_of_gt h)
  unfold word
  exact (Int.toNat_lt hn).mpr hl

theorem word32_lt (n : Int) : word 32 n < 256 ^ 4 := by
  have h : (0 : Int) < Nat.pow 2 32 := by decide
  have hl := Int.emod_lt_of_pos n h
  have hn := Int.emod_nonneg n (Int.ne_of_gt h)
  unfold word
  exact (Int.toNat_lt hn).mpr hl

/-- The word of a number that fits into the bits that count, perhaps with more bits. -/
theorem ofWord_word (bits wide : Nat) (hw : bits ≤ wide) (hb : 0 < bits) {n : Int}
    (hl : -(2 ^ (bits - 1) : Int) ≤ n) (hu : n < 2 ^ (bits - 1)) :
    ofWord bits (word wide n) = n := by
  have hpos : (0 : Int) < Nat.pow 2 wide := by
    exact_mod_cast Nat.pow_pos (by omega : 0 < 2)
  have hn := Int.emod_nonneg n (Int.ne_of_gt hpos)
  have hdvd : (Nat.pow 2 bits : Int) ∣ Nat.pow 2 wide := by
    exact_mod_cast Nat.pow_dvd_pow 2 hw
  have hdouble : (Nat.pow 2 bits : Int) = 2 * 2 ^ (bits - 1) := by
    obtain ⟨k, rfl⟩ : ∃ k, bits = k + 1 := ⟨bits - 1, by omega⟩
    have hp : Nat.pow 2 (k + 1) = 2 * 2 ^ k := Nat.pow_succ'
    rw [Nat.add_sub_cancel]
    exact_mod_cast hp
  have hmod : (n % (Nat.pow 2 wide : Int)) % (Nat.pow 2 bits : Int) = n % (Nat.pow 2 bits : Int) :=
    Int.emod_emod_of_dvd n hdvd
  unfold ofWord word
  rw [Int.toNat_of_nonneg hn]
  rw [← Int.emod_bmod, hmod, Int.emod_bmod]
  exact Int.bmod_eq_of_le_mul_two (by omega) (by omega)

theorem ofZigzag_zigzag (n : Int) : ofZigzag (zigzag n) = n := by
  cases n with
  | ofNat n =>
    have h : (2 * n) % 2 = 0 := by omega
    have hd : 2 * n / 2 = n := by omega
    simp [zigzag, ofZigzag, h, hd]
  | negSucc n =>
    have h : (2 * n + 1) % 2 = 1 := by omega
    have hd : (2 * n + 1) / 2 = n := by omega
    simp [zigzag, ofZigzag, h, hd]

theorem zigzag_lt {n : Int} {k : Nat} (hl : -(k : Int) ≤ n) (hu : n < k) : zigzag n < 2 * k := by
  cases n with
  | ofNat n =>
    have : (n : Int) < k := hu
    simp only [zigzag]
    omega
  | negSucc n =>
    have : -(k : Int) ≤ -(n + 1 : Int) := by
      rw [Int.negSucc_eq] at hl
      exact hl
    simp only [zigzag]
    omega

theorem ofWord_bounds (bits : Nat) (hb : 0 < bits) (n : Nat) :
    -(2 ^ (bits - 1) : Int) ≤ ofWord bits n ∧ ofWord bits n < 2 ^ (bits - 1) := by
  obtain ⟨k, rfl⟩ : ∃ k, bits = k + 1 := ⟨bits - 1, by omega⟩
  have hp : Nat.pow 2 (k + 1) = 2 * 2 ^ k := Nat.pow_succ'
  have hpos : 0 < Nat.pow 2 (k + 1) := Nat.pow_pos (by omega)
  have hl := Int.le_bmod (x := n) hpos
  have hu := Int.bmod_lt (x := n) hpos
  have he : ((2 ^ k : Nat) : Int) = 2 ^ k := by exact_mod_cast rfl
  rw [hp] at hl hu
  rw [Nat.add_sub_cancel, ← he]
  unfold ofWord
  rw [hp]
  omega

theorem ofZigzag_bounds {n k : Nat} (h : n < 2 * k) : -(k : Int) ≤ ofZigzag n ∧ ofZigzag n < k := by
  unfold ofZigzag
  split
  · omega
  · rw [Int.negSucc_eq]
    omega

end RpcConsole.Wire

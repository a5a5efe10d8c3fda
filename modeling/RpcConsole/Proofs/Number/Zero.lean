import RpcConsole.Number.Binary

namespace RpcConsole

/-- A word that stands for zero has no bits but that of the sign. -/
theorem Format.eq_of_isZero {f : Format} {w : Nat} (hw : w < 2 * f.signBit)
    (h : (f.meaning w).isZero = true) : w = 0 ∨ w = f.signBit := by
  have hparts : w / Nat.pow 2 f.fraction % Nat.pow 2 f.exponent = 0 ∧
      w % Nat.pow 2 f.fraction = 0 := by
    unfold meaning at h
    dsimp only at h
    split at h
    · split at h <;> cases h
    · split at h
      · rename_i hexponent
        exact ⟨beq_iff_eq.mp hexponent, beq_iff_eq.mp h⟩
      · have hpos : 0 < Nat.pow 2 f.fraction := Nat.two_pow_pos _
        have hzero := beq_iff_eq.mp h
        omega
  have hmod : w % f.signBit = 0 := by
    have hsplit : f.signBit = Nat.pow 2 f.fraction * Nat.pow 2 f.exponent := Nat.pow_add ..
    rw [hsplit, Nat.mod_mul, hparts.1, hparts.2, Nat.mul_zero]
  have hcount : w / f.signBit < 2 := Nat.div_lt_of_lt_mul (by rwa [Nat.mul_comm])
  have hwhole := Nat.div_add_mod w f.signBit
  rw [hmod, Nat.add_zero] at hwhole
  rcases Nat.lt_succ_iff_lt_or_eq.mp hcount with hnone | hone
  · rw [Nat.lt_one_iff.mp hnone, Nat.mul_zero] at hwhole
    exact .inl hwhole.symm
  · rw [hone, Nat.mul_one] at hwhole
    exact .inr hwhole.symm

/-- Zero with its sign bit set. -/
def Binary64.negativeZero : Binary64 := ⟨0x8000000000000000⟩

/-- Zero with its sign bit set. -/
def Binary32.negativeZero : Binary32 := ⟨0x80000000⟩

/-- The words of zero. -/
def Binary64.IsZero (x : Binary64) : Prop :=
  x = .zero ∨ x = .negativeZero

/-- The words of zero. -/
def Binary32.IsZero (x : Binary32) : Prop :=
  x = .zero ∨ x = .negativeZero

@[simp] theorem Binary64.isZero_zero : Binary64.zero.IsZero := .inl rfl

@[simp] theorem Binary32.isZero_zero : Binary32.zero.IsZero := .inl rfl

theorem Binary64.isZero_of_numEq {x : Binary64} (h : x.numEq .zero = true) : x.IsZero := by
  unfold numEq at h
  split at h
  · cases h
  · rcases Bool.or_eq_true_iff.mp h with h | h
    · exact .inl (beq_iff_eq.mp h)
    · have hword := Format.eq_of_isZero x.bits.toNat_lt (Bool.and_eq_true_iff.mp h).1
      exact hword.imp (fun h => congrArg mk (UInt64.toNat_inj.mp h))
        fun h => congrArg mk (UInt64.toNat_inj.mp h)

theorem Binary32.isZero_of_numEq {x : Binary32} (h : x.numEq .zero = true) : x.IsZero := by
  unfold numEq at h
  split at h
  · cases h
  · rcases Bool.or_eq_true_iff.mp h with h | h
    · exact .inl (beq_iff_eq.mp h)
    · have hword := Format.eq_of_isZero x.bits.toNat_lt (Bool.and_eq_true_iff.mp h).1
      exact hword.imp (fun h => congrArg mk (UInt32.toNat_inj.mp h))
        fun h => congrArg mk (UInt32.toNat_inj.mp h)

/-- A zero keeps its sign in the wider format. -/
theorem Binary32.IsZero.toBinary64 {x : Binary32} (hx : x.IsZero) : x.toBinary64.IsZero := by
  rcases hx with rfl | rfl
  · exact .inl (by decide +kernel)
  · exact .inr (by decide +kernel)

end RpcConsole

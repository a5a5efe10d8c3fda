import RpcConsole.Proofs.Basic
import RpcConsole.Proofs.Text.Utf8
import RpcConsole.Proofs.Wire.Varint
import RpcConsole.Wire.Field

namespace RpcConsole

/-- The values of a built-in type. -/
def Scalar.Takes (s : Scalar) : Value → Prop
  | .bool _ => s = .bool
  | .int r n => s.range? = some r ∧ r.contains n = true
  | .single _ => s = .float
  | .double _ => s = .double
  | .str _ => s = .string
  | .bytes _ => s = .bytes
  | _ => False

/-- The single values of a kind that holds no message. -/
def Kind.Takes : Kind → Value → Prop
  | .scalar s, v => s.Takes v
  | .enum _, .enum n => -2147483648 ≤ n ∧ n ≤ 2147483647
  | _, _ => False

theorem Scalar.range_bounds {s : Scalar} {r : IntRange} (h : s.range? = some r) :
    r.low ≤ 0 ∧ 0 ≤ r.high := by
  cases s <;> cases h <;> decide

namespace Wire

theorem double_ofWord (x : Binary64) : Binary64.ofWord x.bits.toNat = x := by
  cases x with
  | mk bits => simp [Binary64.ofWord]

theorem single_ofWord (x : Binary32) : Binary32.ofWord x.bits.toNat = x := by
  cases x with
  | mk bits => simp [Binary32.ofWord]

theorem word_of_nonneg {bits : Nat} {n : Int} (hl : 0 ≤ n) (hu : n < Nat.pow 2 bits) :
    (word bits n : Int) = n := by
  unfold word
  rw [Int.emod_eq_of_lt hl hu, Int.toNat_of_nonneg hl]

/-- An integer of a built-in type is read as it was written. -/
theorem readScalar_int {s : Scalar} {r : IntRange} {n : Int} (hr : s.range? = some r)
    (hn : r.contains n = true) (rest : List UInt8) :
    readScalar s (scalarInt s n ++ rest) = .ok (.int r n, rest) := by
  have hv := fun m h => readVarint_varint (n := m) h rest
  have hword := hv _ (word_lt n)
  have hfixed := readFixed_fixed 4 (word32_lt n) rest
  have hfixed64 := readFixed_fixed 8 (word_lt n) rest
  simp only [IntRange.contains, Bool.and_eq_true, decide_eq_true_eq] at hn
  obtain ⟨hl, hu⟩ := hn
  cases s <;> simp only [Scalar.range?, Option.some.injEq, reduceCtorEq] at hr <;> subst hr
  case int32 =>
    have he := ofWord_word 32 64 (by omega) (by omega) hl (Int.lt_add_one_of_le hu)
    simp [readScalar, scalarInt, Scalar.wireType, hword, Except.map, ofNumber, he]
  case int64 =>
    have he := ofWord_word 64 64 (by omega) (by omega) hl (Int.lt_add_one_of_le hu)
    simp [readScalar, scalarInt, Scalar.wireType, hword, Except.map, ofNumber, he]
  case sfixed32 =>
    have he := ofWord_word 32 32 (by omega) (by omega) hl (Int.lt_add_one_of_le hu)
    simp [readScalar, scalarInt, Scalar.wireType, hfixed, Except.map, ofNumber, he]
  case sfixed64 =>
    have he := ofWord_word 64 64 (by omega) (by omega) hl (Int.lt_add_one_of_le hu)
    simp [readScalar, scalarInt, Scalar.wireType, hfixed64, Except.map, ofNumber, he]
  case uint32 =>
    have hu : n ≤ 4294967295 := hu
    have he : (word 64 n : Int) = n := word_of_nonneg hl (Int.lt_of_le_of_lt hu (by decide))
    have hm : ((word 64 n : Int) % 4294967296) = n := by omega
    simp [readScalar, scalarInt, Scalar.wireType, hword, Except.map, ofNumber, hm]
  case uint64 =>
    have he : (word 64 n : Int) = n := word_of_nonneg hl (Int.lt_add_one_of_le hu)
    simp [readScalar, scalarInt, Scalar.wireType, hword, Except.map, ofNumber, he]
  case fixed32 =>
    have he : (word 32 n : Int) = n := word_of_nonneg hl (Int.lt_add_one_of_le hu)
    simp [readScalar, scalarInt, Scalar.wireType, hfixed, Except.map, ofNumber, he]
  case fixed64 =>
    have he : (word 64 n : Int) = n := word_of_nonneg hl (Int.lt_add_one_of_le hu)
    simp [readScalar, scalarInt, Scalar.wireType, hfixed64, Except.map, ofNumber, he]
  case sint32 =>
    have hz : zigzag n < 4294967296 := zigzag_lt (k := 2147483648) hl (Int.lt_add_one_of_le hu)
    have hr := hv (zigzag n) (Nat.lt_trans hz (by decide))
    have hm : zigzag n % 4294967296 = zigzag n := Nat.mod_eq_of_lt hz
    simp [readScalar, scalarInt, Scalar.wireType, hr, Except.map, ofNumber, hm, ofZigzag_zigzag]
  case sint64 =>
    have hz : zigzag n < wordLimit := zigzag_lt (k := 9223372036854775808) hl
      (Int.lt_add_one_of_le hu)
    simp [readScalar, scalarInt, Scalar.wireType, hv _ hz, Except.map, ofNumber, ofZigzag_zigzag]

/-- A single value that holds no message is read as it was written. -/
theorem readPlain_plain {kind : Kind} {v : Value} (h : kind.Takes v)
    (hl : (plain kind v).length < wordLimit) (rest : List UInt8) :
    readPlain kind (plain kind v ++ rest) = .ok (v, rest) := by
  have counted_length {bs : List UInt8} (hb : (counted bs).length < wordLimit) :
      bs.length < wordLimit := by
    rw [counted, List.length_append] at hb
    omega
  cases kind with
  | message name => exact absurd h (by simp [Kind.Takes])
  | enum name =>
    cases v with
    | enum n =>
      have he := ofWord_word 32 64 (by omega) (by omega) h.1
        (Int.lt_add_one_of_le h.2)
      simp [readPlain, plain, readVarint_varint (word_lt n), Except.map, he]
    | bool | int | single | double | str | bytes | message | list | map =>
      exact absurd h (by simp [Kind.Takes])
  | scalar s =>
    cases v with
    | bool b =>
      have hs : s = .bool := h
      subst hs
      have hv := fun m hm => readVarint_varint (n := m) hm rest
      cases b
      · simp [readPlain, plain, readScalar, Scalar.wireType, hv 0 (by decide), Except.map, ofNumber]
      · simp [readPlain, plain, readScalar, Scalar.wireType, hv 1 (by decide), Except.map, ofNumber]
    | int r n => exact readScalar_int h.1 h.2 rest
    | single x =>
      have hs : s = .float := h
      subst hs
      have hf := readFixed_fixed 4 x.bits.toNat_lt rest
      simp [readPlain, plain, readScalar, Scalar.wireType, hf, Except.map, ofNumber, single_ofWord]
    | double x =>
      have hs : s = .double := h
      subst hs
      have hf := readFixed_fixed 8 x.bits.toNat_lt rest
      simp [readPlain, plain, readScalar, Scalar.wireType, hf, Except.map, ofNumber, double_ofWord]
    | str text =>
      have hs : s = .string := h
      subst hs
      have hb := readBytes_counted (counted_length hl) rest
      simp [readPlain, plain, readScalar, hb, Utf8.toString?_ofString]
    | bytes bs =>
      have hs : s = .bytes := h
      subst hs
      have hb := readBytes_counted (counted_length hl) rest
      simp [readPlain, plain, readScalar, hb, Except.map]
    | enum | message | list | map => exact absurd h (by simp [Kind.Takes, Scalar.Takes])

/-- An integer that lies between the ends of the range of its type. -/
theorem takes_int {s : Scalar} {r : IntRange} {n : Int} (hr : s.range? = some r) (hl : r.low ≤ n)
    (hu : n ≤ r.high) : s.Takes (.int r n) :=
  ⟨hr, by simp [IntRange.contains, hl, hu]⟩

/-- What a number stands for is a value of the type for which it was read. -/
theorem ofNumber_takes {s : Scalar} {n : Nat} (hs : s ≠ .string ∧ s ≠ .bytes)
    (hn : n < wordLimit) (h32 : s.wireType = .fixed32 → n < 256 ^ 4) : s.Takes (ofNumber s n) := by
  have h31 := ofWord_bounds 32 (by omega) n
  have h63 := ofWord_bounds 64 (by omega) n
  have hm : n % 4294967296 < 2 * 2147483648 := Nat.mod_lt _ (by decide)
  have hz32 := ofZigzag_bounds hm
  have hz64 := ofZigzag_bounds (k := 9223372036854775808) hn
  cases s with
  | bool => rfl
  | float => rfl
  | double => rfl
  | string => exact absurd rfl hs.1
  | bytes => exact absurd rfl hs.2
  | int32 | sfixed32 => exact takes_int rfl h31.1 (Int.le_of_lt_add_one h31.2)
  | int64 | sfixed64 => exact takes_int rfl h63.1 (Int.le_of_lt_add_one h63.2)
  | sint32 => exact takes_int rfl hz32.1 (Int.le_of_lt_add_one hz32.2)
  | sint64 => exact takes_int rfl hz64.1 (Int.le_of_lt_add_one hz64.2)
  | uint32 =>
    refine takes_int rfl (Int.natCast_nonneg _) ?_
    show ((n % 4294967296 : Nat) : Int) ≤ 4294967295
    omega
  | fixed32 =>
    refine takes_int rfl (Int.natCast_nonneg _) ?_
    have hlt : n < 4294967296 := h32 rfl
    show (n : Int) ≤ 4294967295
    omega
  | uint64 | fixed64 =>
    refine takes_int rfl (Int.natCast_nonneg _) ?_
    have hlt : n < 18446744073709551616 := hn
    show (n : Int) ≤ 18446744073709551615
    omega

theorem readScalar_takes {s : Scalar} {v : Value} {bs rest : List UInt8}
    (h : readScalar s bs = .ok (v, rest)) : s.Takes v := by
  have ofFixed {width : Nat} {f : Nat → Value}
      (h : (readFixed width bs).map (fun r => (f r.1, r.2)) = .ok (v, rest)) :
      ∃ n, n < 256 ^ width ∧ f n = v := by
    obtain ⟨r, hr, hv⟩ := map_ok h
    cases hv
    exact ⟨r.1, readFixed_lt hr, rfl⟩
  have ofVarint {f : Nat → Value}
      (h : (readVarint bs).map (fun r => (f r.1, r.2)) = .ok (v, rest)) :
      ∃ n, n < wordLimit ∧ f n = v := by
    obtain ⟨r, hr, hv⟩ := map_ok h
    cases hv
    exact ⟨r.1, (readVarint_lt hr).1, rfl⟩
  have ofBytes (h : (readBytes bs).map (fun r => (Value.bytes r.1, r.2)) = .ok (v, rest)) :
      ∃ front, v = .bytes front := by
    obtain ⟨r, -, hv⟩ := map_ok h
    cases hv
    exact ⟨r.1, rfl⟩
  cases s with
  | string =>
    simp only [readScalar] at h
    split at h
    · cases h
    · split at h
      · cases h
        rfl
      · cases h
  | bytes =>
    obtain ⟨front, rfl⟩ := ofBytes h
    rfl
  | float | fixed32 | sfixed32 =>
    obtain ⟨n, hn, rfl⟩ := ofFixed h
    exact ofNumber_takes (by simp) (Nat.lt_trans hn (by decide)) fun _ => hn
  | double | fixed64 | sfixed64 =>
    obtain ⟨n, hn, rfl⟩ := ofFixed h
    exact ofNumber_takes (by simp) hn (by simp [Scalar.wireType])
  | int64 | uint64 | int32 | bool | uint32 | sint32 | sint64 =>
    obtain ⟨n, hn, rfl⟩ := ofVarint h
    exact ofNumber_takes (by simp) hn (by simp [Scalar.wireType])

/-- A single value that is read is one of its kind. -/
theorem readPlain_takes {kind : Kind} {v : Value} {bs rest : List UInt8}
    (hk : ∀ name, kind ≠ .message name) (h : readPlain kind bs = .ok (v, rest)) : kind.Takes v := by
  cases kind with
  | message name => exact absurd rfl (hk name)
  | enum name =>
    obtain ⟨r, -, hv⟩ := map_ok h
    cases hv
    have hb := ofWord_bounds 32 (by omega) r.1
    exact ⟨hb.1, Int.le_of_lt_add_one hb.2⟩
  | scalar s => exact readScalar_takes h

end Wire
end RpcConsole

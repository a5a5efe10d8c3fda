import RpcConsole.Proofs.Text.Utf8
import RpcConsole.Text.Base64

namespace RpcConsole.Base64

/-- The byte of the symbol of a value. -/
def code (n : Nat) : UInt8 :=
  (symbol n).toNat.toUInt8

theorem encodeChar_symbol (n : Nat) : Utf8.encodeChar (symbol n) = [code n] := by
  by_cases hn : n < 64
  · have h : ∀ n < 64, Utf8.encodeChar (symbol n) = [code n] := by decide +kernel
    exact h n hn
  · have hl : standard.length = 64 := by decide +kernel
    have hs : symbol n = '=' := by
      rw [symbol, List.getD_eq_getElem?_getD, List.getElem?_eq_none (by omega)]
      rfl
    rw [code, hs]
    rfl

theorem value?_code : ∀ n < 64, value? standard (code n) = some n := by
  decide +kernel

theorem code_ne_pad : ∀ n < 64, (code n == pad) = false := by
  decide +kernel

theorem encode_symbol (n : Nat) (cs : List Char) :
    Utf8.encode (symbol n :: cs) = code n :: Utf8.encode cs := by
  rw [Utf8.encode, List.flatMap_cons, encodeChar_symbol n]
  rfl

theorem wholeGroup_code {n : Nat} (h : n < 64) (offset : Nat) (bs : List UInt8) :
    wholeGroup standard offset (code n :: bs) =
      (wholeGroup standard (offset + 1) bs).map (n :: ·) := by
  rw [wholeGroup, value?_code n h]

theorem lastGroup_code {n : Nat} (h : n < 64) (offset index : Nat) (bs : List UInt8) :
    lastGroup standard offset index none (code n :: bs) =
      (lastGroup standard (offset + 1) (index + 1) none bs).map (n :: ·) := by
  rw [lastGroup.eq_def]
  simp only [code_ne_pad n h, value?_code n h, Bool.false_eq_true, ↓reduceIte]

theorem lastGroup_pads (offset index : Nat) (hi : 2 ≤ index) (padded : Option Nat) (k : Nat) :
    lastGroup standard offset index padded (List.replicate k pad) = .ok [] := by
  induction k generalizing offset index padded with
  | zero => rfl
  | succ k ih =>
    have hlow : ¬ index < 2 := by omega
    rw [List.replicate_succ, lastGroup.eq_def]
    simp only [beq_self_eq_true, ↓reduceIte, hlow]
    exact ih _ _ (by omega) _

/-- The four symbols of three bytes. -/
theorem groupBytes_three (a b c : UInt8) :
    let n := a.toNat * 65536 + b.toNat * 256 + c.toNat
    groupBytes [n / 262144, n / 4096 % 64, n / 64 % 64, n % 64] = [a, b, c] := by
  have ha := a.toNat_lt
  have hb := b.toNat_lt
  have hc := c.toNat_lt
  simp only [groupBytes, List.cons.injEq, and_true, ← UInt8.toNat_inj, Nat.toUInt8,
    UInt8.toNat_ofNat']
  omega

theorem groupBytes_two (a b : UInt8) :
    let n := a.toNat * 256 + b.toNat
    groupBytes [n / 1024, n / 16 % 64, n % 16 * 4] = [a, b] := by
  have ha := a.toNat_lt
  have hb := b.toNat_lt
  simp only [groupBytes, List.cons.injEq, and_true, ← UInt8.toNat_inj, Nat.toUInt8,
    UInt8.toNat_ofNat']
  omega

theorem groupBytes_one (a : UInt8) :
    groupBytes [a.toNat / 4, a.toNat % 4 * 16] = [a] := by
  have ha := a.toNat_lt
  simp only [groupBytes, List.cons.injEq, and_true, ← UInt8.toNat_inj, Nat.toUInt8,
    UInt8.toNat_ofNat']
  omega

/-- A group of four symbols is followed by others or is the last one. -/
theorem readGroups_four {w x y z : Nat} (hw : w < 64) (hx : x < 64) (hy : y < 64) (hz : z < 64)
    {offset : Nat} {bs rest : List UInt8}
    (h : readGroups standard (offset + 4) rest = .ok bs) :
    readGroups standard offset (code w :: code x :: code y :: code z :: rest) =
      .ok (groupBytes [w, x, y, z] ++ bs) := by
  cases rest with
  | nil =>
    cases h
    rw [readGroups.eq_def]
    simp only [lastGroup_code hw, lastGroup_code hx, lastGroup_code hy, lastGroup_code hz]
    rw [lastGroup]
    simp [Except.map]
  | cons e rest =>
    rw [readGroups, wholeGroup_code hw, wholeGroup_code hx, wholeGroup_code hy,
      wholeGroup_code hz, wholeGroup]
    simp only [Except.map, h]

theorem encode_one_pad : Utf8.encode ['='] = [pad] := rfl

theorem encode_two_pads : Utf8.encode ['=', '='] = [pad, pad] := rfl

theorem readGroups_encode (offset : Nat) (bs : List UInt8) :
    readGroups standard offset (Utf8.encode (encodeBytes bs)) = .ok bs := by
  induction bs using encodeBytes.induct generalizing offset with
  | case1 a b c rest ih =>
    have ha := a.toNat_lt
    have hb := b.toNat_lt
    have hc := c.toNat_lt
    have hgroup := groupBytes_three a b c
    generalize hn : a.toNat * 65536 + b.toNat * 256 + c.toNat = n at hgroup
    have h1 : n / 262144 < 64 := by omega
    have h2 : n / 4096 % 64 < 64 := by omega
    have h3 : n / 64 % 64 < 64 := by omega
    have h4 : n % 64 < 64 := by omega
    rw [encodeBytes, hn, encode_symbol, encode_symbol, encode_symbol, encode_symbol,
      readGroups_four h1 h2 h3 h4 (ih (offset + 4)), hgroup]
    rfl
  | case2 a b =>
    have ha := a.toNat_lt
    have hb := b.toNat_lt
    have hgroup := groupBytes_two a b
    generalize hn : a.toNat * 256 + b.toNat = n at hgroup
    have h1 : n / 1024 < 64 := by omega
    have h2 : n / 16 % 64 < 64 := by omega
    have h3 : n % 16 * 4 < 64 := by omega
    have hpad := lastGroup_pads (offset + 3) 3 (by omega) none 1
    rw [encodeBytes, hn, encode_symbol, encode_symbol, encode_symbol, encode_one_pad]
    simp only [readGroups, List.replicate] at hpad ⊢
    simp only [lastGroup_code h1, lastGroup_code h2, lastGroup_code h3, hpad, Except.map]
    exact congrArg Except.ok hgroup
  | case3 a =>
    have ha := a.toNat_lt
    have h1 : a.toNat / 4 < 64 := by omega
    have h2 : a.toNat % 4 * 16 < 64 := by omega
    have hpad := lastGroup_pads (offset + 2) 2 (by omega) none 2
    rw [encodeBytes, encode_symbol, encode_symbol, encode_two_pads]
    simp only [readGroups, List.replicate] at hpad ⊢
    simp only [lastGroup_code h1, lastGroup_code h2, hpad, Except.map]
    exact congrArg Except.ok (groupBytes_one a)
  | case4 => rfl

theorem length_encode (bs : List UInt8) : (Utf8.encode (encodeBytes bs)).length % 4 = 0 := by
  induction bs using encodeBytes.induct with
  | case1 a b c rest ih =>
    simp only [encodeBytes, encode_symbol, List.length_cons]
    omega
  | case2 a b =>
    rw [encodeBytes, encode_symbol, encode_symbol, encode_symbol, encode_one_pad]
    simp
  | case3 a =>
    rw [encodeBytes, encode_symbol, encode_symbol, encode_two_pads]
    simp
  | case4 => rfl

/-- Bytes are read as they were written. -/
theorem decode_encode (bs : List UInt8) : decode (Utf8.ofString (encode bs)) = .ok bs := by
  have hl := length_encode bs
  have hw : readWith standard (Utf8.encode (encodeBytes bs)) = .ok bs := by
    unfold readWith
    simp only [hl]
    exact readGroups_encode 0 bs
  rw [Utf8.ofString, encode, String.toList_ofList, decode, hw]

end RpcConsole.Base64

import RpcConsole.Text.Utf8

namespace RpcConsole.Utf8

theorem toNat_byte {n : Nat} (h : n < 256) : n.toUInt8.toNat = n := by
  rw [UInt8.toNat_ofNat']
  omega

/-- The bounds of a second byte, as numbers. -/
theorem isSecond_iff {b s : UInt8} :
    isSecond b s = true ↔ 0x80 ≤ s.toNat ∧ s.toNat ≤ 0xbf ∧
      (b.toNat = 0xe0 → 0xa0 ≤ s.toNat) ∧ (b.toNat = 0xed → s.toNat ≤ 0x9f) ∧
      (b.toNat = 0xf0 → 0x90 ≤ s.toNat) ∧ (b.toNat = 0xf4 → s.toNat ≤ 0x8f) := by
  unfold isSecond secondBounds
  simp only [Bool.and_eq_true, decide_eq_true_eq, UInt8.le_iff_toNat_le, beq_iff_eq,
    ← UInt8.toNat_inj, UInt8.reduceToNat]
  split
  · simp only [UInt8.reduceToNat]
    omega
  · split
    · simp only [UInt8.reduceToNat]
      omega
    · split
      · simp only [UInt8.reduceToNat]
        omega
      · split
        · simp only [UInt8.reduceToNat]
          omega
        · simp only [UInt8.reduceToNat]
          omega

theorem isContinuation_iff {b : UInt8} :
    isContinuation b = true ↔ 0x80 ≤ b.toNat ∧ b.toNat < 0xc0 := by
  unfold isContinuation
  simp only [Bool.and_eq_true, decide_eq_true_eq, UInt8.le_iff_toNat_le, UInt8.lt_iff_toNat_lt,
    UInt8.reduceToNat]

theorem toNat_bounds (c : Char) : c.toNat < 0xd800 ∨ 0xdfff < c.toNat ∧ c.toNat < 0x110000 :=
  c.valid

section Front

variable {b s t u : UInt8} {rest : List UInt8}

theorem front_one (hb : b.toNat < 0x80) : front b rest = .char (Char.ofNat b.toNat) 1 := by
  have hlt : b < 0x80 := hb
  unfold front
  rw [if_pos hlt]

/-- A lead byte of more than one byte. -/
theorem lead_of (hl : 0xc2 ≤ b.toNat) (hu : b.toNat ≤ 0xf4) :
    ¬ b < 0x80 ∧ (decide (b < 0xc2) || decide (0xf4 < b)) = false := by
  simp only [UInt8.lt_iff_toNat_lt, UInt8.reduceToNat, Bool.or_eq_false_iff,
    decide_eq_false_iff_not]
  omega

theorem front_two (hl : 0xc2 ≤ b.toNat) (hu : b.toNat < 0xe0) (hs : isSecond b s = true) :
    front b (s :: rest) = .char (Char.ofNat (b.toNat % 0x20 * 0x40 + s.toNat % 0x40)) 2 := by
  obtain ⟨h80, hlead⟩ := lead_of hl (by omega)
  have he : b < 0xe0 := hu
  simp [front, h80, hlead, hs, he]

theorem front_three (hl : 0xe0 ≤ b.toNat) (hu : b.toNat < 0xf0) (hs : isSecond b s = true)
    (ht : isContinuation t = true) :
    front b (s :: t :: rest) =
      .char (Char.ofNat (b.toNat % 0x10 * 0x1000 + s.toNat % 0x40 * 0x40 + t.toNat % 0x40)) 3 := by
  obtain ⟨h80, hlead⟩ := lead_of (b := b) (by omega) (by omega)
  have he : ¬ b < 0xe0 := Nat.not_lt.mpr hl
  have hf : b < 0xf0 := hu
  simp [front, h80, hlead, hs, he, ht, hf]

theorem front_four (hl : 0xf0 ≤ b.toNat) (hu : b.toNat ≤ 0xf4) (hs : isSecond b s = true)
    (ht : isContinuation t = true) (hc : isContinuation u = true) :
    front b (s :: t :: u :: rest) =
      .char (Char.ofNat (b.toNat % 0x08 * 0x40000 + s.toNat % 0x40 * 0x1000 +
        t.toNat % 0x40 * 0x40 + u.toNat % 0x40)) 4 := by
  obtain ⟨h80, hlead⟩ := lead_of (b := b) (by omega) hu
  have he : ¬ b < 0xe0 := Nat.not_lt.mpr (Nat.le_trans (by decide) hl)
  have hf : ¬ b < 0xf0 := Nat.not_lt.mpr hl
  simp [front, h80, hlead, hs, he, ht, hf, hc]

end Front

theorem ofNat_eq {c : Char} {n : Nat} (h : n = c.toNat) : Char.ofNat n = c := by
  rw [h, Char.ofNat_toNat]

/-- The front of the bytes of a character is that character. -/
theorem front_encodeChar (c : Char) (rest : List UInt8) :
    ∃ b bs, encodeChar c ++ rest = b :: bs ∧ ∃ width, front b bs = .char c width ∧
      bs.drop (width - 1) = rest := by
  have hc := toNat_bounds c
  unfold encodeChar
  dsimp only
  split
  · rename_i h
    have hb := toNat_byte (n := c.toNat) (by omega)
    refine ⟨_, rest, rfl, 1, ?_, rfl⟩
    rw [front_one (by omega), ofNat_eq hb]
  · split
    · have hb := toNat_byte (n := 0xc0 + c.toNat / 0x40) (by omega)
      have hs := toNat_byte (n := 0x80 + c.toNat % 0x40) (by omega)
      refine ⟨_, _ :: rest, rfl, 2, ?_, rfl⟩
      rw [front_two, ofNat_eq]
      · omega
      · omega
      · omega
      · rw [isSecond_iff]
        omega
    · split
      · have hb := toNat_byte (n := 0xe0 + c.toNat / 0x1000) (by omega)
        have hs := toNat_byte (n := 0x80 + c.toNat / 0x40 % 0x40) (by omega)
        have ht := toNat_byte (n := 0x80 + c.toNat % 0x40) (by omega)
        refine ⟨_, _ :: _ :: rest, rfl, 3, ?_, rfl⟩
        rw [front_three, ofNat_eq]
        · omega
        · omega
        · omega
        · rw [isSecond_iff]
          omega
        · rw [isContinuation_iff]
          omega
      · have hb := toNat_byte (n := 0xf0 + c.toNat / 0x40000) (by omega)
        have hs := toNat_byte (n := 0x80 + c.toNat / 0x1000 % 0x40) (by omega)
        have ht := toNat_byte (n := 0x80 + c.toNat / 0x40 % 0x40) (by omega)
        have hu := toNat_byte (n := 0x80 + c.toNat % 0x40) (by omega)
        refine ⟨_, _ :: _ :: _ :: rest, rfl, 4, ?_, rfl⟩
        rw [front_four, ofNat_eq]
        · omega
        · omega
        · omega
        · rw [isSecond_iff]
          omega
        · rw [isContinuation_iff]
          omega
        · rw [isContinuation_iff]
          omega

theorem toNat_ofNat {n : Nat} (h : n.isValidChar) : (Char.ofNat n).toNat = n := by
  unfold Char.ofNat
  rw [dif_pos h]
  rfl

section Width

variable {b s t u : UInt8}

theorem byte_eq {n : Nat} (h : n = b.toNat) : n.toUInt8 = b := by
  rw [h, Nat.toUInt8_eq, UInt8.ofNat_toNat]

theorem encodeChar_one (hb : b.toNat < 0x80) : encodeChar (Char.ofNat b.toNat) = [b] := by
  unfold encodeChar
  rw [toNat_ofNat (.inl (by omega)), if_pos hb, byte_eq rfl]

theorem encodeChar_two (hl : 0xc2 ≤ b.toNat) (hu : b.toNat < 0xe0) (hs : isSecond b s = true) :
    encodeChar (Char.ofNat (b.toNat % 0x20 * 0x40 + s.toNat % 0x40)) = [b, s] := by
  rw [isSecond_iff] at hs
  unfold encodeChar
  rw [toNat_ofNat (.inl (by omega)), if_neg (by omega), if_pos (by omega), byte_eq (b := b),
    byte_eq (b := s)]
  · omega
  · omega

theorem encodeChar_three (hl : 0xe0 ≤ b.toNat) (hu : b.toNat < 0xf0) (hs : isSecond b s = true)
    (ht : isContinuation t = true) :
    encodeChar (Char.ofNat
      (b.toNat % 0x10 * 0x1000 + s.toNat % 0x40 * 0x40 + t.toNat % 0x40)) = [b, s, t] := by
  rw [isSecond_iff] at hs
  rw [isContinuation_iff] at ht
  unfold encodeChar
  rw [toNat_ofNat (show _ ∨ _ by omega), if_neg (by omega), if_neg (by omega), if_pos (by omega),
    byte_eq (b := b), byte_eq (b := s), byte_eq (b := t)]
  · omega
  · omega
  · omega

theorem encodeChar_four (hl : 0xf0 ≤ b.toNat) (hu : b.toNat ≤ 0xf4) (hs : isSecond b s = true)
    (ht : isContinuation t = true) (hc : isContinuation u = true) :
    encodeChar (Char.ofNat (b.toNat % 0x08 * 0x40000 + s.toNat % 0x40 * 0x1000 +
      t.toNat % 0x40 * 0x40 + u.toNat % 0x40)) = [b, s, t, u] := by
  rw [isSecond_iff] at hs
  rw [isContinuation_iff] at ht hc
  unfold encodeChar
  rw [toNat_ofNat (show _ ∨ _ by omega), if_neg (by omega), if_neg (by omega), if_neg (by omega),
    byte_eq (b := b), byte_eq (b := s), byte_eq (b := t), byte_eq (b := u)]
  · omega
  · omega
  · omega
  · omega

end Width

/-- The character at the front is written with the bytes it was read from. -/
theorem encodeChar_front {b : UInt8} {bs : List UInt8} {c : Char} {width : Nat}
    (h : front b bs = .char c width) : encodeChar c ++ bs.drop (width - 1) = b :: bs := by
  unfold front at h
  dsimp only at h
  split at h
  · rename_i hb
    cases h
    rw [encodeChar_one hb]
    rfl
  · split at h
    · cases h
    · rename_i hlead
      simp only [UInt8.lt_iff_toNat_lt, UInt8.reduceToNat, Bool.or_eq_true, decide_eq_true_eq,
        not_or, Nat.not_lt] at hlead
      split at h
      · cases h
      · split at h
        · cases h
        · rename_i s rest hs
          rw [Bool.not_eq_true', Bool.not_eq_false] at hs
          split at h
          · rename_i he
            cases h
            rw [encodeChar_two hlead.1 he hs]
            rfl
          · rename_i he
            have he := Nat.not_lt.mp he
            split at h
            · cases h
            · split at h
              · cases h
              · rename_i t rest ht
                rw [Bool.not_eq_true', Bool.not_eq_false] at ht
                split at h
                · rename_i hf
                  cases h
                  rw [encodeChar_three he hf hs ht]
                  rfl
                · rename_i hf
                  have hf := Nat.not_lt.mp hf
                  split at h
                  · cases h
                  · split at h
                    · cases h
                    · rename_i u rest hu
                      rw [Bool.not_eq_true', Bool.not_eq_false] at hu
                      cases h
                      rw [encodeChar_four hf hlead.2 hs ht hu]
                      rfl

theorem utf8Size_eq (c : Char) : c.utf8Size =
    if c.toNat < 0x80 then 1 else if c.toNat < 0x800 then 2 else if c.toNat < 0x10000 then 3
    else 4 := by
  have hval : c.val.toNat = c.toNat := rfl
  simp only [Char.utf8Size, UInt32.le_iff_toNat_le, UInt32.toNat_ofNatLT, hval, Nat.lt_succ_iff]

@[simp]
theorem length_encodeChar (c : Char) : (encodeChar c).length = c.utf8Size := by
  rw [utf8Size_eq]
  simp only [encodeChar, apply_ite List.length]
  rfl

theorem encode_cons (c : Char) (cs : List Char) : encode (c :: cs) = encodeChar c ++ encode cs :=
  rfl

theorem encode_append (cs ds : List Char) : encode (cs ++ ds) = encode cs ++ encode ds :=
  List.flatMap_append

theorem decode?_encode (cs : List Char) : decode? (encode cs) = some cs := by
  induction cs with
  | nil => rw [encode, List.flatMap_nil, decode?]
  | cons c cs ih =>
    obtain ⟨b, bs, he, width, hf, hd⟩ := front_encodeChar c (encode cs)
    rw [encode, List.flatMap_cons]
    change decode? (encodeChar c ++ encode cs) = _
    rw [he, decode?, hf]
    simp only
    rw [hd, ih]
    rfl

theorem toString?_ofString (s : String) : toString? (ofString s) = some s := by
  rw [toString?, ofString, decode?_encode, Option.map_some, String.ofList_toList]

theorem encode_of_decode? {bs : List UInt8} {cs : List Char} (h : decode? bs = some cs) :
    encode cs = bs := by
  induction bs using decode?.induct generalizing cs with
  | case1 =>
    rw [decode?] at h
    cases h
    rfl
  | case2 b bs c width hf ih =>
    rw [decode?, hf] at h
    obtain ⟨rest, hr, rfl⟩ := Option.map_eq_some_iff.mp h
    rw [encode, List.flatMap_cons]
    change encodeChar c ++ encode rest = _
    rw [ih hr, encodeChar_front hf]
  | case3 b bs width hf =>
    rw [decode?, hf] at h
    cases h

/-- Strict reading takes exactly the bytes that are written for a string. -/
theorem toString?_eq_some {bs : List UInt8} {s : String} :
    toString? bs = some s ↔ ofString s = bs := by
  constructor
  · intro h
    obtain ⟨cs, hcs, rfl⟩ := Option.map_eq_some_iff.mp h
    rw [ofString, String.toList_ofList, encode_of_decode? hcs]
  · rintro rfl
    exact toString?_ofString s

/-- Nothing is replaced in bytes that are not malformed. -/
theorem decodeLossy_of_decode? {bs : List UInt8} {cs : List Char} (h : decode? bs = some cs) :
    decodeLossy bs = cs := by
  induction bs using decode?.induct generalizing cs with
  | case1 =>
    rw [decode?] at h
    cases h
    rw [decodeLossy]
  | case2 b bs c width hf ih =>
    rw [decode?, hf] at h
    obtain ⟨rest, hr, rfl⟩ := Option.map_eq_some_iff.mp h
    rw [decodeLossy, hf]
    simp only
    rw [ih hr]
  | case3 b bs width hf =>
    rw [decode?, hf] at h
    cases h

theorem toStringLossy_of_toString? {bs : List UInt8} {s : String} (h : toString? bs = some s) :
    toStringLossy bs = s := by
  obtain ⟨cs, hcs, rfl⟩ := Option.map_eq_some_iff.mp h
  rw [toStringLossy, decodeLossy_of_decode? hcs]

/-- Reading that replaces what is malformed keeps the bytes exactly where nothing is malformed. -/
theorem ofString_toStringLossy_iff {bs : List UInt8} :
    ofString (toStringLossy bs) = bs ↔ (toString? bs).isSome := by
  constructor
  · intro h
    rw [toString?_eq_some.mpr h]
    rfl
  · intro h
    obtain ⟨s, hs⟩ := Option.isSome_iff_exists.mp h
    rw [toStringLossy_of_toString? hs]
    exact toString?_eq_some.mp hs

end RpcConsole.Utf8

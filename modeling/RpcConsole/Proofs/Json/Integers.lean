import Mathlib.Tactic.NormNum
import RpcConsole.Proofs.Json.RoundTrip
import RpcConsole.Proofs.Number.Magnitude

namespace RpcConsole

/-- Characters write an integer: digits, behind a minus sign if there is one. -/
inductive WritesInteger : List Char → Int → Prop where
  | natural {ds : List Char} (hne : ds ≠ []) (hd : ∀ d ∈ ds, d.isDigit = true) :
      WritesInteger ds (Nat.ofDigitChars 10 ds 0)
  | negative {ds : List Char} (hne : ds ≠ []) (hd : ∀ d ∈ ds, d.isDigit = true) :
      WritesInteger ('-' :: ds) (-(Nat.ofDigitChars 10 ds 0 : Int))

/-- The text of an integer writes it. -/
theorem WritesInteger.toString (n : Int) : WritesInteger (toString n).toList n := by
  cases n with
  | ofNat m =>
    have h : WritesInteger (Nat.toDigits 10 m) (Nat.ofDigitChars 10 (Nat.toDigits 10 m) 0) :=
      .natural Nat.toDigits_ne_nil fun _ => IntRange.toDigits_isDigit
    rw [Nat.ofDigitChars_ten_toDigits] at h
    rw [IntRange.toString_ofNat]
    exact h
  | negSucc m =>
    have h : WritesInteger ('-' :: Nat.toDigits 10 (m + 1))
        (-(Nat.ofDigitChars 10 (Nat.toDigits 10 (m + 1)) 0 : Int)) :=
      .negative Nat.toDigits_ne_nil fun _ => IntRange.toDigits_isDigit
    rw [Nat.ofDigitChars_ten_toDigits] at h
    rw [IntRange.toString_negSucc]
    exact h

namespace IntRange

/-- The greatest integer that is taken for the greatest one of 64 bits. -/
def lastAbove : Int := 18446744073709553929

/-- The least integer that is taken for the least one of 64 bits with a sign. -/
def lastBelow : Int := -9223372036854776832

/-- An integer is out of a range, and so near to an end of it that it may be taken for this end. -/
def IsNear (r : IntRange) (n : Int) : Prop :=
  r = unsigned64 ∧ r.high < n ∧ n ≤ lastAbove ∨ r = signed64 ∧ lastBelow ≤ n ∧ n < r.low

instance (r : IntRange) : DecidablePred r.IsNear := fun _ =>
  inferInstanceAs (Decidable (_ ∨ _))

/-- Digits that are read are read as what they write. -/
theorem readDigits_eq {r : IntRange} {negative : Bool} {ds : List Char} {k : Int} :
    ∀ n : Nat, r.readDigits negative n ds = .ok k →
      k = if negative then -(Nat.ofDigitChars 10 ds n : Int) else Nat.ofDigitChars 10 ds n := by
  induction ds with
  | nil =>
    intro n h
    exact (Except.ok.inj h).symm
  | cons d ds ih =>
    intro n h
    have hnext : Nat.ofDigitChars 10 (d :: ds) n =
        Nat.ofDigitChars 10 ds (n * 10 + Spelled.digitValue d) := by
      rw [Nat.ofDigitChars_cons, Spelled.digitValue, Nat.mul_comm]
    rw [hnext]
    unfold readDigits at h
    split at h
    · cases h
    · dsimp only at h
      repeat' split at h
      all_goals first | cases h | exact ih _ h

/-- The characters of an integer that are read are read as this integer. -/
theorem read_eq {r : IntRange} {cs : List Char} {n k : Int} (hcs : WritesInteger cs n)
    (h : r.read cs = .ok k) : k = n := by
  cases hcs with
  | natural hne hd =>
    unfold read at h
    split at h
    · cases h
    · exact readDigits_eq 0 h
    · exact absurd (hd '+' (by simp)) (by decide)
    · exact absurd (hd '-' (by simp)) (by decide)
    · exact readDigits_eq 0 h
  | negative hne hd =>
    unfold read at h
    split at h
    · rename_i he
      cases he
    · rename_i he
      cases he
      exact absurd rfl hne
    · rename_i he
      cases he
    · rename_i he
      cases he
      split at h
      · exact readDigits_eq 0 h
      · cases h
    · rename_i hminus
      exact absurd rfl (hminus _)

end IntRange

namespace Json

/-- What can stand behind the digits of an integer. -/
def Closes : List Char → Prop
  | [] => True
  | c :: _ => c.isDigit = false ∧ c ≠ '.' ∧ isExponentLetter c = false

/-- An integer that is read as a floating-point number: the integer that this number is. -/
inductive Beyond (n k : Int) : Prop where
  | zero (hn : n = 0) (hk : k = 0)
  | above (hn : IntRange.unsigned64.high < n) (hk : IntRange.unsigned64.high < k)
      (hfar : IntRange.lastAbove < n → IntRange.unsigned64.high + 1 < k)
  | below (hn : n < IntRange.signed64.low) (hk : k ≤ IntRange.signed64.low)
      (hfar : n < IntRange.lastBelow → k < IntRange.signed64.low)

theorem Closes.not_digit {rest : List Char} (h : Closes rest) : startsWithDigit rest = false := by
  cases rest with
  | nil => rfl
  | cons c cs => exact h.1

theorem digitValue_le {d : Char} (hd : d.isDigit = true) : Spelled.digitValue d ≤ 9 := by
  have h : d.toNat ≤ 57 := (Char.isDigit_iff_toNat.mp hd).2
  exact Nat.sub_le_of_le_add h

/-- Digits are taken as long as they fit. -/
theorem takeDigits_split {rest : List Char} (hr : startsWithDigit rest = false) {ds : List Char}
    (hd : ∀ d ∈ ds, d.isDigit = true) :
    ∀ n count : Nat, n ≤ maxSignificand → ∃ front back, ds = front ++ back ∧
      takeDigits n count (ds ++ rest) =
        (Nat.ofDigitChars 10 front n, count + front.length, back ++ rest) ∧
      Nat.ofDigitChars 10 front n ≤ maxSignificand ∧
      ∀ d tail, back = d :: tail →
        maxSignificand < Nat.ofDigitChars 10 front n * 10 + Spelled.digitValue d := by
  induction ds with
  | nil =>
    intro n count hn
    refine ⟨[], [], rfl, ?_, hn, by simp⟩
    simpa using takeDigits_all hr hd n count hn
  | cons d ds ih =>
    intro n count hn
    obtain ⟨hdigit, hds⟩ := List.forall_mem_cons.mp hd
    by_cases hfits : n * 10 + Spelled.digitValue d ≤ maxSignificand
    · obtain ⟨front, back, rfl, htake, hle, hback⟩ := ih hds _ (count + 1) hfits
      have hv : Nat.ofDigitChars 10 (d :: front) n =
          Nat.ofDigitChars 10 front (n * 10 + Spelled.digitValue d) := by
        rw [Nat.ofDigitChars_cons, Spelled.digitValue, Nat.mul_comm]
      refine ⟨d :: front, back, rfl, ?_, hv ▸ hle, hv ▸ hback⟩
      rw [List.cons_append, takeDigits, if_pos (by simp [hdigit, hfits]), htake, hv]
      simp only [List.length_cons, Prod.mk.injEq, true_and, and_true]
      omega
    · refine ⟨[], d :: ds, rfl, ?_, hn, ?_⟩
      · rw [List.cons_append, takeDigits, if_neg (by simp [hfits])]
        rfl
      · rintro _ _ ⟨⟩
        exact Nat.lt_of_not_le hfits

theorem powerOfTen_atLeast :
    ∀ k < maxPlaces, (powerOfTen (k + 1)).meaning.AtLeast (if k = 0 then 10 else 100) := by
  decide +kernel

/-- The least significand behind which a digit does not fit. -/
def fullSignificand : Nat := 1844674407370955161

/-- The least such significand whose tenfold is not rounded to `2 ^ 64`. -/
def farSignificand : Nat := 1844674407370955393

/-- What is read for more digits than fit is `2 ^ 64` at least. It is more if the digits that fit
are far enough from the first ones, or if two digits do not fit. -/
theorem ofParts_atLeast {negative : Bool} {significand dropped : Nat} {rest rest' : List Char}
    {j : Json} (hs : fullSignificand ≤ significand) (hd : 0 < dropped)
    (h : ofParts negative significand dropped rest = .ok (j, rest')) :
    ∃ y : Binary64, j = .double (if negative then y.neg else y) ∧
      y.meaning.AtLeast (2 ^ 53 * 2 ^ 11) ∧
      (farSignificand ≤ significand ∨ 2 ≤ dropped →
        y.meaning.AtLeast ((2 ^ 52 + 1) * 2 ^ 12)) := by
  unfold fullSignificand at hs
  have hfull : (Binary64.ofNat significand).meaning.AtLeast (7205759403792794 * 2 ^ 8) :=
    Binary64.ofNat_atLeast (by norm_num) (by norm_num) (by omega)
  obtain ⟨k, rfl⟩ : ∃ k, dropped = k + 1 := ⟨dropped - 1, by omega⟩
  unfold ofParts at h
  simp only at h
  split at h
  · rename_i hplaces
    have hpower := powerOfTen_atLeast k hplaces
    have hten : (powerOfTen (k + 1)).meaning.AtLeast 10 := hpower.mono (by split <;> decide)
    split at h
    · cases h
    · cases h
      refine ⟨_, rfl, ?_, ?_⟩
      · exact Binary64.mul_atLeast (by norm_num) (by norm_num) hfull hten (by norm_num)
      · rintro (hfar | hmore)
        · unfold farSignificand at hfar
          have hx : (Binary64.ofNat significand).meaning.AtLeast (7205759403792795 * 2 ^ 8) :=
            Binary64.ofNat_atLeast (by norm_num) (by norm_num) (by omega)
          exact Binary64.mul_atLeast (by norm_num) (by norm_num) hx hten (by norm_num)
        · rw [if_neg (by omega)] at hpower
          exact Binary64.mul_atLeast (by norm_num) (by norm_num) hfull hpower (by norm_num)
  · rw [hfull.not_zero (by norm_num)] at h
    cases h

theorem integerPart_closes {negative : Bool} {significand dropped : Nat} {rest : List Char}
    (hr : Closes rest) :
    integerPart negative significand dropped rest =
      if dropped == 0 then .ok (ofWord negative significand, rest)
      else ofParts negative significand dropped rest := by
  cases rest with
  | nil => rfl
  | cons c cs =>
    obtain ⟨-, hpoint, hletter⟩ := hr
    unfold integerPart
    split
    · rename_i he
      cases he
      exact absurd rfl hpoint
    · rename_i he
      cases he
      simp [hletter]
    · rename_i he
      cases he

/-- An integer with a sign, as a number or as a floating-point number that stands for it. -/
def ReadsInteger (j : Json) (n : Int) : Prop :=
  j = .int n ∧ IntRange.signed64.low ≤ n ∧ n ≤ IntRange.unsigned64.high ∨
    ∃ x : Binary64, j = .double x ∧ ∀ k, x.meaning.toInt? = some k → Beyond n k

/-- What is negative and fits into 64 bits only without its sign. -/
theorem neg_beyond {n : Nat} (h : 9223372036854775808 < n) {k : Int}
    (hk : (Binary64.ofNat n).neg.meaning.toInt? = some k) : Beyond (-(n : Int)) k := by
  have hfull : (Binary64.ofNat n).meaning.AtLeast (2 ^ 53 * 2 ^ 10) :=
    Binary64.ofNat_atLeast (by norm_num) (by norm_num) (by omega)
  rw [Binary64.meaning_neg] at hk
  have hint := Meaning.toInt?_neg hk
  have hle := hfull.le hint
  refine .below ?_ ?_ fun hfar => ?_
  · show -(n : Int) < -9223372036854775808
    omega
  · show k ≤ -9223372036854775808
    omega
  · have hx : (Binary64.ofNat n).meaning.AtLeast ((2 ^ 52 + 1) * 2 ^ 11) := by
      have hfar : -(n : Int) < -9223372036854776832 := hfar
      exact Binary64.ofNat_atLeast (by norm_num) (by norm_num) (by omega)
    have hle := hx.le hint
    show k < -9223372036854775808
    omega

theorem ofWord_reads {negative : Bool} {n : Nat} (hn : n ≤ maxSignificand) :
    ReadsInteger (ofWord negative n) (if negative then -(n : Int) else n) := by
  unfold maxSignificand at hn
  unfold ofWord
  cases negative with
  | false =>
    refine .inl ⟨rfl, ?_, ?_⟩
    · show -9223372036854775808 ≤ (n : Int)
      omega
    · show (n : Int) ≤ 18446744073709551615
      omega
  | true =>
    by_cases hz : n = 0
    · subst hz
      refine .inr ⟨_, rfl, fun k hk => ?_⟩
      have hzero : (Binary64.ofNat 0).neg.meaning.toInt? = some 0 := by decide +kernel
      rw [hzero] at hk
      exact .zero rfl (Option.some.inj hk).symm
    · by_cases hlow : 9223372036854775808 < n
      · have hif : (n == 0 || decide (9223372036854775808 < n)) = true := by simp [hlow]
        rw [hif]
        exact .inr ⟨_, rfl, fun k hk => neg_beyond hlow hk⟩
      · have hif : (n == 0 || decide (9223372036854775808 < n)) = false := by simp [hlow, hz]
        rw [hif]
        refine .inl ⟨rfl, ?_, ?_⟩
        · show -9223372036854775808 ≤ -(n : Int)
          omega
        · show -(n : Int) ≤ 18446744073709551615
          omega

/-- A number that is taken for `2 ^ 64` at least. -/
theorem beyond_of_atLeast {negative : Bool} {y : Binary64} {n : Nat} {k : Int}
    (hn : maxSignificand < n) (hy : y.meaning.AtLeast (2 ^ 53 * 2 ^ 11))
    (hfar : IntRange.lastAbove < n → y.meaning.AtLeast ((2 ^ 52 + 1) * 2 ^ 12))
    (hk : (if negative then y.neg else y).meaning.toInt? = some k) :
    Beyond (if negative then -(n : Int) else n) k := by
  unfold maxSignificand at hn
  cases negative with
  | false =>
    refine .above (Int.ofNat_lt.mpr hn) ?_ fun hlast => ?_
    · have hle := hy.le hk
      show 18446744073709551615 < k
      omega
    · have hle := (hfar hlast).le hk
      show 18446744073709551616 < k
      omega
  | true =>
    simp only [↓reduceIte, Binary64.meaning_neg] at hk ⊢
    have hle := hy.le (Meaning.toInt?_neg hk)
    have hlow : k < -9223372036854775808 := by omega
    refine .below ?_ hlow.le fun _ => hlow
    show -(n : Int) < -9223372036854775808
    omega

/-- Digits of which some do not fit. -/
theorem ofParts_reads {negative : Bool} {significand : Nat} {d : Char} {ds rest rest' : List Char}
    {j : Json} (hd : d.isDigit = true)
    (hfull : maxSignificand < significand * 10 + Spelled.digitValue d)
    (h : ofParts negative significand (ds.length + 1 : Nat) rest = .ok (j, rest')) :
    ReadsInteger j (if negative then -(Nat.ofDigitChars 10 (d :: ds) significand : Int)
      else Nat.ofDigitChars 10 (d :: ds) significand) := by
  have hdigit := digitValue_le hd
  have hnext : Nat.ofDigitChars 10 (d :: ds) significand =
      Nat.ofDigitChars 10 ds (significand * 10 + Spelled.digitValue d) := by
    rw [Nat.ofDigitChars_cons, Spelled.digitValue, Nat.mul_comm]
  have hle := IntRange.le_ofDigitChars ds (significand * 10 + Spelled.digitValue d)
  -- with one digit too many, the number is far only if the digits that fit are
  have hlast : IntRange.lastAbove < Nat.ofDigitChars 10 (d :: ds) significand →
      farSignificand ≤ significand ∨ 2 ≤ ds.length + 1 := by
    rw [hnext]
    intro hlast
    cases ds with
    | nil =>
      left
      have hlast : (18446744073709553929 : Int) <
          (significand * 10 + Spelled.digitValue d : Nat) := hlast
      unfold farSignificand
      omega
    | cons c cs =>
      right
      simp
  have hsignificand : fullSignificand ≤ significand := by
    unfold maxSignificand at hfull
    unfold fullSignificand
    omega
  obtain ⟨y, rfl, hy, hfar⟩ := ofParts_atLeast hsignificand (Nat.succ_pos _) h
  refine .inr ⟨_, rfl, fun k hk => ?_⟩
  refine beyond_of_atLeast ?_ hy (fun hl => hfar (hlast hl)) hk
  rw [hnext]
  exact Nat.lt_of_lt_of_le hfull hle

theorem takeWhile_digits {ds rest : List Char} (hd : ∀ d ∈ ds, d.isDigit = true)
    (hr : startsWithDigit rest = false) :
    (ds ++ rest).takeWhile Char.isDigit = ds ∧ (ds ++ rest).dropWhile Char.isDigit = rest := by
  rw [List.takeWhile_append_of_pos hd, List.dropWhile_append_of_pos hd]
  cases rest with
  | nil => simp
  | cons c cs =>
    have hc : c.isDigit = false := hr
    simp [hc]

/-- Digits behind a sign. -/
theorem number_reads {negative : Bool} {ds rest rest' : List Char} {j : Json} (hne : ds ≠ [])
    (hd : ∀ d ∈ ds, d.isDigit = true) (hr : Closes rest)
    (h : number negative (ds ++ rest) = .ok (j, rest')) :
    ReadsInteger j (if negative then -(Nat.ofDigitChars 10 ds 0 : Int)
      else Nat.ofDigitChars 10 ds 0) := by
  obtain ⟨c, cs, rfl⟩ := List.exists_cons_of_ne_nil hne
  have hc := hd c (by simp)
  rw [List.cons_append, number] at h
  simp only [hc, ↓reduceIte] at h
  split at h
  · rename_i hzero
    obtain rfl := beq_iff_eq.mp hzero
    split at h
    · cases h
    · rename_i hstart
      cases cs with
      | nil =>
        rw [List.nil_append, integerPart_closes hr] at h
        cases h
        exact ofWord_reads (Nat.zero_le _)
      | cons e es => exact absurd (hd e (by simp)) hstart
  · obtain ⟨front, back, hsplit, htake, hle, hback⟩ :=
      takeDigits_split hr.not_digit hd 0 0 (Nat.zero_le _)
    have hbackDigits : ∀ d ∈ back, d.isDigit = true := fun d hmem =>
      hd d (hsplit ▸ List.mem_append_right front hmem)
    obtain ⟨htakeWhile, hdropWhile⟩ := takeWhile_digits hbackDigits hr.not_digit
    rw [List.cons_append] at htake
    simp only [htake, htakeWhile, hdropWhile, integerPart_closes hr] at h
    rw [hsplit, Nat.ofDigitChars_append]
    cases back with
    | nil =>
      cases h
      exact ofWord_reads hle
    | cons d ds => exact ofParts_reads (hbackDigits d (by simp)) (hback d ds rfl) h

/-- What is read for the characters of an integer. -/
theorem value_reads {cs rest rest' : List Char} {n : Int} {depth : Nat} {j : Json}
    (hcs : WritesInteger cs n) (hr : Closes rest)
    (h : value (depth + 1) (cs ++ rest) = .ok (j, rest')) : ReadsInteger j n := by
  cases hcs with
  | natural hne hd =>
    obtain ⟨c, cs, rfl⟩ := List.exists_cons_of_ne_nil hne
    rw [List.cons_append, value_digit (hd c (by simp))] at h
    exact number_reads hne hd hr h
  | @negative ds hne hd =>
    have hb : skipBlanks ('-' :: (ds ++ rest)) = '-' :: (ds ++ rest) := rfl
    rw [List.cons_append, value] at h
    simp only [hb, beq_iff_eq, Char.reduceEq, ↓reduceIte] at h
    exact number_reads hne hd hr h

end Json
end RpcConsole

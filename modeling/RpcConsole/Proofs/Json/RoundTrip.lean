import RpcConsole.Proofs.Basic
import RpcConsole.Proofs.Json.Tokens
import RpcConsole.Proofs.Number.Zero

namespace RpcConsole.Json

mutual

/-- How many lists and objects stand around each other in a value. -/
def levels : Json → Nat
  | .arr vs => levelsOf vs + 1
  | .obj ms => levelsOfMembers ms + 1
  | _ => 0

def levelsOf : List Json → Nat
  | [] => 0
  | v :: vs => max (levels v) (levelsOf vs)

def levelsOfMembers : List (String × Json) → Nat
  | [] => 0
  | (_, v) :: ms => max (levels v) (levelsOfMembers ms)

end

mutual

/-- A value as it comes out of a text: numbers are read at one width, and members are sorted. -/
def asRead : Json → Json
  | .single x => .double x.toBinary64
  | .arr vs => .arr (asReadItems vs)
  | .obj ms => .obj (sorted (asReadMembers ms))
  | j => j

def asReadItems : List Json → List Json
  | [] => []
  | v :: vs => asRead v :: asReadItems vs

def asReadMembers : List (String × Json) → List (String × Json)
  | [] => []
  | (k, v) :: ms => (k, asRead v) :: asReadMembers ms

end

mutual

/-- Integers are 64-bit words, and there are no other floating-point numbers than the zeros. -/
def IsPlain : Json → Prop
  | .int n => -9223372036854775808 ≤ n ∧ n ≤ 18446744073709551615
  | .double x => x.IsZero
  | .single x => x.IsZero
  | .arr vs => ArePlain vs
  | .obj ms => ArePlainMembers ms
  | _ => True

def ArePlain : List Json → Prop
  | [] => True
  | v :: vs => IsPlain v ∧ ArePlain vs

def ArePlainMembers : List (String × Json) → Prop
  | [] => True
  | (_, v) :: ms => IsPlain v ∧ ArePlainMembers ms

end

theorem asReadMembers_eq (ms : List (String × Json)) :
    asReadMembers ms = ms.map fun m => (m.1, asRead m.2) := by
  induction ms with
  | nil => rfl
  | cons m ms ih => simp [asReadMembers, ih]

theorem arePlainMembers_iff {ms : List (String × Json)} :
    ArePlainMembers ms ↔ ∀ m ∈ ms, IsPlain m.2 := by
  induction ms with
  | nil => simp [ArePlainMembers]
  | cons m ms ih => simp [ArePlainMembers, ih]

theorem skipBlanks_newline (level : Nat) (cs : List Char) :
    skipBlanks (Layout.pretty.newline level ++ cs) = skipBlanks cs := by
  have hr : ∀ k : Nat, skipBlanks (List.replicate k ' ' ++ cs) = skipBlanks cs := by
    intro k
    induction k with
    | zero => rfl
    | succ k ih =>
      rw [List.replicate_succ, List.cons_append, skipBlanks, List.dropWhile_cons_of_pos (by rfl)]
      exact ih
  simp only [Layout.newline, Layout.pretty, ↓reduceIte, List.cons_append]
  rw [skipBlanks, List.dropWhile_cons_of_pos (by rfl)]
  exact hr _

/-- The first character of a value that was written. -/
def Starts (cs : List Char) : Prop :=
  ∃ c rest, cs = c :: rest ∧ isBlank c = false ∧ c ≠ ']' ∧ c ≠ '\x7d'

theorem Starts.skipBlanks {cs : List Char} (h : Starts cs) : skipBlanks cs = cs := by
  obtain ⟨c, rest, rfl, hb, -⟩ := h
  rw [Json.skipBlanks, List.dropWhile_cons_of_neg (by simp [hb])]

theorem intText_starts (n : Int) (rest : List Char) : Starts (intText n ++ rest) := by
  have hdigits : ∀ m : Nat, Starts (Nat.toDigits 10 m ++ rest) := by
    intro m
    cases hd : Nat.toDigits 10 m with
    | nil => exact absurd hd Nat.toDigits_ne_nil
    | cons c cs =>
      have hc := IntRange.toDigits_isDigit (n := m) (c := c) (by simp [hd])
      refine ⟨c, cs ++ rest, rfl, ?_, ?_, ?_⟩
      · simp only [isBlank, Bool.or_eq_false_iff, beq_eq_false_iff_ne]
        refine ⟨⟨⟨?_, ?_⟩, ?_⟩, ?_⟩ <;> (rintro rfl; exact absurd hc (by decide))
      · rintro rfl
        exact absurd hc (by decide)
      · rintro rfl
        exact absurd hc (by decide)
  cases n with
  | ofNat m =>
    rw [intText, IntRange.toString_ofNat]
    exact hdigits m
  | negSucc m =>
    rw [intText, IntRange.toString_negSucc]
    exact ⟨'-', _, rfl, by decide, by decide, by decide⟩

/-- Zero is written with a point. -/
def zeroText (negative : Bool) : List Char :=
  if negative then ['-', '0', '.', '0'] else ['0', '.', '0']

theorem zeroText_starts (negative : Bool) (rest : List Char) :
    Starts (zeroText negative ++ rest) := by
  cases negative
  · exact ⟨'0', ['.', '0'] ++ rest, rfl, by decide, by decide, by decide⟩
  · exact ⟨'-', ['0', '.', '0'] ++ rest, rfl, by decide, by decide, by decide⟩

theorem write_zero (level : Nat) {x : Binary64} (hx : x.IsZero) :
    write .pretty level (.double x) = zeroText x.isNegative := by
  rw [write]
  rcases hx with rfl | rfl <;> decide +kernel

theorem write_single_zero (level : Nat) {x : Binary32} (hx : x.IsZero) :
    write .pretty level (.single x) = zeroText x.toBinary64.isNegative := by
  rw [write]
  rcases hx with rfl | rfl <;> decide +kernel

theorem write_starts (level : Nat) (j : Json) (hp : j.IsPlain) (rest : List Char) :
    Starts (write .pretty level j ++ rest) := by
  cases j with
  | null => exact ⟨'n', _, rfl, by decide, by decide, by decide⟩
  | bool b =>
    cases b
    · exact ⟨'f', _, rfl, by decide, by decide, by decide⟩
    · exact ⟨'t', _, rfl, by decide, by decide, by decide⟩
  | int n =>
    rw [write]
    exact intText_starts n rest
  | double x =>
    rw [write_zero level hp]
    exact zeroText_starts _ rest
  | single x =>
    rw [write_single_zero level hp]
    exact zeroText_starts _ rest
  | str s =>
    rw [write]
    exact ⟨'"', _, rfl, by decide, by decide, by decide⟩
  | arr vs =>
    cases vs <;> rw [write] <;> exact ⟨'[', _, rfl, by decide, by decide, by decide⟩
  | obj ms =>
    rcases ms with - | ⟨⟨k, v⟩, ms⟩ <;> rw [write] <;>
      exact ⟨'\x7b', _, rfl, by decide, by decide, by decide⟩

/-- A digit starts a number. -/
theorem value_digit {c : Char} (hc : c.isDigit = true) (depth : Nat) (cs : List Char) :
    value (depth + 1) (c :: cs) = number false (c :: cs) := by
  have hne : ∀ d : Char, d.isDigit = false → c ≠ d := by
    rintro d hd rfl
    rw [hc] at hd
    cases hd
  have hb : skipBlanks (c :: cs) = c :: cs := by
    refine List.dropWhile_cons_of_neg ?_
    simp only [isBlank, Bool.or_eq_true, beq_iff_eq, not_or]
    exact ⟨⟨⟨hne _ rfl, hne _ rfl⟩, hne _ rfl⟩, hne _ rfl⟩
  rw [value]
  simp only [hb, beq_iff_eq, hne _ (show Char.isDigit 'n' = false from rfl),
    hne _ (show Char.isDigit 't' = false from rfl), hne _ (show Char.isDigit 'f' = false from rfl),
    hne _ (show Char.isDigit '-' = false from rfl), hc, ↓reduceIte]

theorem value_int {n : Int} (hp : IsPlain (.int n)) (depth : Nat) {rest : List Char}
    (hr : Ends rest) : value (depth + 1) (intText n ++ rest) = .ok (.int n, rest) := by
  rw [IsPlain] at hp
  cases n with
  | ofNat m =>
    have hm : m ≤ maxSignificand := by
      have hu : (m : Int) ≤ 18446744073709551615 := hp.2
      unfold maxSignificand
      omega
    have hnum := @number_toDigits false m rest hm hr
    rw [intText, IntRange.toString_ofNat]
    cases hd : Nat.toDigits 10 m with
    | nil => exact absurd hd Nat.toDigits_ne_nil
    | cons c cs =>
      have hc := IntRange.toDigits_isDigit (n := m) (c := c) (by simp [hd])
      rw [hd] at hnum
      rw [List.cons_append, value_digit hc]
      simpa [ofWord] using hnum
  | negSucc m =>
    have hm : m + 1 ≤ maxSignificand := by
      unfold maxSignificand
      omega
    have hnum := @number_toDigits true (m + 1) rest hm hr
    have hword : ofWord true (m + 1) = .int (Int.negSucc m) := by
      have hlow : ¬ 9223372036854775808 < m + 1 := by omega
      simp [ofWord, hlow, Int.negSucc_eq]
    have hb : skipBlanks ('-' :: (Nat.toDigits 10 (m + 1) ++ rest)) =
        '-' :: (Nat.toDigits 10 (m + 1) ++ rest) := rfl
    rw [intText, IntRange.toString_negSucc, List.cons_append, value]
    simp only [hb, beq_iff_eq, Char.reduceEq, ↓reduceIte, hnum, hword]

/-- Zero with a point, as the only number that is written with one. -/
theorem number_zero (negative : Bool) {rest : List Char} (hr : Ends rest) :
    number negative ('0' :: '.' :: '0' :: rest) =
      .ok (.double (if negative then .negativeZero else .zero), rest) := by
  have htake : takeDigits 0 0 ('0' :: rest) = (0, 1, rest) := by
    have hzero : ∀ d ∈ ['0'], Char.isDigit d = true := by
      intro d hd
      obtain rfl := List.mem_singleton.mp hd
      rfl
    exact takeDigits_all hr.not_digit hzero 0 0 (by decide)
  have hparts : ofParts negative 0 (-1) rest =
      .ok (.double (if negative then .negativeZero else .zero), rest) := by
    have hdown : scaleDown (Binary64.ofNat 0) 1 = .zero := by decide +kernel
    have hneg : Binary64.zero.neg = .negativeZero := by decide +kernel
    show Except.ok (Json.double (if negative then (scaleDown (Binary64.ofNat 0) 1).neg
      else scaleDown (Binary64.ofNat 0) 1), rest) = _
    rw [hdown, hneg]
  have hscaled : scaledPart negative 0 (-1) rest =
      .ok (.double (if negative then .negativeZero else .zero), rest) := by
    cases rest with
    | nil => exact hparts
    | cons c cs =>
      have hletter : isExponentLetter c = false := by
        rcases hr c cs rfl with rfl | rfl <;> rfl
      simp [scaledPart, hletter, hparts]
  have hpoint : startsWithDigit ('.' :: '0' :: rest) = false := rfl
  have hfraction : fractionPart negative 0 0 ('0' :: rest) =
      .ok (.double (if negative then .negativeZero else .zero), rest) := by
    rw [fractionPart, htake]
    simp only [hr.not_digit, Bool.false_eq_true, ↓reduceIte]
    exact hscaled
  rw [number]
  simp only [beq_self_eq_true, ↓reduceIte, hpoint, Bool.false_eq_true]
  exact hfraction

theorem value_zero (depth : Nat) {x : Binary64} (hx : x.IsZero) {rest : List Char}
    (hr : Ends rest) :
    value (depth + 1) (zeroText x.isNegative ++ rest) = .ok (.double x, rest) := by
  rcases hx with rfl | rfl
  · have hsign : Binary64.zero.isNegative = false := by decide
    show value (depth + 1) (zeroText _ ++ rest) = _
    rw [hsign]
    show value (depth + 1) ('0' :: '.' :: '0' :: rest) = _
    rw [value_digit (by decide), number_zero false hr]
    rfl
  · have hsign : Binary64.negativeZero.isNegative = true := by decide
    have hb : skipBlanks ('-' :: '0' :: '.' :: '0' :: rest) =
        '-' :: '0' :: '.' :: '0' :: rest := rfl
    rw [hsign]
    show value (depth + 1) ('-' :: '0' :: '.' :: '0' :: rest) = _
    rw [value]
    simp only [hb, beq_iff_eq, Char.reduceEq, ↓reduceIte, number_zero true hr]

theorem value_quote (depth : Nat) (cs : List Char) :
    value (depth + 1) ('"' :: cs) =
      (stringTail cs).map fun r => (.str (String.ofList r.1), r.2) := by
  have hb : skipBlanks ('"' :: cs) = '"' :: cs := rfl
  have hdigit : Char.isDigit '"' = false := rfl
  rw [value]
  simp only [hb, beq_iff_eq, Char.reduceEq, ↓reduceIte, hdigit, Bool.false_eq_true]

theorem value_str (s : String) (depth : Nat) (rest : List Char) :
    value (depth + 1) (quote s ++ rest) = .ok (.str s, rest) := by
  have ht := stringTail_escape s.toList rest
  rw [quote, List.cons_append, List.append_assoc, List.singleton_append, value_quote, ht]
  simp [Except.map]

theorem newline_ends (level : Nat) (rest : List Char) :
    Ends (Layout.pretty.newline level ++ rest) := by
  intro c cs h
  simp only [Layout.newline, Layout.pretty, ↓reduceIte, List.cons_append, List.cons.injEq] at h
  exact .inr h.1.symm

theorem comma_ends (rest : List Char) : Ends (',' :: rest) := by
  intro c cs h
  exact .inl (List.cons.inj h).1.symm

section

variable {read : List Char → Except Fault (Json × List Char)} {v : Json} {vs : List Json}
variable {cs cs' rest : List Char}

theorem listTail_end (n level : Nat) (isFirst : Bool) (rest : List Char) :
    listTail read (n + 1) isFirst (Layout.pretty.newline level ++ ']' :: rest) =
      .ok ([], rest) := by
  have hb : skipBlanks (Layout.pretty.newline level ++ ']' :: rest) = ']' :: rest :=
    skipBlanks_newline level _
  rw [listTail]
  simp only [hb, beq_self_eq_true, ↓reduceIte]
  rfl

theorem listTail_first {n level : Nat} (hs : Starts cs) (hv : read cs = .ok (v, cs'))
    (hvs : listTail read n false cs' = .ok (vs, rest)) :
    listTail read (n + 1) true (Layout.pretty.newline level ++ cs) = .ok (v :: vs, rest) := by
  have hb : skipBlanks (Layout.pretty.newline level ++ cs) = cs := by
    rw [skipBlanks_newline, hs.skipBlanks]
  obtain ⟨c, rest, rfl, -, hc, -⟩ := hs
  rw [listTail]
  simp only [hb, beq_iff_eq, hc, ↓reduceIte, hv, hvs, bind, Except.bind, pure, Except.pure]

theorem listTail_next {n level : Nat} (hs : Starts cs) (hv : read cs = .ok (v, cs'))
    (hvs : listTail read n false cs' = .ok (vs, rest)) :
    listTail read (n + 1) false (',' :: (Layout.pretty.newline level ++ cs)) =
      .ok (v :: vs, rest) := by
  have hb : skipBlanks (Layout.pretty.newline level ++ cs) = cs := by
    rw [skipBlanks_newline, hs.skipBlanks]
  have hcomma : skipBlanks (',' :: (Layout.pretty.newline level ++ cs)) =
      ',' :: (Layout.pretty.newline level ++ cs) := rfl
  obtain ⟨c, rest, rfl, -, hc, -⟩ := hs
  rw [listTail]
  simp only [hcomma, hb, beq_iff_eq, Char.reduceEq, hc, Bool.false_eq_true, ↓reduceIte, hv, hvs,
    bind, Except.bind, pure, Except.pure]

end

theorem value_list (depth : Nat) (cs : List Char) :
    value (depth + 2) ('[' :: cs) =
      (listTail (value (depth + 1)) (cs.length + 1) true cs).map fun r => (.arr r.1, r.2) := by
  have hb : skipBlanks ('[' :: cs) = '[' :: cs := rfl
  have hdigit : Char.isDigit '[' = false := rfl
  rw [value]
  simp only [hb, beq_iff_eq, Char.reduceEq, ↓reduceIte, hdigit, Bool.false_eq_true,
    Nat.add_eq_zero_iff, Nat.one_ne_zero, and_false, List.length_cons]

section

variable {read : List Char → Except Fault (Json × List Char)} {v : Json}
variable {ms : List (String × Json)} {cs cs' rest : List Char}

theorem member_quote {k : String} (hv : read (' ' :: cs) = .ok (v, rest)) :
    member read (quote k ++ Layout.pretty.colon ++ cs) = .ok ((k, v), rest) := by
  have ht := stringTail_escape k.toList (Layout.pretty.colon ++ cs)
  have hb : skipBlanks (Layout.pretty.colon ++ cs) = ':' :: ' ' :: cs := rfl
  rw [quote, List.cons_append, List.cons_append, List.append_assoc, List.append_assoc,
    List.singleton_append, member]
  simp only [ht, hb, hv, bind, Except.bind, pure, Except.pure, String.ofList_toList]

theorem objectTail_end (n level : Nat) (isFirst : Bool) (rest : List Char) :
    objectTail read (n + 1) isFirst (Layout.pretty.newline level ++ '\x7d' :: rest) =
      .ok ([], rest) := by
  have hb : skipBlanks (Layout.pretty.newline level ++ '\x7d' :: rest) = '\x7d' :: rest :=
    skipBlanks_newline level _
  rw [objectTail]
  simp only [hb, beq_self_eq_true, ↓reduceIte]
  rfl

variable {m : String × Json}

theorem objectTail_first {n level : Nat} (hs : Starts cs) (hv : member read cs = .ok (m, cs'))
    (hms : objectTail read n false cs' = .ok (ms, rest)) :
    objectTail read (n + 1) true (Layout.pretty.newline level ++ cs) = .ok (m :: ms, rest) := by
  have hb : skipBlanks (Layout.pretty.newline level ++ cs) = cs := by
    rw [skipBlanks_newline, hs.skipBlanks]
  obtain ⟨c, rest, rfl, -, -, hc⟩ := hs
  rw [objectTail]
  simp only [hb, beq_iff_eq, hc, ↓reduceIte, hv, hms, bind, Except.bind, pure, Except.pure]

theorem objectTail_next {n level : Nat} (hs : Starts cs) (hv : member read cs = .ok (m, cs'))
    (hms : objectTail read n false cs' = .ok (ms, rest)) :
    objectTail read (n + 1) false (',' :: (Layout.pretty.newline level ++ cs)) =
      .ok (m :: ms, rest) := by
  have hb : skipBlanks (Layout.pretty.newline level ++ cs) = cs := by
    rw [skipBlanks_newline, hs.skipBlanks]
  have hcomma : skipBlanks (',' :: (Layout.pretty.newline level ++ cs)) =
      ',' :: (Layout.pretty.newline level ++ cs) := rfl
  obtain ⟨c, rest, rfl, -, -, hc⟩ := hs
  rw [objectTail]
  simp only [hcomma, hb, beq_iff_eq, Char.reduceEq, hc, Bool.false_eq_true, ↓reduceIte, hv, hms,
    bind, Except.bind, pure, Except.pure]

end

theorem value_object (depth : Nat) (cs : List Char) :
    value (depth + 2) ('\x7b' :: cs) =
      (objectTail (value (depth + 1)) (cs.length + 1) true cs).map fun r =>
        (.obj (sorted r.1), r.2) := by
  have hb : skipBlanks ('\x7b' :: cs) = '\x7b' :: cs := rfl
  have hdigit : Char.isDigit '\x7b' = false := rfl
  rw [value]
  simp only [hb, beq_iff_eq, Char.reduceEq, ↓reduceIte, hdigit, Bool.false_eq_true,
    Nat.add_eq_zero_iff, Nat.one_ne_zero, and_false, List.length_cons]

theorem value_blank (depth : Nat) (cs : List Char) :
    value (depth + 1) (' ' :: cs) = value (depth + 1) cs := by
  have hb : skipBlanks (' ' :: cs) = skipBlanks cs := List.dropWhile_cons_of_pos (by rfl)
  rw [value, value, hb]

theorem writeItems_ends (level : Nat) (vs : List Json) (rest : List Char) :
    Ends (writeItems .pretty (level + 1) vs ++ (Layout.pretty.newline level ++ rest)) := by
  cases vs with
  | nil => exact newline_ends level rest
  | cons v vs =>
    rw [writeItems]
    exact comma_ends _

theorem writeMembers_ends (level : Nat) (ms : List (String × Json)) (rest : List Char) :
    Ends (writeMembers .pretty (level + 1) ms ++ (Layout.pretty.newline level ++ rest)) := by
  cases ms with
  | nil => exact newline_ends level rest
  | cons m ms =>
    rw [writeMembers]
    exact comma_ends _

theorem length_writeItems (level : Nat) (vs : List Json) :
    vs.length ≤ (writeItems .pretty level vs).length := by
  induction vs with
  | nil => simp
  | cons v vs ih =>
    simp only [writeItems, List.length_cons, List.length_append]
    omega

theorem length_writeMembers (level : Nat) (ms : List (String × Json)) :
    ms.length ≤ (writeMembers .pretty level ms).length := by
  induction ms with
  | nil => simp
  | cons m ms ih =>
    simp only [writeMembers, List.length_cons, List.length_append]
    omega

theorem quote_starts (k : String) (rest : List Char) : Starts (quote k ++ rest) :=
  ⟨'"', _, rfl, by decide, by decide, by decide⟩

mutual

/-- A value that was written is read, whatever ends it. -/
theorem value_write (depth level : Nat) (rest : List Char) (hr : Ends rest) :
    ∀ j : Json, j.IsPlain → j.levels ≤ depth →
      value (depth + 1) (write .pretty level j ++ rest) = .ok (j.asRead, rest)
  | .null, _, _ => by
    rw [write, value]
    rfl
  | .bool b, _, _ => by
    rw [write, value]
    cases b <;> rfl
  | .int n, hp, _ => by
    rw [write]
    exact value_int hp depth hr
  | .double x, hp, _ => by
    rw [write_zero level hp]
    exact value_zero depth hp hr
  | .single x, hp, _ => by
    rw [write_single_zero level hp, asRead]
    exact value_zero depth (Binary32.IsZero.toBinary64 hp) hr
  | .str s, _, _ => by
    rw [write]
    exact value_str s depth rest
  | .arr [], _, hl => by
    obtain ⟨d, rfl⟩ : ∃ d, depth = d + 1 := ⟨depth - 1, by simp [levels] at hl; omega⟩
    rw [write, asRead, asReadItems]
    exact value_list d (']' :: rest)
  | .arr (v :: vs), hp, hl => by
    simp only [levels, levelsOf] at hl
    obtain ⟨d, rfl⟩ : ∃ d, depth = d + 1 := ⟨depth - 1, by omega⟩
    simp only [IsPlain, ArePlain] at hp
    have hv := value_write d (level + 1)
      (writeItems .pretty (level + 1) vs ++ (Layout.pretty.newline level ++ ']' :: rest))
      (writeItems_ends level vs _) v hp.1 (by omega)
    have hvs := listTail_write d level rest vs hp.2 (by omega)
    have hlen := length_writeItems (level + 1) vs
    rw [write, asRead, asReadItems]
    simp only [List.cons_append, List.append_assoc, List.nil_append]
    rw [value_list, listTail_first (write_starts _ v hp.1 _) hv (hvs _ ?_)]
    · rfl
    · simp only [List.length_append, List.length_cons]
      omega
  | .obj [], _, hl => by
    obtain ⟨d, rfl⟩ : ∃ d, depth = d + 1 := ⟨depth - 1, by simp [levels] at hl; omega⟩
    rw [write, asRead, asReadMembers]
    exact value_object d ('\x7d' :: rest)
  | .obj ((k, v) :: ms), hp, hl => by
    simp only [levels, levelsOfMembers] at hl
    obtain ⟨d, rfl⟩ : ∃ d, depth = d + 1 := ⟨depth - 1, by omega⟩
    simp only [IsPlain, ArePlainMembers] at hp
    have hv := value_write d (level + 1)
      (writeMembers .pretty (level + 1) ms ++ (Layout.pretty.newline level ++ '\x7d' :: rest))
      (writeMembers_ends level ms _) v hp.1 (by omega)
    have hms := objectTail_write d level rest ms hp.2 (by omega)
    have hlen := length_writeMembers (level + 1) ms
    rw [← value_blank] at hv
    have hm := member_quote (k := k) hv
    rw [List.append_assoc] at hm
    rw [write, asRead, asReadMembers]
    simp only [List.cons_append, List.append_assoc, List.nil_append]
    rw [value_object, objectTail_first (quote_starts k _) hm (hms _ ?_)]
    · rfl
    · simp only [List.length_append, List.length_cons]
      omega

theorem listTail_write (depth level : Nat) (rest : List Char) :
    ∀ vs : List Json, ArePlain vs → levelsOf vs ≤ depth → ∀ n, vs.length < n →
      listTail (value (depth + 1)) n false
        (writeItems .pretty (level + 1) vs ++ (Layout.pretty.newline level ++ ']' :: rest)) =
          .ok (asReadItems vs, rest)
  | [], _, _, n, hn => by
    obtain ⟨n, rfl⟩ : ∃ k, n = k + 1 := ⟨n - 1, by omega⟩
    rw [writeItems, asReadItems]
    exact listTail_end n level false rest
  | v :: vs, hp, hl, n, hn => by
    simp only [levelsOf] at hl
    rw [List.length_cons] at hn
    obtain ⟨n, rfl⟩ : ∃ k, n = k + 1 := ⟨n - 1, by omega⟩
    rw [ArePlain] at hp
    have hv := value_write depth (level + 1)
      (writeItems .pretty (level + 1) vs ++ (Layout.pretty.newline level ++ ']' :: rest))
      (writeItems_ends level vs _) v hp.1 (by omega)
    have hvs := listTail_write depth level rest vs hp.2 (by omega) n (by omega)
    rw [writeItems, asReadItems]
    simp only [List.cons_append, List.append_assoc]
    exact listTail_next (write_starts _ v hp.1 _) hv hvs

theorem objectTail_write (depth level : Nat) (rest : List Char) :
    ∀ ms : List (String × Json), ArePlainMembers ms → levelsOfMembers ms ≤ depth →
      ∀ n, ms.length < n →
        objectTail (value (depth + 1)) n false
          (writeMembers .pretty (level + 1) ms ++ (Layout.pretty.newline level ++ '\x7d' :: rest)) =
            .ok (asReadMembers ms, rest)
  | [], _, _, n, hn => by
    obtain ⟨n, rfl⟩ : ∃ k, n = k + 1 := ⟨n - 1, by omega⟩
    rw [writeMembers, asReadMembers]
    exact objectTail_end n level false rest
  | (k, v) :: ms, hp, hl, n, hn => by
    simp only [levelsOfMembers] at hl
    rw [List.length_cons] at hn
    obtain ⟨n, rfl⟩ : ∃ k, n = k + 1 := ⟨n - 1, by omega⟩
    rw [ArePlainMembers] at hp
    have hv := value_write depth (level + 1)
      (writeMembers .pretty (level + 1) ms ++ (Layout.pretty.newline level ++ '\x7d' :: rest))
      (writeMembers_ends level ms _) v hp.1 (by omega)
    have hms := objectTail_write depth level rest ms hp.2 (by omega) n (by omega)
    rw [← value_blank] at hv
    have hm := member_quote (k := k) hv
    rw [List.append_assoc] at hm
    rw [writeMembers, asReadMembers]
    simp only [List.cons_append, List.append_assoc]
    exact objectTail_next (quote_starts k _) hm hms

end

/-- The text of a value that is not nested too deep is read as it was written, with blanks behind
it. -/
theorem read_written {j : Json} {text : String} {blanks : List Char} (hp : j.IsPlain)
    (hl : j.levels < depthLimit) (hr : Ends blanks) (hb : skipBlanks blanks = [])
    (ht : text.toList = write .pretty 0 j ++ blanks) : read text = .ok j.asRead := by
  have hv := value_write 127 0 blanks hr j hp (by unfold depthLimit at hl; omega)
  have ha : readAll text.toList = .ok j.asRead := by
    unfold readAll
    simp only [ht, depthLimit, hv, hb, bind, Except.bind]
    rfl
  simp only [read, ha]

theorem read_pretty {j : Json} (hp : j.IsPlain) (hl : j.levels < depthLimit) :
    read j.pretty = .ok j.asRead :=
  read_written hp hl (show Ends [] by simp [Ends]) rfl (by simp [pretty])

/-- A text that ends its last line is read as one that does not. -/
theorem read_pretty_newline {j : Json} (hp : j.IsPlain) (hl : j.levels < depthLimit) :
    read (j.pretty ++ "\n") = .ok j.asRead :=
  read_written hp hl (show Ends ['\n'] by simp [Ends]) rfl (by simp [pretty])

end RpcConsole.Json

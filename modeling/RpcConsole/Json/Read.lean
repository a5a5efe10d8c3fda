import RpcConsole.Json.Value
import RpcConsole.Text.Utf8

namespace RpcConsole.Json

inductive Cause where
  | endInList
  | endInObject
  | endInString
  | endInValue
  | expectedColon
  | expectedListEnd
  | expectedObjectEnd
  | expectedWord
  | expectedValue
  | invalidEscape
  | invalidNumber
  | numberOutOfRange
  | controlCharacter
  | keyNotString
  | loneSurrogate
  | trailingComma
  | trailingText
  | unfinishedSurrogate
  | tooDeep
  deriving Repr, DecidableEq

def Cause.message : Cause → String
  | .endInList => "EOF while parsing a list"
  | .endInObject => "EOF while parsing an object"
  | .endInString => "EOF while parsing a string"
  | .endInValue => "EOF while parsing a value"
  | .expectedColon => "expected `:`"
  | .expectedListEnd => "expected `,` or `]`"
  | .expectedObjectEnd => "expected `,` or `\x7d`"
  | .expectedWord => "expected ident"
  | .expectedValue => "expected value"
  | .invalidEscape => "invalid escape"
  | .invalidNumber => "invalid number"
  | .numberOutOfRange => "number out of range"
  | .controlCharacter => "control character (\\u0000-\\u001F) found while parsing a string"
  | .keyNotString => "key must be a string"
  | .loneSurrogate => "lone leading surrogate in hex escape"
  | .trailingComma => "trailing comma"
  | .trailingText => "trailing characters"
  | .unfinishedSurrogate => "unexpected end of hex escape"
  | .tooDeep => "recursion limit exceeded"

structure Fault where
  cause : Cause
  unread : Nat
  deriving Repr, DecidableEq

/-- A cause with its line, from one, and the count of bytes before it on that line. -/
structure ReadError where
  cause : Cause
  line : Nat
  column : Nat
  deriving Repr, DecidableEq

def ReadError.message (e : ReadError) : String :=
  s!"{e.cause.message} at line {e.line} column {e.column}"

def failAt {α : Type} (cause : Cause) (rest : List Char) : Except Fault α :=
  .error ⟨cause, Utf8.byteCount rest⟩

def failBehind {α : Type} (cause : Cause) (rest : List Char) : Except Fault α :=
  .error ⟨cause, Utf8.byteCount rest - 1⟩

def isBlank (c : Char) : Bool :=
  c == ' ' || c == '\n' || c == '\t' || c == '\r'

def skipBlanks (cs : List Char) : List Char :=
  cs.dropWhile isBlank

def maxSignificand : Nat := 18446744073709551615

def takeDigits (significand count : Nat) : List Char → Nat × Nat × List Char
  | [] => (significand, count, [])
  | c :: cs =>
    let next := significand * 10 + Spelled.digitValue c
    if c.isDigit && next ≤ maxSignificand then takeDigits next (count + 1) cs
    else (significand, count, c :: cs)

def startsWithDigit : List Char → Bool
  | c :: _ => c.isDigit
  | [] => false

def powerOfTen (k : Nat) : Binary64 :=
  Binary64.ofDecimal false 1 k

def maxPlaces : Nat := 308

theorem maxPlaces_pos : 0 < maxPlaces := by decide

def scaleDown (x : Binary64) (places : Nat) : Binary64 :=
  if places ≤ maxPlaces then x.div (powerOfTen places)
  else if x.meaning.isZero then x
  else scaleDown (x.div (powerOfTen maxPlaces)) (places - maxPlaces)
termination_by places
decreasing_by
  have := maxPlaces_pos
  omega

/-- The number `significand * 10 ^ exponent`: both parts are rounded, then their product. -/
def ofParts (negative : Bool) (significand : Nat) (exponent : Int) (rest : List Char) :
    Except Fault (Json × List Char) :=
  let signed (x : Binary64) : Json := .double (if negative then x.neg else x)
  let x := Binary64.ofNat significand
  match exponent with
  | .negSucc k => .ok (signed (scaleDown x (k + 1)), rest)
  | .ofNat k =>
    if k ≤ maxPlaces then
      let y := x.mul (powerOfTen k)
      if y.meaning.isInfinite then failAt .numberOutOfRange rest else .ok (signed y, rest)
    else if x.meaning.isZero then .ok (signed x, rest)
    else failAt .numberOutOfRange rest

def maxExponent : Nat := 2147483647

/-- Takes exponent digits while the exponent stays in range. The flag tells that it left the
range, with the digit that did so taken. -/
def takeExponent (exponent : Nat) : List Char → Nat × Bool × List Char
  | [] => (exponent, false, [])
  | c :: cs =>
    if c.isDigit then
      let next := exponent * 10 + Spelled.digitValue c
      if next ≤ maxExponent then takeExponent next cs else (exponent, true, cs)
    else (exponent, false, c :: cs)

def exponentPart (negative : Bool) (significand : Nat) (start : Int) (cs : List Char) :
    Except Fault (Json × List Char) :=
  let (down, cs) := Spelled.takeSign cs
  match cs with
  | [] => failAt .endInValue []
  | c :: _ =>
    if !c.isDigit then failBehind .invalidNumber cs
    else
      let (exponent, isTooLarge, rest) := takeExponent 0 cs
      if isTooLarge then
        if significand != 0 && !down then failAt .numberOutOfRange rest
        else
          let zero := Binary64.zero
          .ok (.double (if negative then zero.neg else zero), rest.dropWhile Char.isDigit)
      else ofParts negative significand (if down then start - exponent else start + exponent) rest

def isExponentLetter (c : Char) : Bool :=
  c == 'e' || c == 'E'

def scaledPart (negative : Bool) (significand : Nat) (exponent : Int) (cs : List Char) :
    Except Fault (Json × List Char) :=
  match cs with
  | c :: rest =>
    if isExponentLetter c then exponentPart negative significand exponent rest
    else ofParts negative significand exponent cs
  | [] => ofParts negative significand exponent []

/-- Reads behind the point. Digits that no longer fit are dropped. -/
def fractionPart (negative : Bool) (significand : Nat) (start : Int) (cs : List Char) :
    Except Fault (Json × List Char) :=
  let (significand, count, rest) := takeDigits significand 0 cs
  if startsWithDigit rest then
    scaledPart negative significand (start - count) (rest.dropWhile Char.isDigit)
  else if count == 0 then
    failBehind (if rest.isEmpty then .endInValue else .invalidNumber) rest
  else scaledPart negative significand (start - count) rest

/-- The number of an integer word. Negative zero and what is below the signed range is no
integer. -/
def ofWord (negative : Bool) (significand : Nat) : Json :=
  if !negative then .int significand
  else if significand == 0 || 9223372036854775808 < significand then
    .double (Binary64.ofNat significand).neg
  else .int (-(significand : Int))

def integerPart (negative : Bool) (significand dropped : Nat) (cs : List Char) :
    Except Fault (Json × List Char) :=
  match cs with
  | '.' :: rest => fractionPart negative significand dropped rest
  | c :: rest =>
    if isExponentLetter c then exponentPart negative significand dropped rest
    else if dropped == 0 then .ok (ofWord negative significand, cs)
    else ofParts negative significand dropped cs
  | [] =>
    if dropped == 0 then .ok (ofWord negative significand, [])
    else ofParts negative significand dropped []

def number (negative : Bool) (cs : List Char) : Except Fault (Json × List Char) :=
  match cs with
  | [] => failAt .endInValue []
  | c :: rest =>
    if c == '0' then
      if startsWithDigit rest then failBehind .invalidNumber rest
      else integerPart negative 0 0 rest
    else if c.isDigit then
      let (significand, _, rest) := takeDigits 0 0 cs
      let more := rest.takeWhile Char.isDigit
      integerPart negative significand more.length (rest.dropWhile Char.isDigit)
    else failBehind .invalidNumber cs

def hexValue? (c : Char) : Option Nat :=
  if c.isDigit then some (c.toNat - 48)
  else if 'a' ≤ c && c ≤ 'f' then some (c.toNat - 87)
  else if 'A' ≤ c && c ≤ 'F' then some (c.toNat - 55)
  else none

def hexUnit? : List Char → Option (Nat × List Char)
  | a :: b :: c :: d :: rest => do
    let a ← hexValue? a
    let b ← hexValue? b
    let c ← hexValue? c
    let d ← hexValue? d
    return (a * 4096 + b * 256 + c * 16 + d, rest)
  | _ => none

/-- Reads four hexadecimal digits; a fault is placed behind the four bytes that are not. -/
def hexUnit (cs : List Char) : Except Fault (Nat × List Char) :=
  match hexUnit? cs with
  | some r => .ok r
  | none =>
    if Utf8.byteCount cs < 4 then .error ⟨.endInString, 0⟩
    else .error ⟨.invalidEscape, Utf8.byteCount cs - 4⟩

def pairMark (c : Char) : List Char → Except Fault (List Char)
  | [] => failAt .endInString []
  | d :: rest => if d == c then .ok rest else failBehind .unfinishedSurrogate (d :: rest)

/-- Reads an escape behind its `u`. Code points above the first plane take two escapes. -/
def unicodeEscape (cs : List Char) : Except Fault (Char × List Char) := do
  let (n, rest) ← hexUnit cs
  if 0xdc00 ≤ n && n ≤ 0xdfff then failAt .loneSurrogate rest
  else if n < 0xd800 || 0xdfff < n then return (Char.ofNat n, rest)
  else
    let rest ← pairMark '\\' rest
    let rest ← pairMark 'u' rest
    let (m, rest) ← hexUnit rest
    if m < 0xdc00 || 0xdfff < m then failAt .loneSurrogate rest
    else return (Char.ofNat ((n - 0xd800) * 1024 + (m - 0xdc00) + 0x10000), rest)

def letterEscape? (c : Char) : Option Char :=
  if c == '"' || c == '\\' || c == '/' then some c
  else if c == 'b' then some (Char.ofNat 8)
  else if c == 'f' then some (Char.ofNat 12)
  else if c == 'n' then some '\n'
  else if c == 'r' then some '\r'
  else if c == 't' then some '\t'
  else none

def escapeAt (cs : List Char) : Except Fault (Char × List Char) :=
  match cs with
  | [] => failAt .endInString []
  | 'u' :: rest => unicodeEscape rest
  | c :: rest =>
    match letterEscape? c with
    | some d => .ok (d, rest)
    | none => failBehind .invalidEscape cs

theorem hexUnit?_length {cs rest : List Char} {n : Nat} (h : hexUnit? cs = some (n, rest)) :
    rest.length < cs.length := by
  unfold hexUnit? at h
  split at h
  · simp only [Option.bind_eq_bind, Option.bind_eq_some_iff, Option.pure_def,
      Option.some.injEq, Prod.mk.injEq] at h
    obtain ⟨_, _, _, _, _, _, _, _, _, rfl⟩ := h
    simp only [List.length_cons]
    omega
  · cases h

theorem hexUnit_length {cs rest : List Char} {n : Nat} (h : hexUnit cs = .ok (n, rest)) :
    rest.length < cs.length := by
  unfold hexUnit at h
  split at h
  · rename_i r hr
    cases h
    exact hexUnit?_length hr
  · split at h <;> cases h

theorem pairMark_length {c : Char} {cs rest : List Char} (h : pairMark c cs = .ok rest) :
    rest.length < cs.length := by
  unfold pairMark at h
  split at h
  · cases h
  · split at h
    · cases h
      exact Nat.lt_succ_self _
    · cases h

theorem unicodeEscape_length {cs rest : List Char} {c : Char}
    (h : unicodeEscape cs = .ok (c, rest)) : rest.length < cs.length := by
  unfold unicodeEscape at h
  simp only [bind, Except.bind, pure, Except.pure, failAt] at h
  split at h
  · cases h
  · rename_i r hr
    have hl := hexUnit_length hr
    split at h
    · cases h
    · split at h
      · cases h
        exact hl
      · split at h
        · cases h
        · rename_i r1 h1
          have hl1 := pairMark_length h1
          split at h
          · cases h
          · rename_i r2 h2
            have hl2 := pairMark_length h2
            split at h
            · cases h
            · rename_i r3 h3
              have hl3 := hexUnit_length h3
              split at h
              · cases h
              · simp only [Except.ok.injEq, Prod.mk.injEq] at h
                rw [← h.2]
                exact Nat.lt_trans hl3 (Nat.lt_trans hl2 (Nat.lt_trans hl1 hl))

theorem escapeAt_length {cs rest : List Char} {c : Char} (h : escapeAt cs = .ok (c, rest)) :
    rest.length < cs.length := by
  unfold escapeAt at h
  split at h
  · cases h
  · exact Nat.lt_succ_of_lt (unicodeEscape_length h)
  · split at h
    · cases h
      exact Nat.lt_succ_self _
    · cases h

def stringTail (cs : List Char) : Except Fault (List Char × List Char) :=
  match cs with
  | [] => failAt .endInString []
  | c :: rest =>
    if c == '"' then .ok ([], rest)
    else if c == '\\' then
      match _h : escapeAt rest with
      | .error fault => .error fault
      | .ok (d, rest) =>
        match stringTail rest with
        | .error fault => .error fault
        | .ok (ds, rest) => .ok (d :: ds, rest)
    else if c.toNat < 32 then failBehind .controlCharacter cs
    else
      match stringTail rest with
      | .error fault => .error fault
      | .ok (ds, rest) => .ok (c :: ds, rest)
termination_by cs.length
decreasing_by
  · have := escapeAt_length _h
    simp only [List.length_cons]
    omega
  · simp only [List.length_cons]
    omega

def wordTail : List Char → List Char → Except Fault (List Char)
  | [], cs => .ok cs
  | _ :: _, [] => failAt .endInValue []
  | w :: ws, c :: cs => if c == w then wordTail ws cs else failBehind .expectedWord (c :: cs)

/-- Reads the items of a list behind its bracket, or behind an item. The count bounds the items;
the length of the text is always enough. -/
def listTail (read : List Char → Except Fault (Json × List Char)) :
    Nat → Bool → List Char → Except Fault (List Json × List Char)
  | 0, _, cs => failAt .endInList cs
  | n + 1, isFirst, cs => do
    let more (cs : List Char) : Except Fault (List Json × List Char) := do
      let (v, cs) ← read cs
      let (vs, cs) ← listTail read n false cs
      return (v :: vs, cs)
    match skipBlanks cs with
    | [] => failBehind .endInList []
    | c :: rest =>
      if c == ']' then return ([], rest)
      else if isFirst then more (c :: rest)
      else if c == ',' then
        match skipBlanks rest with
        | [] => failBehind .endInValue []
        | d :: rest => if d == ']' then failBehind .trailingComma (d :: rest) else more (d :: rest)
      else failBehind .expectedListEnd (c :: rest)

def member (read : List Char → Except Fault (Json × List Char)) (cs : List Char) :
    Except Fault ((String × Json) × List Char) :=
  match cs with
  | '"' :: rest => do
    let (key, rest) ← stringTail rest
    match skipBlanks rest with
    | ':' :: rest =>
      let (v, rest) ← read rest
      return ((String.ofList key, v), rest)
    | [] => failBehind .endInObject []
    | c :: rest => failBehind .expectedColon (c :: rest)
  | _ => failBehind .keyNotString cs

/-- Reads the members of an object behind its brace, or behind a member. The count bounds the
members; the length of the text is always enough. -/
def objectTail (read : List Char → Except Fault (Json × List Char)) :
    Nat → Bool → List Char → Except Fault (List (String × Json) × List Char)
  | 0, _, cs => failAt .endInObject cs
  | n + 1, isFirst, cs => do
    let more (cs : List Char) : Except Fault (List (String × Json) × List Char) := do
      let (m, cs) ← member read cs
      let (ms, cs) ← objectTail read n false cs
      return (m :: ms, cs)
    match skipBlanks cs with
    | [] => failBehind .endInObject []
    | c :: rest =>
      if c == '\x7d' then return ([], rest)
      else if isFirst then more (c :: rest)
      else if c == ',' then
        match skipBlanks rest with
        | [] => failBehind .endInValue []
        | d :: rest =>
          if d == '\x7d' then failBehind .trailingComma (d :: rest) else more (d :: rest)
      else failBehind .expectedObjectEnd (c :: rest)

/-- Reads one value, with at most `depth - 1` lists and objects around each other. -/
def value : Nat → List Char → Except Fault (Json × List Char)
  | 0, cs => failAt .tooDeep cs
  | depth + 1, cs =>
    let cs := skipBlanks cs
    match cs with
    | [] => failBehind .endInValue []
    | c :: rest =>
      if c == 'n' then (wordTail "ull".toList rest).map (Json.null, ·)
      else if c == 't' then (wordTail "rue".toList rest).map (Json.bool true, ·)
      else if c == 'f' then (wordTail "alse".toList rest).map (Json.bool false, ·)
      else if c == '-' then number true rest
      else if c.isDigit then number false cs
      else if c == '"' then
        (stringTail rest).map fun (s, rest) => (Json.str (String.ofList s), rest)
      else if c == '[' then
        if depth == 0 then failBehind .tooDeep cs
        else (listTail (value depth) cs.length true rest).map fun (vs, rest) => (Json.arr vs, rest)
      else if c == '\x7b' then
        if depth == 0 then failBehind .tooDeep cs
        else
          (objectTail (value depth) cs.length true rest).map fun (ms, rest) =>
            (Json.obj (sorted ms), rest)
      else failBehind .expectedValue cs

def depthLimit : Nat := 128

def readAll (cs : List Char) : Except Fault Json := do
  let (v, rest) ← value depthLimit cs
  match skipBlanks rest with
  | [] => return v
  | c :: rest => failBehind .trailingText (c :: rest)

def place (cs : List Char) (read : Nat) : Nat × Nat :=
  go 1 0 read cs
where
  go (line column read : Nat) : List Char → Nat × Nat
    | [] => (line, column)
    | c :: cs =>
      if read < c.utf8Size then (line, column + read)
      else if c == '\n' then go (line + 1) 0 (read - 1) cs
      else go line (column + c.utf8Size) (read - c.utf8Size) cs

def read (text : String) : Except ReadError Json :=
  let cs := text.toList
  match readAll cs with
  | .ok v => .ok v
  | .error fault =>
    let (line, column) := place cs (Utf8.byteCount cs - fault.unread)
    .error ⟨fault.cause, line, column⟩

end RpcConsole.Json

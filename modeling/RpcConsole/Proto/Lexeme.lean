import RpcConsole.Proto.Fault
import RpcConsole.Text.Utf8

namespace RpcConsole.Proto

structure Lexeme where
  token : Token
  offset : Nat
  deriving Repr, DecidableEq, Inhabited

structure Lexemes where
  items : List Lexeme
  fault : Option Fault
  deriving Repr, Inhabited

/-- What one step of the scan took: its result, the count of its bytes, and the rest. -/
structure Taken (α : Type) where
  value : α
  width : Nat
  rest : List Char

namespace Lexeme

def isBlank (c : Char) : Bool :=
  c == ' ' || c == '\n' || c == '\t' || c == '\r' || c.toNat == 11 || c.toNat == 12

def isIdentStart (c : Char) : Bool :=
  c.isAlpha || c == '_'

def isIdentChar (c : Char) : Bool :=
  c.isAlphanum || c == '_'

def isIdentifier : List Char → Bool
  | c :: cs => isIdentStart c && cs.all isIdentChar
  | [] => false

def IsNamed (l : Lexeme) : Prop :=
  ∀ name, l.token = .ident name → isIdentifier name.toList = true

def isOctal (c : Char) : Bool :=
  '0' ≤ c && c ≤ '7'

def hexValue? (c : Char) : Option Nat :=
  if c.isDigit then some (c.toNat - 48)
  else if 'a' ≤ c && c ≤ 'f' then some (c.toNat - 87)
  else if 'A' ≤ c && c ≤ 'F' then some (c.toNat - 55)
  else none

def isHex (c : Char) : Bool :=
  (hexValue? c).isSome

def natIn (base : Nat) (ds : List Char) : Nat :=
  ds.foldl (fun n c => n * base + (hexValue? c).getD 0) 0

def signs : List Char :=
  ['.', ',', ';', ':', '=', '-', '+', '/', '<', '>', '(', ')', '[', ']', '{', '}']

def takeExponent (cs : List Char) : List Char × List Char :=
  match cs with
  | c :: rest =>
    if c == 'e' || c == 'E' then
      let (sign, digits) :=
        match rest with
        | d :: ds => if d == '+' || d == '-' then ([d], ds) else ([], rest)
        | [] => ([], [])
      if digits.head?.any Char.isDigit then
        (c :: sign ++ digits.takeWhile Char.isDigit, digits.dropWhile Char.isDigit)
      else ([], cs)
    else ([], cs)
  | [] => ([], [])

/-- Takes the longest float literal, without its suffix: digits with a point or an exponent. -/
def takeFloat (cs : List Char) : Option (List Char × List Char) :=
  let whole := cs.takeWhile Char.isDigit
  let rest := cs.dropWhile Char.isDigit
  match rest with
  | '.' :: rest =>
    let fraction := rest.takeWhile Char.isDigit
    if whole.isEmpty && fraction.isEmpty then none
    else
      let (exponent, rest) := takeExponent (rest.dropWhile Char.isDigit)
      some (whole ++ '.' :: fraction ++ exponent, rest)
  | _ =>
    if whole.isEmpty then none
    else
      match takeExponent rest with
      | ([], _) => none
      | (exponent, rest) => some (whole ++ exponent, rest)

def startsWithSuffix : List Char → Bool
  | c :: _ => c == 'f' || c == 'F'
  | [] => false

def floatOf (cs : List Char) : Binary64 :=
  ((Spelled.ofChars? cs).map Spelled.toBinary64).getD Binary64.zero

/-- An integer literal whose digits start `skip` characters into it. It may not touch an
identifier. -/
def intToken (offset skip base : Nat) (digits rest : List Char) : Except Fault (Taken Token) :=
  if rest.head?.any isIdentStart then .error ⟨offset + skip, .intTouchesIdent⟩
  else
    let n := natIn base digits
    if 18446744073709551615 < n then .error ⟨offset + skip, .intTooLarge⟩
    else .ok ⟨.int n, skip + digits.length, rest⟩

/-- Takes an integer literal in one of the three bases. A zero by itself may touch anything. -/
def takeInt (offset : Nat) (cs : List Char) : Except Fault (Taken Token) :=
  match cs with
  | '0' :: x :: rest =>
    if (x == 'x' || x == 'X') && rest.head?.any isHex then
      intToken offset 2 16 (rest.takeWhile isHex) (rest.dropWhile isHex)
    else if isOctal x then
      let tail := x :: rest
      intToken offset 1 8 (tail.takeWhile isOctal) (tail.dropWhile isOctal)
    else .ok ⟨.int 0, 1, x :: rest⟩
  | '0' :: rest => .ok ⟨.int 0, 1, rest⟩
  | _ => intToken offset 0 10 (cs.takeWhile Char.isDigit) (cs.dropWhile Char.isDigit)

/-- Whether digits alone can carry the suffix of a float literal: a zero in front makes them an
octal number. -/
def isPlainDecimal (digits : List Char) : Bool :=
  digits == ['0'] || digits.head?.any (· != '0')

/-- Takes a number. Float literals may carry a suffix only inside an aggregate value. -/
def takeNumber (inAggregate : Bool) (offset : Nat) (cs : List Char) :
    Except Fault (Taken Token) :=
  let digits := cs.takeWhile Char.isDigit
  let afterDigits := cs.dropWhile Char.isDigit
  let float (text rest : List Char) : Except Fault (Taken Token) :=
    let token := Token.float (floatOf text)
    if startsWithSuffix rest then
      if inAggregate then .ok ⟨token, text.length + 1, rest.drop 1⟩
      else .error ⟨offset, .floatSuffix⟩
    else .ok ⟨token, text.length, rest⟩
  match takeFloat cs with
  | some (text, rest) => float text rest
  | none =>
    if isPlainDecimal digits && startsWithSuffix afterDigits then float digits afterDigits
    else takeInt offset cs

def unicodeEscape? (count : Nat) (cs : List Char) : Option (List UInt8 × Nat) :=
  let digits := cs.take count
  let n := natIn 16 digits
  if digits.length == count && digits.all isHex && n.isValidChar then
    some (Utf8.encodeChar (Char.ofNat n), count + 1)
  else none

def letterEscape? (c : Char) : Option Nat :=
  if c == 'a' then some 7
  else if c == 'b' then some 8
  else if c == 'f' then some 12
  else if c == 'n' then some 10
  else if c == 'r' then some 13
  else if c == 't' then some 9
  else if c == 'v' then some 11
  else if c == '\\' || c == '\'' || c == '"' || c == '?' then some c.toNat
  else none

def escape? (cs : List Char) : Option (List UInt8 × Nat) :=
  match cs with
  | [] => none
  | c :: rest =>
    if c == 'x' || c == 'X' then
      let digits := (rest.take 2).takeWhile isHex
      if digits.isEmpty then none else some ([(natIn 16 digits).toUInt8], digits.length + 1)
    else if isOctal c then
      let digits := (cs.take 3).takeWhile isOctal
      let n := natIn 8 digits
      if 255 < n then none else some ([n.toUInt8], digits.length)
    else if c == 'u' then unicodeEscape? 4 rest
    else if c == 'U' then unicodeEscape? 8 rest
    else (letterEscape? c).map fun n => ([n.toUInt8], 1)

/-- Takes a string literal behind its opening quote. Escapes are ASCII, so their characters are as
many as their bytes. -/
def takeString (quote : Char) (offset : Nat) (cs : List Char) :
    Except Fault (Taken (List UInt8)) :=
  match cs with
  | [] => .error ⟨0, .unexpectedEnd "string terminator"⟩
  | c :: rest =>
    if c == quote then .ok ⟨[], 1, rest⟩
    else if c == '\n' then .error ⟨offset, .unterminatedString⟩
    else if c.toNat == 0 then .error ⟨offset, .invalidStringCharacter⟩
    else if c == '\\' then
      match escape? rest with
      | none => .error ⟨offset, .invalidEscape⟩
      | some (bytes, count) => do
        let t ← takeString quote (offset + 1 + count) (rest.drop count)
        return ⟨bytes ++ t.value, 1 + count + t.width, t.rest⟩
    else do
      let t ← takeString quote (offset + c.utf8Size) rest
      return ⟨Utf8.encodeChar c ++ t.value, c.utf8Size + t.width, t.rest⟩
termination_by cs.length
decreasing_by all_goals simp only [List.length_drop, List.length_cons]; omega

def takeBlock (offset width : Nat) : List Char → Except Fault (Nat × List Char)
  | [] => .error ⟨0, .unexpectedEnd "comment terminator"⟩
  | '*' :: '/' :: rest => .ok (width + 2, rest)
  | '/' :: '*' :: _ => .error ⟨offset + width, .nestedComment⟩
  | c :: rest => takeBlock offset (width + c.utf8Size) rest

def takeLine (cs : List Char) : Nat × List Char :=
  (Utf8.byteCount (cs.takeWhile (· != '\n')), cs.dropWhile (· != '\n'))

def nextDepth (depth : Nat) (afterEquals : Bool) (c : Char) : Nat :=
  if c == '{' then (if depth == 0 && !afterEquals then 0 else depth + 1)
  else if c == '}' then depth - 1
  else depth

/-- What stands at the front of the text: something to pass over, or a token. -/
inductive Front where
  | blank (width : Nat) (rest : List Char)
  | token (t : Taken Token)

/-- Reads the front of the nonempty text `c :: rest`. -/
def front (inAggregate : Bool) (offset : Nat) (c : Char) (rest : List Char) :
    Except Fault Front :=
  if isBlank c then .ok (.blank 1 rest)
  else if c == '/' && rest.head? == some '/' then
    let (width, after) := takeLine rest
    .ok (.blank (width + 1) after)
  else if c == '/' && rest.head? == some '*' then do
    let (width, after) ← takeBlock offset 2 (rest.drop 1)
    return .blank width after
  else if c == '#' then
    if inAggregate then
      let (width, after) := takeLine rest
      .ok (.blank (width + 1) after)
    else .error ⟨offset, .hashComment⟩
  else if isIdentStart c then
    let name := c :: rest.takeWhile isIdentChar
    .ok (.token ⟨.ident (String.ofList name), name.length, rest.dropWhile isIdentChar⟩)
  else if c.isDigit || c == '.' && rest.head?.any Char.isDigit then
    (takeNumber inAggregate offset (c :: rest)).map Front.token
  else if c == '"' || c == '\'' then
    (takeString c (offset + 1) rest).map fun t =>
      .token ⟨.bytes t.value, t.width + 1, t.rest⟩
  else if signs.contains c then .ok (.token ⟨.sign c, 1, rest⟩)
  else .error ⟨offset, .invalidToken⟩

/-- Scans a text from a byte offset on. The count bounds the steps; the length of the text is
always enough. -/
def scanFrom : Nat → Nat → Nat → Bool → List Char → Lexemes
  | 0, _, _, _, _ => ⟨[], none⟩
  | _, _, _, _, [] => ⟨[], none⟩
  | n + 1, offset, depth, afterEquals, c :: cs =>
    match front (depth != 0) offset c cs with
    | .error fault => ⟨[], some fault⟩
    | .ok (.blank width rest) => scanFrom n (offset + width) depth afterEquals rest
    | .ok (.token t) =>
      let depth :=
        match t.value with
        | .sign s => nextDepth depth afterEquals s
        | _ => depth
      let rest := scanFrom n (offset + t.width) depth (t.value == .sign '=') t.rest
      ⟨⟨t.value, offset⟩ :: rest.items, rest.fault⟩

def scan (cs : List Char) : Lexemes :=
  scanFrom (cs.length + 1) 0 0 false cs

theorem intToken_value {offset skip base : Nat} {digits rest : List Char} {t : Taken Token}
    (h : intToken offset skip base digits rest = .ok t) : ∃ n, t.value = .int n := by
  unfold intToken at h
  split at h
  · cases h
  · simp only at h
    split at h
    · cases h
    · cases h
      exact ⟨_, rfl⟩

theorem takeInt_value {offset : Nat} {cs : List Char} {t : Taken Token}
    (h : takeInt offset cs = .ok t) : ∃ n, t.value = .int n := by
  unfold takeInt at h
  split at h
  · split at h
    · exact intToken_value h
    · split at h
      · exact intToken_value h
      · cases h
        exact ⟨0, rfl⟩
  · cases h
    exact ⟨0, rfl⟩
  · exact intToken_value h

theorem takeNumber_value {inAggregate : Bool} {offset : Nat} {cs : List Char} {t : Taken Token}
    (h : takeNumber inAggregate offset cs = .ok t) (name : String) : t.value ≠ .ident name := by
  have hfloat {x : Binary64} {width : Nat} {rest : List Char}
      (he : (⟨.float x, width, rest⟩ : Taken Token) = t) : t.value ≠ .ident name := by
    subst he
    simp
  have hint (hi : takeInt offset cs = .ok t) : t.value ≠ .ident name := by
    obtain ⟨n, hn⟩ := takeInt_value hi
    simp [hn]
  unfold takeNumber at h
  simp only at h
  repeat' split at h
  all_goals first
    | exact hint h
    | exact hfloat (Except.ok.inj h)
    | cases h

theorem front_named {inAggregate : Bool} {offset : Nat} {c : Char} {rest : List Char}
    {t : Taken Token} (h : front inAggregate offset c rest = .ok (.token t)) (name : String)
    (hn : t.value = .ident name) : isIdentifier name.toList = true := by
  unfold front at h
  split at h
  · cases h
  split at h
  · cases h
  split at h
  · cases hb : takeBlock offset 2 (rest.drop 1) with
    | error e => simp only [hb, bind, Except.bind, reduceCtorEq] at h
    | ok r =>
      simp only [hb, bind, Except.bind, pure, Except.pure, Except.ok.injEq, reduceCtorEq] at h
  split at h
  · split at h <;> cases h
  split at h
  · rename_i hs
    cases h
    have hname : String.ofList (c :: rest.takeWhile isIdentChar) = name := Token.ident.inj hn
    simp [← hname, isIdentifier, hs]
  split at h
  · cases ht : takeNumber inAggregate offset (c :: rest) with
    | error e => simp [ht, Except.map] at h
    | ok u =>
      have hu : u = t := by simpa [ht, Except.map] using h
      exact absurd (hu ▸ hn) (takeNumber_value ht name)
  split at h
  · cases ht : takeString c (offset + 1) rest with
    | error e => simp [ht, Except.map] at h
    | ok u =>
      have hu : (⟨.bytes u.value, u.width + 1, u.rest⟩ : Taken Token) = t := by
        simpa [ht, Except.map] using h
      simp [← hu] at hn
  split at h
  · cases h
    simp at hn
  · cases h

theorem scanFrom_named (n offset depth : Nat) (afterEquals : Bool) (cs : List Char) :
    ∀ l ∈ (scanFrom n offset depth afterEquals cs).items, l.IsNamed := by
  intro l hl
  induction n generalizing offset depth afterEquals cs with
  | zero => simp [scanFrom] at hl
  | succ n ih =>
    cases cs with
    | nil => simp [scanFrom] at hl
    | cons c cs =>
      unfold scanFrom at hl
      cases hf : front (depth != 0) offset c cs with
      | error e => simp [hf] at hl
      | ok f =>
        cases f with
        | blank width rest =>
          simp only [hf] at hl
          exact ih _ _ _ _ hl
        | token t =>
          simp only [hf, List.mem_cons] at hl
          rcases hl with rfl | hl
          · exact fun name hn => front_named hf name hn
          · exact ih _ _ _ _ hl

theorem scan_named (cs : List Char) : ∀ l ∈ (scan cs).items, l.IsNamed :=
  scanFrom_named (cs.length + 1) 0 0 false cs

end Lexeme
end RpcConsole.Proto

import RpcConsole.Proto.Lexeme
import RpcConsole.Schema.Declaration

namespace RpcConsole.Proto

structure Cursor where
  items : List Lexeme
  fault : Option Fault
  /-- The names among the lexemes are identifiers. -/
  named : ∀ l ∈ items, l.IsNamed

/-- A reading from a cursor on: its result, where it ends, and the first fault of meaning in it. -/
def Reading (α : Type) :=
  Cursor → Except Fault (α × Cursor × Option Fault)

namespace Reading

/-- One reading behind another. The first fault of meaning stays. -/
def andThen {α β : Type} (x : Reading α) (f : α → Reading β) : Reading β := fun c =>
  match x c with
  | .error fault => .error fault
  | .ok (a, c, kept) =>
    match f a c with
    | .error fault => .error fault
    | .ok (b, c, later) => .ok (b, c, kept <|> later)

instance : Monad Reading where
  pure a := fun c => .ok (a, c, none)
  bind := andThen

def fail {α : Type} (fault : Fault) : Reading α := fun _ =>
  .error fault

def peek? : Reading (Option Lexeme) := fun c =>
  match c.items, c.fault with
  | l :: _, _ => .ok (some l, c, none)
  | [], some fault => .error fault
  | [], none => .ok (none, c, none)

def advance : Reading Unit := fun c =>
  .ok ((), ⟨c.items.drop 1, c.fault, fun l hl => c.named l (List.mem_of_mem_drop hl)⟩, none)

def left : Reading Nat := fun c =>
  .ok (c.items.length, c, none)

def token? : Reading (Option Token) :=
  return (← peek?).map Lexeme.token

def here : Reading Nat :=
  return ((← peek?).map Lexeme.offset).getD 0

def failExpected {α : Type} (expected : String) : Reading α := do
  match ← peek? with
  | some l => fail ⟨l.offset, .unexpected expected l.token⟩
  | none => fail ⟨0, .unexpectedEnd expected⟩

def flag (offset : Nat) (cause : Cause) : Reading Unit := fun c =>
  .ok ((), c, some ⟨offset, cause⟩)

def atSign (c : Char) : Reading Bool :=
  return (← token?) == some (.sign c)

def atWord (word : String) : Reading Bool :=
  return (← token?) == some (.ident word)

def takeSign (c : Char) : Reading Bool := do
  let found ← atSign c
  if found then advance
  return found

def takeWord (word : String) : Reading Bool := do
  let found ← atWord word
  if found then advance
  return found

def sign (c : Char) : Reading Unit := do
  unless ← takeSign c do
    failExpected s!"'{c}'"

def word (w : String) : Reading Unit := do
  unless ← takeWord w do
    failExpected s!"'{w}'"

def ident : Reading String := do
  match ← token? with
  | some (.ident name) =>
    advance
    return name
  | _ => failExpected "an identifier"

/-- Repeats a step until it says that it is done, at most `n` times. -/
def iterate {σ : Type} (step : σ → Reading (σ × Bool)) : Nat → σ → Reading σ
  | 0, s => return s
  | n + 1, s => do
    let (s, isDone) ← step s
    if isDone then return s else iterate step n s

/-- Repeats a step until it says that it is done. Each step but the last reads a lexeme, so the
count of lexemes bounds the steps. -/
def loop {σ : Type} (step : σ → Reading (σ × Bool)) (s : σ) : Reading σ := do
  iterate step ((← left) + 1) s

/-- Reads the parts of a name behind its first one, up to a token that `stops` accepts. -/
def nameTail (stops : Token → Bool) (expected : String) (first : String) : Reading String :=
  loop (fun name => do
    match ← token? with
    | some (.sign '.') =>
      advance
      let part ← ident
      return (name ++ "." ++ part, false)
    | some t => if stops t then return (name, true) else failExpected expected
    | none => failExpected expected) first

def typeName (start : String) (stops : Token → Bool) (expected : String) : Reading String := do
  match ← token? with
  | some (.sign '.') =>
    advance
    let first ← ident
    nameTail stops expected ("." ++ first)
  | some (.ident name) =>
    advance
    nameTail stops expected name
  | _ => failExpected start

def isSign (c : Char) (t : Token) : Bool :=
  t == .sign c

structure Literal where
  bytes : List UInt8
  offset : Nat

/-- Reads a string; adjacent literals join. -/
def string (expected : String) : Reading Literal := do
  match ← peek? with
  | some ⟨.bytes first, offset⟩ =>
    advance
    let bytes ← loop (fun bytes => do
      match ← token? with
      | some (.bytes more) =>
        advance
        return (bytes ++ more, false)
      | _ => return (bytes, true)) first
    return ⟨bytes, offset⟩
  | _ => failExpected expected

/-- An integer as it is written, with the offset of its first character. -/
structure IntLiteral where
  negative : Bool
  magnitude : Nat
  offset : Nat
  deriving Repr, DecidableEq, Inhabited

namespace IntLiteral

def value (n : IntLiteral) : Int :=
  if n.negative then -n.magnitude else n.magnitude

def text (n : IntLiteral) : String :=
  if n.negative then s!"-{n.magnitude}" else s!"{n.magnitude}"

end IntLiteral

def int (expected : String) : Reading IntLiteral := do
  let offset ← here
  let negative ← takeSign '-'
  match ← token? with
  | some (.int n) =>
    advance
    return ⟨negative, n, offset⟩
  | _ => failExpected (if negative then "an integer" else expected)

def maxNumber : Nat := 536870911

def checkNumber (limit : Nat) (n : IntLiteral) : Reading Int := do
  if n.negative || n.magnitude == 0 || limit < n.magnitude then flag n.offset .messageNumber
  return n.value

def checkEnumNumber (n : IntLiteral) : Reading Int := do
  if n.value < -2147483648 || 2147483647 < n.value then flag n.offset .enumNumber
  return n.value

inductive Constant where
  | ident (negative : Bool) (name : String)
  | int (n : IntLiteral)
  | float (negative : Bool) (x : Binary64)
  | bytes (bs : List UInt8)
  | aggregate (text : String)

namespace Constant

def text : Constant → String
  | .ident negative name => if negative then "-" ++ name else name
  | .int n => n.text
  | .float negative x => (if negative then x.neg else x).plainTextWithPoint
  | .bytes bs => hexEscaped bs
  | .aggregate text => text

def source : Constant → String
  | .bytes bs => "\"" ++ hexEscaped bs ++ "\""
  | c => c.text

end Constant

structure OptionText where
  name : List NamePart
  nameOffset : Nat
  value : Constant
  valueOffset : Nat

def optionPart : Reading NamePart := do
  match ← token? with
  | some (.ident name) =>
    advance
    return ⟨name, false⟩
  | some (.sign '(') =>
    advance
    let name ← typeName "a type name" (isSign ')') "'.' or ')'"
    sign ')'
    return ⟨name, true⟩
  | _ => failExpected "an identifier or '('"

def optionName : Reading (List NamePart) := do
  let first ← optionPart
  loop (fun parts => do
    match ← token? with
    | some (.sign '.') =>
      advance
      let part ← optionPart
      return (parts ++ [part], false)
    | some (.sign '=') =>
      advance
      return (parts, true)
    | _ => failExpected "'=' or '.'") [first]

def aggregate : Reading String := do
  let (texts, _) ← loop (fun (texts, depth) => do
    match ← token? with
    | some t =>
      advance
      if t == .sign '}' then
        match depth with
        | 0 => return ((texts, 0), true)
        | depth + 1 => return ((texts ++ [t.text], depth), false)
      else
        return ((texts ++ [t.text], if t == .sign '{' then depth + 1 else depth), false)
    | none => failExpected "'\x7d'") (([] : List String), (0 : Nat))
  return String.intercalate " " texts

def constant : Reading Constant := do
  let offset ← here
  if ← takeSign '-' then
    match ← token? with
    | some (.int n) =>
      advance
      return .int ⟨true, n, offset⟩
    | some (.float x) =>
      advance
      return .float true x
    | some (.ident name) =>
      advance
      return .ident true name
    | _ => failExpected "a numeric literal"
  else
    match ← token? with
    | some (.int n) =>
      advance
      return .int ⟨false, n, offset⟩
    | some (.float x) =>
      advance
      return .float false x
    | some (.ident name) =>
      advance
      return .ident false name
    | some (.bytes _) => return .bytes (← string "a constant").bytes
    | some (.sign '{') =>
      advance
      return .aggregate (← aggregate)
    | _ => failExpected "a constant"

def option : Reading OptionText := do
  let nameOffset ← here
  let name ← optionName
  let valueOffset ← here
  let value ← constant
  return ⟨name, nameOffset, value, valueOffset⟩

/-- Reads the options in brackets behind a declaration, if there are any. -/
def optionList : Reading (List OptionText) := do
  if ← takeSign '[' then
    let first ← option
    loop (fun options => do
      if ← takeSign ',' then
        let o ← option
        return (options ++ [o], false)
      else if ← takeSign ']' then return (options, true)
      else failExpected "',' or ']'") [first]
  else return []

/-- The options in brackets, if any, and the end of the declaration. -/
def optionsAndEnd : Reading (List OptionText) := do
  if ← atSign '[' then
    let options ← optionList
    sign ';'
    return options
  else if ← takeSign ';' then return []
  else failExpected "';' or '['"

/-- Keeps an option as it is written. Negative identifiers and integers that do not fit are
flagged. -/
def rawOption (o : OptionText) : Reading RawOption := do
  let value : RawValue ←
    match o.value with
    | .ident negative name =>
      if negative then flag o.valueOffset .negativeIdentifier
      pure (.identifier name)
    | .int n =>
      if n.negative then
        if 9223372036854775808 < n.magnitude then
          flag o.valueOffset (.valueRange "a 64-bit integer" n.text)
        pure (.negative n.value)
      else pure (.positive n.magnitude)
    | .float negative x => pure (.double (if negative then x.neg else x))
    | .bytes bs => pure (.bytes bs)
    | .aggregate text => pure (.aggregate text)
  return ⟨o.name, value⟩

def rawOptions (os : List OptionText) : Reading (Option Options) :=
  return Options.ofRaw (← os.mapM rawOption)

def optionStatement : Reading RawOption := do
  let o ← option
  sign ';'
  rawOption o

def utf8 (bytes : List UInt8) (offset : Nat) : Reading String := do
  match Utf8.toString? bytes with
  | some s => return s
  | none =>
    flag offset .notUtf8
    return ""

end Reading
end RpcConsole.Proto

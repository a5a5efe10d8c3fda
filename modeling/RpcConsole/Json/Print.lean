import RpcConsole.Json.Value

namespace RpcConsole.Json

def hexDigit (n : Nat) : Char :=
  if n < 10 then Char.ofNat (48 + n) else Char.ofNat (87 + n)

/-- One character inside quotes. Quotes, backslashes and control characters are escaped, all else
stands for itself. -/
def escapeChar (c : Char) : List Char :=
  if c == '"' then ['\\', '"']
  else if c == '\\' then ['\\', '\\']
  else if c == '\n' then ['\\', 'n']
  else if c == '\r' then ['\\', 'r']
  else if c == '\t' then ['\\', 't']
  else if c.toNat == 8 then ['\\', 'b']
  else if c.toNat == 12 then ['\\', 'f']
  else if c.toNat < 32 then
    ['\\', 'u', '0', '0', hexDigit (c.toNat / 16), hexDigit (c.toNat % 16)]
  else [c]

def escape (cs : List Char) : List Char :=
  cs.flatMap escapeChar

def quote (s : String) : List Char :=
  '"' :: (escape s.toList ++ ['"'])

def intText (n : Int) : List Char :=
  (toString n).toList

/-- Where a width stops writing numbers without an exponent: the orders of the first digit from
`low` up to `high` are written out. -/
structure NumberStyle where
  format : Format
  low : Int
  high : Int

def doubleStyle : NumberStyle := ⟨.binary64, -5, 15⟩
def singleStyle : NumberStyle := ⟨.binary32, -6, 12⟩

/-- A finite number, with at least one digit behind the point when there is no exponent. What is
not finite is written as null. -/
def numberText (style : NumberStyle) : Meaning → List Char
  | .finite negative m e =>
    let d := Decimal.shortest style.format m e
    let text :=
      if d.digits == 0 then ['0', '.', '0']
      else if style.low ≤ d.order && d.order ≤ style.high then
        if d.exponent < 0 then d.positional else d.positional ++ ['.', '0']
      else d.scientific
    if negative then '-' :: text else text
  | _ => "null".toList

structure Layout where
  lines : Bool

namespace Layout

def compact : Layout := ⟨false⟩
def pretty : Layout := ⟨true⟩

def newline (l : Layout) (level : Nat) : List Char :=
  if l.lines then '\n' :: List.replicate (2 * level) ' ' else []

def colon (l : Layout) : List Char :=
  if l.lines then [':', ' '] else [':']

end Layout

mutual

def write (l : Layout) (level : Nat) : Json → List Char
  | .null => "null".toList
  | .bool b => (if b then "true" else "false").toList
  | .int n => intText n
  | .double x => numberText doubleStyle x.meaning
  | .single x => numberText singleStyle x.meaning
  | .str s => quote s
  | .arr [] => ['[', ']']
  | .arr (v :: vs) =>
    '[' :: (l.newline (level + 1) ++ write l (level + 1) v ++ writeItems l (level + 1) vs ++
      l.newline level ++ [']'])
  | .obj [] => ['\x7b', '\x7d']
  | .obj ((k, v) :: ms) =>
    '\x7b' :: (l.newline (level + 1) ++ quote k ++ l.colon ++ write l (level + 1) v ++
      writeMembers l (level + 1) ms ++ l.newline level ++ ['\x7d'])

def writeItems (l : Layout) (level : Nat) : List Json → List Char
  | [] => []
  | v :: vs => ',' :: (l.newline level ++ write l level v ++ writeItems l level vs)

def writeMembers (l : Layout) (level : Nat) : List (String × Json) → List Char
  | [] => []
  | (k, v) :: ms =>
    ',' :: (l.newline level ++ quote k ++ l.colon ++ write l level v ++ writeMembers l level ms)

end

def compact (v : Json) : String :=
  String.ofList (write .compact 0 v)

def pretty (v : Json) : String :=
  String.ofList (write .pretty 0 v)

end RpcConsole.Json

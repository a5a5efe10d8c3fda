import RpcConsole.Number.Binary

namespace RpcConsole

structure Decimal where
  digits : Nat
  exponent : Int
  deriving Repr, DecidableEq, Inhabited

namespace Decimal

def digitsOf (n : Nat) : List Char :=
  Nat.toDigits 10 n

def magnitude (n d : Nat) : Int :=
  if d ≤ n then ((digitsOf (n / d)).length : Int) - 1
  else
    let k := (digitsOf (d / n)).length
    if d ≤ n * Nat.pow 10 (k - 1) then -((k : Int) - 1) else -(k : Int)

def scale (n d : Nat) (e : Int) : Nat × Nat :=
  match e with
  | .ofNat k => (n, d * Nat.pow 10 k)
  | .negSucc k => (n * Nat.pow 10 (k + 1), d)

/-- The numbers that round to a given one: `low / den` to `high / den` around `value / den`, the
ends included when `closed` holds. -/
structure Interval where
  low : Nat
  value : Nat
  high : Nat
  den : Nat
  closed : Bool
  deriving Repr, DecidableEq

namespace Interval

/-- The numbers that round to `m * 2 ^ e`, `m` positive. Below a power of two the next number is
only half as far away, except at the least exponent. -/
def around (f : Format) (m : Nat) (e : Int) : Interval :=
  let s := Format.scale 1 4 (-e)
  let narrow := m == Nat.pow 2 f.fraction && f.least < e
  ⟨(4 * m - if narrow then 1 else 2) * s.1, 4 * m * s.1, (4 * m + 2) * s.1, s.2, m % 2 == 0⟩

def holds (i : Interval) (k : Nat) (e : Int) : Bool :=
  let s := scale 1 1 (-e)
  let x := k * s.1 * i.den
  let low := i.low * s.2
  let high := i.high * s.2
  if i.closed then low ≤ x && x ≤ high else low < x && x < high

def lowerIsNearer (i : Interval) (k : Nat) (e : Int) : Bool :=
  let s := scale 1 1 (-e)
  2 * i.value * s.2 ≤ (2 * k + 1) * s.1 * i.den

def onGrid? (i : Interval) (e : Int) : Option Nat :=
  let s := scale i.value i.den e
  let k := s.1 / s.2
  match i.holds k e, i.holds (k + 1) e with
  | true, true => some (if i.lowerIsNearer k e then k else k + 1)
  | true, false => some k
  | false, true => some (k + 1)
  | false, false => none

end Interval

def trim (digits : Nat) (exponent : Int) : Decimal :=
  let zeros := (digitsOf digits).reverse.takeWhile (· == '0')
  ⟨digits / Nat.pow 10 zeros.length, exponent + zeros.length⟩

def shortest (f : Format) (m : Nat) (e : Int) : Decimal :=
  if m == 0 then ⟨0, 0⟩
  else
    let i := Interval.around f m e
    let top := magnitude i.value i.den
    let grids := (List.range 17).map (fun (n : Nat) => top - n)
    match grids.findSome? (fun e => (i.onGrid? e).map (fun k => trim k e)) with
    | some d => d
    | none => ⟨0, 0⟩

/-- The digits with a point, and no exponent; a fraction is written only if there is one. -/
def positional (d : Decimal) : List Char :=
  let ds := digitsOf d.digits
  match d.exponent with
  | .ofNat k => if d.digits == 0 then ['0'] else ds ++ List.replicate k '0'
  | .negSucc k =>
    let places := k + 1
    if places < ds.length then
      ds.take (ds.length - places) ++ '.' :: ds.drop (ds.length - places)
    else '0' :: '.' :: (List.replicate (places - ds.length) '0' ++ ds)

def order (d : Decimal) : Int :=
  (digitsOf d.digits).length - 1 + d.exponent

def scientific (d : Decimal) : List Char :=
  let ds := digitsOf d.digits
  let point := if ds.length ≤ 1 then ds else ds.take 1 ++ '.' :: ds.drop 1
  let sign := if d.order < 0 then '-' else '+'
  point ++ 'e' :: sign :: digitsOf d.order.natAbs

end Decimal

/-- The plain text of a number: a sign, the fewest digits, no exponent, and the words `inf` and
`NaN`. -/
def Meaning.plainText (f : Format) : Meaning → String
  | .nan => "NaN"
  | .infinite negative => if negative then "-inf" else "inf"
  | .finite negative m e =>
    String.ofList ((if negative then ['-'] else []) ++ (Decimal.shortest f m e).positional)

def Binary64.plainText (x : Binary64) : String :=
  x.meaning.plainText .binary64

def Binary64.plainTextWithPoint (x : Binary64) : String :=
  if x.meaning.toInt?.isSome then x.plainText ++ ".0" else x.plainText

inductive Spelled where
  | decimal (negative : Bool) (digits : Nat) (exponent : Int)
  | infinite (negative : Bool)
  | nan (negative : Bool)
  deriving Repr, DecidableEq

namespace Spelled

def digitValue (c : Char) : Nat :=
  c.toNat - '0'.toNat

def natOf (ds : List Char) : Nat :=
  ds.foldl (fun n c => n * 10 + digitValue c) 0

def takeSign : List Char → Bool × List Char
  | '-' :: cs => (true, cs)
  | '+' :: cs => (false, cs)
  | cs => (false, cs)

/-- Reads the exponent that may follow the digits; it must fill the rest. -/
def exponent? : List Char → Option Int
  | [] => some 0
  | c :: cs =>
    if c == 'e' || c == 'E' then
      let (negative, ds) := takeSign cs
      if ds.isEmpty || !ds.all Char.isDigit then none
      else some (if negative then -(natOf ds : Int) else natOf ds)
    else none

def unsigned? (negative : Bool) (cs : List Char) : Option Spelled :=
  let whole := cs.takeWhile Char.isDigit
  let rest := cs.dropWhile Char.isDigit
  let (fraction, rest) :=
    match rest with
    | '.' :: rest => (rest.takeWhile Char.isDigit, rest.dropWhile Char.isDigit)
    | _ => ([], rest)
  if whole.isEmpty && fraction.isEmpty then none
  else
    (exponent? rest).map fun e =>
      .decimal negative (natOf (whole ++ fraction)) (e - fraction.length)

def ofChars? (cs : List Char) : Option Spelled :=
  let (negative, cs) := takeSign cs
  let word := String.ofList (cs.map Char.toLower)
  if word == "inf" || word == "infinity" then some (.infinite negative)
  else if word == "nan" then some (.nan negative)
  else unsigned? negative cs

def toWord (f : Format) : Spelled → Nat
  | .decimal negative digits exponent => f.ofDecimal negative digits exponent
  | .infinite negative => f.ofMeaning (.infinite negative)
  | .nan negative => f.quietNan + if negative then f.signBit else 0

def toBinary64 (s : Spelled) : Binary64 :=
  Binary64.ofWord (s.toWord .binary64)

def toBinary32 (s : Spelled) : Binary32 :=
  Binary32.ofWord (s.toWord .binary32)

end Spelled
end RpcConsole

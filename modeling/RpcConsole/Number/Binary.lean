namespace RpcConsole

/-- The layout of a word: a sign bit, then the exponent bits, then the fraction bits. -/
structure Format where
  fraction : Nat
  exponent : Nat
  deriving Repr, DecidableEq

/-- What a word stands for; `finite s m e` is `m * 2 ^ e`, negated when `s` holds. -/
inductive Meaning where
  | finite (negative : Bool) (m : Nat) (e : Int)
  | infinite (negative : Bool)
  | nan
  deriving Repr, DecidableEq

namespace Format

def binary64 : Format := ⟨52, 11⟩
def binary32 : Format := ⟨23, 8⟩

def least (f : Format) : Int :=
  2 - Nat.pow 2 (f.exponent - 1) - f.fraction

def infinity (f : Format) : Nat :=
  (Nat.pow 2 f.exponent - 1) * Nat.pow 2 f.fraction

def signBit (f : Format) : Nat :=
  Nat.pow 2 (f.fraction + f.exponent)

def quietNan (f : Format) : Nat :=
  f.infinity + Nat.pow 2 (f.fraction - 1)

def meaning (f : Format) (word : Nat) : Meaning :=
  let negative := word / f.signBit % 2 == 1
  let exponent := word / Nat.pow 2 f.fraction % Nat.pow 2 f.exponent
  let fraction := word % Nat.pow 2 f.fraction
  if exponent == Nat.pow 2 f.exponent - 1 then
    if fraction == 0 then .infinite negative else .nan
  else if exponent == 0 then .finite negative fraction f.least
  else .finite negative (Nat.pow 2 f.fraction + fraction) (f.least + (exponent - 1 : Nat))

def roundHalfEven (n d : Nat) : Nat :=
  let q := n / d
  let r := n % d
  if 2 * r < d then q
  else if d < 2 * r then q + 1
  else q + q % 2

def scale (n d : Nat) (e : Int) : Nat × Nat :=
  match e with
  | .ofNat k => (n, d * Nat.pow 2 k)
  | .negSucc k => (n * Nat.pow 2 (k + 1), d)

/-- The word nearest to the positive fraction `n / d`. Its unit is the power of two that leaves
`fraction + 1` bits before the point, or the least one. -/
def round (f : Format) (n d : Nat) : Nat :=
  if n == 0 || d == 0 then 0
  else
    let low := max ((Nat.log2 n : Int) - Nat.log2 d - 1 - f.fraction) f.least
    let s := scale n d low
    let unit := if s.1 / s.2 < Nat.pow 2 (f.fraction + 1) then low else low + 1
    let s := scale n d unit
    min f.infinity ((unit - f.least).toNat * Nat.pow 2 f.fraction + roundHalfEven s.1 s.2)

def roundSigned (f : Format) (negative : Bool) (n d : Nat) : Nat :=
  f.round n d + if negative then f.signBit else 0

def ofScaled (f : Format) (negative : Bool) (m : Nat) (e : Int) : Nat :=
  let s := scale m 1 (-e)
  f.roundSigned negative s.1 s.2

def ofMeaning (f : Format) : Meaning → Nat
  | .finite negative m e => f.ofScaled negative m e
  | .infinite negative => f.infinity + if negative then f.signBit else 0
  | .nan => f.quietNan

/-- The word nearest to `digits * 10 ^ exponent`. Exponents that no digit count can bring back
into range are cut before any power is taken. -/
def ofDecimal (f : Format) (negative : Bool) (digits : Nat) (exponent : Int) : Nat :=
  let sign := if negative then f.signBit else 0
  let magnitude := exponent + Nat.log2 digits
  if digits == 0 || exponent + Nat.log2 digits + 1 < -400 then sign
  else if 400 < exponent && 400 < magnitude then f.infinity + sign
  else
    match exponent with
    | .ofNat k => f.roundSigned negative (digits * Nat.pow 10 k) 1
    | .negSucc k => f.roundSigned negative digits (Nat.pow 10 (k + 1))

end Format

structure Binary64 where
  bits : UInt64
  deriving Repr, DecidableEq, Inhabited

structure Binary32 where
  bits : UInt32
  deriving Repr, DecidableEq, Inhabited

namespace Meaning

def isNan : Meaning → Bool
  | .nan => true
  | _ => false

def isInfinite : Meaning → Bool
  | .infinite _ => true
  | _ => false

def isZero : Meaning → Bool
  | .finite _ m _ => m == 0
  | _ => false

def toInt? : Meaning → Option Int
  | .finite negative m e =>
    let signed (n : Nat) : Int := if negative then -n else n
    match e with
    | .ofNat k => some (signed (m * Nat.pow 2 k))
    | .negSucc k =>
      let unit := Nat.pow 2 (k + 1)
      if m % unit == 0 then some (signed (m / unit)) else none
  | _ => none

def floor? : Meaning → Option Int
  | .finite negative m e =>
    let signed (n : Nat) : Int := if negative then -n else n
    match e with
    | .ofNat k => some (signed (m * Nat.pow 2 k))
    | .negSucc k => some (Int.fdiv (signed m) (Nat.pow 2 (k + 1)))
  | _ => none

end Meaning

namespace Binary64

def meaning (x : Binary64) : Meaning :=
  Format.binary64.meaning x.bits.toNat

def ofWord (word : Nat) : Binary64 :=
  ⟨word.toUInt64⟩

def zero : Binary64 := ⟨0⟩
def nan : Binary64 := ofWord Format.binary64.quietNan

def ofNat (n : Nat) : Binary64 :=
  ofWord (Format.binary64.round n 1)

def ofInt (n : Int) : Binary64 :=
  ofWord (Format.binary64.roundSigned (n < 0) n.natAbs 1)

def ofDecimal (negative : Bool) (digits : Nat) (exponent : Int) : Binary64 :=
  ofWord (Format.binary64.ofDecimal negative digits exponent)

def neg (x : Binary64) : Binary64 :=
  ⟨x.bits ^^^ 0x8000000000000000⟩

def isNegative (x : Binary64) : Bool :=
  x.bits &&& 0x8000000000000000 != 0

/-- The product of two finite numbers; anything else gives no number. -/
def mul (x y : Binary64) : Binary64 :=
  match x.meaning, y.meaning with
  | .finite s m e, .finite t n f => ofWord (Format.binary64.ofScaled (s != t) (m * n) (e + f))
  | _, _ => nan

/-- The quotient of two finite numbers, the second not zero; anything else gives no number. -/
def div (x y : Binary64) : Binary64 :=
  match x.meaning, y.meaning with
  | .finite s m e, .finite t n f =>
    if n == 0 then nan
    else
      let q := Format.scale m n (f - e)
      ofWord (Format.binary64.roundSigned (s != t) q.1 q.2)
  | _, _ => nan

/-- Equality of numbers: no word equals one that is no number, and the two zeros are equal. -/
def numEq (x y : Binary64) : Bool :=
  if x.meaning.isNan || y.meaning.isNan then false
  else x == y || x.meaning.isZero && y.meaning.isZero

end Binary64

namespace Binary32

def meaning (x : Binary32) : Meaning :=
  Format.binary32.meaning x.bits.toNat

def ofWord (word : Nat) : Binary32 :=
  ⟨word.toUInt32⟩

def zero : Binary32 := ⟨0⟩

/-- The nearest 32-bit number; one that is too large becomes an infinity. -/
def ofBinary64 (x : Binary64) : Binary32 :=
  ofWord (Format.binary32.ofMeaning x.meaning)

def toBinary64 (x : Binary32) : Binary64 :=
  Binary64.ofWord (Format.binary64.ofMeaning x.meaning)

/-- Equality of numbers: no word equals one that is no number, and the two zeros are equal. -/
def numEq (x y : Binary32) : Bool :=
  if x.meaning.isNan || y.meaning.isNan then false
  else x == y || x.meaning.isZero && y.meaning.isZero

end Binary32
end RpcConsole

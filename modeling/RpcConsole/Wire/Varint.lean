namespace RpcConsole.Wire

def stoppedText : String := "the program stopped"

inductive Fault where
  | varint
  | underflow
  | lengthExceeded
  | key (n : Nat)
  | wireTypeCode (n : Nat)
  | zeroNumber
  | wireType (found expected : String)
  | notUtf8
  | endGroup
  | recursionLimit
  | stopped
  deriving Repr, DecidableEq

def Fault.message : Fault → String
  | .varint => "invalid varint"
  | .underflow => "buffer underflow"
  | .lengthExceeded => "delimited length exceeded"
  | .key n => s!"invalid key value: {n}"
  | .wireTypeCode n => s!"invalid wire type value: {n}"
  | .zeroNumber => "invalid tag value: 0"
  | .wireType found expected => s!"invalid wire type: {found} (expected {expected})"
  | .notUtf8 => "invalid string value: data is not UTF-8 encoded"
  | .endGroup => "unexpected end group tag"
  | .recursionLimit => "recursion limit reached"
  | .stopped => stoppedText

def varint (n : Nat) : List UInt8 :=
  if n < 128 then [n.toUInt8] else (128 + n % 128).toUInt8 :: varint (n / 128)

def varintLimit : Nat := 10

/-- Reads the bytes of a number from the byte at `index` on. The last byte that is allowed holds
one bit. -/
def readVarintFrom (index : Nat) : List UInt8 → Except Fault (Nat × List UInt8)
  | [] => .error .varint
  | b :: bs =>
    if b < 128 then
      if index + 1 == varintLimit && 2 ≤ b then .error .varint else .ok (b.toNat, bs)
    else if index + 1 == varintLimit then .error .varint
    else
      match readVarintFrom (index + 1) bs with
      | .ok (high, rest) => .ok (b.toNat % 128 + 128 * high, rest)
      | .error e => .error e

def readVarint (bs : List UInt8) : Except Fault (Nat × List UInt8) :=
  readVarintFrom 0 bs

def fixed : Nat → Nat → List UInt8
  | 0, _ => []
  | width + 1, n => n.toUInt8 :: fixed width (n / 256)

def ofFixed : List UInt8 → Nat
  | [] => 0
  | b :: bs => b.toNat + 256 * ofFixed bs

def takeBytes (count : Nat) (bs : List UInt8) : Except Fault (List UInt8 × List UInt8) :=
  if bs.length < count then .error .underflow else .ok (bs.take count, bs.drop count)

def readFixed (width : Nat) (bs : List UInt8) : Except Fault (Nat × List UInt8) :=
  match takeBytes width bs with
  | .ok (front, rest) => .ok (ofFixed front, rest)
  | .error e => .error e

def readBytes (bs : List UInt8) : Except Fault (List UInt8 × List UInt8) :=
  match readVarint bs with
  | .ok (count, rest) => takeBytes count rest
  | .error e => .error e

def counted (bs : List UInt8) : List UInt8 :=
  varint bs.length ++ bs

/-- The word of a number: negative ones stand for themselves plus a power of two. -/
def word (bits : Nat) (n : Int) : Nat :=
  (n % Nat.pow 2 bits).toNat

def ofWord (bits : Nat) (n : Nat) : Int :=
  Int.bmod n (Nat.pow 2 bits)

def zigzag : Int → Nat
  | .ofNat n => 2 * n
  | .negSucc n => 2 * n + 1

def ofZigzag (n : Nat) : Int :=
  if n % 2 == 0 then (n / 2 : Nat) else .negSucc (n / 2)

end RpcConsole.Wire

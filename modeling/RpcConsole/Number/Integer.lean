import RpcConsole.Number.Decimal

namespace RpcConsole

structure IntRange where
  low : Int
  high : Int
  deriving Repr, DecidableEq

namespace IntRange

def signed32 : IntRange := ⟨-2147483648, 2147483647⟩
def signed64 : IntRange := ⟨-9223372036854775808, 9223372036854775807⟩
def unsigned32 : IntRange := ⟨0, 4294967295⟩
def unsigned64 : IntRange := ⟨0, 18446744073709551615⟩

def contains (r : IntRange) (n : Int) : Bool :=
  r.low ≤ n && n ≤ r.high

inductive Fault where
  | empty
  | invalidDigit
  | tooLarge
  | tooSmall
  deriving Repr, DecidableEq

def Fault.message : Fault → String
  | .empty => "cannot parse integer from empty string"
  | .invalidDigit => "invalid digit found in string"
  | .tooLarge => "number too large to fit in target type"
  | .tooSmall => "number too small to fit in target type"

/-- Reads digits behind those read already. The first character that is no digit, or that takes
the number out of the range, decides. -/
def readDigits (r : IntRange) (negative : Bool) (n : Nat) : List Char → Except Fault Int
  | [] => .ok (if negative then -n else n)
  | c :: cs =>
    if !c.isDigit then .error .invalidDigit
    else
      let m := n * 10 + Spelled.digitValue c
      if negative then
        if -(m : Int) < r.low then .error .tooSmall else readDigits r negative m cs
      else
        if r.high < m then .error .tooLarge else readDigits r negative m cs

/-- Reads a whole text as an integer of the range. A plus sign may stand in front, a minus sign
only if the range has negative numbers. -/
def read (r : IntRange) : List Char → Except Fault Int
  | [] => .error .empty
  | [c] => r.readDigits false 0 [c]
  | '+' :: cs => r.readDigits false 0 cs
  | '-' :: cs => if r.low < 0 then r.readDigits true 0 cs else .error .invalidDigit
  | cs => r.readDigits false 0 cs

end IntRange
end RpcConsole

import RpcConsole.Number.Integer
import RpcConsole.Time.Calendar

namespace RpcConsole

structure Duration where
  seconds : Int
  nanos : Int
  deriving Repr, DecidableEq

namespace Duration

inductive Fault where
  | form
  | range
  deriving Repr, DecidableEq

def Fault.message : Fault → String
  | .form => "failed to parse duration"
  | .range => "duration out of range"

def secondLimit : Nat := 315576000000

def nanoLimit : Nat := 999999999

def inRange (d : Duration) : Bool :=
  d.seconds.natAbs ≤ secondLimit && d.nanos.natAbs ≤ nanoLimit

def negate (d : Duration) : Duration :=
  ⟨-d.seconds, -d.nanos⟩

def digit (c : Char) : Nat :=
  c.toNat - 48

def readUnsigned (cs : List Char) : Option Duration :=
  let whole := cs.takeWhile Char.isDigit
  match IntRange.signed64.read whole, cs.dropWhile Char.isDigit with
  | .ok seconds, ['s'] => some ⟨seconds, 0⟩
  | .ok seconds, '.' :: rest =>
    let ds := rest.takeWhile Char.isDigit
    if ds.isEmpty || rest.dropWhile Char.isDigit != ['s'] then none
    else some ⟨seconds, nanosOf (ds.map digit)⟩
  | _, _ => none

/-- Reads a text; a minus sign turns both parts over. -/
def read (cs : List Char) : Except Fault Duration :=
  let d :=
    match cs with
    | '-' :: rest => (readUnsigned rest).map negate
    | _ => readUnsigned cs
  match d with
  | none => .error .form
  | some d => if d.inRange then .ok d else .error .range

def total (d : Duration) : Int :=
  d.seconds * nanosPerSecond + d.nanos

/-- The text of a span. The sign is written if either part is negative. -/
def text (d : Duration) : String :=
  let sign := if d.seconds < 0 || d.nanos < 0 then ['-'] else []
  let nanos := d.total.natAbs
  let second := nanosPerSecond.toNat
  String.ofList <|
    sign ++ (toString (nanos / second)).toList ++ fractionText (nanos % second) ++ ['s']

end Duration
end RpcConsole

import RpcConsole.Proto.Fault
import RpcConsole.Time.Calendar

namespace RpcConsole

structure Timestamp where
  seconds : Int
  nanos : Int
  deriving Repr, DecidableEq

namespace Timestamp

inductive Fault where
  | date
  | time
  | emptyFraction
  | offset
  | separator (found : Option UInt8)
  | zone (found : Option UInt8)
  | trailing (found : UInt8)
  | value
  | range
  deriving Repr, DecidableEq

def foundText : Option UInt8 → String
  | none => "end of string"
  | some b => "'" ++ Proto.hexEscaped [b] ++ "'"

def Fault.message : Fault → String
  | .date => "invalid rfc3339 timestamp: invalid date"
  | .time => "invalid rfc3339 timestamp: invalid time"
  | .emptyFraction => "invalid rfc3339 timestamp: empty fractional seconds"
  | .offset => "invalid rfc3339 timestamp: invalid offset"
  | .separator found => s!"invalid rfc3339 timestamp: expected 'T' but found {foundText found}"
  | .zone found =>
    s!"invalid rfc3339 timestamp: expected 'Z', '+' or '-' but found {foundText found}"
  | .trailing found =>
    s!"invalid rfc3339 timestamp: expected end of string but found {foundText (some found)}"
  | .value => "failed to parse RFC-3339 formatted timestamp"
  | .range => "timestamp out of range"

def isDigit (b : UInt8) : Bool :=
  48 ≤ b && b ≤ 57

def digits? : Nat → List UInt8 → Option (List Nat × List UInt8)
  | 0, bs => some ([], bs)
  | _ + 1, [] => none
  | n + 1, b :: bs =>
    if isDigit b then (digits? n bs).map (fun r => ((b - 48).toNat :: r.1, r.2)) else none

def numberOf (digits : List Nat) : Nat :=
  digits.foldl (fun n d => 10 * n + d) 0

def numbers? (between : UInt8) : List Nat → List UInt8 → Option (List Nat × List UInt8)
  | [], bs => some ([], bs)
  | [width], bs => (digits? width bs).map (fun r => ([numberOf r.1], r.2))
  | width :: widths, bs =>
    match digits? width bs with
    | some (ds, b :: rest) =>
      if b == between then
        (numbers? between widths rest).map (fun r => (numberOf ds :: r.1, r.2))
      else none
    | _ => none

structure Written where
  date : Date
  hour : Nat
  minute : Nat
  second : Nat
  nanos : Nat
  behind : Bool
  offsetHour : Nat
  offsetMinute : Nat
  deriving Repr, DecidableEq

def readFraction : List UInt8 → Except Fault (Nat × List UInt8)
  | 46 :: bs =>
    let ds := bs.takeWhile isDigit
    if ds.isEmpty then .error .emptyFraction
    else .ok (nanosOf (ds.map (fun b => (b - 48).toNat)), bs.dropWhile isDigit)
  | bs => .ok (0, bs)

/-- Reads the offset from universal time: whether the time is behind it, hours and minutes. -/
def readOffset : List UInt8 → Except Fault ((Bool × Nat × Nat) × List UInt8)
  | [] => .error (.zone none)
  | b :: bs =>
    if b == 90 then .ok ((false, 0, 0), bs)
    else if b == 43 || b == 45 then
      match numbers? 58 [2, 2] bs with
      | some ([hour, minute], rest) => .ok ((b == 45, hour, minute), rest)
      | _ => .error .offset
    else .error (.zone (some b))

def readWritten (bs : List UInt8) : Except Fault Written :=
  match numbers? 45 [4, 2, 2] bs with
  | some ([year, month, day], 84 :: rest) =>
    match numbers? 58 [2, 2, 2] rest with
    | some ([hour, minute, second], rest) => do
      let (nanos, rest) ← readFraction rest
      let ((behind, offsetHour, offsetMinute), rest) ← readOffset rest
      match rest with
      | [] => return ⟨⟨year, month, day⟩, hour, minute, second, nanos, behind, offsetHour,
          offsetMinute⟩
      | b :: _ => throw (.trailing b)
    | _ => .error .time
  | some ([_, _, _], rest) => .error (.separator rest.head?)
  | _ => .error .date

/-- Whether there is such a time. The text `-00:00` says that the offset is not known. -/
def Written.isValid (w : Written) : Bool :=
  w.date.isValid && w.hour < 24 && w.minute < 60 && w.second ≤ 60 && w.offsetHour < 24 &&
    w.offsetMinute < 60 && !(w.behind && w.offsetHour == 0 && w.offsetMinute == 0)

/-- The seconds of a day before the time. A leap second counts as the one before it. -/
def Written.secondOfDay (w : Written) : Nat :=
  w.hour * 3600 + w.minute * 60 + min w.second 59

def Written.toTimestamp (w : Written) : Timestamp :=
  let offset : Int := w.offsetHour * 3600 + w.offsetMinute * 60
  let seconds := w.date.toDays * 86400 + w.secondOfDay
  ⟨if w.behind then seconds + offset else seconds - offset, w.nanos⟩

def earliest : Int := -62135596800

def latest : Int := 253402300799

def inRange (t : Timestamp) : Bool :=
  earliest ≤ t.seconds && t.seconds ≤ latest

def read (bs : List UInt8) : Except Fault Timestamp := do
  let w ← readWritten bs
  if !w.isValid then throw .value
  else if !w.toTimestamp.inRange then throw .range
  else return w.toTimestamp

/-- The same point in time with nanoseconds that are less than a second and not negative. -/
def normal (t : Timestamp) : Timestamp :=
  ⟨t.seconds + t.nanos.fdiv nanosPerSecond, t.nanos.fmod nanosPerSecond⟩

def yearText (year : Int) : List Char :=
  if year < 0 then '-' :: padded 4 year.natAbs
  else if 9999 < year then '+' :: padded 4 year.natAbs
  else padded 4 year.natAbs

def text (t : Timestamp) : String :=
  let t := t.normal
  let date := Date.ofDays (t.seconds.fdiv 86400)
  let second := (t.seconds.fmod 86400).toNat
  String.ofList <|
    yearText date.year ++ '-' :: padded 2 date.month ++ '-' :: padded 2 date.day ++
      'T' :: padded 2 (second / 3600) ++ ':' :: padded 2 (second / 60 % 60) ++
      ':' :: padded 2 (second % 60) ++ fractionText t.nanos.toNat ++ ['Z']

end Timestamp
end RpcConsole

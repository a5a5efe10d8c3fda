namespace RpcConsole.Base64

def standard : List Char :=
  "ABCDEFGHIJKLMNOPQRSTUVWXYZabcdefghijklmnopqrstuvwxyz0123456789+/".toList

def urlSafe : List Char :=
  "ABCDEFGHIJKLMNOPQRSTUVWXYZabcdefghijklmnopqrstuvwxyz0123456789-_".toList

def symbol (n : Nat) : Char :=
  standard.getD n '='

/-- Writes three bytes as four symbols; what is missing at the end is padded. -/
def encodeBytes : List UInt8 → List Char
  | a :: b :: c :: rest =>
    let n := a.toNat * 65536 + b.toNat * 256 + c.toNat
    symbol (n / 262144) :: symbol (n / 4096 % 64) :: symbol (n / 64 % 64) :: symbol (n % 64) ::
      encodeBytes rest
  | [a, b] =>
    let n := a.toNat * 256 + b.toNat
    [symbol (n / 1024), symbol (n / 16 % 64), symbol (n % 16 * 4), '=']
  | [a] => [symbol (a.toNat / 4), symbol (a.toNat % 4 * 16), '=', '=']
  | [] => []

def encode (bs : List UInt8) : String :=
  String.ofList (encodeBytes bs)

inductive Fault where
  | symbol (byte : UInt8) (offset : Nat)
  | length (n : Nat)
  deriving Repr, DecidableEq

def Fault.message : Fault → String
  | .symbol byte offset => s!"Invalid symbol {byte.toNat}, offset {offset}."
  | .length n => s!"Invalid input length: {n}"

def value? (alphabet : List Char) (b : UInt8) : Option Nat :=
  alphabet.findIdx? (fun c => c.toNat == b.toNat)

def pad : UInt8 := 61

def wholeGroup (alphabet : List Char) (offset : Nat) : List UInt8 → Except Fault (List Nat)
  | [] => .ok []
  | b :: bs =>
    match value? alphabet b with
    | none => .error (.symbol b offset)
    | some n => (wholeGroup alphabet (offset + 1) bs).map (n :: ·)

/-- The values of the last group. Padding can follow two or more symbols, and only padding can
follow it; `padded` is the offset of the first one, and `index` the place in the group. -/
def lastGroup (alphabet : List Char) (offset index : Nat) (padded : Option Nat) :
    List UInt8 → Except Fault (List Nat)
  | [] => .ok []
  | b :: bs =>
    if b == pad then
      if index < 2 then .error (.symbol b offset)
      else lastGroup alphabet (offset + 1) (index + 1) (padded.or (some offset)) bs
    else
      match padded, value? alphabet b with
      | some first, _ => .error (.symbol pad first)
      | none, none => .error (.symbol b offset)
      | none, some n =>
        (lastGroup alphabet (offset + 1) (index + 1) none bs).map (n :: ·)

/-- The bytes of the values of one group; bits that fill no byte are dropped. -/
def groupBytes : List Nat → List UInt8
  | [a, b] => [(a * 4 + b / 16).toUInt8]
  | [a, b, c] => [(a * 4 + b / 16).toUInt8, (b * 16 + c / 4).toUInt8]
  | [a, b, c, d] => [(a * 4 + b / 16).toUInt8, (b * 16 + c / 4).toUInt8, (c * 64 + d).toUInt8]
  | _ => []

/-- Reads groups of four bytes from `offset` on; the last group can be short. -/
def readGroups (alphabet : List Char) (offset : Nat) : List UInt8 → Except Fault (List UInt8)
  | a :: b :: c :: d :: e :: rest =>
    match wholeGroup alphabet offset [a, b, c, d] with
    | .error f => .error f
    | .ok values => (readGroups alphabet (offset + 4) (e :: rest)).map (groupBytes values ++ ·)
  | [] => .ok []
  | bs =>
    match lastGroup alphabet offset 0 none bs with
    | .error f => .error f
    | .ok values =>
      if values.length < 2 then .error (.length (offset + values.length))
      else .ok (groupBytes values)

/-- Reads a text in one alphabet. A last byte that stands alone and is no symbol is reported before
all others. -/
def readWith (alphabet : List Char) (bs : List UInt8) : Except Fault (List UInt8) :=
  match bs.length % 4 == 1, bs.getLast? with
  | true, some b =>
    if b != pad && (value? alphabet b).isNone then .error (.symbol b (bs.length - 1))
    else readGroups alphabet 0 bs
  | _, _ => readGroups alphabet 0 bs

def decode (bs : List UInt8) : Except Fault (List UInt8) :=
  match readWith standard bs with
  | .error (.symbol b offset) =>
    if b == 45 || b == 95 then readWith urlSafe bs else .error (.symbol b offset)
  | r => r

end RpcConsole.Base64

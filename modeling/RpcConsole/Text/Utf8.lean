namespace RpcConsole.Utf8

def encodeChar (c : Char) : List UInt8 :=
  let n := c.toNat
  if n < 0x80 then [n.toUInt8]
  else if n < 0x800 then [(0xc0 + n / 0x40).toUInt8, (0x80 + n % 0x40).toUInt8]
  else if n < 0x10000 then
    [(0xe0 + n / 0x1000).toUInt8, (0x80 + n / 0x40 % 0x40).toUInt8, (0x80 + n % 0x40).toUInt8]
  else
    [(0xf0 + n / 0x40000).toUInt8, (0x80 + n / 0x1000 % 0x40).toUInt8,
      (0x80 + n / 0x40 % 0x40).toUInt8, (0x80 + n % 0x40).toUInt8]

def encode (cs : List Char) : List UInt8 :=
  cs.flatMap encodeChar

def ofString (s : String) : List UInt8 :=
  encode s.toList

def byteCount (cs : List Char) : Nat :=
  cs.foldr (fun c n => c.utf8Size + n) 0

def isContinuation (b : UInt8) : Bool :=
  0x80 ≤ b && b < 0xc0

/-- What stands at the front of a byte list: a character with the count of its bytes, or the
count of bytes of the longest start of a character that is not completed. -/
inductive Front where
  | char (c : Char) (width : Nat)
  | malformed (width : Nat)
  deriving Repr, DecidableEq

/-- The bounds of the second byte after the lead byte `b`; they keep out overlong forms,
surrogates, and what lies above the last code point. -/
def secondBounds (b : UInt8) : UInt8 × UInt8 :=
  if b == 0xe0 then (0xa0, 0xbf)
  else if b == 0xed then (0x80, 0x9f)
  else if b == 0xf0 then (0x90, 0xbf)
  else if b == 0xf4 then (0x80, 0x8f)
  else (0x80, 0xbf)

def isSecond (b s : UInt8) : Bool :=
  (secondBounds b).1 ≤ s && s ≤ (secondBounds b).2

/-- Reads the front of the nonempty list `b :: bs`. -/
def front (b : UInt8) (bs : List UInt8) : Front :=
  let low (x : UInt8) : Nat := x.toNat % 0x40
  if b < 0x80 then .char (Char.ofNat b.toNat) 1
  else if b < 0xc2 || 0xf4 < b then .malformed 1
  else
    match bs with
    | [] => .malformed 1
    | s :: rest =>
      if !isSecond b s then .malformed 1
      else if b < 0xe0 then .char (Char.ofNat (b.toNat % 0x20 * 0x40 + low s)) 2
      else
        match rest with
        | [] => .malformed 2
        | t :: rest =>
          if !isContinuation t then .malformed 2
          else if b < 0xf0 then
            .char (Char.ofNat (b.toNat % 0x10 * 0x1000 + low s * 0x40 + low t)) 3
          else
            match rest with
            | [] => .malformed 3
            | u :: _ =>
              if !isContinuation u then .malformed 3
              else .char (Char.ofNat
                (b.toNat % 0x08 * 0x40000 + low s * 0x1000 + low t * 0x40 + low u)) 4

def decode? : List UInt8 → Option (List Char)
  | [] => some []
  | b :: bs =>
    match front b bs with
    | .char c width => (decode? (bs.drop (width - 1))).map (c :: ·)
    | .malformed _ => none
termination_by bs => bs.length
decreasing_by simp only [List.length_drop, List.length_cons]; omega

def toString? (bs : List UInt8) : Option String :=
  (decode? bs).map String.ofList

def decodeLossy : List UInt8 → List Char
  | [] => []
  | b :: bs =>
    match front b bs with
    | .char c width => c :: decodeLossy (bs.drop (width - 1))
    | .malformed width => Char.ofNat 0xfffd :: decodeLossy (bs.drop (width - 1))
termination_by bs => bs.length
decreasing_by all_goals simp only [List.length_drop, List.length_cons]; omega

def toStringLossy (bs : List UInt8) : String :=
  String.ofList (decodeLossy bs)

end RpcConsole.Utf8

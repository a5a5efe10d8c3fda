import RpcConsole.Call.Status

namespace RpcConsole.Address

inductive Fault where
  | empty
  | character
  | authority
  | format
  | schemeTooLong
  | tooLong
  deriving Repr, DecidableEq

def Fault.message : Fault → String
  | .empty => "empty string"
  | .character => "invalid uri character"
  | .authority => "invalid authority"
  | .format => "invalid format"
  | .schemeTooLong => "scheme too long"
  | .tooLong => "uri too long"

def mark : List Char := [':', '/', '/']

def hasScheme : List Char → Bool
  | [] => false
  | c :: cs => mark.isPrefixOf (c :: cs) || hasScheme cs

/-- The address with a scheme; one that has none is reached without encryption. -/
def uri (address : String) : String :=
  if hasScheme address.toList then address else "http://" ++ address

def isSchemeChar (c : Char) : Bool :=
  c.isAlphanum || ['+', '-', '.', '~'].contains c

def isPlain (c : Char) : Bool :=
  c.isAlphanum ||
    ['!', '$', '&', '\'', '(', ')', '*', '+', ',', '-', '.', ';', '=', '_', '~'].contains c

def schemeLimit : Nat := 64

def uriLimit : Nat := 65534

/-- What stands behind the scheme, or nothing if the text does not start with one. -/
def afterScheme (cs : List Char) : Except Fault (Option (List Char)) :=
  let scheme := cs.takeWhile isSchemeChar
  let rest := cs.drop scheme.length
  if mark.isPrefixOf rest && mark.length < cs.length then
    if schemeLimit < scheme.length then .error .schemeTooLong
    else .ok (some (rest.drop mark.length))
  else .ok none

/-- What has been seen of an authority. User information before an at sign and a literal address
in brackets start the count of colons anew. -/
structure Authority where
  colons : Nat := 0
  opened : Bool := false
  closed : Bool := false
  percent : Bool := false
  last : Option Char := none

def colonLimit : Nat := 8

def Authority.step (a : Authority) (c : Char) : Except Fault Authority :=
  let a := { a with last := some c }
  if c == ':' then
    if colonLimit ≤ a.colons then .error .authority else .ok { a with colons := a.colons + 1 }
  else if c == '[' then
    if a.percent || a.opened then .error .authority else .ok { a with opened := true }
  else if c == ']' then
    if !a.opened || a.closed then .error .authority
    else .ok { a with closed := true, colons := 0, percent := false }
  else if c == '@' then .ok { a with colons := 0, percent := false }
  else if c == '%' then .ok { a with percent := true }
  else if isPlain c then .ok a
  else .error .character

/-- Whether an authority can end here: brackets are closed, at most one colon stands before a port,
a host follows an at sign and has no percent sign. -/
def Authority.isComplete (a : Authority) : Bool :=
  a.opened == a.closed && a.colons ≤ 1 && a.last != some '@' && !a.percent

def endsAuthority (c : Char) : Bool :=
  c == '/' || c == '?' || c == '#'

def readAuthority (cs : List Char) : Except Fault (List Char) :=
  match (cs.takeWhile (fun c => !endsAuthority c)).foldlM Authority.step {} with
  | .error e => .error e
  | .ok a =>
    if a.isComplete then .ok (cs.dropWhile (fun c => !endsAuthority c)) else .error .authority

def within (low high : Nat) (c : Char) : Bool :=
  low ≤ c.toNat && c.toNat ≤ high

def isQueryChar (c : Char) : Bool :=
  c == '!' || within 0x24 0x3b c || c == '=' || within 0x3f 0x7e c || 0x80 ≤ c.toNat

def isPathChar (c : Char) : Bool :=
  c == '!' || c == '"' || within 0x24 0x3b c || c == '=' || within 0x40 0x5f c ||
    within 0x61 0x7e c || 0x80 ≤ c.toNat

/-- Whether a path with a query is well formed. What follows a number sign does not count. -/
def isPath (cs : List Char) : Bool :=
  let counted := cs.takeWhile (· != '#')
  (counted.takeWhile (· != '?')).all isPathChar &&
    ((counted.dropWhile (· != '?')).drop 1).all isQueryChar

def checkUri (cs : List Char) : Except Fault Unit :=
  let path (rest : List Char) : Except Fault Unit :=
    if isPath rest then .ok () else .error .character
  if cs.head? == some '/' then path cs
  else do
    match ← afterScheme cs with
    | some [] => throw .empty
    | some rest =>
      let behind ← readAuthority rest
      if behind.length == rest.length then throw .format else path behind
    | none =>
      let behind ← readAuthority cs
      if behind.isEmpty then return () else throw .format

def check (address : String) : Except Fault Unit :=
  if uriLimit < (uri address).utf8ByteSize then .error .tooLong
  else checkUri (uri address).toList

def refusal? (address : String) : Option CallFailure :=
  match check address with
  | .ok () => none
  | .error e =>
    some ⟨.invalidArgument, s!"invalid address '{address}': invalid URI: {e.message}", []⟩

end RpcConsole.Address

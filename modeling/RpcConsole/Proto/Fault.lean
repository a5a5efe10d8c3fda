import RpcConsole.Text.Position
import RpcConsole.Text.Utf8
import RpcConsole.Number.Decimal

namespace RpcConsole.Proto

/-- A token. Keywords are identifiers; each sign is one character. -/
inductive Token where
  | ident (name : String)
  | int (n : Nat)
  | float (x : Binary64)
  | bytes (bs : List UInt8)
  | sign (c : Char)
  deriving Repr, DecidableEq, Inhabited

def shortEscape? (b : UInt8) : Option Char :=
  if b == 9 then some 't'
  else if b == 10 then some 'n'
  else if b == 13 then some 'r'
  else if b == 34 then some '"'
  else if b == 39 then some '\''
  else if b == 92 then some '\\'
  else none

def isPrintable (b : UInt8) : Bool :=
  0x20 ≤ b && b < 0x7f

/-- A byte string in printable ASCII, with two hexadecimal digits for each other byte. -/
def hexEscaped (bs : List UInt8) : String :=
  String.ofList <| bs.flatMap fun b =>
    match shortEscape? b with
    | some c => ['\\', c]
    | none =>
      if isPrintable b then [Char.ofNat b.toNat]
      else
        ['\\', 'x', Nat.digitChar (b.toNat / 16), Nat.digitChar (b.toNat % 16)]

def octalEscaped (bs : List UInt8) : String :=
  String.ofList <| bs.flatMap fun b =>
    match shortEscape? b with
    | some c => ['\\', c]
    | none =>
      if isPrintable b then [Char.ofNat b.toNat]
      else
        ['\\', Nat.digitChar (b.toNat / 64), Nat.digitChar (b.toNat / 8 % 8),
          Nat.digitChar (b.toNat % 8)]

def shortByte? (c : Char) : Option UInt8 :=
  if c == 't' then some 9
  else if c == 'n' then some 10
  else if c == 'r' then some 13
  else if c == '"' || c == '\'' || c == '\\' then some c.toNat.toUInt8
  else none

/-- The bytes of a text in which others than printable ones are written as by `octalEscaped`. -/
def octalUnescaped : List Char → List UInt8
  | [] => []
  | '\\' :: c :: cs =>
    match shortByte? c with
    | some b => b :: octalUnescaped cs
    | none =>
      match cs with
      | d :: e :: rest =>
        (64 * Spelled.digitValue c + 8 * Spelled.digitValue d + Spelled.digitValue e).toUInt8 ::
          octalUnescaped rest
      | _ => []
  | c :: cs => Utf8.encodeChar c ++ octalUnescaped cs

namespace Token

def text : Token → String
  | .ident name => name
  | .int n => toString n
  | .float x => x.plainTextWithPoint
  | .bytes bs => "\"" ++ hexEscaped bs ++ "\""
  | .sign c => String.ofList [c]

end Token

inductive Cause where
  | invalidToken
  | hashComment
  | nestedComment
  | floatSuffix
  | intTouchesIdent
  | intTooLarge
  | invalidEscape
  | invalidStringCharacter
  | unterminatedString
  | unexpectedEnd (expected : String)
  | unexpected (expected : String) (found : Token)
  | unknownDialect (name : String)
  | invalidIdentifier
  | invalidGroupName
  | invalidImportName
  | severalPackages
  | negativeIdentifier
  | messageNumber
  | enumNumber
  | notUtf8
  | defaultNotAllowed (kind : String)
  | defaultInProto3
  | notInExtensions (kind : String)
  | notInOneof (kind : String)
  | requiredExtension
  | requiredInProto3
  | groupInProto3
  | mapLabel
  | oneofLabel
  | missingLabel
  | mapKeyType
  | emptyOneof
  | wrongValue (expected found : String)
  | valueRange (expected value : String)
  deriving Repr, DecidableEq

def Cause.message : Cause → String
  | .invalidToken => "invalid token"
  | .hashComment => "'#' comments are not allowed here"
  | .nestedComment => "nested block comments are not allowed"
  | .floatSuffix => "'f' suffix for float literals is not allowed"
  | .intTouchesIdent => "whitespace is required between an integer literal and an identifier"
  | .intTooLarge => "integer is too large"
  | .invalidEscape => "invalid string escape"
  | .invalidStringCharacter => "invalid string character"
  | .unterminatedString => "unterminated string"
  | .unexpectedEnd expected => s!"expected {expected}, but reached end of file"
  | .unexpected expected found => s!"expected {expected}, but found '{found.text}'"
  | .unknownDialect name => s!"unknown syntax '{name}'"
  | .invalidIdentifier => "invalid identifier"
  | .invalidGroupName | .invalidImportName => "invalid group name"
  | .severalPackages => "multiple package names specified"
  | .negativeIdentifier => "identifiers may not be negative"
  | .messageNumber => "message numbers must be between 1 and 536870911"
  | .enumNumber => "enum numbers must be between -2147483648 and 2147483647"
  | .notUtf8 => "string is not valid utf-8"
  | .defaultNotAllowed kind => s!"{kind} fields may not have default values"
  | .defaultInProto3 => "default values are not allowed in proto3"
  | .notInExtensions kind => s!"{kind} fields are not allowed in extensions"
  | .notInOneof kind => s!"{kind} fields are not allowed in a oneof"
  | .requiredExtension => "extension fields may not be required"
  | .requiredInProto3 => "required fields are not allowed in proto3 syntax"
  | .groupInProto3 => "groups are not allowed in proto3 syntax"
  | .mapLabel => "map fields cannot have labels"
  | .oneofLabel => "oneof fields cannot have labels"
  | .missingLabel => "fields must have a label with proto2 syntax (expected one of " ++
      "'optional', 'repeated' or 'required')"
  | .mapKeyType => "a map field key type must be an integer, boolean or string"
  | .emptyOneof => "a oneof must have at least one field"
  | .wrongValue expected found => s!"expected value to be {expected}, but found '{found}'"
  | .valueRange expected value =>
    s!"expected value to be {expected}, but the value {value} is out of range"

structure Fault where
  offset : Nat
  cause : Cause
  deriving Repr, DecidableEq

structure ParseError where
  position : Position
  cause : Cause
  deriving Repr, DecidableEq

namespace ParseError

def message (e : ParseError) : String :=
  e.cause.message

def display (e : ParseError) : String :=
  s!"{e.position.line}:{e.position.column}: {e.message}"

end ParseError

def Fault.toError (source : List Char) (f : Fault) : ParseError :=
  ⟨Position.locate source f.offset, f.cause⟩

end RpcConsole.Proto

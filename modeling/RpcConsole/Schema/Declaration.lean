import RpcConsole.Message.Value

namespace RpcConsole

inductive Dialect where
  | proto2
  | proto3
  deriving Repr, DecidableEq, Inhabited

inductive Label where
  | optional
  | required
  | repeated
  deriving Repr, DecidableEq, Inhabited

inductive Scalar where
  | double
  | float
  | int64
  | uint64
  | int32
  | fixed64
  | fixed32
  | bool
  | string
  | bytes
  | uint32
  | sfixed32
  | sfixed64
  | sint32
  | sint64
  deriving Repr, DecidableEq, Inhabited

namespace Scalar

def keyword : Scalar → String
  | .double => "double"
  | .float => "float"
  | .int64 => "int64"
  | .uint64 => "uint64"
  | .int32 => "int32"
  | .fixed64 => "fixed64"
  | .fixed32 => "fixed32"
  | .bool => "bool"
  | .string => "string"
  | .bytes => "bytes"
  | .uint32 => "uint32"
  | .sfixed32 => "sfixed32"
  | .sfixed64 => "sfixed64"
  | .sint32 => "sint32"
  | .sint64 => "sint64"

def all : List Scalar :=
  [.double, .float, .int64, .uint64, .int32, .fixed64, .fixed32, .bool, .string, .bytes, .uint32,
    .sfixed32, .sfixed64, .sint32, .sint64]

def ofKeyword? (word : String) : Option Scalar :=
  all.find? (fun s => s.keyword == word)

end Scalar

/-- What is known about the type of a field: a built-in type, a group, a message or an enum, or
only a name that may be either of the last two. -/
inductive TypeRef where
  | scalar (s : Scalar)
  | group (name : String)
  | message (name : String)
  | enum (name : String)
  | named (name : String)
  deriving Repr, DecidableEq, Inhabited

/-- One part of an option name; an extension stands in parentheses. -/
structure NamePart where
  name : String
  isExtension : Bool
  deriving Repr, DecidableEq, Inhabited

inductive RawValue where
  | identifier (s : String)
  | positive (n : Nat)
  | negative (n : Int)
  | double (x : Binary64)
  | bytes (bs : List UInt8)
  | aggregate (s : String)
  deriving Repr, DecidableEq, Inhabited

structure RawOption where
  name : List NamePart
  value : RawValue
  deriving Repr, DecidableEq, Inhabited

/-- The options of one declaration: those still raw, and the message of those that are set. -/
structure Options where
  raw : List RawOption
  settings : Message
  deriving Inhabited

namespace Options

def ofRaw (raw : List RawOption) : Option Options :=
  if raw.isEmpty then none else some ⟨raw, .empty⟩

end Options

structure FieldDecl where
  name : String
  number : Int
  label : Label
  type : TypeRef
  extendee : Option String := none
  defaultText : Option String := none
  oneofIndex : Option Nat := none
  jsonName : Option String := none
  options : Option Options := none
  isProto3Optional : Bool := false
  deriving Inhabited

structure OneofDecl where
  name : String
  options : Option Options := none
  deriving Inhabited

structure EnumValueDecl where
  name : String
  number : Int
  options : Option Options := none
  deriving Inhabited

/-- A range of numbers. Ranges of field numbers leave their end out, those of enum numbers
include it. -/
structure NumberRange where
  first : Int
  last : Int
  deriving Repr, DecidableEq, Inhabited

structure ExtensionRange where
  range : NumberRange
  options : Option Options := none
  deriving Inhabited

structure EnumDecl where
  name : String
  values : List EnumValueDecl := []
  reservedRanges : List NumberRange := []
  reservedNames : List String := []
  options : Option Options := none
  deriving Inhabited

structure MessageDecl where
  name : String
  fields : List FieldDecl := []
  extensions : List FieldDecl := []
  nested : List MessageDecl := []
  enums : List EnumDecl := []
  extensionRanges : List ExtensionRange := []
  oneofs : List OneofDecl := []
  reservedRanges : List NumberRange := []
  reservedNames : List String := []
  options : Option Options := none
  deriving Inhabited

structure MethodDecl where
  name : String
  input : String
  output : String
  clientStreaming : Bool := false
  serverStreaming : Bool := false
  options : Option Options := none
  deriving Inhabited

structure ServiceDecl where
  name : String
  methods : List MethodDecl := []
  options : Option Options := none
  deriving Inhabited

/-- A schema file. The public and weak imports are given by their places among all imports. -/
structure FileDecl where
  name : String
  package : Option String := none
  imports : List String := []
  publicImports : List Nat := []
  weakImports : List Nat := []
  messages : List MessageDecl := []
  enums : List EnumDecl := []
  services : List ServiceDecl := []
  extensions : List FieldDecl := []
  options : Option Options := none
  dialect : Dialect := .proto2
  deriving Inhabited

namespace FileDecl

def packageName (f : FileDecl) : String :=
  f.package.getD ""

end FileDecl
end RpcConsole

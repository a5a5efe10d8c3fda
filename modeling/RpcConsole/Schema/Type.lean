import RpcConsole.Schema.Declaration

namespace RpcConsole

inductive Kind where
  | scalar (s : Scalar)
  | message (name : String)
  | enum (name : String)
  deriving Repr, DecidableEq, Inhabited

structure Field where
  name : String
  fullName : String
  number : Nat
  jsonName : String
  kind : Kind
  label : Label
  isGroup : Bool := false
  isPacked : Bool := false
  hasPresence : Bool := true
  oneof : Option Nat := none
  written : Option Value := none
  deriving Inhabited

namespace Field

def isRepeated (f : Field) : Bool :=
  f.label == .repeated

end Field

structure EnumType where
  name : String
  values : List (String × Int)
  deriving Repr, DecidableEq, Inhabited

namespace EnumType

def number? (e : EnumType) (name : String) : Option Int :=
  e.values.lookup name

end EnumType

/-- A message type. The oneofs are given by name, and fields refer to them by place. -/
structure MessageType where
  name : String
  fields : List Field
  oneofs : List String := []
  isMapEntry : Bool := false
  deriving Inhabited

namespace MessageType

def fieldNamed? (t : MessageType) (name : String) : Option Field :=
  t.fields.find? (fun f => f.name == name)

def fieldWithJsonName? (t : MessageType) (name : String) : Option Field :=
  t.fields.find? (fun f => f.jsonName == name)

def fieldNumbered? (t : MessageType) (number : Nat) : Option Field :=
  t.fields.find? (fun f => f.number == number)

end MessageType

structure Extension where
  field : Field
  extendee : String
  deriving Inhabited

structure Method where
  name : String
  service : String
  input : String
  output : String
  clientStreaming : Bool
  serverStreaming : Bool
  deriving Repr, DecidableEq, Inhabited

namespace Method

def fullName (m : Method) : String :=
  m.service ++ "." ++ m.name

def path (m : Method) : String :=
  "/" ++ m.service ++ "/" ++ m.name

end Method

structure Service where
  name : String
  fullName : String
  methods : List Method
  deriving Repr, DecidableEq, Inhabited

end RpcConsole

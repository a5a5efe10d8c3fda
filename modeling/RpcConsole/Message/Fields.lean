import RpcConsole.Schema.TypeTable

namespace RpcConsole

namespace Value

/-- Whether a single value is the given one; numbers are compared as numbers. Messages, lists and
maps are not single values. -/
def isSingle : Value → Value → Bool
  | .bool a, .bool b => a == b
  | .int r a, .int s b => r == s && a == b
  | .enum a, .enum b => a == b
  | .single a, .single b => a.numEq b
  | .double a, .double b => a.numEq b
  | .str a, .str b => a == b
  | .bytes a, .bytes b => a == b
  | _, _ => false

def isEmpty : Value → Bool
  | .list [] => true
  | .map [] => true
  | _ => false

end Value

namespace TypeTable

/-- Whether a stored value says no more than that nothing is stored: the field has no presence
and the value is its default. -/
def isRedundant (t : TypeTable) (f : Field) (v : Value) : Bool :=
  !f.hasPresence && (v.isEmpty || !f.isRepeated && v.isSingle (t.fieldDefault f))

def isSet (t : TypeTable) (f : Field) (m : Message) : Bool :=
  match m.find? f.number with
  | some v => !t.isRedundant f v
  | none => false

def valueOf (t : TypeTable) (f : Field) (m : Message) : Value :=
  (m.find? f.number).getD (t.fieldDefault f)

end TypeTable

namespace MessageType

def rivals (t : MessageType) (f : Field) : List Field :=
  match f.oneof with
  | none => []
  | some i => t.fields.filter (fun g => g.oneof == some i && g.number != f.number)

def store (t : MessageType) (f : Field) (v : Value) (m : Message) : Message :=
  ((t.rivals f).foldl (fun m g => m.clear g.number) m).set f.number v

end MessageType
end RpcConsole

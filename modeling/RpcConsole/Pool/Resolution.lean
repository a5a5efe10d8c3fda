import RpcConsole.Pool.Naming

namespace RpcConsole.Pool

/-- Where names are looked up: the names declared so far, and the files that can be used. -/
structure Scope where
  symbols : List SchemaSymbol
  visible : List String

inductive Want where
  | fieldType
  | message
  | extension
  deriving Repr, DecidableEq

namespace Want

def accepts : Want → SymbolKind → Bool
  | .fieldType, .message _ | .fieldType, .enum _ | .message, .message _ => true
  | .extension, .extension => true
  | _, _ => false

def text : Want → String
  | .fieldType => "a message or enum type"
  | .message => "a message type"
  | .extension => "an extension"

end Want

inductive Sight where
  | found (s : SchemaSymbol)
  | absent
  | unusable (e : LinkError)
  deriving Repr, DecidableEq

namespace Scope

def find? (sc : Scope) (name : String) : Option SchemaSymbol :=
  sc.symbols.find? (fun s => s.name == name)

def look (sc : Scope) (want : Want) (full : String) : Sight :=
  match sc.find? full with
  | none => .absent
  | some s =>
    if !sc.visible.contains s.file then .unusable (.undefinedName full)
    else if want.accepts s.kind then .found s
    else .unusable (.wrongKind full want.text)

/-- The first scope in which a name of one part can be used. What made the innermost one unusable
is reported if there is none. -/
def findSimple (sc : Scope) (want : Want) (name : String) :
    Option LinkError → List String → Except LinkError SchemaSymbol
  | reason, [] => .error (reason.getD (.undefinedName name))
  | reason, scope :: rest =>
    match sc.look want (Name.join scope name) with
    | .found s => .ok s
    | .absent => findSimple sc want name reason rest
    | .unusable e => findSimple sc want name (reason.or (some e)) rest

def isScope (sc : Scope) (full : String) : Bool :=
  match sc.find? full with
  | some s => s.kind.isScope
  | none => false

def findDotted (sc : Scope) (want : Want) (name first : String) :
    List String → Except LinkError SchemaSymbol
  | [] => .error (.undefinedName name)
  | scope :: rest =>
    if sc.isScope (Name.join scope first) then
      match sc.look want (Name.join scope name) with
      | .found s => .ok s
      | .absent => .error (.shadowed name (Name.join scope name))
      | .unusable e => .error e
    else findDotted sc want name first rest

/-- The name meant by `name` where `scope` is the innermost scope. A leading dot marks a full
name. -/
def resolve (sc : Scope) (want : Want) (scope name : String) : Except LinkError SchemaSymbol :=
  if Text.startsWith '.' name then
    match sc.look want (String.ofList (name.toList.drop 1)) with
    | .found s => .ok s
    | .absent => .error (.undefinedName name)
    | .unusable e => .error e
  else
    match Name.parts name with
    | [] | [_] => sc.findSimple want name none (Name.scopes scope)
    | first :: _ => sc.findDotted want name first (Name.scopes scope)

end Scope
end RpcConsole.Pool

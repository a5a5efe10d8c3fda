import RpcConsole.Json.Value
import RpcConsole.Message.Fields
import RpcConsole.WellKnown.Types

namespace RpcConsole

/-- What a field takes: a single value of a kind, a list of such, or a map. A map is torn if the
type of its entries, marked as such by hand, has no key or no value. -/
inductive Shape where
  | single (kind : Kind)
  | list (kind : Kind)
  | map (key value : Kind)
  | torn (entry : Kind) (value : Option Kind)
  deriving Repr, DecidableEq

def Shape.lacksValue : Shape → Bool
  | .torn _ none => true
  | _ => false

namespace TypeTable

def shape (t : TypeTable) (f : Field) : Shape :=
  if f.isRepeated then
    match t.mapEntry? f with
    | some entry =>
      match entry.fieldNumbered? 1, entry.fieldNumbered? 2 with
      | some k, some v => .map k.kind v.kind
      | _, v => .torn f.kind (v.map Field.kind)
    | none => .list f.kind
  else .single f.kind

/-- Whether a field of a type is a map whose entries have no value. Such a field cannot be shown,
not even without entries. -/
def hasTorn (t : TypeTable) (type : MessageType) : Bool :=
  type.fields.any fun f => (t.shape f).lacksValue

end TypeTable

namespace EnumType

def sameName (a b : String) : Bool :=
  a.toList.map Char.toLower == b.toList.map Char.toLower

/-- The declared spelling of a name: the name itself if it is declared, else the first declared
name that differs only in case, else the name as it is. -/
def spelling (e : EnumType) (name : String) : String :=
  if (e.number? name).isSome then name
  else
    match e.values.find? (fun v => sameName v.1 name) with
    | some v => v.1
    | none => name

end EnumType

namespace MessageType

def fieldForSpelling? (t : MessageType) (key : String) : Option Field :=
  (t.fieldNamed? key).or (t.fieldWithJsonName? key)

end MessageType

namespace Json

mutual

def spelled (t : TypeTable) (shape : Shape) : Json → Json
  | .str s =>
    match shape with
    | .single (.enum name) =>
      match t.enum? name with
      | some e => .str (e.spelling s)
      | none => .str s
    | _ => .str s
  | .arr vs =>
    match shape with
    | .list kind => .arr (spelledItems t kind vs)
    | _ => .arr vs
  | .obj ms =>
    match shape with
    | .map _ value | .torn _ (some value) => .obj (spelledEntries t value ms)
    | .single (.message name) =>
      match t.message? name with
      | some type => .obj (spelledMembers t type ms)
      | none => .obj ms
    | _ => .obj ms
  | j => j

def spelledItems (t : TypeTable) (kind : Kind) : List Json → List Json
  | [] => []
  | v :: vs => spelled t (.single kind) v :: spelledItems t kind vs

def spelledEntries (t : TypeTable) (kind : Kind) : List (String × Json) → List (String × Json)
  | [] => []
  | (k, v) :: rest => (k, spelled t (.single kind) v) :: spelledEntries t kind rest

def spelledMembers (t : TypeTable) (type : MessageType) :
    List (String × Json) → List (String × Json)
  | [] => []
  | (k, v) :: rest =>
    match type.fieldForSpelling? k with
    | some f => (k, spelled t (t.shape f) v) :: spelledMembers t type rest
    | none => (k, v) :: spelledMembers t type rest

end

mutual

/-- Whether the program stops while it brings names to their spelling: it does at each key of a map
whose entries have no value. -/
def stops (t : TypeTable) (shape : Shape) : Json → Bool
  | .arr vs =>
    match shape with
    | .list kind => stopsItems t kind vs
    | _ => false
  | .obj ms =>
    match shape with
    | .map _ value | .torn _ (some value) => stopsEntries t value ms
    | .single (.message name) =>
      match t.message? name with
      | some type => stopsMembers t type ms
      | none => false
    | _ => false
  | _ => false

def stopsItems (t : TypeTable) (kind : Kind) : List Json → Bool
  | [] => false
  | v :: vs => stops t (.single kind) v || stopsItems t kind vs

def stopsEntries (t : TypeTable) (kind : Kind) : List (String × Json) → Bool
  | [] => false
  | (_, v) :: rest => stops t (.single kind) v || stopsEntries t kind rest

def stopsMembers (t : TypeTable) (type : MessageType) : List (String × Json) → Bool
  | [] => false
  | (k, v) :: rest =>
    (match type.fieldForSpelling? k with
      | some f => (t.shape f).lacksValue || stops t (t.shape f) v
      | none => false) || stopsMembers t type rest

end

end Json
end RpcConsole

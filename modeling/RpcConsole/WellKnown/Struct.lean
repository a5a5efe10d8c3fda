import RpcConsole.Json.Value
import RpcConsole.Message.Value

namespace RpcConsole.Struct

mutual

/-- The JSON value that the shape fields of a message hold, null if there is none. There is no JSON
value for a number that is not finite. -/
def valueJson : Message → Option Json
  | ⟨known, _⟩ => fieldsJson known

def fieldsJson : List (Nat × Value) → Option Json
  | [] => some .null
  | (number, v) :: _ => shapeJson number v

def shapeJson (number : Nat) : Value → Option Json
  | .double x =>
    match x.meaning with
    | .finite .. => some (.double x)
    | _ => none
  | .str s => some (.str s)
  | .bool b => some (.bool b)
  | .message _ m => if number == 5 then structJson m else listJson m
  | _ => some .null

/-- The object that a message with a map from names to values stands for. -/
def structJson : Message → Option Json
  | ⟨known, _⟩ => do return .obj (← mapJson known)

def mapJson : List (Nat × Value) → Option (List (String × Json))
  | (_, v) :: _ => entriesJson v
  | _ => some []

def entriesJson : Value → Option (List (String × Json))
  | .map entries => membersJson entries
  | _ => some []

def membersJson : List (MapKey × Value) → Option (List (String × Json))
  | [] => some []
  | (k, v) :: rest => do
    let v ← itemJson v
    let rest ← membersJson rest
    return (k.text, v) :: rest

def itemJson : Value → Option Json
  | .message _ m => valueJson m
  | _ => some .null

def listJson : Message → Option Json
  | ⟨known, _⟩ => do return .arr (← arrayJson known)

def arrayJson : List (Nat × Value) → Option (List Json)
  | (_, v) :: _ => listItemsJson v
  | _ => some []

def listItemsJson : Value → Option (List Json)
  | .list items => itemsJson items
  | _ => some []

def itemsJson : List Value → Option (List Json)
  | [] => some []
  | v :: vs => do
    let v ← itemJson v
    let vs ← itemsJson vs
    return v :: vs

end

end RpcConsole.Struct

import RpcConsole.Message.Shape
import RpcConsole.Message.TextFault
import RpcConsole.WellKnown.FieldMask
import RpcConsole.WellKnown.Struct

namespace RpcConsole.ToJson

def wordOf? : Meaning → Option String
  | .nan => some "NaN"
  | .infinite negative => some (if negative then "-Infinity" else "Infinity")
  | .finite .. => none

def enumJson (t : TypeTable) (name : String) (n : Int) : Json :=
  if name == WellKnown.nullValue then .null
  else
    match (t.enum? name).bind (fun e => e.nameOf? n) with
    | some word => .str word
    | none => .int n

def plain (t : TypeTable) (kind : Kind) : Value → Json
  | .bool b => .bool b
  | .int _ n => .int n
  | .enum n =>
    match kind with
    | .enum name => enumJson t name n
    | _ => .int n
  | .single x => ((wordOf? x.meaning).map Json.str).getD (.single x)
  | .double x => ((wordOf? x.meaning).map Json.str).getD (.double x)
  | .str s => .str s
  | .bytes bs => .str (Base64.encode bs)
  | .message _ _ | .list _ | .map _ => .null

/-- The value that a wrapper message holds. What is not finite is null here. -/
def wrapped : Value → Json
  | .single x => .single x
  | .double x => .double x
  | .bool b => .bool b
  | .int _ n => .int n
  | .str s => .str s
  | .bytes bs => .str (Base64.encode bs)
  | .enum n => .int n
  | .message _ _ | .list _ | .map _ => .null

def default (t : TypeTable) (f : Field) : Json :=
  match t.shape f with
  | .single kind => plain t kind (t.fieldDefault f)
  | .list _ => .arr []
  | .map _ _ | .torn .. => .obj []

/-- The member of an ordinary field, if it is shown; `shown` are the JSON values of what is
stored. -/
def fieldMember (t : TypeTable) (shown : List (Nat × Json)) (f : Field) : List (String × Json) :=
  match shown.lookup f.number with
  | some j => [(f.jsonName, j)]
  | none => if f.hasPresence then [] else [(f.jsonName, default t f)]

def extensionMember (t : TypeTable) (type : MessageType) (shown : Nat × Json) :
    List (String × Json) :=
  match t.extensionNumbered? type.name shown.1 with
  | some x => [("[" ++ x.field.fullName ++ "]", shown.2)]
  | none => []

def assemble (t : TypeTable) (type : MessageType) (shown : List (Nat × Json)) :
    List (String × Json) :=
  (type.fields.mergeSort (fun f g => f.number ≤ g.number)).flatMap (fieldMember t shown) ++
    (shown.filter (fun s => (type.fieldNumbered? s.1).isNone)).flatMap (extensionMember t type)

def unsettle (t : TypeTable) (name : String) (m : Message) : Except RenderFault Message :=
  match WellKnown.transfer t WellKnown.types name m with
  | .ok m => .ok m
  | .error e => .error (.ofWire e)

def intField (number : Nat) (m : Message) : Int :=
  match m.find? number with
  | some (.int _ n) => n
  | _ => 0

def textField (number : Nat) (m : Message) : String :=
  match m.find? number with
  | some (.str s) => s
  | _ => ""

def bytesField (number : Nat) (m : Message) : List UInt8 :=
  match m.find? number with
  | some (.bytes bs) => bs
  | _ => []

def textItems (number : Nat) (m : Message) : List String :=
  match m.find? number with
  | some (.list items) =>
    items.filterMap fun
      | .str s => some s
      | _ => none
  | _ => []

abbrev Inner := String → Message → Except RenderFault Json

/-- A message of any type: the type name, then the members of the inner message, or its value if it
has a text form of its own. -/
def anyJson (inner : Inner) (t : TypeTable) (m : Message) : Except RenderFault Json :=
  let url := textField 1 m
  match anyTypeName? url with
  | none => .error (.typeUrl url)
  | some name =>
    match t.messageNamed? name with
    | none => .error (.unknownMessage name)
    | some type =>
      match Wire.readMessage t type (bytesField 2 m) with
      | .error e => .error (.ofWire e)
      | .ok content => do
        let j ← inner type.name content
        match WellKnown.ofName? type.name, j with
        | none, .obj ms => return .obj (("@type", .str url) :: ms)
        | _, j => return .obj [("@type", .str url), ("value", j)]

def finite : Option Json → Except RenderFault Json
  | some j => .ok j
  | none => .error .nonFinite

/-- A message with a text form of its own, seen through the definition that this form goes by. -/
def wellKnown (inner : Inner) (t : TypeTable) (w : WellKnown) (m : Message) :
    Except RenderFault Json :=
  match w with
  | .any => anyJson inner t m
  | .timestamp =>
    let p : Timestamp := ⟨intField 1 m, intField 2 m⟩
    if p.inRange then .ok (.str p.text) else .error .timestampRange
  | .duration =>
    let d : Duration := ⟨intField 1 m, intField 2 m⟩
    if d.inRange then .ok (.str d.text) else .error .durationRange
  | .fieldMask =>
    match FieldMask.text (textItems 1 m) with
    | some text => .ok (.str text)
    | none => .error .camelCase
  | .struct => finite (Struct.structJson m)
  | .value => finite (Struct.valueJson m)
  | .listValue => finite (Struct.listJson m)
  | .empty => .ok (.obj [])
  | .wrapper s => .ok (wrapped ((m.find? 1).getD s.zero))

mutual

def message (inner : Inner) (t : TypeTable) (name : String) : Message → Except RenderFault Json
  | ⟨known, unknown⟩ =>
    match WellKnown.ofName? name with
    | some .empty => .ok (.obj [])
    | some w => do wellKnown inner t w (← unsettle t name ⟨known, unknown⟩)
    | none =>
      match t.message? name with
      | none => .error (.unknownMessage name)
      | some type =>
        if t.hasTorn type then .error .stopped
        else do return .obj (assemble t type (← fields inner t type known))

def fields (inner : Inner) (t : TypeTable) (type : MessageType) :
    List (Nat × Value) → Except RenderFault (List (Nat × Json))
  | [] => .ok []
  | (number, v) :: rest =>
    match t.fieldNumbered? type number with
    | none => fields inner t type rest
    | some f =>
      if (type.fieldNumbered? number).isNone && t.isRedundant f v then fields inner t type rest
      else do
        let j ← value inner t f v
        let rest ← fields inner t type rest
        return (number, j) :: rest

def value (inner : Inner) (t : TypeTable) (f : Field) : Value → Except RenderFault Json
  | .message name m => message inner t name m
  | .list vs => do return .arr (← items inner t f vs)
  | .map es =>
    match (t.mapEntry? f).bind (fun e => e.fieldNumbered? 2) with
    | some v => do return .obj (← entries inner t v es)
    | none => .error .stopped
  | .enum n =>
    match f.kind with
    | .enum name => .ok (enumJson t name n)
    | _ => .error .stopped
  | v => .ok (plain t f.kind v)

def items (inner : Inner) (t : TypeTable) (f : Field) :
    List Value → Except RenderFault (List Json)
  | [] => .ok []
  | v :: vs => do
    let v ← value inner t f v
    let vs ← items inner t f vs
    return v :: vs

def entries (inner : Inner) (t : TypeTable) (f : Field) :
    List (MapKey × Value) → Except RenderFault (List (String × Json))
  | [] => .ok []
  | (k, v) :: rest => do
    let v ← value inner t f v
    let rest ← entries inner t f rest
    return (k.text, v) :: rest

end

def nested (t : TypeTable) : Nat → String → Message → Except RenderFault Json
  | 0 => fun name _ => .error (.unknownMessage name)
  | depth + 1 => message (nested t depth) t

/-- The JSON value of a message of a type. Each message inside one of any type takes bytes of its
own, so the nesting is not deeper than the bytes of the whole message are long. -/
def render (t : TypeTable) (name : String) (m : Message) : Except RenderFault Json :=
  nested t ((Wire.message t name m).length + 1) name m

end RpcConsole.ToJson

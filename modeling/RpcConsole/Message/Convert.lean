import RpcConsole.Json.Print
import RpcConsole.Message.FromJson
import RpcConsole.Message.Normal
import RpcConsole.Message.ToJson

namespace RpcConsole.Message

def instantiate : Message :=
  .empty

/-- The text of a message: JSON on several lines, with the fields that hold their default. -/
def toText (t : TypeTable) (name : String) (m : Message) : Except MessageError String :=
  match ToJson.render t name m with
  | .ok j => .ok j.pretty
  | .error e => .error (.ofRender e)

def ofJson (t : TypeTable) (name : String) (j : Json) : Except TextFault Message :=
  FromJson.message t name j

def fromText (t : TypeTable) (name text : String) : Except MessageError Message :=
  match Json.read text with
  | .error e => .error (.invalidText (.malformed e))
  | .ok j =>
    if j.stops t (.single (.message name)) then .error .stopped
    else
      match ofJson t name (j.spelled t (.single (.message name))) with
      | .error e => .error (.ofText e)
      | .ok m => .ok (m.clearDefaults t name)

/-- The bytes of a message, unless the program stops. -/
def toWire (t : TypeTable) (name : String) (m : Message) : Option (List UInt8) :=
  Wire.message? t name m

def fromWire (t : TypeTable) (name : String) (bs : List UInt8) : Except MessageError Message :=
  match t.message? name with
  | none => .ok .empty
  | some type =>
    match Wire.readMessage t type bs with
    | .error e => .error (.ofWire e)
    | .ok m => .ok (m.clearDefaults t name)

end RpcConsole.Message

import RpcConsole.Number.Decimal

namespace RpcConsole

/-- A JSON value. Numbers keep the width at which they are written. -/
inductive Json where
  | null
  | bool (b : Bool)
  | int (n : Int)
  | double (x : Binary64)
  | single (x : Binary32)
  | str (s : String)
  | arr (items : List Json)
  | obj (members : List (String × Json))
  deriving Repr, Inhabited

namespace Json

def get? (key : String) : List (String × Json) → Option Json
  | [] => none
  | (k, v) :: rest => if k == key then some v else get? key rest

/-- Puts a member into a list that is sorted by key; a member of the same key gives way. -/
def put (key : String) (value : Json) : List (String × Json) → List (String × Json)
  | [] => [(key, value)]
  | (k, v) :: rest =>
    if key < k then (key, value) :: (k, v) :: rest
    else if key == k then (key, value) :: rest
    else (k, v) :: put key value rest

def sorted (members : List (String × Json)) : List (String × Json) :=
  members.foldl (fun done m => put m.1 m.2 done) []

end Json
end RpcConsole

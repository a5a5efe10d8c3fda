import RpcConsole.Json.Print
import RpcConsole.Text.Utf8

namespace RpcConsole

inductive StatusCode where
  | ok
  | cancelled
  | unknown
  | invalidArgument
  | deadlineExceeded
  | notFound
  | alreadyExists
  | permissionDenied
  | resourceExhausted
  | failedPrecondition
  | aborted
  | outOfRange
  | unimplemented
  | internal
  | unavailable
  | dataLoss
  | unauthenticated
  deriving Repr, DecidableEq, Inhabited

namespace StatusCode

def number : StatusCode → Nat
  | .ok => 0
  | .cancelled => 1
  | .unknown => 2
  | .invalidArgument => 3
  | .deadlineExceeded => 4
  | .notFound => 5
  | .alreadyExists => 6
  | .permissionDenied => 7
  | .resourceExhausted => 8
  | .failedPrecondition => 9
  | .aborted => 10
  | .outOfRange => 11
  | .unimplemented => 12
  | .internal => 13
  | .unavailable => 14
  | .dataLoss => 15
  | .unauthenticated => 16

def name : StatusCode → String
  | .ok => "OK"
  | .cancelled => "CANCELLED"
  | .unknown => "UNKNOWN"
  | .invalidArgument => "INVALID_ARGUMENT"
  | .deadlineExceeded => "DEADLINE_EXCEEDED"
  | .notFound => "NOT_FOUND"
  | .alreadyExists => "ALREADY_EXISTS"
  | .permissionDenied => "PERMISSION_DENIED"
  | .resourceExhausted => "RESOURCE_EXHAUSTED"
  | .failedPrecondition => "FAILED_PRECONDITION"
  | .aborted => "ABORTED"
  | .outOfRange => "OUT_OF_RANGE"
  | .unimplemented => "UNIMPLEMENTED"
  | .internal => "INTERNAL"
  | .unavailable => "UNAVAILABLE"
  | .dataLoss => "DATA_LOSS"
  | .unauthenticated => "UNAUTHENTICATED"

def all : List StatusCode :=
  [.ok, .cancelled, .unknown, .invalidArgument, .deadlineExceeded, .notFound, .alreadyExists,
    .permissionDenied, .resourceExhausted, .failedPrecondition, .aborted, .outOfRange,
    .unimplemented, .internal, .unavailable, .dataLoss, .unauthenticated]

/-- The code of a number; a number without a code is an unknown failure. -/
def ofNumber (n : Int) : StatusCode :=
  (all.find? (fun c => (c.number : Int) == n)).getD .unknown

end StatusCode

structure CallFailure where
  code : StatusCode
  message : String
  details : List UInt8 := []
  deriving Repr, DecidableEq, Inhabited

namespace CallFailure

def display (e : CallFailure) : String :=
  s!"{e.code.name} ({e.code.number}): {e.message}"

/-- The failure as a JSON value. The details are shown as text, with U+FFFD for what is not UTF-8,
beside the count of their bytes. -/
def envelope (e : CallFailure) : Json :=
  .obj [("grpc_error", .obj
    [("code", .str e.code.name), ("details_bin", .str (Utf8.toStringLossy e.details)),
      ("details_length", .int e.details.length), ("message", .str e.message)])]

end CallFailure
end RpcConsole

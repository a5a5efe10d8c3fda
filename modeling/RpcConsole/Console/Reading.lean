import RpcConsole.Console.Argument

namespace RpcConsole.Console

inductive Halt where
  | fault (e : ArgumentFault)
  | help (s : Scope)
  | version
  deriving Repr, DecidableEq

/-- The state of reading. An argument that waits has not been looked at yet; if it has no value, the
next word can be its value. -/
structure Reading where
  scope : Scope
  given : List (Argument × String) := []
  waiting : Option (Argument × Option String) := none
  placed : Nat := 0
  verbatim : Bool := false
  deriving Repr

namespace Reading

def has (r : Reading) (a : Argument) : Bool :=
  r.given.any (fun g => g.1 == a)

def values (r : Reading) (a : Argument) : List String :=
  (r.given.filter (fun g => g.1 == a)).map (fun g => g.2)

def valueFault? (a : Argument) (value : String) : Option ArgumentFault :=
  if a.isPath && value == "" then some (.noValue a)
  else if a == .endpoint then
    match Endpoint.read value with
    | .ok _ => none
    | .error e => some (.endpoint value e)
  else none

def accept (r : Reading) (a : Argument) (value : Option String) : Except Halt Reading :=
  match a, value with
  | .help, _ => .error (.help r.scope)
  | .version, _ => .error .version
  | .verbose, _ =>
    if r.has a then .error (.fault (.twice a)) else .ok { r with given := r.given ++ [(a, "")] }
  | a, none => .error (.fault (.noValue a))
  | a, some text =>
    if r.has a && !a.isRepeatable then .error (.fault (.twice a))
    else
      match (a.split text).findSome? (valueFault? a) with
      | some e => .error (.fault e)
      | none => .ok { r with given := r.given ++ (a.split text).map (fun v => (a, v)) }

def settle (r : Reading) : Except Halt Reading :=
  match r.waiting with
  | none => .ok r
  | some (a, value) => { r with waiting := none }.accept a value

def take (r : Reading) (a : Argument) (value : Option String) : Except Halt Reading := do
  (← r.settle).accept a value

def await (r : Reading) (a : Argument) (value : Option String) : Except Halt Reading := do
  return { ← r.settle with waiting := some (a, value) }

def wantsValue (r : Reading) : Bool :=
  match r.waiting with
  | some (_, none) => !r.verbatim
  | _ => false

def long (r : Reading) (name : String) (value : Option String) : Except Halt Reading :=
  match r.scope.options.find? (fun a => a.long? == some name) with
  | none => .error (.fault (.unexpected ("--" ++ name)))
  | some a =>
    match a.value?, value with
    | none, some v => .error (.fault (.surplusValue a v))
    | none, none | some _, some _ => r.take a value
    | some _, none => r.await a none

/-- Reads letters behind one dash. The first one that takes a value has the rest as its value. -/
def short : List Char → Reading → Except Halt Reading
  | [], r => .ok r
  | c :: cs, r =>
    match r.scope.options.find? (fun a => a.short? == some c) with
    | none => .error (.fault (.unexpected (String.ofList ['-', c])))
    | some a =>
      if a.value?.isNone then do short cs (← r.take a none)
      else
        match cs with
        | [] => r.await a none
        | '=' :: value => r.take a (some (String.ofList value))
        | value => r.take a (some (String.ofList value))

def surplus (r : Reading) (word : String) : ArgumentFault :=
  let isCommand := (Command.ofName? word).isSome || word == Command.helpName
  match r.scope with
  | .program => if r.verbatim && isCommand then .unexpected word else .unknownCommand word
  | .command _ => .unexpected word

/-- Reads a word that is no option: the value of the argument that waits, or the next argument that
goes by its place. -/
def plain (r : Reading) (word : String) : Except Halt Reading :=
  match r.waiting, r.verbatim with
  | some (a, none), false => .ok { r with waiting := some (a, some word) }
  | _, _ =>
    match r.scope.places[r.placed]? with
    | some a => do return { ← r.await a (some word) with placed := r.placed + 1 }
    | none => .error (.fault (r.surplus word))

/-- Reads one word. Behind a double dash no word is an option. -/
def word (r : Reading) (word : String) : Except Halt Reading :=
  if r.verbatim then r.plain word
  else
    match word.toList with
    | ['-', '-'] => .ok { r with verbatim := true }
    | '-' :: '-' :: cs =>
      let name := cs.takeWhile (· != '=')
      r.long (String.ofList name)
        (if name.length == cs.length then none
          else some (String.ofList (cs.drop (name.length + 1))))
    | '-' :: c :: cs => short (c :: cs) r
    | _ => r.plain word

def helpFor : List String → Halt
  | [] => .help .program
  | name :: rest =>
    match Command.ofName? name, rest with
    | some c, [] => .help (.command c)
    | some _, other :: _ => .fault (.unknownCommand other)
    | none, rest =>
      if name == Command.helpName then
        match rest with
        | [] => .help .program
        | other :: _ => .fault (.unknownCommand other)
      else .fault (.unknownCommand name)

/-- Reads the words of a scope. In that of the program a command ends them, with the words behind
it. -/
def words : Reading → List String → Except Halt (Reading × Option (Command × List String))
  | r, [] => .ok (r, none)
  | r, word :: rest =>
    let free := r.scope == .program && !r.verbatim && !r.wantsValue
    match free, Command.ofName? word with
    | true, some c => .ok (r, some (c, rest))
    | true, none =>
      if word == Command.helpName then .error (helpFor rest)
      else do (← r.word word).words rest
    | false, _ => do (← r.word word).words rest

def rivals? (r : Reading) : Option (Argument × Argument) :=
  r.given.findSome? fun g =>
    match g.1.rival? with
    | some b => if r.has b then some (g.1, b) else none
    | none => none

def complete (r : Reading) : Except Halt Reading :=
  match r.rivals? with
  | some (a, b) => .error (.fault (.rivals a b))
  | none =>
    let missing := r.scope.required.filter (fun a => !r.has a)
    if missing.isEmpty then .ok r else .error (.fault (.missing missing))

end Reading
end RpcConsole.Console

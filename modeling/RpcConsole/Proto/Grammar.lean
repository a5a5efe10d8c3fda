import RpcConsole.Proto.Reading
import RpcConsole.Schema.TypeTable

namespace RpcConsole.Proto

namespace Names

def isReservable (name : String) : Bool :=
  match name.toList with
  | c :: cs => c.isAlpha && cs.all Lexeme.isIdentChar
  | [] => false

def isImport (path : String) : Bool :=
  !path.toList.contains '\\' &&
    (Text.pieces '/' path).all fun part => part != "" && part != "." && part != ".."

def isGroup (name : String) : Bool :=
  name.toList.head?.any Char.isUpper

end Names

namespace Grammar
open Reading

inductive Scope where
  | message
  | oneof
  | extension
  deriving Repr, DecidableEq

inductive Shape where
  | plain
  | map
  | group
  deriving Repr, DecidableEq

namespace Shape

def withoutDefault? (s : Shape) (label : Option Label) : Option String :=
  match s with
  | .map => some "map"
  | _ =>
    if label == some .repeated then some "repeated"
    else if s == .group then some "group"
    else none

end Shape

def labelFault? (dialect : Dialect) (scope : Scope) (shape : Shape) (label : Option Label) :
    Option Cause :=
  match scope, shape, label with
  | .extension, .map, _ => some (.notInExtensions "map")
  | .extension, _, some .required => some .requiredExtension
  | .oneof, .map, _ => some (.notInOneof "map")
  | .oneof, _, some _ => some .oneofLabel
  | .oneof, _, none => none
  | .message, .map, some _ => some .mapLabel
  | .message, .map, none => none
  | _, _, none => if dialect == .proto2 then some .missingLabel else none
  | _, _, some .required => if dialect == .proto3 then some .requiredInProto3 else none
  | _, _, some _ => none

def checkLabel (dialect : Dialect) (scope : Scope) (shape : Shape) (label : Option Label)
    (offset : Nat) : Reading Unit := do
  if let some cause := labelFault? dialect scope shape label then flag offset cause
  if shape == .group && dialect == .proto3 then flag offset .groupInProto3

def rangeName (r : IntRange) : String :=
  let sign := if r.low < 0 then "a signed" else "an unsigned"
  let width := if r.high ≤ IntRange.unsigned32.high then "32" else "64"
  s!"{sign} {width}-bit integer"

def floatDefault? : Constant → Option String
  | .int n =>
    let x := Binary64.ofNat n.magnitude
    some (if n.negative then x.neg else x).plainText
  | .float negative x => some (if negative then x.neg else x).plainText
  | .ident negative "inf" => some (if negative then "-inf" else "inf")
  | .ident _ "nan" => some "nan"
  | _ => none

def integerDefault? (r : IntRange) (n : IntLiteral) : Option String :=
  let outside := !r.contains n.value || r.low == 0 && n.negative
  if outside then none else some (toString n.value)

def scalarDefault (s : Scalar) (c : Constant) : Except Cause String :=
  match s.range? with
  | some r =>
    match c with
    | .int n =>
      match integerDefault? r n with
      | some text => .ok text
      | none => .error (.valueRange (rangeName r) n.text)
    | _ => .error (.wrongValue "an integer" c.text)
  | none =>
    match s, c with
    | .bool, .ident false "true" => .ok "true"
    | .bool, .ident false "false" => .ok "false"
    | .bool, _ => .error (.wrongValue "either 'true' or 'false'" c.text)
    | .string, .bytes bs =>
      match Utf8.toString? bs with
      | some text => .ok text
      | none => .error .notUtf8
    | .bytes, .bytes bs => .ok (octalEscaped bs)
    | .string, _ | .bytes, _ => .error (.wrongValue "a string" c.text)
    | _, _ =>
      match floatDefault? c with
      | some text => .ok text
      | none => .error (.wrongValue "a floating-point number" c.text)

/-- The text of the default value of a field. What the name of a type stands for is not known yet,
so any value is kept there. -/
def defaultText (type : TypeRef) (c : Constant) : Except Cause String :=
  match type with
  | .scalar s => scalarDefault s c
  | _ => .ok c.source

/-- The options of a field: those that the language itself takes, and the others. -/
structure FieldOptions where
  defaultText : Option String := none
  jsonName : Option String := none
  taken : List String := []
  raw : List RawOption := []

def isFirst (name : String) (taken : List String) (o : OptionText) : Bool :=
  o.name == [⟨name, false⟩] && !taken.contains name

def fieldOptions (dialect : Dialect) (shape : Shape) (label : Option Label) (type : TypeRef)
    (options : List OptionText) : Reading FieldOptions :=
  options.foldlM (fun done o => do
    if isFirst "default" done.taken o then
      let done := { done with taken := "default" :: done.taken }
      if let some kind := shape.withoutDefault? label then
        flag o.nameOffset (.defaultNotAllowed kind)
      if dialect == .proto3 then flag o.nameOffset .defaultInProto3
      match Grammar.defaultText type o.value with
      | .ok text => return { done with defaultText := some text }
      | .error cause =>
        flag o.valueOffset cause
        return done
    else if isFirst "json_name" done.taken o then
      let done := { done with taken := "json_name" :: done.taken }
      match o.value with
      | .bytes bs =>
        let name ← utf8 bs o.valueOffset
        return { done with jsonName := some name }
      | c =>
        flag o.valueOffset (.wrongValue "a string" c.text)
        return done
    else
      let raw ← rawOption o
      return { done with raw := done.raw ++ [raw] }) {}

structure FieldRead where
  field : FieldDecl
  nested : List MessageDecl := []

def startsField : Token → Bool
  | .ident _ => true
  | .sign c => c == '.'
  | _ => false

/-- Reads a type. `expected` says what may follow the name of one. -/
def fieldType (stops : Token → Bool) (expected : String) : Reading TypeRef := do
  match ← token? with
  | some (.ident name) =>
    match Scalar.ofKeyword? name with
    | some s =>
      advance
      return .scalar s
    | none => return .named (← typeName "a field type" stops expected)
  | _ => return .named (← typeName "a field type" stops expected)

def label? : Reading (Option Label) := do
  if ← takeWord "optional" then return some .optional
  else if ← takeWord "required" then return some .required
  else if ← takeWord "repeated" then return some .repeated
  else return none

def isKey : TypeRef → Bool
  | .scalar .double | .scalar .float | .scalar .bytes => false
  | .scalar _ => true
  | _ => false

def isIdent : Token → Bool
  | .ident _ => true
  | _ => false

def entryMessage (field : String) (key value : TypeRef) : MessageDecl where
  name := Name.mapEntry field
  fields :=
    [{ name := "key", number := 1, label := .optional, type := key, jsonName := some "key" },
      { name := "value", number := 2, label := .optional, type := value, jsonName := some "value" }]
  options := some ⟨[], Message.empty.set 7 (.bool true)⟩

def mapField (dialect : Dialect) : Reading FieldRead := do
  sign '<'
  let keyOffset ← here
  let key ← fieldType (isSign ',') "'.' or ','"
  unless isKey key do flag keyOffset .mapKeyType
  sign ','
  let value ← fieldType (isSign '>') "'.' or '>'"
  sign '>'
  let name ← ident
  sign '='
  let number ← checkNumber maxNumber (← int "an integer")
  let type := TypeRef.message (Name.mapEntry name)
  let options ← fieldOptions dialect .map none type (← optionsAndEnd)
  return {
    field :=
      { name, number, label := .repeated, type, jsonName := options.jsonName,
        options := Options.ofRaw options.raw }
    nested := [entryMessage name key value] }

def groupOptions : Reading (List OptionText) := do
  if ← atSign '[' then optionList
  else if ← atSign '{' then return []
  else failExpected "'\x7b' or '['"

/-- Reads a group behind its keyword; `body` reads the declarations inside. -/
def groupField (body : String → Reading MessageDecl) (dialect : Dialect) (label : Option Label) :
    Reading FieldRead := do
  let nameOffset ← here
  let name ← ident
  unless Names.isGroup name do fail ⟨nameOffset, .invalidGroupName⟩
  sign '='
  let number ← checkNumber maxNumber (← int "an integer")
  let options ← fieldOptions dialect .group label (.group name) (← groupOptions)
  let message ← body name
  return {
    field :=
      { name := name.toLower, number, label := label.getD .optional, type := .group name,
        defaultText := options.defaultText, jsonName := options.jsonName,
        options := Options.ofRaw options.raw }
    nested := [message] }

def plainField (dialect : Dialect) (scope : Scope) (label : Option Label) : Reading FieldRead := do
  let type ← fieldType isIdent "'.' or an identifier"
  let name ← ident
  sign '='
  let number ← checkNumber maxNumber (← int "an integer")
  let options ← fieldOptions dialect .plain label type (← optionsAndEnd)
  return {
    field :=
      { name, number, label := label.getD .optional, type, defaultText := options.defaultText,
        jsonName := options.jsonName, options := Options.ofRaw options.raw,
        isProto3Optional :=
          dialect == .proto3 && scope != .oneof && label == some .optional } }

def field (body : String → Reading MessageDecl) (dialect : Dialect) (scope : Scope) :
    Reading FieldRead := do
  let offset ← here
  let label ← label?
  if ← takeWord "map" then
    checkLabel dialect scope .map label offset
    mapField dialect
  else if ← takeWord "group" then
    checkLabel dialect scope .group label offset
    groupField body dialect label
  else
    checkLabel dialect scope .plain label offset
    plainField dialect scope label

def extend (body : String → Reading MessageDecl) (dialect : Dialect) :
    Reading (List FieldDecl × List MessageDecl) := do
  let extendee ← typeName "a type name" (isSign '{') "'.' or '\x7b'"
  sign '{'
  loop (fun (fields, nested) => do
    if ← takeSign '}' then return ((fields, nested), true)
    else if ← takeSign ';' then return ((fields, nested), false)
    else if (← token?).any startsField then
      let r ← field body dialect .extension
      return ((fields ++ [{ r.field with extendee := some extendee }], nested ++ r.nested), false)
    else failExpected "a message field, '\x7d' or ';'") ([], [])

/-- The end of a range: the first number again, another one, or the greatest. -/
inductive RangeEnd where
  | same
  | upTo (n : IntLiteral)
  | max

def range : Reading (IntLiteral × RangeEnd) := do
  let first ← int "an integer"
  if ← takeWord "to" then
    if ← takeWord "max" then return (first, .max)
    else return (first, .upTo (← int "an integer or 'max'"))
  else if (← atSign ',') || (← atSign ';') then return (first, .same)
  else failExpected "'to', ',' or ';'"

def ranges (isEnd : Token → Bool) : Reading (List (IntLiteral × RangeEnd)) := do
  let first ← range
  loop (fun done => do
    if ← takeSign ',' then
      let next ← range
      return (done ++ [next], false)
    else if (← token?).any isEnd then return (done, true)
    else failExpected "',' or ';'") [first]

def numberRange (limit : Nat) (r : IntLiteral × RangeEnd) : Reading NumberRange := do
  let first ← checkNumber limit r.1
  match r.2 with
  | .same => return ⟨first, first + 1⟩
  | .upTo n => return ⟨first, (← checkNumber limit n) + 1⟩
  | .max => return ⟨first, limit + 1⟩

def enumRange (r : IntLiteral × RangeEnd) : Reading NumberRange := do
  let first ← checkEnumNumber r.1
  match r.2 with
  | .same => return ⟨first, first⟩
  | .upTo n => return ⟨first, ← checkEnumNumber n⟩
  | .max => return ⟨first, 2147483647⟩

def reservedName (expected : String) : Reading String := do
  let literal ← string expected
  let name ← utf8 literal.bytes literal.offset
  unless Names.isReservable name do fail ⟨literal.offset, .invalidIdentifier⟩
  return name

/-- Reads a `reserved` statement behind its keyword: ranges or names. -/
def reserved : Reading (List (IntLiteral × RangeEnd) × List String) := do
  match ← token? with
  | some (.bytes _) =>
    let first ← reservedName "a string literal"
    let names ← loop (fun names => do
      if ← takeSign ',' then
        let name ← reservedName "a string literal"
        return (names ++ [name], false)
      else if ← takeSign ';' then return (names, true)
      else failExpected "',' or ';'") [first]
    return ([], names)
  | some (.int _) | some (.sign '-') =>
    let rs ← ranges (isSign ';')
    sign ';'
    return (rs, [])
  | _ => failExpected "a positive integer or string"

def enumValue : Reading EnumValueDecl := do
  let name ← ident
  sign '='
  let number ← checkEnumNumber (← int "an integer")
  let options ← rawOptions (← optionsAndEnd)
  return { name, number, options }

def addOption (options : Option Options) (o : RawOption) : Option Options :=
  let options := options.getD ⟨[], .empty⟩
  some { options with raw := options.raw ++ [o] }

def enum : Reading EnumDecl := do
  let name ← ident
  sign '{'
  loop (fun (e : EnumDecl) => do
    if ← takeSign '}' then return (e, true)
    else if ← takeSign ';' then return (e, false)
    else if ← takeWord "option" then
      let o ← optionStatement
      return ({ e with options := addOption e.options o }, false)
    else if ← takeWord "reserved" then
      let (rs, names) ← reserved
      let rs ← rs.mapM enumRange
      return ({ e with reservedRanges := e.reservedRanges ++ rs,
                       reservedNames := e.reservedNames ++ names }, false)
    else if (← token?).any isIdent then
      let v ← enumValue
      return ({ e with values := e.values ++ [v] }, false)
    else failExpected "an identifier, '\x7d', 'reserved' or 'option'") { name }

/-- What was read of a message. How far its ranges may reach is known once all options are. -/
structure MessageRead where
  decl : MessageDecl
  reserved : List (IntLiteral × RangeEnd) := []
  extensions : List ((IntLiteral × RangeEnd) × Option Options) := []

def isMessageSet (options : Option Options) : Bool :=
  options.any fun o => o.raw.any fun raw =>
    raw.name == [⟨"message_set_wire_format", false⟩] && raw.value == .identifier "true"

def addOwnOneof (done : List FieldDecl × List OneofDecl) (f : FieldDecl) :
    List FieldDecl × List OneofDecl :=
  if f.isProto3Optional then
    (done.1 ++ [{ f with oneofIndex := some done.2.length }],
      done.2 ++ [{ name := Name.ownOneof f.name }])
  else (done.1 ++ [f], done.2)

def withOwnOneofs (m : MessageDecl) : MessageDecl :=
  let done := m.fields.foldl addOwnOneof ([], m.oneofs)
  { m with fields := done.1, oneofs := done.2 }

/-- Closes a message: checks its ranges of numbers and adds the last oneofs. -/
def MessageRead.close (m : MessageRead) : Reading MessageDecl := do
  let limit := if isMessageSet m.decl.options then 2147483646 else maxNumber
  let reservedRanges ← m.reserved.mapM (numberRange limit)
  let extensionRanges ← m.extensions.mapM fun (r, options) => do
    return ({ range := ← numberRange limit r, options } : ExtensionRange)
  return withOwnOneofs { m.decl with reservedRanges, extensionRanges }

def oneof (body : String → Reading MessageDecl) (dialect : Dialect) (offset : Nat)
    (m : MessageDecl) : Reading MessageDecl := do
  let name ← ident
  sign '{'
  let index := m.oneofs.length
  let (m, options, count) ← loop (fun (m, options, count) => do
    if ← takeSign '}' then return ((m, options, count), true)
    else if ← takeSign ';' then return ((m, options, count), false)
    else if ← takeWord "option" then
      let o ← optionStatement
      return ((m, addOption options o, count), false)
    else if (← token?).any startsField then
      let r ← field body dialect .oneof
      let f := { r.field with oneofIndex := some index }
      return (({ m with fields := m.fields ++ [f], nested := m.nested ++ r.nested },
        options, count + 1), false)
    else failExpected "a message field, option or '\x7d'") (m, (none : Option Options), (0 : Nat))
  if count == 0 then flag offset .emptyOneof
  return { m with oneofs := m.oneofs ++ [{ name, options }] }

def named {α : Type} (body : String → Reading α) : Reading α := do
  body (← ident)

/-- Reads the declarations of a message from its opening brace on. The count bounds how deep
messages stand inside each other. -/
def messageBody (dialect : Dialect) : Nat → String → Reading MessageDecl
  | 0, _ => failExpected "'\x7b'"
  | depth + 1, name => do
    let body := messageBody dialect depth
    sign '{'
    let read ← loop (fun (m : MessageRead) => do
      let offset ← here
      let extended (decl : MessageDecl) : Reading (MessageRead × Bool) :=
        return ({ m with decl }, false)
      let d := m.decl
      if ← takeSign '}' then return (m, true)
      else if ← takeSign ';' then return (m, false)
      else if ← takeWord "option" then
        let o ← optionStatement
        extended { d with options := addOption d.options o }
      else if ← takeWord "message" then
        let inner ← named body
        extended { d with nested := d.nested ++ [inner] }
      else if ← takeWord "enum" then
        let e ← enum
        extended { d with enums := d.enums ++ [e] }
      else if ← takeWord "extend" then
        let (fields, nested) ← extend body dialect
        extended { d with extensions := d.extensions ++ fields, nested := d.nested ++ nested }
      else if ← takeWord "oneof" then extended (← oneof body dialect offset d)
      else if ← takeWord "reserved" then
        let (rs, names) ← reserved
        let decl := { d with reservedNames := d.reservedNames ++ names }
        return ({ m with decl, reserved := m.reserved ++ rs }, false)
      else if ← takeWord "extensions" then
        let rs ← Grammar.ranges (fun t => isSign ';' t || isSign '[' t)
        let options ← rawOptions (← optionsAndEnd)
        return ({ m with extensions := m.extensions ++ rs.map (·, options) }, false)
      else if (← token?).any startsField then
        let r ← field body dialect .message
        extended { d with fields := d.fields ++ [r.field], nested := d.nested ++ r.nested }
      else
        failExpected
          "a message field, oneof, reserved range, enum, message, option or '\x7d'")
      { decl := { name } }
    read.close

def methodSide : Reading (Bool × String) := do
  sign '('
  let isStream ← takeWord "stream"
  let expected := if isStream then "a type name" else "'stream' or a type name"
  let name ← typeName expected (isSign ')') "'.' or ')'"
  sign ')'
  return (isStream, name)

def method : Reading MethodDecl := do
  let name ← ident
  let (clientStreaming, input) ← methodSide
  word "returns"
  let (serverStreaming, output) ← methodSide
  let m : MethodDecl := { name, input, output, clientStreaming, serverStreaming }
  if ← takeSign ';' then return m
  else if ← takeSign '{' then
    let options ← loop (fun (options : Option Options) => do
      if ← takeSign '}' then return (options, true)
      else if ← takeSign ';' then return (options, false)
      else if ← takeWord "option" then
        let o ← optionStatement
        return (addOption options o, false)
      else failExpected "'option', '\x7d' or ';'") none
    return { m with options }
  else failExpected "';' or '\x7b'"

def service : Reading ServiceDecl := do
  let name ← ident
  sign '{'
  loop (fun (s : ServiceDecl) => do
    if ← takeSign '}' then return (s, true)
    else if ← takeSign ';' then return (s, false)
    else if ← takeWord "option" then
      let o ← optionStatement
      return ({ s with options := addOption s.options o }, false)
    else if ← takeWord "rpc" then
      let m ← method
      return ({ s with methods := s.methods ++ [m] }, false)
    else failExpected "'rpc', '\x7d', 'option' or ';'") { name }

def dialect : Reading Dialect := do
  if ← takeWord "syntax" then
    sign '='
    let literal ← string "a string"
    let name := Utf8.toStringLossy literal.bytes
    let dialect ←
      if name == "proto2" then pure Dialect.proto2
      else if name == "proto3" then pure Dialect.proto3
      else fail ⟨literal.offset, .unknownDialect name⟩
    sign ';'
    return dialect
  else return .proto2

def importFile (f : FileDecl) : Reading FileDecl := do
  let isPublic ← takeWord "public"
  let isWeak ← if isPublic then pure false else takeWord "weak"
  let expected :=
    if isPublic || isWeak then "a string literal" else "a string literal, 'public' or 'weak'"
  let literal ← string expected
  let path ←
    match Utf8.toString? literal.bytes with
    | some path => pure path
    | none => fail ⟨literal.offset, .notUtf8⟩
  unless Names.isImport path do fail ⟨literal.offset, .invalidImportName⟩
  sign ';'
  let index := f.imports.length
  return { f with
    imports := f.imports ++ [path]
    publicImports := f.publicImports ++ if isPublic then [index] else []
    weakImports := f.weakImports ++ if isWeak then [index] else [] }

def package : Reading String := do
  let first ← ident
  let name ← nameTail (isSign ';') "'.' or ';'" first
  sign ';'
  return name

structure FileRead where
  decl : FileDecl
  packageOffset : Option Nat := none
  severalPackages : Bool := false

def statement (depth : Nat) (f : FileRead) : Reading (FileRead × Bool) := do
  let offset ← here
  let d := f.decl
  let body := messageBody d.dialect depth
  let extended (decl : FileDecl) : Reading (FileRead × Bool) := return ({ f with decl }, false)
  if (← token?).isNone then return (f, true)
  else if ← takeSign ';' then return (f, false)
  else if ← takeWord "import" then extended (← importFile d)
  else if ← takeWord "package" then
    let name ← package
    match f.packageOffset with
    | none =>
      return ({ f with decl := { d with package := some name }, packageOffset := some offset },
        false)
    | some _ => return ({ f with severalPackages := true }, false)
  else if ← takeWord "option" then
    let o ← optionStatement
    extended { d with options := addOption d.options o }
  else if ← takeWord "message" then
    let m ← named body
    extended { d with messages := d.messages ++ [m] }
  else if ← takeWord "enum" then
    let e ← enum
    extended { d with enums := d.enums ++ [e] }
  else if ← takeWord "service" then
    let s ← service
    extended { d with services := d.services ++ [s] }
  else if ← takeWord "extend" then
    let (fields, nested) ← extend body d.dialect
    extended { d with extensions := d.extensions ++ fields, messages := d.messages ++ nested }
  else
    failExpected "'enum', 'extend', 'import', 'message', 'option', 'service', 'package' or ';'"

/-- Reads a whole file. Several packages are a fault that counts before all those of meaning. -/
def file (name : String) : Reading FileDecl := do
  let dialect ← dialect
  let depth := (← left) + 1
  let f ← loop (statement depth) { decl := { name, dialect } }
  if f.severalPackages then fail ⟨f.packageOffset.getD 0, .severalPackages⟩
  return f.decl

end Grammar

/-- Reads the text of a schema file. The name becomes the name of the file, by which others import
it. -/
def parse (name source : String) : Except ParseError FileDecl :=
  let cs := source.toList
  let lexemes := Lexeme.scan cs
  match Grammar.file name ⟨lexemes.items, lexemes.fault, Lexeme.scan_named cs⟩ with
  | .ok (f, _, none) => .ok f
  | .ok (_, _, some fault) | .error fault => .error (fault.toError cs)

end RpcConsole.Proto

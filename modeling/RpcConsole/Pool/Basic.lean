import RpcConsole.Schema.TypeTable
import RpcConsole.Schema.Name

namespace RpcConsole

/-- What a name stands for, with what others need to know about it. -/
inductive SymbolKind where
  | package
  | message (extensionRanges : List NumberRange)
  | enum (values : List String)
  | service
  | method
  | field
  | oneof
  | enumValue
  | extension
  deriving Repr, DecidableEq

namespace SymbolKind

def isScope : SymbolKind → Bool
  | .package | .message _ | .enum _ | .service => true
  | _ => false

end SymbolKind

structure SchemaSymbol where
  name : String
  file : String
  kind : SymbolKind
  deriving Repr, DecidableEq

structure Pool where
  files : List FileDecl := []
  symbols : List SchemaSymbol := []
  types : TypeTable := {}
  deriving Inhabited

inductive LinkError where
  | definedTwice (name : String)
  | definedElsewhere (name file : String)
  | undefinedName (name : String)
  | shadowed (name full : String)
  | wrongKind (name expected : String)
  | camelCase (first second : String)
  | fieldNumberUsed (number : Int)
  | jsonNameUsed (name : String)
  | fieldNumber (number : Int)
  | fieldNumberReserved (number : Int) (range : NumberRange)
  | fieldNumberInExtensions (number : Int) (range : NumberRange)
  | noExtensionNumber (message : String) (number : Int)
  | defaultValue (value type : String)
  | emptyEnum
  | firstEnumValue
  | enumNumberUsed (number : Int)
  | enumNumberReserved (number : Int) (range : NumberRange)
  | optionUndefined (path : String)
  | optionValue (path type found : String)
  | optionNotMessage (path type : String)
  | optionExtendee (expected name extendee : String)
  | optionSet (path : String)
  deriving Repr, DecidableEq

def LinkError.message : LinkError → String
  | .definedTwice name => s!"name '{name}' is defined twice"
  | .definedElsewhere name file => s!"name '{name}' is already defined in file '{file}'"
  | .undefinedName name => s!"name '{name}' is not defined"
  | .shadowed name full => s!"'{name}' resolves to '{full}', which is not defined"
  | .wrongKind name expected => s!"'{name}' is not {expected}"
  | .camelCase first second =>
    s!"camel-case name of field '{first}' conflicts with field '{second}'"
  | .fieldNumberUsed number => s!"field number '{number}' is already used"
  | .jsonNameUsed name => s!"a field with JSON name '{name}' is already defined"
  | .fieldNumber number => s!"invalid field number '{number}'"
  | .fieldNumberReserved number range =>
    s!"field number '{number}' conflicts with reserved range '{range.first} to {range.last - 1}'"
  | .fieldNumberInExtensions number range =>
    s!"field number '{number}' conflicts with extension range '{range.first} to {range.last - 1}'"
  | .noExtensionNumber message number =>
    s!"message '{message}' does not define '{number}' as an extension number"
  | .defaultValue value type => s!"invalid default value '{value}' for type '{type}'"
  | .emptyEnum => "enums must have at least one value"
  | .firstEnumValue => "the first value for proto3 enums must be 0"
  | .enumNumberUsed number => s!"enum number '{number}' has already been used"
  | .enumNumberReserved number range =>
    s!"enum number '{number}' conflicts with reserved range '{range.first} to {range.last}'"
  | .optionUndefined path => s!"option field '{path}' is not defined"
  | .optionValue path type found =>
    s!"expected a value of type '{type}' for option '{path}', but found '{found}'"
  | .optionNotMessage path type =>
    s!"cannot set field for option '{path}' value of type '{type}'"
  | .optionExtendee expected name extendee =>
    s!"expected an extension to type '{expected}', but '{name}' extends '{extendee}'"
  | .optionSet path => s!"option field '{path}' has already been set"

namespace Pool

def file? (p : Pool) (name : String) : Option FileDecl :=
  p.files.find? (fun f => f.name == name)

def publicImports (f : FileDecl) : List String :=
  f.publicImports.filterMap (fun i => f.imports[i]?)

/-- Adds the public imports of a file to those that are seen. The walk goes on behind a file only
if that file was seen before. -/
def addPublic (p : Pool) : Nat → String → List String → List String
  | 0, _, seen => seen
  | fuel + 1, name, seen =>
    match p.file? name with
    | none => seen
    | some f =>
      (publicImports f).foldl
        (fun seen next => if seen.contains next then addPublic p fuel next seen else seen ++ [next])
        seen

def visible (p : Pool) (f : FileDecl) : List String :=
  f.imports.foldl (fun seen next => p.addPublic p.files.length next seen) (f.name :: f.imports)

end Pool
end RpcConsole

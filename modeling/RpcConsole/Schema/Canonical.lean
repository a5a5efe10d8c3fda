import RpcConsole.Json.Value
import RpcConsole.Schema.StandardOptions
import RpcConsole.Text.Base64
import RpcConsole.Text.Utf8

namespace RpcConsole

namespace Canonical

def member (key : String) (v : Option Json) : List (String × Json) :=
  match v with
  | some v => [(key, v)]
  | none => []

def listMember (key : String) (items : List Json) : List (String × Json) :=
  if items.isEmpty then [] else [(key, .arr items)]

def flagMember (key : String) (b : Bool) : List (String × Json) :=
  if b then [(key, .bool true)] else []

def double (x : Binary64) : Json :=
  match x.meaning with
  | .infinite negative => .str (if negative then "-Infinity" else "Infinity")
  | .nan => .str "NaN"
  | .finite .. => .double x

end Canonical

open Canonical

namespace Label

def canonical : Label → String
  | .optional => "LABEL_OPTIONAL"
  | .required => "LABEL_REQUIRED"
  | .repeated => "LABEL_REPEATED"

end Label

namespace TypeRef

def members : TypeRef → List (String × Json)
  | .scalar s => [("type", .str ("TYPE_" ++ s.keyword.toUpper))]
  | .group name => [("type", .str "TYPE_GROUP"), ("typeName", .str name)]
  | .message name => [("type", .str "TYPE_MESSAGE"), ("typeName", .str name)]
  | .enum name => [("type", .str "TYPE_ENUM"), ("typeName", .str name)]
  | .named name => [("typeName", .str name)]

end TypeRef

namespace RawOption

def valueMember : RawValue → String × Json
  | .identifier s => ("identifierValue", .str s)
  | .positive n => ("positiveIntValue", .str (toString n))
  | .negative n => ("negativeIntValue", .str (toString n))
  | .double x => ("doubleValue", double x)
  | .bytes bs => ("stringValue", .str (Base64.encode bs))
  | .aggregate s => ("aggregateValue", .str s)

def toJson (o : RawOption) : Json :=
  .obj [("name", .arr (o.name.map fun p =>
      .obj [("namePart", .str p.name), ("isExtension", .bool p.isExtension)])),
    valueMember o.value]

end RawOption

namespace Options

/-- The JSON value of a setting. Enums are shown by name. -/
def settingJson (f : Field) (v : Value) : Option Json :=
  match v with
  | .bool b => some (.bool b)
  | .str s => some (.str s)
  | .enum n =>
    let names := StandardOptions.enumTypes.filterMap fun e =>
      if f.kind == .enum e.name then
        (e.values.find? fun x => x.2 == n).map fun x => x.1
      else none
    names.head?.map Json.str
  | _ => none

def toJson (t : StandardOptions.Target) (o : Options) : Json :=
  let settings := (StandardOptions.ownFields t).flatMap fun f =>
    member f.jsonName ((o.settings.find? f.number).bind (settingJson f))
  .obj (settings ++ listMember "uninterpretedOption" (o.raw.map RawOption.toJson))

def members (t : StandardOptions.Target) (o : Option Options) : List (String × Json) :=
  member "options" (o.map (toJson t))

end Options

namespace FieldDecl

def toJson (f : FieldDecl) : Json :=
  .obj ([("name", .str f.name), ("number", .int f.number), ("label", .str f.label.canonical)] ++
    f.type.members ++
    member "extendee" (f.extendee.map .str) ++
    member "defaultValue" (f.defaultText.map .str) ++
    member "oneofIndex" (f.oneofIndex.map fun n => .int n) ++
    member "jsonName" (f.jsonName.map .str) ++
    Options.members .field f.options ++
    flagMember "proto3Optional" f.isProto3Optional)

end FieldDecl

namespace NumberRange

def toJson (r : NumberRange) : Json :=
  .obj [("start", .int r.first), ("end", .int r.last)]

end NumberRange

namespace EnumDecl

def toJson (e : EnumDecl) : Json :=
  .obj ([("name", .str e.name)] ++
    listMember "value" (e.values.map fun v =>
      .obj ([("name", .str v.name), ("number", .int v.number)] ++
        Options.members .enumValue v.options)) ++
    Options.members .enum e.options ++
    listMember "reservedRange" (e.reservedRanges.map NumberRange.toJson) ++
    listMember "reservedName" (e.reservedNames.map .str))

end EnumDecl

namespace MessageDecl

mutual

def toJson : MessageDecl → Json
  | ⟨name, fields, extensions, nested, enums, extensionRanges, oneofs, reservedRanges,
      reservedNames, options⟩ =>
    .obj ([("name", .str name)] ++
      listMember "field" (fields.map FieldDecl.toJson) ++
      listMember "extension" (extensions.map FieldDecl.toJson) ++
      listMember "nestedType" (listJson nested) ++
      listMember "enumType" (enums.map EnumDecl.toJson) ++
      listMember "extensionRange" (extensionRanges.map fun r =>
        .obj ([("start", .int r.range.first), ("end", .int r.range.last)] ++
          Options.members .extensionRange r.options)) ++
      listMember "oneofDecl" (oneofs.map fun o =>
        .obj ([("name", .str o.name)] ++ Options.members .oneof o.options)) ++
      Options.members .message options ++
      listMember "reservedRange" (reservedRanges.map NumberRange.toJson) ++
      listMember "reservedName" (reservedNames.map .str))

def listJson : List MessageDecl → List Json
  | [] => []
  | m :: ms => toJson m :: listJson ms

end

end MessageDecl

namespace ServiceDecl

def methodJson (m : MethodDecl) : Json :=
  .obj ([("name", .str m.name), ("inputType", .str m.input), ("outputType", .str m.output)] ++
    Options.members .method m.options ++
    flagMember "clientStreaming" m.clientStreaming ++
    flagMember "serverStreaming" m.serverStreaming)

def toJson (s : ServiceDecl) : Json :=
  .obj ([("name", .str s.name)] ++
    listMember "method" (s.methods.map methodJson) ++
    Options.members .service s.options)

end ServiceDecl

namespace FileDecl

def toJson (f : FileDecl) : Json :=
  .obj ([("name", .str f.name)] ++
    member "package" (f.package.map .str) ++
    listMember "dependency" (f.imports.map .str) ++
    listMember "publicDependency" (f.publicImports.map fun (n : Nat) => .int n) ++
    listMember "weakDependency" (f.weakImports.map fun (n : Nat) => .int n) ++
    listMember "messageType" (f.messages.map MessageDecl.toJson) ++
    listMember "enumType" (f.enums.map EnumDecl.toJson) ++
    listMember "service" (f.services.map ServiceDecl.toJson) ++
    listMember "extension" (f.extensions.map FieldDecl.toJson) ++
    Options.members .file f.options ++
    (match f.dialect with
     | .proto2 => []
     | .proto3 => [("syntax", .str "proto3")]))

end FileDecl
end RpcConsole

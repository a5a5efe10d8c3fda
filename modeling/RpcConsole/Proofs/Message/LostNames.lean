import RpcConsole.Proofs.Message.AsWritten
import RpcConsole.Proofs.Message.Omitted

namespace RpcConsole

namespace EnumType

variable {e : EnumType} {a b : String}

/-- An enum has a name in no case. -/
def isUnknown (e : EnumType) (name : String) : Bool :=
  e.values.all fun v => !sameName v.1 name

theorem isUnknown_iff : e.isUnknown a = true ↔ ∀ v ∈ e.values, sameName v.1 a = false := by
  simp [isUnknown]

/-- The case of a name does not count. -/
theorem isUnknown_congr (h : sameName a b = true) : e.isUnknown a = e.isUnknown b := by
  have hsame (name : String) : sameName name a = sameName name b := by
    simp only [sameName, beq_iff_eq] at h
    simp only [sameName, h]
  simp only [isUnknown, hsame]

theorem sameName_spelling (e : EnumType) (a : String) : sameName (e.spelling a) a = true := by
  unfold spelling
  split
  · exact sameName_self a
  · split
    · rename_i v hv
      simpa using List.find?_some hv
    · exact sameName_self a

end EnumType

open Json (Lost)

variable {t : TypeTable} {place : Option Shape}

/-- The spelling takes a value for an enum value. -/
def Shape.isEnumPlace : Option Shape → Bool
  | some (.single (.enum _)) => true
  | _ => false

/-- The spelling changes a string in the case of letters, and only where it takes it for an enum
value. -/
theorem Json.spelledAt_str (t : TypeTable) (place : Option Shape) (s : String) :
    ∃ s', (str s).spelledAt t place = .str s' ∧ EnumType.sameName s' s = true ∧
      (Shape.isEnumPlace place = false → s' = s) := by
  have hself := EnumType.sameName_self s
  cases place with
  | none => exact ⟨s, rfl, hself, fun _ => rfl⟩
  | some shape =>
    cases shape with
    | list | map | torn => exact ⟨s, by simp [spelledAt, spelled], hself, fun _ => rfl⟩
    | single kind =>
      cases kind with
      | scalar | message => exact ⟨s, by simp [spelledAt, spelled], hself, fun _ => rfl⟩
      | enum name =>
        cases he : t.enum? name with
        | none => exact ⟨s, by simp [spelledAt, spelled, he], hself, fun _ => rfl⟩
        | some e =>
          refine ⟨e.spelling s, by simp [spelledAt, spelled, he], e.sameName_spelling s, ?_⟩
          simp [Shape.isEnumPlace]

namespace TypeTable

/-- The names that their enum has in no case, wherever they stand. -/
def unknownNames (t : TypeTable) : Lost := fun _ enum name =>
  (t.enum? enum).all fun e => e.isUnknown name

/-- The names that are not declared as they are written, where the spelling takes them for no enum
value. -/
def unreachedNames (t : TypeTable) : Lost := fun place enum name =>
  !Shape.isEnumPlace place && (t.enum? enum).all fun e => (e.number? name).isNone

end TypeTable

theorem FromJson.enum_str {name s : String}
    (h : ∀ e, t.enum? name = some e → e.number? s = none) : enum t name (.str s) = .ok none := by
  cases he : t.enum? name with
  | none => simp [enum, he]
  | some e => simp [enum, he, h e he]

theorem TypeTable.unknownNames_unread : FromJson.Unread t t.unknownNames := by
  intro place name s h
  obtain ⟨s', hs', hsame, -⟩ := Json.spelledAt_str t place s
  rw [hs']
  refine FromJson.enum_str fun e he => ?_
  have hu : e.isUnknown s = true := by simpa [unknownNames, he] using h
  rw [← EnumType.isUnknown_congr hsame, EnumType.isUnknown_iff] at hu
  exact (EnumType.spelling_unknown hu).2

theorem TypeTable.unreachedNames_unread : FromJson.Unread t t.unreachedNames := by
  intro place name s h
  obtain ⟨hplace, hnames⟩ := Bool.and_eq_true_iff.mp h
  obtain ⟨s', hs', -, hkept⟩ := Json.spelledAt_str t place s
  obtain rfl := hkept (by simpa using hplace)
  rw [hs']
  refine FromJson.enum_str fun e he => ?_
  simpa [he] using hnames

namespace Message

variable {name text text' : String} {j : Json}

/-- A text in which names stand where enum values are wanted that the enum has in no case, in a
field, a list or a map at any depth, is read as the text without them. -/
theorem fromText_unknown (hj : Json.read text = .ok j)
    (hj' : Json.read text' = .ok (j.withoutLost t t.unknownNames name)) :
    fromText t name text = fromText t name text' :=
  fromText_without t.unknownNames_unread hj hj'

/-- A text in which names stand under the keys of extensions or in messages inside one of any type,
or elsewhere where the spelling does not go, that are not declared as they are written, is read as
the text without them. -/
theorem fromText_unreached (hj : Json.read text = .ok j)
    (hj' : Json.read text' = .ok (j.withoutLost t t.unreachedNames name)) :
    fromText t name text = fromText t name text' :=
  fromText_without t.unreachedNames_unread hj hj'

/-- An enum in a field, a list and a map. -/
def positionsSource : String :=
  "syntax=\"proto3\";enum E{A=0;B=1;}message M{E e=1;repeated E l=2;map<string,E> m=3;}"

/-- A list and a map, with more members before and more items and entries at the front. -/
def positionsJson (members : List (String × Json)) (items : List Json)
    (entries : List (String × Json)) : Json :=
  .obj (members ++ [("l", .arr (items ++ [.str "B"])), ("m", .obj (entries ++ [("k", .str "B")]))])

theorem fromText_unknown_positions :
    ∃ s m, Schema.load (.ofFile "a.proto" positionsSource) "/a.proto" [] = .ok s ∧
      fromText s.types "M" (positionsJson [] [] []).pretty = .ok m ∧
      fromText s.types "M"
        (positionsJson [("e", .str "X")] [.str "X"] [("j", .str "X")]).pretty = .ok m := by
  have h : ∃ s ∈ (Schema.load (.ofFile "a.proto" positionsSource) "/a.proto" []).toOption,
      ∃ type ∈ s.types.message? "M", ∃ enum ∈ s.types.enum? "E",
        enum.isUnknown "X" = true ∧ enum.isUnknown "B" = false ∧
        (∃ f ∈ FromJson.fieldFor? s.types type "e", s.types.shape f = .single (.enum "E")) ∧
        (∃ f ∈ FromJson.fieldFor? s.types type "l", s.types.shape f = .list (.enum "E")) ∧
        (∃ f ∈ FromJson.fieldFor? s.types type "m",
          s.types.shape f = .map (.scalar .string) (.enum "E")) ∧
        s.types.memberPlace (some (.single (.message "M"))) "e" = some (.single (.enum "E")) ∧
        s.types.memberPlace (some (.single (.message "M"))) "m" =
          some (.map (.scalar .string) (.enum "E")) ∧
        (fromText s.types "M" (positionsJson [] [] []).pretty).toOption.isSome = true := by
    decide +kernel
  obtain ⟨s, hs, type, ht, enum, he, hx, hb, ⟨f, hf, hfs⟩, ⟨l, hl, hls⟩, ⟨m, hm, hms⟩,
    hfplace, hmplace, hok⟩ := h
  have hlost (place : Option Shape) : s.types.unknownNames place "E" "X" = true := by
    simp [TypeTable.unknownNames, Option.mem_def.mp he, hx]
  have hkept (place : Option Shape) : s.types.unknownNames place "E" "B" = false := by
    simp [TypeTable.unknownNames, Option.mem_def.mp he, hb]
  have hread : Json.read (positionsJson [("e", .str "X")] [.str "X"] [("j", .str "X")]).pretty =
      .ok (positionsJson [("e", .str "X")] [.str "X"] [("j", .str "X")]) :=
    Json.read_pretty (by simp [positionsJson, Json.IsPlain, Json.ArePlain, Json.ArePlainMembers])
      (by decide)
  have hread' : Json.read (positionsJson [] [] []).pretty = .ok (positionsJson [] [] []) :=
    Json.read_pretty (by simp [positionsJson, Json.IsPlain, Json.ArePlain, Json.ArePlainMembers])
      (by decide)
  obtain ⟨result, hresult⟩ := Option.isSome_iff_exists.mp hok
  refine ⟨s, result, ok_of_mem hs, ok_of_mem hresult, ?_⟩
  rw [← ok_of_mem hresult]
  refine fromText_unknown hread ?_
  have hordinary : WellKnown.ofName? "M" = none := by decide
  have hkey : (FromJson.mapKey (.scalar .string) "j").isOk = true := rfl
  have hkplace (key : String) :
      s.types.memberPlace (some (.map (.scalar .string) (.enum "E"))) key =
        some (.single (.enum "E")) := rfl
  rw [hread']
  simp [positionsJson, Json.withoutLost, Json.without, Json.withoutMembers, Json.withoutItems,
    Json.withoutEntries, Json.isLost, hordinary, Option.mem_def.mp ht, Option.mem_def.mp hf,
    Option.mem_def.mp hl, Option.mem_def.mp hm, hfs, hls, hms, hfplace, hmplace, hkplace,
    hlost, hkept, hkey]

end Message

/-- Each string that is read as an enum name is one in some case. -/
def Json.allKnown (t : TypeTable) (name : String) (j : Json) : Bool :=
  j.namesAll t (FromJson.fieldFor? t) (fun _ e s => !e.isUnknown s) false (.single (.message name))

namespace Message

/-- Texts with unknown enum names are read as messages with the given bytes, though no type has a
form of text of its own. -/
def Swallowed (source name : String) (runs : List (String × List UInt8)) : Prop :=
  ∃ s, Schema.load (.ofFile "a.proto" source) "/a.proto" [] = .ok s ∧
    (∀ type ∈ s.types.messages, WellKnown.ofName? type.name = none) ∧
    ∀ run ∈ runs, ∃ j m, Json.read run.1 = .ok j ∧ j.allKnown s.types name = false ∧
      fromText s.types name run.1 = .ok m ∧ m.toWire s.types name = some run.2

theorem Swallowed.of_runs {source name : String} {runs : List (String × List UInt8)}
    (h : ∃ s ∈ (Schema.load (.ofFile "a.proto" source) "/a.proto" []).toOption,
      (∀ type ∈ s.types.messages, WellKnown.ofName? type.name = none) ∧
        ∀ run ∈ runs, ∃ j ∈ (Json.read run.1).toOption, j.allKnown s.types name = false ∧
          ∃ m ∈ (fromText s.types name run.1).toOption, m.toWire s.types name = some run.2) :
    Swallowed source name runs := by
  obtain ⟨s, hs, hordinary, h⟩ := h
  refine ⟨s, ok_of_mem hs, hordinary, fun run hrun => ?_⟩
  obtain ⟨j, hj, hunknown, m, hm, hwire⟩ := h run hrun
  exact ⟨j, m, ok_of_mem hj, hunknown, ok_of_mem hm, hwire⟩

/-- An unknown name leaves the field, the item or the entry out. -/
theorem unknown_swallowed : Swallowed positionsSource "M"
    [("\x7b\"e\":\"X\"\x7d", []),
      ("\x7b\"l\":[\"B\",\"X\",\"A\"]\x7d", [18, 2, 1, 0]),
      ("\x7b\"m\":\x7b\"k\":\"X\",\"l\":\"B\"\x7d\x7d", [26, 5, 10, 1, 108, 16, 1])] :=
  .of_runs (by decide +kernel)

/-- An enum in extensions, one of them repeated. -/
def extensionSource : String :=
  "enum E{A=0;B=1;}message M{extensions 2,3;optional M m=1;}" ++
    "extend M{optional E x=2;repeated E y=3;}"

/-- A list in an extension of a message inside another one, with more members before and more items
at the front. -/
def extensionJson (members : List (String × Json)) (items : List Json) : Json :=
  .obj [("m", .obj (members ++ [("[y]", .arr (items ++ [.str "B"]))]))]

theorem fromText_unreached_extensions :
    ∃ s m, Schema.load (.ofFile "a.proto" extensionSource) "/a.proto" [] = .ok s ∧
      fromText s.types "M" (extensionJson [] []).pretty = .ok m ∧
      fromText s.types "M" (extensionJson [("[x]", .str "b")] [.str "a"]).pretty = .ok m := by
  have h : ∃ s ∈ (Schema.load (.ofFile "a.proto" extensionSource) "/a.proto" []).toOption,
      ∃ type ∈ s.types.message? "M", ∃ enum ∈ s.types.enum? "E",
        enum.number? "a" = none ∧ enum.number? "b" = none ∧ (enum.number? "B").isSome = true ∧
        (∃ f ∈ FromJson.fieldFor? s.types type "m", s.types.shape f = .single (.message "M")) ∧
        (∃ f ∈ FromJson.fieldFor? s.types type "[x]", s.types.shape f = .single (.enum "E")) ∧
        (∃ f ∈ FromJson.fieldFor? s.types type "[y]", s.types.shape f = .list (.enum "E")) ∧
        (∃ f ∈ type.fieldForSpelling? "m", s.types.shape f = .single (.message "M")) ∧
        (type.fieldForSpelling? "[x]").isNone ∧ (type.fieldForSpelling? "[y]").isNone ∧
        (fromText s.types "M" (extensionJson [] []).pretty).toOption.isSome = true := by
    decide +kernel
  obtain ⟨s, hs, type, ht, enum, he, ha, hb, hd, ⟨m, hm, hms⟩, ⟨x, hx, hxs⟩, ⟨y, hy, hys⟩,
    ⟨g, hg, hgs⟩, hgx, hgy, hok⟩ := h
  -- the spelling goes into the inner message, and there past the keys of extensions
  have hm' : s.types.memberPlace (some (.single (.message "M"))) "m" =
      some (.single (.message "M")) := by
    simp [TypeTable.memberPlace, Option.mem_def.mp ht, Option.mem_def.mp hg, hgs]
  have hx' := TypeTable.memberPlace_eq_none ht (Option.isNone_iff_eq_none.mp hgx)
  have hy' := TypeTable.memberPlace_eq_none ht (Option.isNone_iff_eq_none.mp hgy)
  have hlost {name : String} (h : enum.number? name = none) :
      s.types.unreachedNames none "E" name = true := by
    simp [TypeTable.unreachedNames, Shape.isEnumPlace, Option.mem_def.mp he, h]
  have hkept : s.types.unreachedNames none "E" "B" = false := by
    simpa [TypeTable.unreachedNames, Shape.isEnumPlace, Option.mem_def.mp he] using hd
  have hread : Json.read (extensionJson [("[x]", .str "b")] [.str "a"]).pretty =
      .ok (extensionJson [("[x]", .str "b")] [.str "a"]) :=
    Json.read_pretty (by simp [extensionJson, Json.IsPlain, Json.ArePlain, Json.ArePlainMembers])
      (by decide)
  have hread' : Json.read (extensionJson [] []).pretty = .ok (extensionJson [] []) :=
    Json.read_pretty (by simp [extensionJson, Json.IsPlain, Json.ArePlain, Json.ArePlainMembers])
      (by decide)
  obtain ⟨result, hresult⟩ := Option.isSome_iff_exists.mp hok
  refine ⟨s, result, ok_of_mem hs, ok_of_mem hresult, ?_⟩
  rw [← ok_of_mem hresult]
  refine fromText_unreached hread ?_
  have hordinary : WellKnown.ofName? "M" = none := by decide
  rw [hread']
  simp [extensionJson, Json.withoutLost, Json.without, Json.withoutMembers, Json.withoutItems,
    Json.isLost, hordinary, Option.mem_def.mp ht, Option.mem_def.mp hm, Option.mem_def.mp hx,
    Option.mem_def.mp hy, hms, hxs, hys, hm', hx', hy', hlost ha, hlost hb, hkept]

/-- Two texts that differ in the case of letters only are read as different messages. -/
def CaseCounts (source name : String) (pairs : List (String × String)) : Prop :=
  ∃ s, Schema.load (.ofFile "a.proto" source) "/a.proto" [] = .ok s ∧
    (∀ e ∈ s.types.enums, e.Apart) ∧
    ∀ pair ∈ pairs, EnumType.sameName pair.1 pair.2 = true ∧
      ∃ m m', fromText s.types name pair.1 = .ok m ∧ fromText s.types name pair.2 = .ok m' ∧
        m.toWire s.types name ≠ m'.toWire s.types name

theorem CaseCounts.of_runs {source name : String} {pairs : List (String × String)}
    (h : ∃ s ∈ (Schema.load (.ofFile "a.proto" source) "/a.proto" []).toOption,
      (∀ e ∈ s.types.enums, e.Apart) ∧
        ∀ pair ∈ pairs, EnumType.sameName pair.1 pair.2 = true ∧
          ∃ m ∈ (fromText s.types name pair.1).toOption,
            ∃ m' ∈ (fromText s.types name pair.2).toOption,
              m.toWire s.types name ≠ m'.toWire s.types name) :
    CaseCounts source name pairs := by
  obtain ⟨s, hs, hapart, h⟩ := h
  refine ⟨s, ok_of_mem hs, hapart, fun pair hpair => ?_⟩
  obtain ⟨hsame, m, hm, m', hm', hne⟩ := h pair hpair
  exact ⟨hsame, m, m', ok_of_mem hm, ok_of_mem hm', hne⟩

/-- An enum in a message inside one of any type. -/
def anySource : String :=
  "package google.protobuf;enum E{B=1;}message P{optional E e=1;}" ++
    "message Any{optional string t=1;optional bytes v=2;}"

/-- A name in another case is left out of an extension, of a list in an extension, of an extension
of a message inside another one, and of a message inside one of any type. -/
theorem case_counts_unreached :
    CaseCounts extensionSource "M"
      [("\x7b\"[x]\":\"b\"\x7d", "\x7b\"[x]\":\"B\"\x7d"),
        ("\x7b\"[y]\":[\"a\",\"B\"]\x7d", "\x7b\"[y]\":[\"A\",\"B\"]\x7d"),
        ("\x7b\"m\":\x7b\"[x]\":\"b\"\x7d\x7d", "\x7b\"m\":\x7b\"[x]\":\"B\"\x7d\x7d")] ∧
    CaseCounts anySource "google.protobuf.Any"
      [("\x7b\"@type\":\"x/google.protobuf.P\",\"e\":\"b\"\x7d",
        "\x7b\"@type\":\"x/google.protobuf.P\",\"e\":\"B\"\x7d")] :=
  ⟨.of_runs (by decide +kernel), .of_runs (by decide +kernel)⟩

end Message
end RpcConsole

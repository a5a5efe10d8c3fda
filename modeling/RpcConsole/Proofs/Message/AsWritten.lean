import RpcConsole.Message.Convert
import RpcConsole.Proofs.Load.Types
import RpcConsole.Proofs.Message.Spelling

namespace RpcConsole

namespace Json

variable (t : TypeTable) (field : MessageType → String → Option Field)
  (test : Bool → EnumType → String → Bool)

mutual

/-- Whether all strings pass a test that stand where an enum name is wanted if a key means the field
that `field` says. The test is told whether the string is inside a value with a form of text of its
own. -/
def namesAll (inside : Bool) (shape : Shape) : Json → Bool
  | .str s =>
    match shape with
    | .single kind => (t.enumOf? kind).all fun e => test inside e s
    | _ => true
  | .arr vs =>
    match shape with
    | .list kind => itemsNamesAll inside kind vs
    | _ => true
  | .obj ms =>
    match shape with
    | .map _ kind | .torn _ (some kind) => entriesNamesAll inside kind ms
    | .single (.message name) =>
      match t.message? name with
      | some type => membersNamesAll (inside || (WellKnown.ofName? name).isSome) type ms
      | none => true
    | _ => true
  | _ => true

def itemsNamesAll (inside : Bool) (kind : Kind) : List Json → Bool
  | [] => true
  | v :: vs => namesAll inside (.single kind) v && itemsNamesAll inside kind vs

def entriesNamesAll (inside : Bool) (kind : Kind) : List (String × Json) → Bool
  | [] => true
  | (_, v) :: rest => namesAll inside (.single kind) v && entriesNamesAll inside kind rest

def membersNamesAll (inside : Bool) (type : MessageType) : List (String × Json) → Bool
  | [] => true
  | (k, v) :: rest =>
    (match field type k with
      | some f => namesAll inside (t.shape f) v
      | none => true) && membersNamesAll inside type rest

end

end Json

/-- No type that a kind leads to has a JSON name that is the declared name of another field. -/
def Kind.Unmixed (t : TypeTable) (kind : Kind) : Prop :=
  ∀ name, kind = .message name → t.Throughout MessageType.Unmixed name

/-- A name is declared, or it stands inside a value with a form of text of its own. -/
def EnumType.isExact (inside : Bool) (e : EnumType) (name : String) : Bool :=
  inside || (e.number? name).isSome

/-- No other spelling of a string is declared, if it stands inside such a value. -/
def EnumType.isSpared (inside : Bool) (e : EnumType) (name : String) : Bool :=
  !inside || e.spelling name == name

theorem EnumType.spelling_self {inside : Bool} {e : EnumType} {name : String}
    (h : e.isExact inside name = true) (hs : e.isSpared inside name = true) :
    e.spelling name = name := by
  cases inside with
  | true => simpa [isSpared] using hs
  | false =>
    exact spelling_declared (by simpa [isExact] using h)

namespace Json

variable {t : TypeTable}

/-- Each string that is read as an enum name is a declared name. -/
def isExact (t : TypeTable) (name : String) (j : Json) : Bool :=
  j.namesAll t (FromJson.fieldFor? t) EnumType.isExact false (.single (.message name))

/-- In a value with a form of text of its own, no string is a declared name but for its case where
the definition of its type has an enum. -/
def isSpared (t : TypeTable) (name : String) (j : Json) : Bool :=
  j.namesAll t MessageType.fieldForSpelling? EnumType.isSpared false (.single (.message name))

mutual

theorem spelled_self (hs : t.Sound) {inside : Bool} {shape : Shape} (hu : shape.item.Unmixed t) :
    ∀ j : Json, j.namesAll t (FromJson.fieldFor? t) EnumType.isExact inside shape = true →
      j.namesAll t MessageType.fieldForSpelling? EnumType.isSpared inside shape = true →
      j.spelled t shape = j
  | .str s, h, h' => by
    unfold namesAll at h h'
    unfold spelled
    split
    · rename_i name
      cases he : t.enum? name with
      | none => simp
      | some e =>
        simp only [TypeTable.enumOf?, he, Option.all_some] at h h'
        simp [EnumType.spelling_self h h']
    · rfl
  | .arr vs, h, h' => by
    unfold namesAll at h h'
    unfold spelled
    split
    · exact congrArg arr (spelledItems_self hs hu vs h h')
    · rfl
  | .obj ms, h, h' => by
    unfold namesAll at h h'
    unfold spelled
    split
    · exact congrArg obj (spelledEntries_self hs hu ms h h')
    · exact congrArg obj (spelledEntries_self hs hu ms h h')
    · rename_i name
      cases ht : t.message? name with
      | none => simp
      | some type =>
        simp only [ht] at h h'
        have hun := hu name rfl
        exact congrArg obj (spelledMembers_exact hs (TypeTable.message?_mem ht) (hun.own ht)
          (fun f hf _ hi => hun.item ht hf hi) ms h h')
    · rfl
  | .null, _, _ | .bool _, _, _ | .int _, _, _ | .double _, _, _ | .single _, _, _ => by
    simp [spelled]

theorem spelledItems_self (hs : t.Sound) {inside : Bool} {kind : Kind}
    (hu : (Shape.single kind).item.Unmixed t) :
    ∀ vs : List Json,
      itemsNamesAll t (FromJson.fieldFor? t) EnumType.isExact inside kind vs = true →
      itemsNamesAll t MessageType.fieldForSpelling? EnumType.isSpared inside kind vs = true →
      spelledItems t kind vs = vs
  | [], _, _ => rfl
  | v :: vs, h, h' => by
    simp only [itemsNamesAll, Bool.and_eq_true] at h h'
    rw [spelledItems, spelled_self hs hu v h.1 h'.1, spelledItems_self hs hu vs h.2 h'.2]

theorem spelledEntries_self (hs : t.Sound) {inside : Bool} {kind : Kind}
    (hu : (Shape.single kind).item.Unmixed t) :
    ∀ ms : List (String × Json),
      entriesNamesAll t (FromJson.fieldFor? t) EnumType.isExact inside kind ms = true →
      entriesNamesAll t MessageType.fieldForSpelling? EnumType.isSpared inside kind ms = true →
      spelledEntries t kind ms = ms
  | [], _, _ => rfl
  | (k, v) :: ms, h, h' => by
    simp only [entriesNamesAll, Bool.and_eq_true] at h h'
    rw [spelledEntries, spelled_self hs hu v h.1 h'.1, spelledEntries_self hs hu ms h.2 h'.2]

/-- A key that the spelling takes for a field is taken for the same field where it is read. -/
theorem spelledMembers_exact (hs : t.Sound) {inside : Bool} {type : MessageType}
    (ht : type ∈ t.messages) (hun : type.Unmixed)
    (hu : ∀ f ∈ type.fields, (t.shape f).item.Unmixed t) :
    ∀ ms : List (String × Json),
      membersNamesAll t (FromJson.fieldFor? t) EnumType.isExact inside type ms = true →
      membersNamesAll t MessageType.fieldForSpelling? EnumType.isSpared inside type ms = true →
      spelledMembers t type ms = ms
  | [], _, _ => rfl
  | (k, v) :: ms, h, h' => by
    simp only [membersNamesAll, Bool.and_eq_true] at h h'
    have hrest := spelledMembers_exact hs ht hun hu ms h.2 h'.2
    rw [spelledMembers]
    cases hf : type.fieldForSpelling? k with
    | none => simp only [hrest]
    | some f =>
      have hmeans := MessageType.means_of_fieldForSpelling? hf
      have hfor := hmeans.fieldFor? (t := t) hun (hs.numbers type ht)
      rw [hfor] at h
      rw [hf] at h'
      simp only [spelled_self hs (hu f hmeans.mem) v h.1 h'.1, hrest]

end

end Json

namespace Message

/-- Reads a message from text with all strings as they are written. -/
def asWritten (t : TypeTable) (name text : String) : Except MessageError Message :=
  match Json.read text with
  | .error e => .error (.invalidText (.malformed e))
  | .ok j =>
    match ofJson t name j with
    | .error e => .error (.ofText e)
    | .ok m => .ok (m.clearDefaults t name)

/-- Whether the program stops while it brings the enum names in a text to their spelling. -/
def stopsAtNames (t : TypeTable) (name text : String) : Bool :=
  match Json.read text with
  | .error _ => false
  | .ok j => j.stops t (.single (.message name))

/-- A text is read with all strings as they are written if its enum names are spelled as they are
declared, no JSON name is the declared name of another field, and no value with a form of text of
its own has something that looks like an enum name in another case: each string and each key reaches
the reading of the message as it stands in the text, unless the program stops at a map whose entries
have no value. -/
theorem fromText_asWritten {d : Disk} {root : String} {importPath : ImportPath} {s : Schema}
    {name text : String} (hload : Schema.load d root importPath = .ok s)
    (hu : s.types.Throughout MessageType.Unmixed name)
    (hnames : ∀ j, Json.read text = .ok j →
      j.isExact s.types name = true ∧ j.isSpared s.types name = true) :
    (∀ j, Json.read text = .ok j → j.spelled s.types (.single (.message name)) = j) ∧
      fromText s.types name text =
        if stopsAtNames s.types name text then .error .stopped
        else asWritten s.types name text := by
  have hself : ∀ j, Json.read text = .ok j → j.spelled s.types (.single (.message name)) = j := by
    intro j hj
    obtain ⟨hexact, hspared⟩ := hnames j hj
    apply Json.spelled_self (Schema.load_sound hload) _ j hexact hspared
    rintro _ ⟨⟩
    exact hu
  refine ⟨hself, ?_⟩
  unfold fromText asWritten stopsAtNames
  cases hj : Json.read text with
  | error e => rfl
  | ok j => cases hm : ofJson s.types name j <;> simp only [hself j hj, hm]

/-- A type with a form of text of its own, and a message that holds one beside an enum value. -/
def specialSource : String :=
  "package google.protobuf;enum E{A=0;}message Value{optional E e=1;}" ++
    "message M{optional E e=1;optional Value v=2;}"

/-- An enum name as it is declared, and a string that is another case of it. -/
def specialText : String :=
  "\x7b\"e\":\"A\",\"v\":\x7b\"x\":\"a\"\x7d\x7d"

theorem fromText_asWritten_special :
    ∃ s m, Schema.load (.ofFile "a.proto" specialSource) "/a.proto" [] = .ok s ∧
      asWritten s.types "google.protobuf.M" specialText = .ok m ∧
      fromText s.types "google.protobuf.M" specialText = .ok m := by
  have h : ∃ s ∈ (Schema.load (.ofFile "a.proto" specialSource) "/a.proto" []).toOption,
      (∀ type ∈ s.types.messages, type.Unmixed) ∧
      (∃ m ∈ (asWritten s.types "google.protobuf.M" specialText).toOption,
        m.toWire s.types "google.protobuf.M" ≠ some []) ∧
      stopsAtNames s.types "google.protobuf.M" specialText = false ∧
      ∃ j ∈ (Json.read specialText).toOption,
        j.isExact s.types "google.protobuf.M" = true ∧
          j.isSpared s.types "google.protobuf.M" = true := by
    decide +kernel
  obtain ⟨s, hs, hu, ⟨m, hm, -⟩, hstops, j, hj, hnames⟩ := h
  have hwritten := ok_of_mem hm
  have hsame := (fromText_asWritten (ok_of_mem hs) (.all hu) fun j' hj' => by
    cases hj'.symm.trans (ok_of_mem hj)
    exact hnames).2
  rw [hstops] at hsame
  exact ⟨s, m, ok_of_mem hs, hwritten, hsame.trans hwritten⟩

/-- A text in which all that is read as an enum name is declared is not read as it is written. -/
def Respelled (source name text : String) : Prop :=
  ∃ s j m m', Schema.load (.ofFile "a.proto" source) "/a.proto" [] = .ok s ∧
    Json.read text = .ok j ∧ j.isExact s.types name = true ∧ fromText s.types name text = .ok m ∧
    asWritten s.types name text = .ok m' ∧ m.toWire s.types name ≠ m'.toWire s.types name

theorem Respelled.of_runs {source name text : String}
    (h : ∃ s ∈ (Schema.load (.ofFile "a.proto" source) "/a.proto" []).toOption,
      ∃ j ∈ (Json.read text).toOption, j.isExact s.types name = true ∧
        ∃ m ∈ (fromText s.types name text).toOption,
          ∃ m' ∈ (asWritten s.types name text).toOption,
            m.toWire s.types name ≠ m'.toWire s.types name) :
    Respelled source name text := by
  obtain ⟨s, hs, j, hj, hexact, m, hm, m', hm', hne⟩ := h
  exact ⟨s, j, m, m', ok_of_mem hs, ok_of_mem hj, hexact, ok_of_mem hm, ok_of_mem hm', hne⟩

/-- A string and an enum, each with the name of the other one as its JSON name. -/
def swappedSource : String :=
  "enum E{B=1;}message M\x7boptional string x=1[json_name=\"y\"];" ++
    "optional E y=2[json_name=\"x\"];\x7d"

/-- A value of any shape, cut down to the member for null. -/
def nullSource : String :=
  "package google.protobuf;enum NullValue{NULL_VALUE=0;}" ++
    "message Value{optional NullValue null_value=1;}"

/-- A string under a key that the spelling takes for another field, and a string inside a value with
a form of text of its own, are changed though they are no enum names. -/
theorem spelling_changes_data :
    Respelled swappedSource "M" "\x7b\"y\":\"b\"\x7d" ∧
      Respelled nullSource "google.protobuf.Value" "\x7b\"nullValue\":\"null_value\"\x7d" :=
  ⟨.of_runs (by decide +kernel), .of_runs (by decide +kernel)⟩

end Message
end RpcConsole

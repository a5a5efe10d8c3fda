import RpcConsole.Message.Convert
import RpcConsole.Proofs.Json.RoundTrip
import RpcConsole.Proofs.Load.Types
import RpcConsole.Proofs.Message.Parsed
import RpcConsole.Proofs.Message.Spelling

namespace RpcConsole

mutual

/-- Two JSON values of a shape differ at most in the case of letters in strings that stand where an
enum name is wanted. -/
inductive Recased (t : TypeTable) : Shape → Json → Json → Prop where
  | same (shape : Shape) (j : Json) : Recased t shape j j
  | name {enum a b : String} (h : EnumType.sameName a b = true) :
      Recased t (.single (.enum enum)) (.str a) (.str b)
  | items {kind : Kind} {js js' : List Json} (h : RecasedItems t kind js js') :
      Recased t (.list kind) (.arr js) (.arr js')
  | entries {key kind : Kind} {ms ms' : List (String × Json)}
      (h : RecasedEntries t kind ms ms') : Recased t (.map key kind) (.obj ms) (.obj ms')
  | torn {entry kind : Kind} {ms ms' : List (String × Json)}
      (h : RecasedEntries t kind ms ms') :
      Recased t (.torn entry (some kind)) (.obj ms) (.obj ms')
  | members {name : String} {type : MessageType} {ms ms' : List (String × Json)}
      (ht : t.message? name = some type) (h : RecasedMembers t type ms ms') :
      Recased t (.single (.message name)) (.obj ms) (.obj ms')

inductive RecasedItems (t : TypeTable) : Kind → List Json → List Json → Prop where
  | nil (kind : Kind) : RecasedItems t kind [] []
  | cons {kind : Kind} {j j' : Json} {js js' : List Json} (h : Recased t (.single kind) j j')
      (hs : RecasedItems t kind js js') : RecasedItems t kind (j :: js) (j' :: js')

inductive RecasedEntries (t : TypeTable) :
    Kind → List (String × Json) → List (String × Json) → Prop where
  | nil (kind : Kind) : RecasedEntries t kind [] []
  | cons {kind : Kind} {key : String} {j j' : Json} {ms ms' : List (String × Json)}
      (h : Recased t (.single kind) j j') (hs : RecasedEntries t kind ms ms') :
      RecasedEntries t kind ((key, j) :: ms) ((key, j') :: ms')

/-- The members of a message; those that mean no field of it do not differ. -/
inductive RecasedMembers (t : TypeTable) :
    MessageType → List (String × Json) → List (String × Json) → Prop where
  | nil (type : MessageType) : RecasedMembers t type [] []
  | field {type : MessageType} {key : String} {f : Field} {j j' : Json}
      {ms ms' : List (String × Json)} (hf : type.Means key f) (h : Recased t (t.shape f) j j')
      (hs : RecasedMembers t type ms ms') :
      RecasedMembers t type ((key, j) :: ms) ((key, j') :: ms')
  | other {type : MessageType} {key : String} {j : Json} {ms ms' : List (String × Json)}
      (hs : RecasedMembers t type ms ms') :
      RecasedMembers t type ((key, j) :: ms) ((key, j) :: ms')

end

/-- A type without a form of text of its own, in which no two fields share a key and no two names of
an enum differ in case only. -/
structure MessageType.CaseFree (t : TypeTable) (type : MessageType) : Prop where
  ordinary : WellKnown.ofName? type.name = none
  unmixed : type.Unmixed
  enums : ∀ f ∈ type.fields, ∀ e ∈ t.enumOf? f.kind, e.Apart

instance (t : TypeTable) : DecidablePred (MessageType.CaseFree t) := fun type =>
  decidable_of_iff (WellKnown.ofName? type.name = none ∧ type.Unmixed ∧
      ∀ f ∈ type.fields, ∀ e ∈ t.enumOf? f.kind, e.Apart)
    ⟨fun h => ⟨h.1, h.2.1, h.2.2⟩, fun h => ⟨h.ordinary, h.unmixed, h.enums⟩⟩

namespace TypeTable

/-- Case does not count in what a shape wants. -/
structure ShapeCaseFree (t : TypeTable) (shape : Shape) : Prop where
  types : ∀ name, shape.item = .message name → t.Throughout (MessageType.CaseFree t) name
  enums : ∀ e ∈ t.enumOf? shape.item, e.Apart

variable {t : TypeTable} {type : MessageType} {name : String} {f : Field} {shape : Shape}

theorem ShapeCaseFree.message (h : t.Throughout (MessageType.CaseFree t) name) :
    t.ShapeCaseFree (.single (.message name)) where
  types n hn := by
    cases hn
    exact h
  enums e he := by cases he

theorem ShapeCaseFree.field (h : t.Throughout (MessageType.CaseFree t) name)
    (ht : t.message? name = some type) (hf : f ∈ type.fields) : t.ShapeCaseFree (t.shape f) where
  types _ hi := h.item ht hf hi
  enums := by
    obtain ⟨n, owner, hr, ho, g, hg, hk⟩ := item_shape ht hf
    exact hk ▸ (h n owner hr ho).enums g hg

theorem ShapeCaseFree.item (h : t.ShapeCaseFree shape) : t.ShapeCaseFree (.single shape.item) :=
  ⟨h.types, h.enums⟩

end TypeTable

variable {t : TypeTable} {type : MessageType} {shape : Shape} {f : Field} {j j' : Json}

theorem Json.spelled_eq_null (j : Json) : j.spelled t shape = .null ↔ j = .null := by
  cases j with
  | str s =>
    unfold Json.spelled
    repeat' split
    all_goals simp
  | arr vs =>
    unfold Json.spelled
    split <;> simp
  | obj ms =>
    unfold Json.spelled
    repeat' split
    all_goals simp
  | null | bool | int | double | single => simp [Json.spelled]

theorem Recased.null_iff (h : Recased t shape j j') : j = .null ↔ j' = .null := by
  cases h with
  | same => rfl
  | name | items | entries | torn | members => simp

namespace FromJson

/-- What is read for members that differ in case. -/
theorem member_recased (h : Recased t (t.shape f) j j')
    (hv : value t (t.shape f) (j.spelled t (t.shape f)) =
      value t (t.shape f) (j'.spelled t (t.shape f))) :
    member t f (j.spelled t (t.shape f)) = member t f (j'.spelled t (t.shape f)) := by
  by_cases hj : j = .null
  · rw [hj, h.null_iff.mp hj]
  · have hj' : j' ≠ .null := fun he => hj (h.null_iff.mpr he)
    rw [member_eq_value fun he => hj ((Json.spelled_eq_null j).mp he),
      member_eq_value fun he => hj' ((Json.spelled_eq_null j').mp he)]
    exact hv

mutual

theorem value_recased (hs : t.Sound) {shape : Shape} (hc : t.ShapeCaseFree shape) :
    ∀ (j j' : Json), Recased t shape j j' →
      value t shape (j.spelled t shape) = value t shape (j'.spelled t shape)
  | .obj ms, j', h => by
    cases h with
    | same => rfl
    | @entries key kind _ ms' h =>
      have he : entries t key kind (Json.spelledEntries t kind ms) =
          entries t key kind (Json.spelledEntries t kind ms') :=
        entries_recased hs hc.item ms ms' h
      simp only [Json.spelled, value, he]
    | torn => simp only [Json.spelled, value]
    | @members name type _ ms' ht h =>
      have hfree := hc.types name rfl
      have hown := hfree.own ht
      have hordinary : WellKnown.ofName? name = none :=
        TypeTable.message?_name ht ▸ hown.ordinary
      have hm := members_recased hs (TypeTable.message?_mem ht) hown.unmixed
        (fun f hf => .field hfree ht hf) ms ms' h .empty
      simp only [Json.spelled, value, ht, hordinary, hm]
  | .arr vs, j', h => by
    cases h with
    | same => rfl
    | @items kind _ js' h =>
      have hi : items t kind (Json.spelledItems t kind vs) =
          items t kind (Json.spelledItems t kind js') :=
        items_recased hs hc.item vs js' h
      simp only [Json.spelled, value, hi]
  | .str s, j', h => by
    cases h with
    | same => rfl
    | @name enum a b h =>
      cases he : t.enum? enum with
      | none => simp only [Json.spelled, value, FromJson.enum, he, Option.bind_none]
      | some e =>
        have hn := EnumType.number?_sameName (hc.enums e he) h
        simp only [Json.spelled, value, FromJson.enum, he, Option.bind_some, hn]
  | .null, j', h | .bool _, j', h | .int _, j', h | .double _, j', h | .single _, j', h => by
    cases h
    rfl
termination_by j => sizeOf j

theorem items_recased (hs : t.Sound) {kind : Kind} (hc : t.ShapeCaseFree (.single kind)) :
    ∀ (js js' : List Json), RecasedItems t kind js js' →
      items t kind (Json.spelledItems t kind js) = items t kind (Json.spelledItems t kind js')
  | [], js', h => by
    cases h
    rfl
  | j :: js, _, h => by
    cases h with
    | cons hj hjs =>
      simp only [Json.spelledItems, items, value_recased hs hc j _ hj, items_recased hs hc js _ hjs]
termination_by js => sizeOf js

theorem entries_recased (hs : t.Sound) {key kind : Kind} (hc : t.ShapeCaseFree (.single kind)) :
    ∀ (ms ms' : List (String × Json)), RecasedEntries t kind ms ms' →
      entries t key kind (Json.spelledEntries t kind ms) =
        entries t key kind (Json.spelledEntries t kind ms')
  | [], ms', h => by
    cases h
    rfl
  | (name, j) :: ms, _, h => by
    cases h with
    | cons hj hms =>
      simp only [Json.spelledEntries, entries, value_recased hs hc j _ hj,
        entries_recased hs hc ms _ hms]
termination_by ms => sizeOf ms

theorem members_recased (hs : t.Sound) {type : MessageType} (ht : type ∈ t.messages)
    (hu : type.Unmixed) (hc : ∀ f ∈ type.fields, t.ShapeCaseFree (t.shape f)) :
    ∀ (ms ms' : List (String × Json)), RecasedMembers t type ms ms' → ∀ m,
      members t type none (Json.spelledMembers t type ms) m =
        members t type none (Json.spelledMembers t type ms') m
  | [], ms', h, m => by
    cases h
    rfl
  | (name, j) :: ms, _, h, m => by
    have hk : ((none : Option String) == some name) = false := rfl
    cases h with
    | @field _ _ f _ j' _ ms' hf hj hms =>
      have hspelling := hf.fieldForSpelling? hu (hs.numbers type ht)
      have hfor := hf.fieldFor? (t := t) hu (hs.numbers type ht)
      have hv := value_recased hs (hc f hf.mem) j j' hj
      have hrest := members_recased hs ht hu hc ms ms' hms
      simp only [Json.spelledMembers, hspelling]
      rw [members_cons hk, members_cons hk]
      simp only [hfor, member_recased hj hv, hrest]
    | @other _ _ _ _ ms' hms =>
      have hrest := members_recased hs ht hu hc ms ms' hms
      cases hg : type.fieldForSpelling? name with
      | none =>
        simp only [Json.spelledMembers, hg]
        rw [members_cons hk, members_cons hk]
        simp only [hrest]
      | some g =>
        simp only [Json.spelledMembers, hg]
        rw [members_cons hk, members_cons hk]
        simp only [hrest]
termination_by ms => sizeOf ms

end

end FromJson

namespace Json

mutual

/-- The program stops over both values or over none. -/
theorem stops_recased (hs : t.Sound) {shape : Shape} (hc : t.ShapeCaseFree shape) :
    ∀ (j j' : Json), Recased t shape j j' → j.stops t shape = j'.stops t shape
  | .obj ms, j', h => by
    cases h with
    | same => rfl
    | @entries _ _ _ ms' h | @torn _ _ _ ms' h =>
      simp only [stops]
      exact stopsEntries_recased hs hc.item ms ms' h
    | @members name type _ ms' ht h =>
      have hfree := hc.types name rfl
      simp only [stops, ht]
      exact stopsMembers_recased hs (TypeTable.message?_mem ht) (hfree.own ht).unmixed
        (fun f hf => .field hfree ht hf) ms ms' h
  | .arr vs, j', h => by
    cases h with
    | same => rfl
    | @items _ _ js' h =>
      simp only [stops]
      exact stopsItems_recased hs hc.item vs js' h
  | .str _, j', h => by
    cases h with
    | same => rfl
    | name => simp only [stops]
  | .null, j', h | .bool _, j', h | .int _, j', h | .double _, j', h | .single _, j', h => by
    cases h
    rfl
termination_by j => sizeOf j

theorem stopsItems_recased (hs : t.Sound) {kind : Kind} (hc : t.ShapeCaseFree (.single kind)) :
    ∀ (js js' : List Json), RecasedItems t kind js js' →
      stopsItems t kind js = stopsItems t kind js'
  | [], js', h => by
    cases h
    rfl
  | j :: js, _, h => by
    cases h with
    | cons hj hjs =>
      simp only [stopsItems, stops_recased hs hc j _ hj, stopsItems_recased hs hc js _ hjs]
termination_by js => sizeOf js

theorem stopsEntries_recased (hs : t.Sound) {kind : Kind} (hc : t.ShapeCaseFree (.single kind)) :
    ∀ (ms ms' : List (String × Json)), RecasedEntries t kind ms ms' →
      stopsEntries t kind ms = stopsEntries t kind ms'
  | [], ms', h => by
    cases h
    rfl
  | (name, j) :: ms, _, h => by
    cases h with
    | cons hj hms =>
      simp only [stopsEntries, stops_recased hs hc j _ hj, stopsEntries_recased hs hc ms _ hms]
termination_by ms => sizeOf ms

theorem stopsMembers_recased (hs : t.Sound) {type : MessageType} (ht : type ∈ t.messages)
    (hu : type.Unmixed) (hc : ∀ f ∈ type.fields, t.ShapeCaseFree (t.shape f)) :
    ∀ (ms ms' : List (String × Json)), RecasedMembers t type ms ms' →
      stopsMembers t type ms = stopsMembers t type ms'
  | [], ms', h => by
    cases h
    rfl
  | (name, j) :: ms, _, h => by
    cases h with
    | @field _ _ f _ j' _ ms' hf hj hms =>
      have hspelling := hf.fieldForSpelling? hu (hs.numbers type ht)
      simp only [stopsMembers, hspelling, stops_recased hs (hc f hf.mem) j j' hj,
        stopsMembers_recased hs ht hu hc ms ms' hms]
    | @other _ _ _ _ ms' hms =>
      simp only [stopsMembers, stopsMembers_recased hs ht hu hc ms ms' hms]
termination_by ms => sizeOf ms

end

end Json

namespace Message

/-- Two texts whose JSON values differ at most in the case of letters in enum names, in fields of a
message and of messages that its fields lead to, or two texts that are both not read as JSON. -/
inductive RecasedText (t : TypeTable) (name text text' : String) : Prop where
  | values {j j' : Json} (hj : Json.read text = .ok j) (hj' : Json.read text' = .ok j')
      (h : Recased t (.single (.message name)) j j') : RecasedText t name text text'
  | faults {e e' : Json.ReadError} (h : Json.read text = .error e)
      (h' : Json.read text' = .error e') : RecasedText t name text text'

variable {name : String}

/-- What is read for values that differ in case, or the reason why they are refused. -/
theorem ofJson_recased (hs : t.Sound) (hfree : t.Throughout (MessageType.CaseFree t) name)
    (h : Recased t (.single (.message name)) j j') :
    ofJson t name (j.spelled t (.single (.message name))) =
      ofJson t name (j'.spelled t (.single (.message name))) := by
  have hv := FromJson.value_recased hs (.message hfree) j j' h
  simp only [ofJson, FromJson.message, hv]

/-- Two texts of a message that differ only in the case of letters in enum names are read as one
message, or are both refused. -/
theorem fromText_recased {d : Disk} {root : String} {importPath : ImportPath} {s : Schema}
    {text text' : String} (hload : Schema.load d root importPath = .ok s)
    (hfree : s.types.Throughout (MessageType.CaseFree s.types) name)
    (h : RecasedText s.types name text text') :
    (fromText s.types name text).toOption = (fromText s.types name text').toOption := by
  cases h with
  | @values j j' hj hj' h =>
    have hm := ofJson_recased (Schema.load_sound hload) hfree h
    have hstops := Json.stops_recased (Schema.load_sound hload) (.message hfree) j j' h
    simp only [fromText, hj, hj', hm, hstops]
  | faults h h' =>
    simp only [fromText, h, h', Except.toOption]

/-- Messages in a list, with enum values in a field and in a map. -/
def enumSource : String :=
  "enum E{A=0;B=1;}message M{optional E e=1;map<string,E> m=2;repeated M n=3;}"

/-- A list of messages, one with an enum name in a field and one with an enum name in a map. -/
def enumJson (first second : String) : Json :=
  .obj [("n", .arr [.obj [("e", .str first)], .obj [("m", .obj [("k", .str second)])]])]

theorem read_enumJson (first second : String) :
    Json.read (enumJson first second).pretty = .ok (enumJson first second) := by
  have hplain : (enumJson first second).IsPlain := by
    simp [enumJson, Json.IsPlain, Json.ArePlain, Json.ArePlainMembers]
  have hlevels : (enumJson first second).levels < Json.depthLimit := by
    simp [enumJson, Json.levels, Json.levelsOf, Json.levelsOfMembers, Json.depthLimit]
  exact Json.read_pretty hplain hlevels

theorem fromText_recased_inner :
    ∃ s m, Schema.load (.ofFile "a.proto" enumSource) "/a.proto" [] = .ok s ∧
      fromText s.types "M" (enumJson "A" "B").pretty = .ok m ∧
      fromText s.types "M" (enumJson "a" "b").pretty = .ok m := by
  have h : ∃ s ∈ (Schema.load (.ofFile "a.proto" enumSource) "/a.proto" []).toOption,
      (∀ type ∈ s.types.messages, type.CaseFree s.types) ∧
      (enumJson "A" "B").stops s.types (.single (.message "M")) = false ∧
      (ofJson s.types "M"
        ((enumJson "A" "B").spelled s.types (.single (.message "M")))).toOption.isSome ∧
      ∃ type ∈ s.types.message? "M",
        (∃ f ∈ type.fieldNamed? "n", s.types.shape f = .list (.message "M")) ∧
        (∃ f ∈ type.fieldNamed? "e", s.types.shape f = .single (.enum "E")) ∧
        ∃ f ∈ type.fieldNamed? "m", s.types.shape f = .map (.scalar .string) (.enum "E") := by
    decide +kernel
  obtain ⟨s, hs, hfree, hstops, hok, type, ht, ⟨n, hn, hns⟩, ⟨e, he, hes⟩, m, hm, hms⟩ := h
  have hfield : Recased s.types (.single (.message "M")) (.obj [("e", .str "A")])
      (.obj [("e", .str "a")]) := by
    refine .members ht (.field (.inl he) ?_ (.nil type))
    rw [hes]
    exact .name rfl
  have hmap : Recased s.types (.single (.message "M")) (.obj [("m", .obj [("k", .str "B")])])
      (.obj [("m", .obj [("k", .str "b")])]) := by
    refine .members ht (.field (.inl hm) ?_ (.nil type))
    rw [hms]
    exact .entries (.cons (.name rfl) (.nil _))
  have hrecased : Recased s.types (.single (.message "M")) (enumJson "A" "B")
      (enumJson "a" "b") := by
    refine .members ht (.field (.inl hn) ?_ (.nil type))
    rw [hns]
    exact .items (.cons hfield (.cons hmap (.nil _)))
  obtain ⟨m, hm⟩ := Option.isSome_iff_exists.mp hok
  have htext : fromText s.types "M" (enumJson "A" "B").pretty =
      .ok (m.clearDefaults s.types "M") := by
    simp [fromText, read_enumJson, hstops, ok_of_mem hm]
  have hsame := fromText_recased (ok_of_mem hs) (.all hfree)
    (.values (read_enumJson _ _) (read_enumJson _ _) hrecased)
  have htext' : (fromText s.types "M" (enumJson "a" "b").pretty).toOption =
      some (m.clearDefaults s.types "M") := by
    rw [← hsame, htext]
    rfl
  exact ⟨s, _, ok_of_mem hs, htext, ok_of_mem htext'⟩

end Message
end RpcConsole

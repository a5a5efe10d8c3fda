import RpcConsole.Proofs.Message.Legible
import RpcConsole.Proofs.Message.Omitted

namespace RpcConsole

open FromJson (fieldFor? anyType typeKey)
open Json (spelledMembersAt)

namespace TypeTable

/-- A key is no name of a field of a message type, and not the member name of an extension of it. -/
def IsUnknown (t : TypeTable) (type : MessageType) (key : String) : Prop :=
  (∀ f ∈ type.fields, f.jsonName ≠ key ∧ f.name ≠ key) ∧
    ∀ x ∈ t.extensions, x.extendee = type.name → x.key ≠ key

instance (t : TypeTable) (type : MessageType) (key : String) : Decidable (t.IsUnknown type key) :=
  inferInstanceAs (Decidable (_ ∧ _))

theorem IsUnknown.fieldFor? {t : TypeTable} {type : MessageType} {key : String}
    (h : t.IsUnknown type key) : fieldFor? t type key = none := by
  obtain ⟨hfields, hextensions⟩ := h
  have hjson : type.fieldWithJsonName? key = none :=
    List.find?_eq_none.mpr fun f hf => by simp [(hfields f hf).1]
  have hname : type.fieldNamed? key = none :=
    List.find?_eq_none.mpr fun f hf => by simp [(hfields f hf).2]
  have hextension : t.extensions.find? (fun x =>
      x.extendee == type.name && "[" ++ x.field.fullName ++ "]" == key) = none := by
    refine List.find?_eq_none.mpr fun x hx hp => ?_
    simp only [Bool.and_eq_true, beq_iff_eq] at hp
    exact hextensions x hx hp.1 hp.2
  simp [FromJson.fieldFor?, hjson, hname, hextension]

/-- The spelling passes over an unknown key if it takes the message for what it is. -/
theorem IsUnknown.memberPlace {t : TypeTable} {name key : String} {type : MessageType}
    (h : t.IsUnknown type key) (ht : t.message? name = some type) :
    t.memberPlace (some (.single (.message name))) key = none := by
  have hjson : type.fieldWithJsonName? key = none :=
    List.find?_eq_none.mpr fun f hf => by simp [(h.1 f hf).1]
  have hname : type.fieldNamed? key = none :=
    List.find?_eq_none.mpr fun f hf => by simp [(h.1 f hf).2]
  exact memberPlace_eq_none ht (by simp [MessageType.fieldForSpelling?, hjson, hname])

end TypeTable

mutual

/-- Two JSON values of a shape, which the spelling of enum names takes for what is at `place`,
differ in members with unknown keys. The message around them is one without a form of text of its
own, or it is inside a message of any type. -/
inductive Padded (t : TypeTable) : Option Shape → Shape → Json → Json → Prop where
  | same (place : Option Shape) (shape : Shape) (j : Json) : Padded t place shape j j
  | items {place : Option Shape} {kind : Kind} {js js' : List Json}
      (h : PaddedItems t (Shape.itemPlace place) kind js js') :
      Padded t place (.list kind) (.arr js) (.arr js')
  | entries {place : Option Shape} {key kind : Kind} {ms ms' : List (String × Json)}
      (h : PaddedEntries t place kind ms ms') :
      Padded t place (.map key kind) (.obj ms) (.obj ms')
  | members {place : Option Shape} {name : String} {type : MessageType}
      {ms ms' : List (String × Json)} (hname : WellKnown.ofName? name = none)
      (ht : t.message? name = some type) (h : PaddedMembers t place type none ms ms') :
      Padded t place (.single (.message name)) (.obj ms) (.obj ms')
  | payload {place : Option Shape} {name url : String} {type : MessageType}
      {ms ms' : List (String × Json)} (hname : WellKnown.ofName? name = some .any)
      (htype : anyType t (spelledMembersAt t place ms) = .ok (url, type))
      (hordinary : WellKnown.ofName? type.name = none)
      (h : PaddedMembers t place type (some typeKey) ms ms') :
      Padded t place (.single (.message name)) (.obj ms) (.obj ms')

inductive PaddedItems (t : TypeTable) : Option Shape → Kind → List Json → List Json → Prop where
  | nil (place : Option Shape) (kind : Kind) : PaddedItems t place kind [] []
  | cons {place : Option Shape} {kind : Kind} {j j' : Json} {js js' : List Json}
      (h : Padded t place (.single kind) j j') (hs : PaddedItems t place kind js js') :
      PaddedItems t place kind (j :: js) (j' :: js')

inductive PaddedEntries (t : TypeTable) :
    Option Shape → Kind → List (String × Json) → List (String × Json) → Prop where
  | nil (place : Option Shape) (kind : Kind) : PaddedEntries t place kind [] []
  | cons {place : Option Shape} {kind : Kind} {key : String} {j j' : Json}
      {ms ms' : List (String × Json)} (h : Padded t (t.memberPlace place key) (.single kind) j j')
      (hs : PaddedEntries t place kind ms ms') :
      PaddedEntries t place kind ((key, j) :: ms) ((key, j') :: ms')

/-- The members of a message; `skip` is none of them. The program gets past one with an unknown key,
as it does unless it takes the message for another one, in which the key is that of a map. -/
inductive PaddedMembers (t : TypeTable) : Option Shape → MessageType → Option String →
    List (String × Json) → List (String × Json) → Prop where
  | nil (place : Option Shape) (type : MessageType) (skip : Option String) :
      PaddedMembers t place type skip [] []
  | kept {place : Option Shape} {type : MessageType} {skip : Option String} {key : String}
      {j : Json} {ms ms' : List (String × Json)} (hs : PaddedMembers t place type skip ms ms') :
      PaddedMembers t place type skip ((key, j) :: ms) ((key, j) :: ms')
  | field {place : Option Shape} {type : MessageType} {skip : Option String} {key : String}
      {f : Field} {j j' : Json} {ms ms' : List (String × Json)} (hskip : skip ≠ some key)
      (hf : fieldFor? t type key = some f) (h : Padded t (t.memberPlace place key) (t.shape f) j j')
      (hs : PaddedMembers t place type skip ms ms') :
      PaddedMembers t place type skip ((key, j) :: ms) ((key, j') :: ms')
  | added {place : Option Shape} {type : MessageType} {skip : Option String} {key : String}
      {j : Json} {ms ms' : List (String × Json)} (hskip : skip ≠ some key)
      (hf : t.IsUnknown type key) (hstops : j.stopsAt t (t.memberPlace place key) = false)
      (hs : PaddedMembers t place type skip ms ms') :
      PaddedMembers t place type skip ms ((key, j) :: ms')
  | dropped {place : Option Shape} {type : MessageType} {skip : Option String} {key : String}
      {j : Json} {ms ms' : List (String × Json)} (hskip : skip ≠ some key)
      (hf : t.IsUnknown type key) (hstops : j.stopsAt t (t.memberPlace place key) = false)
      (hs : PaddedMembers t place type skip ms ms') :
      PaddedMembers t place type skip ((key, j) :: ms) ms'

end

variable {t : TypeTable} {place : Option Shape} {shape : Shape} {type : MessageType}
variable {skip : Option String} {key : String} {j j' : Json} {ms ms' : List (String × Json)}

theorem Padded.null_iff (h : Padded t place shape j j') : j = .null ↔ j' = .null := by
  cases h with
  | same => rfl
  | items | entries | members | payload => simp

theorem get?_spelledMembersAt_cons (h : some typeKey ≠ some key) :
    Json.get? typeKey (spelledMembersAt t place ((key, j) :: ms)) =
      Json.get? typeKey (spelledMembersAt t place ms) := by
  have hkey : key ≠ typeKey := fun he => h (congrArg some he.symm)
  simp [Json.get?, hkey]

/-- The type that a message of any type names is the same for both. -/
theorem PaddedMembers.get?_typeKey : ∀ {ms ms' : List (String × Json)},
    PaddedMembers t place type (some typeKey) ms ms' →
      Json.get? typeKey (spelledMembersAt t place ms) =
        Json.get? typeKey (spelledMembersAt t place ms')
  | _, _, .nil .. => rfl
  | _, _, .kept hs => by
    simp [Json.get?, get?_typeKey hs]
  | _, _, .field hskip _ _ hs => by
    rw [get?_spelledMembersAt_cons hskip, get?_spelledMembersAt_cons hskip, get?_typeKey hs]
  | _, _, .added hskip _ _ hs => by
    rw [get?_spelledMembersAt_cons hskip, get?_typeKey hs]
  | _, _, .dropped hskip _ _ hs => by
    rw [get?_spelledMembersAt_cons hskip, get?_typeKey hs]

namespace FromJson

/-- A member that means no field is passed over. -/
theorem members_other (m : Message) (hskip : skip ≠ some key) (hf : t.IsUnknown type key) :
    members t type skip ((key, j) :: ms) m = members t type skip ms m := by
  rw [members_cons (by simpa using hskip), hf.fieldFor?]

/-- Members that are read alike make one message, if those behind them do. -/
theorem members_alike (m : Message)
    (hj : ∀ f, skip ≠ some key → fieldFor? t type key = some f → member t f j = member t f j')
    (hs : ∀ m, members t type skip ms m = members t type skip ms' m) :
    members t type skip ((key, j) :: ms) m = members t type skip ((key, j') :: ms') m := by
  by_cases hskip : skip = some key
  · have hk : (skip == some key) = true := beq_iff_eq.mpr hskip
    rw [members, members, if_pos hk, if_pos hk]
    exact hs m
  · have hk : (skip == some key) = false := beq_eq_false_iff_ne.mpr hskip
    rw [members_cons hk, members_cons hk]
    cases hf : fieldFor? t type key with
    | none => exact hs m
    | some f => simp only [hj f hskip hf, hs]

theorem member_padded {f : Field} (h : Padded t place (t.shape f) j j')
    (hv : value t (t.shape f) (j.spelledAt t place) = value t (t.shape f) (j'.spelledAt t place)) :
    member t f (j.spelledAt t place) = member t f (j'.spelledAt t place) := by
  by_cases hj : j = .null
  · rw [hj, h.null_iff.mp hj]
  · have hj' : j' ≠ .null := fun he => hj (h.null_iff.mpr he)
    rw [member_eq_value fun he => hj ((Json.spelledAt_eq_null j).mp he),
      member_eq_value fun he => hj' ((Json.spelledAt_eq_null j').mp he), hv]

mutual

/-- What is read for values that differ in unknown members. -/
theorem value_padded : ∀ {place : Option Shape} {shape : Shape} {j j' : Json},
    Padded t place shape j j' →
      value t shape (j.spelledAt t place) = value t shape (j'.spelledAt t place)
  | _, _, _, _, .same .. => rfl
  | _, _, _, _, .items h => by
    simp only [Json.spelledAt_arr, value, items_padded h]
  | _, _, _, _, .entries h => by
    simp only [Json.spelledAt_obj, value, entries_padded h]
  | _, _, _, _, .members hname ht h => by
    simp only [Json.spelledAt_obj, value, hname, ht, members_padded h .empty]
  | _, _, _, _, .payload hname htype hordinary h => by
    have htype' := (anyType_congr h.get?_typeKey.symm).trans htype
    simp only [Json.spelledAt_obj, value, hname, htype, htype', hordinary, Option.isSome_none,
      Bool.false_eq_true, ↓reduceIte, bind, Except.bind, members_padded h .empty]

theorem items_padded : ∀ {place : Option Shape} {kind : Kind} {js js' : List Json},
    PaddedItems t place kind js js' →
      items t kind (js.map (Json.spelledAt t place)) =
        items t kind (js'.map (Json.spelledAt t place))
  | _, _, _, _, .nil .. => rfl
  | _, _, _, _, .cons h hs => by
    simp only [List.map_cons, items, value_padded h, items_padded hs]

theorem entries_padded : ∀ {place : Option Shape} {key kind : Kind}
    {ms ms' : List (String × Json)}, PaddedEntries t place kind ms ms' →
      entries t key kind (spelledMembersAt t place ms) =
        entries t key kind (spelledMembersAt t place ms')
  | _, _, _, _, _, .nil .. => rfl
  | _, _, _, _, _, .cons h hs => by
    simp only [Json.spelledMembersAt_cons, entries, value_padded h, entries_padded hs]

theorem members_padded : ∀ {place : Option Shape} {type : MessageType} {skip : Option String}
    {ms ms' : List (String × Json)}, PaddedMembers t place type skip ms ms' → ∀ m,
      members t type skip (spelledMembersAt t place ms) m =
        members t type skip (spelledMembersAt t place ms') m
  | _, _, _, _, _, .nil .., _ => rfl
  | _, _, _, _, _, .kept hs, m =>
    members_alike m (fun _ _ _ => rfl) (members_padded hs)
  | _, _, _, _, _, .field _ hf h hs, m => by
    refine members_alike m (fun g _ hg => ?_) (members_padded hs)
    obtain rfl := Option.some.inj (hf.symm.trans hg)
    exact member_padded h (value_padded h)
  | _, _, _, _, _, .added hskip hf _ hs, m => by
    rw [Json.spelledMembersAt_cons, members_other m hskip hf, members_padded hs m]
  | _, _, _, _, _, .dropped hskip hf _ hs, m => by
    rw [Json.spelledMembersAt_cons, members_other m hskip hf, members_padded hs m]

end

end FromJson

namespace Json

mutual

/-- The program stops over both values or over none. -/
theorem stopsAt_padded : ∀ {place : Option Shape} {shape : Shape} {j j' : Json},
    Padded t place shape j j' → j.stopsAt t place = j'.stopsAt t place
  | _, _, _, _, .same .. => rfl
  | _, _, _, _, .items h => by simp only [stopsAt_arr, any_padded h]
  | _, _, _, _, .entries h => by simp only [stopsAt_obj, membersStopAt_paddedEntries h]
  | _, _, _, _, .members _ _ h => by simp only [stopsAt_obj, membersStopAt_padded h]
  | _, _, _, _, .payload _ _ _ h => by simp only [stopsAt_obj, membersStopAt_padded h]

theorem any_padded : ∀ {place : Option Shape} {kind : Kind} {js js' : List Json},
    PaddedItems t place kind js js' → js.any (stopsAt t place) = js'.any (stopsAt t place)
  | _, _, _, _, .nil .. => rfl
  | _, _, _, _, .cons h hs => by simp only [List.any_cons, stopsAt_padded h, any_padded hs]

theorem membersStopAt_paddedEntries : ∀ {place : Option Shape} {kind : Kind}
    {ms ms' : List (String × Json)}, PaddedEntries t place kind ms ms' →
      membersStopAt t place ms = membersStopAt t place ms'
  | _, _, _, _, .nil .. => rfl
  | _, _, _, _, .cons h hs => by
    simp only [membersStopAt_cons, stopsAt_padded h, membersStopAt_paddedEntries hs]

theorem membersStopAt_padded : ∀ {place : Option Shape} {type : MessageType}
    {skip : Option String} {ms ms' : List (String × Json)},
    PaddedMembers t place type skip ms ms' →
      membersStopAt t place ms = membersStopAt t place ms'
  | _, _, _, _, _, .nil .. => rfl
  | _, _, _, _, _, .kept hs => by simp only [membersStopAt_cons, membersStopAt_padded hs]
  | _, _, _, _, _, .field _ _ h hs => by
    simp only [membersStopAt_cons, stopsAt_padded h, membersStopAt_padded hs]
  | _, _, _, _, _, .added _ _ hstops hs => by
    rw [membersStopAt_cons, hstops, membersStopAt_padded hs, Bool.false_or]
  | _, _, _, _, _, .dropped _ _ hstops hs => by
    rw [membersStopAt_cons, hstops, membersStopAt_padded hs, Bool.false_or]

end

end Json

namespace Message

/-- Two texts that differ in members that mean no field, in a message at any depth, are read as one
message, or they are refused for the same reason. -/
theorem fromText_padded {name text text' : String} (hj : Json.read text = .ok j)
    (hj' : Json.read text' = .ok j')
    (h : Padded t (some (.single (.message name))) (.single (.message name)) j j') :
    fromText t name text = fromText t name text' := by
  have hv := FromJson.value_padded h
  have hstops := Json.stopsAt_padded h
  simp only [Json.spelledAt] at hv
  rw [Json.stopsAt_single, Json.stopsAt_single] at hstops
  simp only [fromText, hj, hj', ofJson, FromJson.message, hv, hstops]

/-- A message with messages in a map, and a number. -/
def mapSource : String :=
  "message M{map<string,M> m=1;optional int32 n=2;}"

/-- A message in a map, with more members. -/
def mapJson (more : List (String × Json)) : Json :=
  .obj [("m", .obj [("k", .obj (("n", .int 7) :: more))])]

/-- A member that means no field, around one that would be wrong if it did. -/
def padding : List (String × Json) :=
  [("x", .obj [("n", .bool true)])]

theorem read_mapJson : Json.read (mapJson []).pretty = .ok (mapJson []) ∧
    Json.read (mapJson padding).pretty = .ok (mapJson padding) := by
  constructor
  · refine Json.read_pretty ?_ ?_
    · simp [mapJson, Json.IsPlain, Json.ArePlainMembers]
    · simp [mapJson, Json.levels, Json.levelsOfMembers, Json.depthLimit]
  · refine Json.read_pretty ?_ ?_
    · simp [mapJson, padding, Json.IsPlain, Json.ArePlainMembers]
    · simp [mapJson, padding, Json.levels, Json.levelsOfMembers, Json.depthLimit]

theorem fromText_padded_map :
    ∃ s m, Schema.load (.ofFile "a.proto" mapSource) "/a.proto" [] = .ok s ∧
      fromText s.types "M" (mapJson []).pretty = .ok m ∧
      fromText s.types "M" (mapJson padding).pretty = .ok m := by
  have h : ∃ s ∈ (Schema.load (.ofFile "a.proto" mapSource) "/a.proto" []).toOption,
      (mapJson []).stops s.types (.single (.message "M")) = false ∧
      (ofJson s.types "M"
        ((mapJson []).spelled s.types (.single (.message "M")))).toOption.isSome ∧
      ∃ type ∈ s.types.message? "M",
        (∃ f ∈ fieldFor? s.types type "m",
          s.types.shape f = .map (.scalar .string) (.message "M")) ∧
        s.types.memberPlace (some (.single (.message "M"))) "m" =
          some (.map (.scalar .string) (.message "M")) ∧
        s.types.IsUnknown type "x" := by
    decide +kernel
  obtain ⟨s, hs, hstops, hok, type, ht, ⟨m, hm, hms⟩, hplace, hx⟩ := h
  have hname : WellKnown.ofName? "M" = none := by decide
  have hpadded : Padded s.types (some (.single (.message "M"))) (.single (.message "M"))
      (mapJson []) (mapJson padding) := by
    refine .members hname ht (.field (by simp) hm ?_ (.nil ..))
    rw [hms, hplace]
    refine .entries (.cons ?_ (.nil ..))
    -- the spelling takes the message in the map for what it is
    have hfree := congrArg (Json.stopsAt s.types · (.obj [("n", .bool true)])) (hx.memberPlace ht)
    exact .members hname ht (.kept (.added (by simp) hx hfree (.nil ..)))
  obtain ⟨hread, hread'⟩ := read_mapJson
  have hsame := fromText_padded hread hread' hpadded
  obtain ⟨m, hm⟩ := Option.isSome_iff_exists.mp hok
  have htext : fromText s.types "M" (mapJson []).pretty = .ok (m.clearDefaults s.types "M") := by
    simp [fromText, hread, hstops, ok_of_mem hm]
  exact ⟨s, _, ok_of_mem hs, htext, hsame ▸ htext⟩

def numberText : String :=
  "\x7b\"n\":7\x7d"

/-- The same text and a member that means no field, whose number is out of the range of all numbers
that are read. -/
def overflowText : String :=
  "\x7b\"n\":7,\"x\":1e400\x7d"

/-- Two fields with the names of each other, and maps in one of them whose entries have no value. -/
def strayedSource : String :=
  "message E{option map_entry=true;}message A{repeated E k=1;}message B{}" ++
    "message M\x7boptional A x=1[json_name=\"y\"];optional B y=2[json_name=\"x\"];\x7d"

def emptyText : String :=
  "\x7b\"x\":\x7b\x7d\x7d"

/-- The same text and a member that means no field of the message it is in. The enum names are
brought to their spelling as if it were the other message. -/
def strayedText : String :=
  "\x7b\"x\":\x7b\"k\":\x7b\x7d\x7d\x7d"

/-- A member that means no field is not passed over if it cannot be read, since a text is read as a
whole before, nor if the program stops at it. -/
theorem padding_not_passed :
    (∃ s type m e, Schema.load (.ofFile "a.proto" mapSource) "/a.proto" [] = .ok s ∧
      s.types.message? "M" = some type ∧ s.types.IsUnknown type "x" ∧
      fromText s.types "M" numberText = .ok m ∧
      fromText s.types "M" overflowText = .error (.invalidText (.malformed e))) ∧
    ∃ s type f m inner, Schema.load (.ofFile "a.proto" strayedSource) "/a.proto" [] = .ok s ∧
      s.types.message? "M" = some type ∧ FromJson.fieldFor? s.types type "x" = some f ∧
      s.types.shape f = .single (.message "B") ∧
      s.types.message? "B" = some inner ∧ s.types.IsUnknown inner "k" ∧
      fromText s.types "M" emptyText = .ok m ∧
      fromText s.types "M" strayedText = .error .stopped := by
  constructor
  · have h : ∃ s ∈ (Schema.load (.ofFile "a.proto" mapSource) "/a.proto" []).toOption,
        ∃ type ∈ s.types.message? "M", s.types.IsUnknown type "x" ∧
          (fromText s.types "M" numberText).toOption.isSome ∧
          (Json.read overflowText).toOption.isNone := by
      decide +kernel
    obtain ⟨s, hs, type, ht, hx, hok, hno⟩ := h
    obtain ⟨m, hm⟩ := Option.isSome_iff_exists.mp hok
    cases he : Json.read overflowText with
    | ok j => simp [he, Except.toOption] at hno
    | error e =>
      refine ⟨s, type, m, e, ok_of_mem hs, ht, hx, ok_of_mem hm, ?_⟩
      simp only [fromText, he]
  · have h : ∃ s ∈ (Schema.load (.ofFile "a.proto" strayedSource) "/a.proto" []).toOption,
        ∃ type ∈ s.types.message? "M", ∃ f ∈ FromJson.fieldFor? s.types type "x",
          s.types.shape f = .single (.message "B") ∧
          ∃ inner ∈ s.types.message? "B", s.types.IsUnknown inner "k" ∧
            ∃ m ∈ (fromText s.types "M" emptyText).toOption,
              ∃ j ∈ (Json.read strayedText).toOption,
                j.stops s.types (.single (.message "M")) = true := by
      decide +kernel
    obtain ⟨s, hs, type, ht, f, hf, hshape, inner, hinner, hk, m, hm, j, hj, hstops⟩ := h
    refine ⟨s, type, f, m, inner, ok_of_mem hs, ht, hf, hshape, hinner, hk, ok_of_mem hm, ?_⟩
    simp only [fromText, ok_of_mem hj, hstops, ↓reduceIte]

end Message
end RpcConsole

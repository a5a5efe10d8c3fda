import RpcConsole.Message.Convert
import RpcConsole.Proofs.Message.Recased

namespace RpcConsole

/-- What the spelling takes the items of a list for. It takes them for nothing if it does not go
into the list. -/
def Shape.itemPlace : Option Shape → Option Shape
  | some (.list kind) => some (.single kind)
  | _ => none

/-- What the spelling takes a member of an object for. -/
def TypeTable.memberPlace (t : TypeTable) (place : Option Shape) (key : String) : Option Shape :=
  match place with
  | some (.map _ kind) | some (.torn _ (some kind)) => some (.single kind)
  | some (.single (.message name)) =>
    (t.message? name).bind fun type => (type.fieldForSpelling? key).map t.shape
  | _ => none

/-- A member that means no field is not reached, be it of an extension or of a message inside one of
any type. -/
theorem TypeTable.memberPlace_eq_none {t : TypeTable} {name key : String} {type : MessageType}
    (ht : t.message? name = some type) (hk : type.fieldForSpelling? key = none) :
    t.memberPlace (some (.single (.message name))) key = none := by
  simp [memberPlace, ht, hk]

@[simp] theorem TypeTable.memberPlace_none (t : TypeTable) (key : String) :
    t.memberPlace none key = none := rfl

@[simp] theorem Shape.itemPlace_none : itemPlace none = none := rfl

/-- The program stops where it takes a value for a map whose entries have no value. -/
def Shape.isBroken : Option Shape → Bool
  | some shape => shape.lacksValue
  | none => false

@[simp] theorem Shape.isBroken_single (kind : Kind) : isBroken (some (.single kind)) = false := rfl

@[simp] theorem Shape.isBroken_none : isBroken none = false := rfl

@[simp] theorem Shape.isBroken_itemPlace (place : Option Shape) :
    isBroken (itemPlace place) = false := by
  unfold itemPlace
  split <;> rfl

namespace Json

variable {t : TypeTable} {place : Option Shape}

/-- A value after the spelling, which takes it for something or leaves it as it is. -/
def spelledAt (t : TypeTable) (place : Option Shape) (j : Json) : Json :=
  match place with
  | some shape => j.spelled t shape
  | none => j

def spelledMembersAt (t : TypeTable) (place : Option Shape) (ms : List (String × Json)) :
    List (String × Json) :=
  ms.map fun m => (m.1, m.2.spelledAt t (t.memberPlace place m.1))

@[simp] theorem spelledMembersAt_cons (k : String) (v : Json) (ms : List (String × Json)) :
    spelledMembersAt t place ((k, v) :: ms) =
      (k, v.spelledAt t (t.memberPlace place k)) :: spelledMembersAt t place ms := rfl

theorem spelledItems_eq (t : TypeTable) (kind : Kind) (vs : List Json) :
    spelledItems t kind vs = vs.map (spelled t (.single kind)) := by
  induction vs with
  | nil => rfl
  | cons v vs ih => rw [spelledItems, ih, List.map_cons]

theorem spelledEntries_eq (t : TypeTable) (kind : Kind) (ms : List (String × Json)) :
    spelledEntries t kind ms = ms.map fun m => (m.1, m.2.spelled t (.single kind)) := by
  induction ms with
  | nil => rfl
  | cons m ms ih => rw [spelledEntries, ih, List.map_cons]

theorem spelledMembers_eq (t : TypeTable) (type : MessageType) (ms : List (String × Json)) :
    spelledMembers t type ms =
      ms.map fun m => (m.1, m.2.spelledAt t ((type.fieldForSpelling? m.1).map t.shape)) := by
  induction ms with
  | nil => rfl
  | cons m ms ih =>
    rw [spelledMembers, ih, List.map_cons]
    cases type.fieldForSpelling? m.1 <;> rfl

theorem spelledAt_arr (vs : List Json) :
    (arr vs).spelledAt t place = .arr (vs.map (spelledAt t (Shape.itemPlace place))) := by
  have hself : arr vs = .arr (vs.map (spelledAt t none)) := congrArg arr (List.map_id vs).symm
  cases place with
  | none => exact hself
  | some shape =>
    cases shape with
    | list kind => exact congrArg arr (spelledItems_eq t kind vs)
    | single | map | torn => simpa [spelledAt, spelled, Shape.itemPlace] using hself

theorem spelledAt_obj (ms : List (String × Json)) :
    (obj ms).spelledAt t place = .obj (spelledMembersAt t place ms) := by
  cases place with
  | none => simp [spelledAt, spelledMembersAt]
  | some shape =>
    cases shape with
    | list kind => simp [spelledAt, spelled, spelledMembersAt, TypeTable.memberPlace]
    | map key kind => exact congrArg obj (spelledEntries_eq t kind ms)
    | torn entry value =>
      cases value with
      | none => simp [spelledAt, spelled, spelledMembersAt, TypeTable.memberPlace]
      | some kind => exact congrArg obj (spelledEntries_eq t kind ms)
    | single kind =>
      cases kind with
      | scalar | enum => simp [spelledAt, spelled, spelledMembersAt, TypeTable.memberPlace]
      | message name =>
        cases ht : t.message? name with
        | none => simp [spelledAt, spelled, spelledMembersAt, TypeTable.memberPlace, ht]
        | some type =>
          simp [spelledAt, spelled, spelledMembersAt, TypeTable.memberPlace, ht, spelledMembers_eq]

theorem spelledAt_eq_null (j : Json) : j.spelledAt t place = .null ↔ j = .null := by
  cases place with
  | none => rfl
  | some shape => exact j.spelled_eq_null

/-- The program stops over a value, or at the key in front of it. -/
def stopsAt (t : TypeTable) (place : Option Shape) (j : Json) : Bool :=
  match place with
  | some shape => shape.lacksValue || j.stops t shape
  | none => false

def membersStopAt (t : TypeTable) (place : Option Shape) (ms : List (String × Json)) : Bool :=
  ms.any fun m => m.2.stopsAt t (t.memberPlace place m.1)

@[simp] theorem membersStopAt_cons (k : String) (v : Json) (ms : List (String × Json)) :
    membersStopAt t place ((k, v) :: ms) =
      (v.stopsAt t (t.memberPlace place k) || membersStopAt t place ms) := rfl

@[simp] theorem stopsAt_none (j : Json) : j.stopsAt t none = false := rfl

theorem stopsAt_single (kind : Kind) (j : Json) :
    j.stopsAt t (some (.single kind)) = j.stops t (.single kind) := rfl

theorem stopsItems_eq (t : TypeTable) (kind : Kind) (vs : List Json) :
    stopsItems t kind vs = vs.any (stops t (.single kind)) := by
  induction vs with
  | nil => rfl
  | cons v vs ih => rw [stopsItems, ih, List.any_cons]

theorem stopsEntries_eq (t : TypeTable) (kind : Kind) (ms : List (String × Json)) :
    stopsEntries t kind ms = ms.any fun m => m.2.stops t (.single kind) := by
  induction ms with
  | nil => rfl
  | cons m ms ih => rw [stopsEntries, ih, List.any_cons]

theorem stopsMembers_eq (t : TypeTable) (type : MessageType) (ms : List (String × Json)) :
    stopsMembers t type ms =
      ms.any fun m => m.2.stopsAt t ((type.fieldForSpelling? m.1).map t.shape) := by
  induction ms with
  | nil => rfl
  | cons m ms ih =>
    rw [stopsMembers, ih, List.any_cons]
    cases type.fieldForSpelling? m.1 <;> rfl

theorem stopsAt_str (s : String) : (str s).stopsAt t place = Shape.isBroken place := by
  cases place <;> simp [stopsAt, stops, Shape.isBroken]

theorem stopsAt_arr (vs : List Json) :
    (arr vs).stopsAt t place =
      (Shape.isBroken place || vs.any (stopsAt t (Shape.itemPlace place))) := by
  have hnone : vs.any (stopsAt t none) = false := by simp
  cases place with
  | none => exact hnone.symm
  | some shape =>
    cases shape with
    | list kind => exact stopsItems_eq t kind vs
    | single | map | torn => simp [stopsAt, stops, Shape.isBroken, Shape.itemPlace]

theorem stopsAt_obj (ms : List (String × Json)) :
    (obj ms).stopsAt t place = (Shape.isBroken place || membersStopAt t place ms) := by
  cases place with
  | none => simp [membersStopAt, Shape.isBroken]
  | some shape =>
    cases shape with
    | list kind => simp [stopsAt, stops, Shape.isBroken, membersStopAt, TypeTable.memberPlace]
    | map key kind => exact stopsEntries_eq t kind ms
    | torn entry value =>
      cases value with
      | none => simp [stopsAt, Shape.isBroken, Shape.lacksValue]
      | some kind => exact stopsEntries_eq t kind ms
    | single kind =>
      cases kind with
      | scalar | enum =>
        simp [stopsAt, stops, Shape.isBroken, membersStopAt, TypeTable.memberPlace]
      | message name =>
        cases ht : t.message? name <;>
          simp [stopsAt, stops, Shape.isBroken, membersStopAt, TypeTable.memberPlace, ht,
            stopsMembers_eq]

/-- Tells by its place whether the name of an enum is lost. -/
abbrev Lost := Option Shape → String → String → Bool

/-- A value is a name that is lost. The program gets to it. -/
def isLost (lost : Lost) (place : Option Shape) (shape : Shape) : Json → Bool
  | .str s =>
    match shape with
    | .single (.enum name) => !Shape.isBroken place && lost place name s
    | _ => false
  | _ => false

section

variable (t : TypeTable) (lost : Lost)

mutual

/-- A value of a shape without the members, items and entries that are lost names. -/
def without (place : Option Shape) (shape : Shape) : Json → Json
  | .arr vs =>
    match shape with
    | .list kind => .arr (withoutItems (Shape.itemPlace place) kind vs)
    | _ => .arr vs
  | .obj ms =>
    match shape with
    | .map key kind => .obj (withoutEntries place key kind ms)
    | .single (.message name) =>
      match WellKnown.ofName? name with
      | some .any =>
        match FromJson.anyType t (spelledMembersAt t place ms) with
        | .ok (_, type) =>
          if (WellKnown.ofName? type.name).isSome then .obj (withoutInner place type.name ms)
          else .obj (withoutMembers place type (some FromJson.typeKey) ms)
        | .error _ => .obj ms
      | some _ => .obj ms
      | none =>
        match t.message? name with
        | some type => .obj (withoutMembers place type none ms)
        | none => .obj ms
    | _ => .obj ms
  | j => j

def withoutItems (place : Option Shape) (kind : Kind) : List Json → List Json
  | [] => []
  | v :: vs =>
    if isLost lost place (.single kind) v then withoutItems place kind vs
    else without place (.single kind) v :: withoutItems place kind vs

/-- The entries of a map. One whose key is not read stays. -/
def withoutEntries (place : Option Shape) (key kind : Kind) :
    List (String × Json) → List (String × Json)
  | [] => []
  | (k, v) :: rest =>
    if isLost lost (t.memberPlace place k) (.single kind) v && (FromJson.mapKey key k).isOk then
      withoutEntries place key kind rest
    else
      (k, without (t.memberPlace place k) (.single kind) v) :: withoutEntries place key kind rest

/-- The members of a message, `skip` aside. -/
def withoutMembers (place : Option Shape) (type : MessageType) (skip : Option String) :
    List (String × Json) → List (String × Json)
  | [] => []
  | (k, v) :: rest =>
    if skip == some k then (k, v) :: withoutMembers place type skip rest
    else
      match FromJson.fieldFor? t type k with
      | none => (k, v) :: withoutMembers place type skip rest
      | some f =>
        if isLost lost (t.memberPlace place k) (t.shape f) v then
          withoutMembers place type skip rest
        else
          (k, without (t.memberPlace place k) (t.shape f) v) ::
            withoutMembers place type skip rest

/-- The members of a message of any type around one with a text form of its own. -/
def withoutInner (place : Option Shape) (name : String) :
    List (String × Json) → List (String × Json)
  | [] => []
  | (k, v) :: rest =>
    if k == "value" then
      (k, without (t.memberPlace place k) (.single (.message name)) v) :: rest
    else (k, v) :: withoutInner place name rest

end

/-- The JSON value of a message of a type without the names that are lost. -/
def withoutLost (name : String) (j : Json) : Json :=
  j.without t lost (some (.single (.message name))) (.single (.message name))

end

end Json

namespace FromJson

open Json (Lost isLost spelledMembersAt spelledMembersAt_cons)

/-- What is lost is not found where it is read. -/
def Unread (t : TypeTable) (lost : Lost) : Prop :=
  ∀ place name s, lost place name s = true →
    enum t name ((Json.str s).spelledAt t place) = .ok none

variable {t : TypeTable} {lost : Lost}

theorem anyType_congr {ms ms' : List (String × Json)}
    (h : Json.get? typeKey ms = Json.get? typeKey ms') : anyType t ms = anyType t ms' := by
  unfold anyType
  rw [h]

theorem value_enum (t : TypeTable) (name : String) (j : Json) :
    value t (.single (.enum name)) j = enum t name j := by
  cases j <;> simp [value]

/-- A name that is lost gives no value. -/
theorem value_lost (hl : Unread t lost) {place : Option Shape} {shape : Shape} {j : Json}
    (h : isLost lost place shape j = true) :
    j ≠ .null ∧ value t shape (j.spelledAt t place) = .ok none := by
  unfold isLost at h
  split at h
  · split at h
    · rename_i s _ name
      obtain ⟨-, h⟩ := Bool.and_eq_true_iff.mp h
      exact ⟨by simp, (value_enum t name _).trans (hl place name s h)⟩
    · cases h
  · cases h

/-- The program does not stop over a name that is lost. -/
theorem stopsAt_lost {place : Option Shape} {shape : Shape} {j : Json}
    (h : isLost lost place shape j = true) : j.stopsAt t place = false := by
  unfold isLost at h
  split at h
  · split at h
    · obtain ⟨h, -⟩ := Bool.and_eq_true_iff.mp h
      rw [Json.stopsAt_str]
      simpa using h
    · cases h
  · cases h

theorem member_at_lost (hl : Unread t lost) {place : Option Shape} {f : Field} {j : Json}
    (h : isLost lost place (t.shape f) j = true) :
    member t f (j.spelledAt t place) = .ok none := by
  obtain ⟨hj, hv⟩ := value_lost hl h
  rw [member_eq_value fun he => hj ((Json.spelledAt_eq_null j).mp he), hv]

theorem without_eq_null (place : Option Shape) (shape : Shape) (j : Json) :
    j.without t lost place shape = .null ↔ j = .null := by
  cases j with
  | arr vs =>
    unfold Json.without
    split <;> simp
  | obj ms =>
    unfold Json.without
    repeat' split
    all_goals simp
  | null | bool | int | double | single | str => simp [Json.without]

theorem member_without {place : Option Shape} {f : Field} {j : Json}
    (h : value t (t.shape f) ((j.without t lost place (t.shape f)).spelledAt t place) =
      value t (t.shape f) (j.spelledAt t place)) :
    member t f ((j.without t lost place (t.shape f)).spelledAt t place) =
      member t f (j.spelledAt t place) := by
  by_cases hj : j = .null
  · rw [hj, (without_eq_null place (t.shape f) .null).mpr rfl]
  · have hj' : j.without t lost place (t.shape f) ≠ .null :=
      fun he => hj ((without_eq_null _ _ j).mp he)
    rw [member_eq_value fun he => hj' ((Json.spelledAt_eq_null _).mp he),
      member_eq_value fun he => hj ((Json.spelledAt_eq_null j).mp he), h]

/-- The type that a message of any type names stays. -/
theorem get?_withoutMembers (lost : Lost) (place : Option Shape) (type : MessageType)
    (ms : List (String × Json)) :
    Json.get? typeKey
        (spelledMembersAt t place (Json.withoutMembers t lost place type (some typeKey) ms)) =
      Json.get? typeKey (spelledMembersAt t place ms) := by
  induction ms with
  | nil => rfl
  | cons m ms ih =>
    obtain ⟨k, v⟩ := m
    by_cases hk : k = typeKey
    · subst hk
      rw [Json.withoutMembers, beq_self_eq_true]
      simp [Json.get?]
    · have hskip : (some typeKey == some k) = false := by simpa using Ne.symm hk
      have hget (v : Json) (ms : List (String × Json)) :
          Json.get? typeKey (spelledMembersAt t place ((k, v) :: ms)) =
            Json.get? typeKey (spelledMembersAt t place ms) := by
        simp [Json.get?, hk]
      rw [hget, ← ih, Json.withoutMembers, hskip]
      simp only [Bool.false_eq_true, ↓reduceIte]
      split
      · exact hget _ _
      · split
        · rfl
        · exact hget _ _

theorem get?_withoutInner (lost : Lost) (place : Option Shape) (name : String)
    (ms : List (String × Json)) :
    Json.get? typeKey (spelledMembersAt t place (Json.withoutInner t lost place name ms)) =
      Json.get? typeKey (spelledMembersAt t place ms) := by
  induction ms with
  | nil => rfl
  | cons m ms ih =>
    obtain ⟨k, v⟩ := m
    unfold Json.withoutInner
    split
    · rename_i hk
      obtain rfl := beq_iff_eq.mp hk
      simp [Json.get?, typeKey]
    · rw [spelledMembersAt_cons, spelledMembersAt_cons, Json.get?, Json.get?, ih]

mutual

/-- A value is read as if lost names were left out. -/
theorem value_without (hl : Unread t lost) (place : Option Shape) (shape : Shape) :
    ∀ j : Json, value t shape ((j.without t lost place shape).spelledAt t place) =
      value t shape (j.spelledAt t place)
  | .arr vs => by
    cases shape with
    | list kind =>
      simp only [Json.without, Json.spelledAt_arr, value, items_without hl _ kind vs]
    | single | map | torn => simp only [Json.without]
  | .obj ms => by
    cases shape with
    | list | torn => simp only [Json.without]
    | map key kind =>
      simp only [Json.without, Json.spelledAt_obj, value, entries_without hl place key kind ms]
    | single kind =>
      cases kind with
      | scalar | enum => simp only [Json.without]
      | message name =>
        have hmembers (type : MessageType) (skip : Option String) :=
          members_without hl place type skip ms .empty
        cases hw : WellKnown.ofName? name with
        | none =>
          cases ht : t.message? name with
          | none => simp only [Json.without, hw, ht]
          | some type =>
            simp only [Json.without, hw, ht, Json.spelledAt_obj, value, hmembers type none]
        | some w =>
          cases w with
          | any =>
            -- the inner type is looked up among the members that are left
            cases hany : anyType t (spelledMembersAt t place ms) with
            | error e => simp only [Json.without, hw, hany]
            | ok named =>
              obtain ⟨url, type⟩ := named
              cases hspecial : (WellKnown.ofName? type.name).isSome with
              | true =>
                have hany' := (anyType_congr (get?_withoutInner lost place type.name ms)).trans hany
                simp only [Json.without, hw, hany, hspecial, ↓reduceIte, Json.spelledAt_obj, value,
                  hany', bind, Except.bind, anyMember_without hl place type.name ms]
              | false =>
                have hany' := (anyType_congr (get?_withoutMembers lost place type ms)).trans hany
                simp only [Json.without, hw, hany, hspecial, Bool.false_eq_true, ↓reduceIte,
                  Json.spelledAt_obj, value, hany', bind, Except.bind,
                  hmembers type (some typeKey)]
          | _ => simp only [Json.without, hw]
  | .str _ | .null | .bool _ | .int _ | .double _ | .single _ => by simp only [Json.without]
termination_by j => sizeOf j

theorem items_without (hl : Unread t lost) (place : Option Shape) (kind : Kind) :
    ∀ vs : List Json,
      items t kind ((Json.withoutItems t lost place kind vs).map (Json.spelledAt t place)) =
        items t kind (vs.map (Json.spelledAt t place))
  | [] => by rw [Json.withoutItems]
  | v :: vs => by
    have hv := value_without hl place (.single kind) v
    have hrest := items_without hl place kind vs
    unfold Json.withoutItems
    split
    · rename_i h
      rw [hrest, List.map_cons, items, (value_lost hl h).2]
      simp only [bind, Except.bind, pure, Except.pure, Option.toList_none, List.nil_append]
      cases items t kind (vs.map (Json.spelledAt t place)) <;> rfl
    · simp only [List.map_cons, items, hv, hrest]
termination_by vs => sizeOf vs

theorem entries_without (hl : Unread t lost) (place : Option Shape) (key kind : Kind) :
    ∀ ms : List (String × Json),
      entries t key kind (spelledMembersAt t place (Json.withoutEntries t lost place key kind ms)) =
        entries t key kind (spelledMembersAt t place ms)
  | [] => by rw [Json.withoutEntries]
  | (k, v) :: ms => by
    have hv := value_without hl (t.memberPlace place k) (.single kind) v
    have hrest := entries_without hl place key kind ms
    unfold Json.withoutEntries
    split
    · rename_i h
      obtain ⟨hlost, hkey⟩ := Bool.and_eq_true_iff.mp h
      rw [hrest, spelledMembersAt_cons, entries, (value_lost hl hlost).2]
      -- a key that is not read is an error whatever the value is
      cases hk : mapKey key k with
      | error e => simp [hk, Except.isOk, Except.toBool] at hkey
      | ok k =>
        simp only [bind, Except.bind, pure, Except.pure]
        cases entries t key kind (spelledMembersAt t place ms) <;> rfl
    · simp only [spelledMembersAt_cons, entries, hv, hrest]
termination_by ms => sizeOf ms

theorem members_without (hl : Unread t lost) (place : Option Shape) (type : MessageType)
    (skip : Option String) :
    ∀ (ms : List (String × Json)) (m : Message),
      members t type skip
          (spelledMembersAt t place (Json.withoutMembers t lost place type skip ms)) m =
        members t type skip (spelledMembersAt t place ms) m
  | [], m => by rw [Json.withoutMembers]
  | (k, v) :: ms, m => by
    have hrest := members_without hl place type skip ms
    unfold Json.withoutMembers
    split
    · rename_i hk
      simp only [spelledMembersAt_cons, members, hk, ↓reduceIte, hrest]
    · rename_i hk
      have hk : (skip == some k) = false := Bool.eq_false_of_not_eq_true hk
      cases hf : fieldFor? t type k with
      | none =>
        simp only [spelledMembersAt_cons]
        rw [members_cons hk, members_cons hk]
        simp only [hf, hrest]
      | some f =>
        have hv := value_without hl (t.memberPlace place k) (t.shape f) v
        simp only
        split
        · rename_i hlost
          rw [hrest, spelledMembersAt_cons, members_cons hk]
          simp only [hf, member_at_lost hl hlost, assign, bind, Except.bind]
        · simp only [spelledMembersAt_cons]
          rw [members_cons hk, members_cons hk]
          simp only [hf, member_without hv, hrest]
termination_by ms => sizeOf ms

theorem anyMember_without (hl : Unread t lost) (place : Option Shape) (name : String) :
    ∀ ms : List (String × Json),
      anyMember t name (spelledMembersAt t place (Json.withoutInner t lost place name ms)) =
        anyMember t name (spelledMembersAt t place ms)
  | [] => by rw [Json.withoutInner]
  | (k, v) :: ms => by
    have hrest := anyMember_without hl place name ms
    have hv := value_without hl (t.memberPlace place k) (.single (.message name)) v
    unfold Json.withoutInner
    split
    · rename_i hk
      simp only [spelledMembersAt_cons, anyMember, hk, ↓reduceIte, hv]
    · rename_i hk
      simp only [spelledMembersAt_cons, anyMember, hk, Bool.false_eq_true, ↓reduceIte, hrest]
termination_by ms => sizeOf ms

end

end FromJson

namespace Json

variable {t : TypeTable} {lost : Lost}

mutual

/-- The program stops over a value if it does so when lost names are left out. -/
theorem stopsAt_without (place : Option Shape) (shape : Shape) :
    ∀ j : Json, (j.without t lost place shape).stopsAt t place = j.stopsAt t place
  | .arr vs => by
    unfold without
    split
    · simp only [stopsAt_arr, any_withoutItems]
    · rfl
  | .obj ms => by
    unfold without
    split
    · simp only [stopsAt_obj, membersStopAt_withoutEntries]
    · split
      · split
        · split
          · simp only [stopsAt_obj, membersStopAt_withoutInner]
          · simp only [stopsAt_obj, membersStopAt_withoutMembers]
        · rfl
      · rfl
      · split
        · simp only [stopsAt_obj, membersStopAt_withoutMembers]
        · rfl
    · rfl
  | .str _ | .null | .bool _ | .int _ | .double _ | .single _ => by simp only [without]

theorem any_withoutItems (place : Option Shape) (kind : Kind) :
    ∀ vs : List Json, (withoutItems t lost place kind vs).any (stopsAt t place) =
      vs.any (stopsAt t place)
  | [] => by rw [withoutItems]
  | v :: vs => by
    have hrest := any_withoutItems place kind vs
    unfold withoutItems
    split
    · rename_i h
      simp [hrest, FromJson.stopsAt_lost h]
    · simp only [List.any_cons, hrest, stopsAt_without place (.single kind) v]

theorem membersStopAt_withoutEntries (place : Option Shape) (key kind : Kind) :
    ∀ ms : List (String × Json), membersStopAt t place (withoutEntries t lost place key kind ms) =
      membersStopAt t place ms
  | [] => by rw [withoutEntries]
  | (k, v) :: ms => by
    have hrest := membersStopAt_withoutEntries place key kind ms
    unfold withoutEntries
    split
    · rename_i h
      simp [hrest, FromJson.stopsAt_lost (Bool.and_eq_true_iff.mp h).1]
    · simp only [membersStopAt_cons, hrest,
        stopsAt_without (t.memberPlace place k) (.single kind) v]

theorem membersStopAt_withoutMembers (place : Option Shape) (type : MessageType)
    (skip : Option String) :
    ∀ ms : List (String × Json), membersStopAt t place (withoutMembers t lost place type skip ms) =
      membersStopAt t place ms
  | [] => by rw [withoutMembers]
  | (k, v) :: ms => by
    have hrest := membersStopAt_withoutMembers place type skip ms
    unfold withoutMembers
    split
    · simp only [membersStopAt_cons, hrest]
    · split
      · simp only [membersStopAt_cons, hrest]
      · rename_i f _
        split
        · rename_i h
          simp [hrest, FromJson.stopsAt_lost h]
        · simp only [membersStopAt_cons, hrest,
            stopsAt_without (t.memberPlace place k) (t.shape f) v]

theorem membersStopAt_withoutInner (place : Option Shape) (name : String) :
    ∀ ms : List (String × Json), membersStopAt t place (withoutInner t lost place name ms) =
      membersStopAt t place ms
  | [] => by rw [withoutInner]
  | (k, v) :: ms => by
    unfold withoutInner
    split
    · simp only [membersStopAt_cons, stopsAt_without (t.memberPlace place k) _ v]
    · simp only [membersStopAt_cons, membersStopAt_withoutInner place name ms]

end

end Json

/-- A text is read as the text without the names that are lost: as the same message, or it is
refused for the same reason. -/
theorem Message.fromText_without {t : TypeTable} {lost : Json.Lost} (hl : FromJson.Unread t lost)
    {name text text' : String} {j : Json} (hj : Json.read text = .ok j)
    (hj' : Json.read text' = .ok (j.withoutLost t lost name)) :
    fromText t name text = fromText t name text' := by
  have hv := FromJson.value_without hl (some (.single (.message name))) (.single (.message name)) j
  have hm : ofJson t name ((j.withoutLost t lost name).spelled t (.single (.message name))) =
      ofJson t name (j.spelled t (.single (.message name))) := by
    simp only [ofJson, FromJson.message, Json.withoutLost, Json.spelledAt] at hv ⊢
    rw [hv]
  have hstops : (j.withoutLost t lost name).stops t (.single (.message name)) =
      j.stops t (.single (.message name)) :=
    Json.stopsAt_without (some (.single (.message name))) (.single (.message name)) j
  simp only [fromText, hj, hj', hm, hstops]

end RpcConsole

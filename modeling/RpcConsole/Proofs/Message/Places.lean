import RpcConsole.Proofs.Message.Cleared
import RpcConsole.Proofs.Message.FormFree
import RpcConsole.Proofs.Message.Omitted

namespace RpcConsole

/-- A step from a value to one inside it. -/
inductive Step where
  | field (number : Nat)
  | item (index : Nat)
  | entry (key : MapKey)
  deriving Repr, DecidableEq

namespace Json

/-- Null stands for nothing. -/
def isNothing (t : TypeTable) (f : Field) (j : Json) : Bool :=
  match j, FromJson.null t f with
  | .null, .ok none => true
  | _, _ => false

/-- The last member of a message that gives a field of a number a value. -/
def memberAt? (t : TypeTable) (type : MessageType) (number : Nat) :
    List (String × Json) → Option (Field × Json)
  | [] => none
  | (key, j) :: rest =>
    (memberAt? t type number rest).or
      (((FromJson.fieldFor? t type key).filter fun f =>
        f.number == number && !isNothing t f j).map (·, j))

/-- The last entry of a key. -/
def entryAt? (kind : Kind) (key : MapKey) : List (String × Json) → Option Json
  | [] => none
  | (name, j) :: rest =>
    (entryAt? kind key rest).or
      (if (FromJson.mapKey kind name).toOption = some key then some j else none)

/-- One step down a JSON value of a shape, through lists, maps, and messages without a form of text
of their own. -/
def step? (t : TypeTable) : Shape × Json → Step → Option (Shape × Json)
  | (.list kind, .arr js), .item i => js[i]?.map (.single kind, ·)
  | (.map key kind, .obj ms), .entry k => (entryAt? key k ms).map (.single kind, ·)
  | (.single (.message name), .obj ms), .field number =>
    match WellKnown.ofName? name, t.message? name with
    | none, some type => (memberAt? t type number ms).map fun (f, j) => (t.shape f, j)
    | _, _ => none
  | _, _ => none

/-- The ways of going down from a JSON value. -/
inductive StepsTo (t : TypeTable) : Shape × Json → Step → Shape × Json → Prop where
  | item {kind : Kind} {js : List Json} {i : Nat} {j : Json} (h : js[i]? = some j) :
      StepsTo t (.list kind, .arr js) (.item i) (.single kind, j)
  | entry {key kind : Kind} {ms : List (String × Json)} {k : MapKey} {j : Json}
      (h : entryAt? key k ms = some j) :
      StepsTo t (.map key kind, .obj ms) (.entry k) (.single kind, j)
  | field {name : String} {type : MessageType} {ms : List (String × Json)} {number : Nat}
      {f : Field} {j : Json} (hname : WellKnown.ofName? name = none)
      (ht : t.message? name = some type) (h : memberAt? t type number ms = some (f, j)) :
      StepsTo t (.single (.message name), .obj ms) (.field number) (t.shape f, j)

theorem stepsTo_of_step? {step : Step} {shape shape' : Shape} {j j' : Json}
    (h : step? t (shape, j) step = some (shape', j')) : StepsTo t (shape, j) step (shape', j') := by
  unfold step? at h
  split at h
  · rename_i he
    cases he
    obtain ⟨i, hi, he⟩ := Option.map_eq_some_iff.mp h
    cases he
    exact .item hi
  · rename_i he
    cases he
    obtain ⟨i, hi, he⟩ := Option.map_eq_some_iff.mp h
    cases he
    exact .entry hi
  · rename_i he
    cases he
    split at h
    · rename_i hname ht
      obtain ⟨⟨f, i⟩, hi, he⟩ := Option.map_eq_some_iff.mp h
      cases he
      exact .field hname ht hi
    · cases h
  · cases h

/-- The JSON value at a place inside another one. -/
def at? (t : TypeTable) (place : List Step) (j : Shape × Json) : Option (Shape × Json) :=
  place.foldlM (step? t) j

theorem at?_nil (t : TypeTable) (j : Shape × Json) : at? t [] j = some j :=
  List.foldlM_nil

theorem at?_cons (t : TypeTable) (step : Step) (place : List Step) (j : Shape × Json) :
    at? t (step :: place) j = (step? t j step).bind (at? t place) :=
  List.foldlM_cons

end Json

namespace Value

/-- One step down a value of a shape. A field for which nothing is stored has its default. -/
def step? (t : TypeTable) : Shape × Value → Step → Option (Shape × Value)
  | (.list kind, .list vs), .item i => vs[i]?.map (.single kind, ·)
  | (.map _ kind, .map es), .entry k => (es.lookup k).map (.single kind, ·)
  | (.single (.message name), .message _ m), .field number => do
    let type ← t.message? name
    let f ← t.fieldNumbered? type number
    return (t.shape f, t.valueOf f m)
  | _, _ => none

/-- The ways of going down from a value. -/
inductive StepsTo (t : TypeTable) : Shape × Value → Step → Shape × Value → Prop where
  | item {kind : Kind} {vs : List Value} {i : Nat} {v : Value} (h : vs[i]? = some v) :
      StepsTo t (.list kind, .list vs) (.item i) (.single kind, v)
  | entry {key kind : Kind} {es : List (MapKey × Value)} {k : MapKey} {v : Value}
      (h : es.lookup k = some v) : StepsTo t (.map key kind, .map es) (.entry k) (.single kind, v)
  | field {name held : String} {type : MessageType} {m : Message} {number : Nat} {f : Field}
      (ht : t.message? name = some type) (hf : t.fieldNumbered? type number = some f) :
      StepsTo t (.single (.message name), .message held m) (.field number)
        (t.shape f, t.valueOf f m)

theorem stepsTo_of_step? {step : Step} {shape shape' : Shape} {v v' : Value}
    (h : step? t (shape, v) step = some (shape', v')) :
    StepsTo t (shape, v) step (shape', v') := by
  unfold step? at h
  split at h
  · rename_i he
    cases he
    obtain ⟨w, hw, he⟩ := Option.map_eq_some_iff.mp h
    cases he
    exact .item hw
  · rename_i he
    cases he
    obtain ⟨w, hw, he⟩ := Option.map_eq_some_iff.mp h
    cases he
    exact .entry hw
  · rename_i he
    cases he
    obtain ⟨type, ht, h⟩ := Option.bind_eq_some_iff.mp h
    obtain ⟨f, hf, he⟩ := Option.bind_eq_some_iff.mp h
    cases he
    exact .field ht hf
  · cases h

/-- The value at a place inside another one. -/
def at? (t : TypeTable) (place : List Step) (v : Shape × Value) : Option (Shape × Value) :=
  place.foldlM (step? t) v

theorem at?_cons (t : TypeTable) (step : Step) (place : List Step) (v : Shape × Value) :
    at? t (step :: place) v = (step? t v step).bind (at? t place) :=
  List.foldlM_cons

end Value

namespace Message

variable {number n : Nat} {v : Value} {known : List (Nat × Value)}

theorem lookup_insertField_self : (insertField number v known).lookup number = some v := by
  induction known with
  | nil => simp [insertField]
  | cons e rest ih =>
    obtain ⟨k, w⟩ := e
    unfold insertField
    split
    · simp
    · split
      · simp
      · rename_i hne
        rw [List.lookup_cons, Bool.eq_false_of_not_eq_true hne]
        exact ih

theorem lookup_insertField_ne (h : n ≠ number) :
    (insertField number v known).lookup n = known.lookup n := by
  have hn : (n == number) = false := beq_eq_false_iff_ne.mpr h
  induction known with
  | nil => simp [insertField, List.lookup_cons, hn]
  | cons e rest ih =>
    obtain ⟨k, w⟩ := e
    unfold insertField
    split
    · rw [List.lookup_cons, hn]
    · split
      · rename_i he
        obtain rfl := beq_iff_eq.mp he
        rw [List.lookup_cons, hn, List.lookup_cons, hn]
      · rw [List.lookup_cons, ih, List.lookup_cons]

theorem lookup_filter {p : Nat → Bool} (hp : p n = true) :
    (known.filter fun e => p e.1).lookup n = known.lookup n := by
  induction known with
  | nil => rfl
  | cons e rest ih =>
    obtain ⟨k, w⟩ := e
    by_cases hk : n = k
    · subst hk
      simp [hp]
    · have hne : (n == k) = false := beq_eq_false_iff_ne.mpr hk
      rw [List.lookup_cons, hne, ← ih, List.filter_cons]
      split
      · rw [List.lookup_cons, hne]
      · rfl

end Message

namespace Value

variable {k l : MapKey} {v : Value} {es : List (MapKey × Value)}

theorem lookup_insertEntry_self : (insertEntry k v es).lookup k = some v := by
  induction es with
  | nil => simp [insertEntry]
  | cons e rest ih =>
    obtain ⟨l, w⟩ := e
    unfold insertEntry
    split
    · simp
    · split
      · simp
      · rename_i hne
        rw [List.lookup_cons, Bool.eq_false_of_not_eq_true hne]
        exact ih

theorem lookup_insertEntry_ne (h : l ≠ k) : (insertEntry k v es).lookup l = es.lookup l := by
  have hl : (l == k) = false := beq_eq_false_iff_ne.mpr h
  induction es with
  | nil => simp [insertEntry, List.lookup_cons, hl]
  | cons e rest ih =>
    obtain ⟨k', w⟩ := e
    unfold insertEntry
    split
    · rw [List.lookup_cons, hl]
    · split
      · rename_i he
        obtain rfl := beq_iff_eq.mp he
        rw [List.lookup_cons, hl, List.lookup_cons, hl]
      · rw [List.lookup_cons, ih, List.lookup_cons]

end Value

namespace FromJson

variable {t : TypeTable} {type : MessageType} {f : Field} {m m' : Message} {j : Json}
variable {place : Option Shape} {kind key : Kind}

/-- What is read is a value, except for an enum. -/
theorem value_some {shape : Shape} {v : Option Value} (h : value t shape j = .ok v)
    (henum : ∀ name, shape ≠ .single (.enum name)) : ∃ w, v = some w := by
  by_cases hw : ∀ name, shape = .single (.message name) → WellKnown.ofName? name = none
  · cases reads_of_value hw h with
    | message | map | list | scalar => exact ⟨_, rfl⟩
    | enum => exact absurd rfl (henum _)
  · push Not at hw
    obtain ⟨name, rfl, hname⟩ := hw
    obtain ⟨w, hw⟩ := Option.ne_none_iff_exists'.mp hname
    have hmessage {x : Except TextFault Message}
        (h : (do return some (.message name (← x)) : Except TextFault (Option Value)) = .ok v) :
        ∃ w, v = some w := by
      obtain ⟨m, -, h⟩ := bind_eq_ok.mp h
      exact ⟨_, (pure_eq_ok.mp h).symm⟩
    cases j with
    | obj ms =>
      cases w with
      | any =>
        simp only [value, hw] at h
        obtain ⟨⟨url, type⟩, -, h⟩ := bind_eq_ok.mp h
        simp only at h
        split at h
        · obtain ⟨inner, -, h⟩ := bind_eq_ok.mp h
          exact hmessage h
        · obtain ⟨inner, -, h⟩ := bind_eq_ok.mp h
          exact hmessage h
      | _ => exact hmessage (by simpa only [value, hw] using h)
    | _ => exact hmessage (by simpa only [value, hw] using h)

theorem items_at {js : List Json} {vs : List Value} {i : Nat}
    (henum : ∀ name, kind ≠ .enum name) (h : items t kind js = .ok vs) (hj : js[i]? = some j) :
    ∃ v, value t (.single kind) j = .ok (some v) ∧ vs[i]? = some v := by
  induction js generalizing vs i with
  | nil => simp at hj
  | cons j' js ih =>
    obtain ⟨o, hv, h⟩ := bind_eq_ok.mp h
    obtain ⟨rest, hrest, h⟩ := bind_eq_ok.mp h
    cases pure_eq_ok.mp h
    obtain ⟨v, rfl⟩ := value_some hv fun name he => henum name (Shape.single.inj he)
    cases i with
    | zero =>
      obtain rfl := Option.some.inj hj
      exact ⟨v, hv, rfl⟩
    | succ i =>
      obtain ⟨w, hw, hi⟩ := ih hrest hj
      exact ⟨w, hw, hi⟩

theorem entries_at {ms : List (String × Json)} {es : List (MapKey × Value)} {k : MapKey}
    (henum : ∀ name, kind ≠ .enum name)
    (h : entries t key kind (Json.spelledMembersAt t place ms) = .ok es) :
    (Json.entryAt? key k ms = none → es.lookup k = none) ∧
      ∀ j, Json.entryAt? key k ms = some j → ∃ v name,
        value t (.single kind) (j.spelledAt t (t.memberPlace place name)) = .ok (some v) ∧
          es.lookup k = some v := by
  induction ms generalizing es with
  | nil =>
    cases h
    exact ⟨fun _ => rfl, fun j hj => by cases hj⟩
  | cons e ms ih =>
    obtain ⟨name, j⟩ := e
    rw [Json.spelledMembersAt_cons] at h
    obtain ⟨k', o, rest, hk, hv, hrest, hstored⟩ := entries_cons_ok h
    obtain ⟨v, rfl⟩ := value_some hv fun name he => henum name (Shape.single.inj he)
    obtain ⟨hnone, hsome⟩ := ih hrest
    have hlookup : es.lookup k = (rest.lookup k).or (if k' = k then some v else none) := by
      rcases hstored with ⟨rfl, hheld⟩ | ⟨w, hw, hfree, rfl⟩
      · split
        · subst_vars
          rw [Option.or_of_isSome (hheld rfl)]
        · rw [Option.or_none]
      · obtain rfl := Option.some.inj hw
        split
        · subst_vars
          rw [Value.lookup_insertEntry_self, hfree, Option.none_or]
        · rename_i hne
          rw [Value.lookup_insertEntry_ne (Ne.symm hne), Option.or_none]
    have hkey : (mapKey key name).toOption = some k' := by rw [hk]; rfl
    simp only [Json.entryAt?, hkey, Option.some.injEq]
    cases hrestAt : Json.entryAt? key k ms with
    | some j' =>
      obtain ⟨w, name', hw, hl⟩ := hsome j' hrestAt
      refine ⟨fun he => by simp at he, fun i hi => ?_⟩
      obtain rfl : j' = i := by simpa using hi
      exact ⟨w, name', hw, by rw [hlookup, hl, Option.some_or]⟩
    | none =>
      rw [hnone hrestAt, Option.none_or] at hlookup
      rw [Option.none_or, hlookup]
      split
      · refine ⟨nofun, fun i hi => ?_⟩
        obtain rfl := Option.some.inj hi
        exact ⟨v, name, hv, rfl⟩
      · exact ⟨fun _ => rfl, nofun⟩

/-- The entries of a map have the keys of the members, those with the name of an enum value aside
if this name is not declared. -/
theorem entries_keys {ms : List (String × Json)} {es : List (MapKey × Value)}
    (h : entries t key kind ms = .ok es) :
    (∀ k ∈ es.map Prod.fst, ∃ p ∈ ms, mapKey key p.1 = .ok k) ∧
      ∀ p ∈ ms, ∃ k v, mapKey key p.1 = .ok k ∧
        value t (.single kind) p.2 = .ok v ∧ (v.isSome = true → (es.lookup k).isSome = true) := by
  induction ms generalizing es with
  | nil =>
    cases h
    simp
  | cons p ms ih =>
    obtain ⟨name, j⟩ := p
    obtain ⟨k, o, rest, hk, hv, hrest, hstored⟩ := entries_cons_ok h
    obtain ⟨hkeys, hmembers⟩ := ih hrest
    have hkept {l : MapKey} (hl : (rest.lookup l).isSome = true) :
        (es.lookup l).isSome = true := by
      rcases hstored with ⟨rfl, -⟩ | ⟨v, -, -, rfl⟩
      · exact hl
      · by_cases he : l = k
        · rw [he, Value.lookup_insertEntry_self]
          rfl
        · rwa [Value.lookup_insertEntry_ne he]
    constructor
    · intro l hl
      have hl : l = k ∨ l ∈ rest.map Prod.fst := by
        rcases hstored with ⟨rfl, -⟩ | ⟨v, -, -, rfl⟩
        · exact .inr hl
        · obtain ⟨e, he, rfl⟩ := List.mem_map.mp hl
          rcases Value.mem_insertEntry he with rfl | he
          · exact .inl rfl
          · exact .inr (List.mem_map_of_mem he)
      rcases hl with rfl | hl
      · exact ⟨_, List.mem_cons_self, hk⟩
      · obtain ⟨p, hp, hpk⟩ := hkeys l hl
        exact ⟨p, List.mem_cons_of_mem _ hp, hpk⟩
    · refine List.forall_mem_cons.mpr ⟨⟨k, o, hk, hv, fun ho => ?_⟩, fun p hp => ?_⟩
      · rcases hstored with ⟨rfl, hheld⟩ | ⟨v, -, -, rfl⟩
        · exact hheld ho
        · rw [Value.lookup_insertEntry_self]
          rfl
      · obtain ⟨l, v, hl, hread, hin⟩ := hmembers p hp
        exact ⟨l, v, hl, hread, fun hv => hkept (hin hv)⟩

/-- No other member of a oneof is stored where one can be stored. -/
theorem find?_rival (hs : t.Sound) (ht : type ∈ t.messages) {g : Field} (hg : g ∈ type.rivals f)
    (htaken : takenOneof? t type f m = none) : m.find? g.number = none := by
  obtain ⟨hmem, hsome, honeof, -⟩ := MessageType.mem_rivals.mp hg
  obtain ⟨i, hi⟩ := Option.isSome_iff_exists.mp hsome
  by_contra hne
  obtain ⟨v, hv⟩ := Option.ne_none_iff_exists'.mp hne
  have hpresence := (hs.field type ht g hmem).oneof (by rw [honeof, hi]; rfl)
  have hset : t.isSet g m = true := by simp [TypeTable.isSet, hv, TypeTable.isRedundant, hpresence]
  have hany : type.fields.any (fun g => g.oneof == some i && t.isSet g m) = true :=
    List.any_eq_true.mpr ⟨g, hmem, by simp [honeof, hi, hset]⟩
  simp [takenOneof?, hi, hany] at htaken

/-- What is stored after a value was stored for a field. -/
theorem assign_find? (hs : t.Sound) (ht : type ∈ t.messages) {v : Option Value}
    (h : assign t type f v m = .ok m') (n : Nat) :
    m'.find? n = (if f.number = n then v else none).or (m.find? n) := by
  unfold assign at h
  split at h
  · cases h
    simp
  · cases h
  · rename_i w htaken
    cases h
    rw [MessageType.store_eq]
    unfold Message.find?
    split
    · subst_vars
      rw [Message.lookup_insertField_self, Option.some_or]
    · rename_i hne
      rw [Message.lookup_insertField_ne (Ne.symm hne), Option.none_or]
      by_cases hrival : n ∈ (type.rivals f).map Field.number
      · obtain ⟨g, hg, rfl⟩ := List.mem_map.mp hrival
        have hnone := find?_rival hs ht hg htaken
        rw [Message.find?] at hnone
        rw [hnone]
        rw [List.lookup_eq_none_iff] at hnone ⊢
        exact fun e he => hnone e (List.mem_filter.mp he).1
      · refine Message.lookup_filter
          (p := fun k => !((type.rivals f).map Field.number).contains k) ?_
        simpa using hrival

/-- Null stands for nothing, or a member is read as a value of its field. -/
theorem member_cases {v : Option Value} (h : member t f (j.spelledAt t place) = .ok v) :
    (Json.isNothing t f j = true ∧ v = none) ∨
      Json.isNothing t f j = false ∧
        (j ≠ .null → value t (t.shape f) (j.spelledAt t place) = .ok v) := by
  by_cases hj : j = .null
  · subst hj
    rw [(Json.spelledAt_eq_null .null).mpr rfl] at h
    have hnull : null t f = .ok v := h
    cases v with
    | none => exact .inl ⟨by simp [Json.isNothing, hnull], rfl⟩
    | some w => exact .inr ⟨by simp [Json.isNothing, hnull], fun hne => absurd rfl hne⟩
  · rw [member_eq_value fun he => hj ((Json.spelledAt_eq_null j).mp he)] at h
    refine .inr ⟨?_, fun _ => h⟩
    unfold Json.isNothing
    split
    · exact absurd rfl hj
    · rfl

theorem memberAt?_field {ms : List (String × Json)} {n : Nat}
    (h : Json.memberAt? t type n ms = some (f, j)) :
    (∃ key, fieldFor? t type key = some f) ∧ f.number = n := by
  induction ms with
  | nil => cases h
  | cons e ms ih =>
    obtain ⟨key, i⟩ := e
    rcases Option.or_eq_some_iff.mp h with h | ⟨-, h⟩
    · exact ih h
    · obtain ⟨g, hg, he⟩ := Option.map_eq_some_iff.mp h
      cases he
      obtain ⟨hf, hp⟩ := Option.filter_eq_some_iff.mp hg
      exact ⟨⟨key, hf⟩, beq_iff_eq.mp (Bool.and_eq_true_iff.mp hp).1⟩

/-- What is stored for a number is what its last member gives. -/
theorem members_at (hs : t.Sound) (ht : type ∈ t.messages) {ms : List (String × Json)} {n : Nat}
    (h : members t type none (Json.spelledMembersAt t place ms) m = .ok m') :
    (Json.memberAt? t type n ms = none → m'.find? n = m.find? n) ∧
      ∀ f j, Json.memberAt? t type n ms = some (f, j) → j ≠ .null →
        (∀ name, t.shape f ≠ .single (.enum name)) →
          ∃ v name, value t (t.shape f) (j.spelledAt t (t.memberPlace place name)) =
            .ok (some v) ∧ m'.find? n = some v := by
  induction ms generalizing m with
  | nil =>
    cases h
    exact ⟨fun _ => rfl, fun f j he => by cases he⟩
  | cons e ms ih =>
    obtain ⟨key, j⟩ := e
    rw [Json.spelledMembersAt_cons, members_cons rfl] at h
    cases hf : fieldFor? t type key with
    | none =>
      simp only [hf] at h
      simpa [Json.memberAt?, hf] using ih h
    | some f =>
      simp only [hf] at h
      obtain ⟨v, hv, h⟩ := bind_eq_ok.mp h
      obtain ⟨m₁, hm₁, h⟩ := bind_eq_ok.mp h
      obtain ⟨hnone, hsome⟩ := ih h
      have hfind := assign_find? hs ht hm₁ n
      simp only [Json.memberAt?, hf]
      cases hrest : Json.memberAt? t type n ms with
      | some e =>
        obtain ⟨g, i⟩ := e
        refine ⟨fun he => by simp at he, fun g' i' he => ?_⟩
        obtain ⟨rfl, rfl⟩ : g = g' ∧ i = i' := by simpa using he
        exact hsome g i hrest
      | none =>
        have hkept := hnone hrest
        rw [Option.none_or]
        rcases member_cases hv with ⟨hnothing, rfl⟩ | ⟨hvalued, hvalue⟩
        · rw [ite_self, Option.none_or] at hfind
          simp [hnothing, hkept, hfind]
        · by_cases hn : f.number = n
          · have hkeep : (Option.some f).filter (fun f => f.number == n &&
                !Json.isNothing t f j) = some f := by simp [hn, hvalued]
            rw [hkeep]
            refine ⟨nofun, fun g i he hi henum => ?_⟩
            obtain ⟨rfl, rfl⟩ : f = g ∧ j = i := by simpa using he
            have hread := hvalue hi
            obtain ⟨w, rfl⟩ := value_some hread henum
            refine ⟨w, key, hread, ?_⟩
            rw [hkept, hfind, if_pos hn, Option.some_or]
          · rw [if_neg hn, Option.none_or] at hfind
            simp [hn, hkept, hfind]

/-- One step down: what the JSON value has there is read as what the value has there. -/
theorem step_read (hs : t.Sound) (hreg : t.Regular) {shape shape' : Shape} {j' : Json} {v : Value}
    {step : Step} (hv : value t shape (j.spelledAt t place) = .ok (some v))
    (hstep : Json.step? t (shape, j) step = some (shape', j')) (hj : j' ≠ .null)
    (henum : ∀ name, shape' ≠ .single (.enum name)) :
    ∃ v' place', Value.step? t (shape, v) step = some (shape', v') ∧
      value t shape' (j'.spelledAt t place') = .ok (some v') := by
  cases Json.stepsTo_of_step? hstep with
  | @item kind js i _ hi =>
    rw [Json.spelledAt_arr] at hv
    obtain ⟨vs, hvs, he⟩ := bind_eq_ok.mp hv
    cases pure_eq_ok.mp he
    obtain ⟨w, hw, hat⟩ := items_at (fun name hk => henum name (by rw [hk])) hvs
      (j := j'.spelledAt t (Shape.itemPlace place)) (i := i) (by simp [hi])
    exact ⟨w, _, by simp [Value.step?, hat], hw⟩
  | entry hi =>
    rw [Json.spelledAt_obj] at hv
    obtain ⟨es, hes, he⟩ := bind_eq_ok.mp hv
    cases pure_eq_ok.mp he
    obtain ⟨w, name, hw, hat⟩ :=
      (entries_at (fun name hk => henum name (by rw [hk])) hes).2 j' hi
    exact ⟨w, _, by simp [Value.step?, hat], hw⟩
  | field hname ht hi =>
    rw [Json.spelledAt_obj] at hv
    simp only [value, hname, ht] at hv
    obtain ⟨m, hm, he⟩ := bind_eq_ok.mp hv
    cases pure_eq_ok.mp he
    have htype := TypeTable.message?_mem ht
    obtain ⟨w, key, hw, hat⟩ := (members_at hs htype hm).2 _ j' hi hj henum
    obtain ⟨⟨key, hf⟩, rfl⟩ := memberAt?_field hi
    have hnumber := fieldFor_numbered hs hreg htype hf
    refine ⟨w, _, ?_, hw⟩
    simp [Value.step?, ht, hnumber, TypeTable.valueOf, hat]

/-- There is no step down from null or from an enum. -/
theorem step?_none {shape : Shape} {step : Step}
    (h : j = .null ∨ ∃ name, shape = .single (.enum name)) :
    Json.step? t (shape, j) step = none := by
  rw [Option.eq_none_iff_forall_ne_some]
  rintro ⟨shape', j'⟩ hstep
  rcases h with rfl | ⟨name, rfl⟩
  · cases Json.stepsTo_of_step? hstep
  · cases Json.stepsTo_of_step? hstep

/-- What a JSON value has at a place is read as what the value has there. -/
theorem at_read (hs : t.Sound) (hreg : t.Regular) {shape' : Shape} {j' : Json} (hj : j' ≠ .null)
    (henum : ∀ name, shape' ≠ .single (.enum name)) (steps : List Step) :
    ∀ {shape : Shape} {j : Json} {v : Value} {place : Option Shape},
      value t shape (j.spelledAt t place) = .ok (some v) →
      Json.at? t steps (shape, j) = some (shape', j') →
      ∃ v' place', Value.at? t steps (shape, v) = some (shape', v') ∧
        value t shape' (j'.spelledAt t place') = .ok (some v') := by
  induction steps with
  | nil =>
    intro shape j v place hv hat
    cases hat
    exact ⟨v, place, rfl, hv⟩
  | cons step steps ih =>
    intro shape j v place hv hat
    rw [Json.at?_cons] at hat
    obtain ⟨⟨shape₁, j₁⟩, hstep, hat⟩ := Option.bind_eq_some_iff.mp hat
    -- nothing is below null or an enum, so neither is on the way
    have hdown : ¬ (j₁ = .null ∨ ∃ name, shape₁ = .single (.enum name)) := by
      intro hstop
      cases steps with
      | nil =>
        cases hat
        rcases hstop with hnull | ⟨name, hname⟩
        · exact hj hnull
        · exact henum name hname
      | cons step₁ steps =>
        rw [Json.at?_cons, step?_none hstop] at hat
        cases hat
    push Not at hdown
    obtain ⟨v₁, place₁, hv₁, hread⟩ := step_read hs hreg hv hstep hdown.1 hdown.2
    obtain ⟨v', place', hv', hread'⟩ := ih hread hat
    refine ⟨v', place', ?_, hread'⟩
    rw [Value.at?_cons, hv₁]
    exact hv'

end FromJson
end RpcConsole

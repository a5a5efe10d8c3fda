import RpcConsole.Proofs.Message.Places
import RpcConsole.Proofs.Message.Steady

namespace RpcConsole

/-- Whether a JSON value has a form that a built-in type takes. -/
def Scalar.takesForm (s : Scalar) : Json → Bool
  | .bool _ => s == .bool
  | .str _ => s != .bool
  | .int _ | .double _ | .single _ => s != .bool && s != .string && s != .bytes
  | .null | .arr _ | .obj _ => false

/-- Whether a JSON value has a form that a kind takes. A message with a form of text of its own is
not spoken of. -/
def Kind.takesForm : Kind → Json → Bool
  | .scalar s, j => s.takesForm j
  | .enum _, .int _ | .enum _, .double _ | .enum _, .single _ | .enum _, .str _ => true
  | .enum _, _ => false
  | .message _, .obj _ => true
  | .message name, _ => (WellKnown.ofName? name).isSome

/-- Whether a JSON value has a form that a shape takes. -/
def Shape.takesForm : Shape → Json → Bool
  | .single kind, j => kind.takesForm j
  | .list _, .arr _ => true
  | .map _ _, .obj _ | .torn _ _, .obj _ => true
  | .list _, _ | .map _ _, _ | .torn _ _, _ => false

/-- In a JSON value of a shape there is a value other than null of a form that is not taken where it
stands. It is reached through items, entries, and members that mean fields of a message without a
form of text of its own. -/
inductive Mismatched (t : TypeTable) : Shape → Json → Prop where
  | here {shape : Shape} {j : Json} (hj : j ≠ .null) (h : shape.takesForm j = false) :
      Mismatched t shape j
  | item {kind : Kind} {js : List Json} {j : Json} (hj : j ∈ js)
      (h : Mismatched t (.single kind) j) : Mismatched t (.list kind) (.arr js)
  | entry {key kind : Kind} {ms : List (String × Json)} {k : String} {j : Json}
      (hj : (k, j) ∈ ms) (h : Mismatched t (.single kind) j) :
      Mismatched t (.map key kind) (.obj ms)
  | member {name : String} {type : MessageType} {ms : List (String × Json)} {k : String}
      {f : Field} {j : Json} (hname : WellKnown.ofName? name = none)
      (ht : t.message? name = some type) (hj : (k, j) ∈ ms)
      (hf : FromJson.fieldFor? t type k = some f) (h : Mismatched t (t.shape f) j) :
      Mismatched t (.single (.message name)) (.obj ms)

variable {t : TypeTable} {shape : Shape} {j : Json}

theorem Mismatched.ne_null (h : Mismatched t shape j) : j ≠ .null := by
  cases h with
  | here hj _ => exact hj
  | item | entry | member => simp

/-- The spelling of enum names keeps the form of a value. -/
theorem Shape.takesForm_spelledAt (t : TypeTable) (place : Option Shape) (shape : Shape)
    (j : Json) : shape.takesForm (j.spelledAt t place) = shape.takesForm j := by
  cases j with
  | arr js =>
    rw [Json.spelledAt_arr]
    rcases shape with (_ | _ | _) | _ | _ | _ <;> rfl
  | obj ms =>
    rw [Json.spelledAt_obj]
    rcases shape with (_ | _ | _) | _ | _ | _ <;> rfl
  | str s =>
    obtain ⟨s', hs'⟩ : ∃ s', (Json.str s).spelledAt t place = .str s' := by
      unfold Json.spelledAt Json.spelled
      repeat' split
      all_goals simp_all
    rw [hs']
    rcases shape with (_ | _ | _) | _ | _ | _ <;> rfl
  | null | bool | int | double | single => cases place <;> simp [Json.spelledAt, Json.spelled]

namespace FromJson

theorem scalar_takesForm {s : Scalar} {v : Value} (h : scalar s j = .ok v) :
    s.takesForm j = true := by
  cases s <;> cases j <;> first | rfl | cases h

theorem enum_takesForm {name : String} {v : Option Value} (hj : j ≠ .null)
    (h : enum t name j = .ok v) : (Kind.enum name).takesForm j = true := by
  cases j with
  | null => exact absurd rfl hj
  | bool | arr | obj => cases h
  | int | str | double | single => rfl

theorem reads_takesForm {v : Option Value} (hj : j ≠ .null) (h : Reads t shape j v) :
    shape.takesForm j = true := by
  cases h with
  | message | map | list => rfl
  | scalar h => exact scalar_takesForm h
  | enum h => exact enum_takesForm hj h

/-- What is read has a form that is taken. -/
theorem value_takesForm {v : Option Value} (hj : j ≠ .null) (h : value t shape j = .ok v) :
    shape.takesForm j = true := by
  by_cases hw : ∀ name, shape = .single (.message name) → WellKnown.ofName? name = none
  · exact reads_takesForm hj (reads_of_value hw h)
  · push Not at hw
    obtain ⟨name, rfl, hname⟩ := hw
    have hsome := Option.isSome_iff_ne_none.mpr hname
    cases j <;> first | rfl | exact hsome

/-- All items of a list that is read are read. -/
theorem items_read {kind : Kind} {js : List Json} {vs : List Value} (h : items t kind js = .ok vs)
    (hj : j ∈ js) : ∃ v, value t (.single kind) j = .ok v := by
  induction js generalizing vs with
  | nil => cases hj
  | cons i js ih =>
    obtain ⟨v, hv, h⟩ := bind_eq_ok.mp h
    obtain ⟨rest, hrest, -⟩ := bind_eq_ok.mp h
    rcases List.mem_cons.mp hj with rfl | hj
    · exact ⟨v, hv⟩
    · exact ih hrest hj

theorem members_read {type : MessageType} {ms : List (String × Json)} {m m' : Message} {k : String}
    {f : Field} (h : members t type none ms m = .ok m') (hj : (k, j) ∈ ms)
    (hf : fieldFor? t type k = some f) : ∃ v, member t f j = .ok v := by
  induction ms generalizing m with
  | nil => cases hj
  | cons e ms ih =>
    obtain ⟨key, i⟩ := e
    rw [members_cons rfl] at h
    rcases List.mem_cons.mp hj with he | hj
    · cases he
      simp only [hf] at h
      obtain ⟨v, hv, -⟩ := bind_eq_ok.mp h
      exact ⟨v, hv⟩
    · cases hg : fieldFor? t type key with
      | none =>
        simp only [hg] at h
        exact ih h hj
      | some g =>
        simp only [hg] at h
        obtain ⟨v, -, h⟩ := bind_eq_ok.mp h
        obtain ⟨m₁, -, h⟩ := bind_eq_ok.mp h
        exact ih h hj

/-- A value with another one in it that does not have the form that is wanted is not read. -/
theorem value_mismatched (h : Mismatched t shape j) (place : Option Shape) (v : Option Value) :
    value t shape (j.spelledAt t place) ≠ .ok v := by
  induction h generalizing place v with
  | @here shape j hj h =>
    intro hv
    have htakes := value_takesForm (fun he => hj ((Json.spelledAt_eq_null j).mp he)) hv
    rw [Shape.takesForm_spelledAt, h] at htakes
    cases htakes
  | item hj _ ih =>
    intro hv
    rw [Json.spelledAt_arr] at hv
    obtain ⟨vs, hvs, -⟩ := bind_eq_ok.mp hv
    obtain ⟨w, hw⟩ := items_read hvs (List.mem_map_of_mem hj)
    exact ih _ w hw
  | @entry _ _ _ k _ hj _ ih =>
    intro hv
    rw [Json.spelledAt_obj] at hv
    obtain ⟨es, hes, -⟩ := bind_eq_ok.mp hv
    obtain ⟨_, w, -, hw, -⟩ := (entries_keys hes).2 _ (List.mem_map_of_mem hj)
    exact ih _ w hw
  | @member name type ms k f j hname ht hj hf hmis ih =>
    intro hv
    rw [Json.spelledAt_obj] at hv
    simp only [value, hname, ht] at hv
    obtain ⟨m, hm, -⟩ := bind_eq_ok.mp hv
    obtain ⟨w, hw⟩ := members_read hm (List.mem_map_of_mem hj) hf
    rw [member_eq_value fun he => hmis.ne_null ((Json.spelledAt_eq_null j).mp he)] at hw
    exact ih _ w hw

end FromJson

namespace Message

theorem ofText_cases (e : TextFault) :
    MessageError.ofText e = .stopped ∨ ∃ fault, MessageError.ofText e = .invalidText fault := by
  cases e with
  | stopped => exact .inl rfl
  | _ => exact .inr ⟨_, rfl⟩

/-- A text in which some value does not have the form that is wanted where it stands, in a field, a
list or a map at any depth, stands for no message, and neither does one that is not read as JSON. It
is refused as invalid, or the program stops; it does not if the type leads to no form of text of its
own and all entries of maps have a key and a value. -/
theorem fromText_mismatched {name text : String}
    (h : ∀ j, Json.read text = .ok j → Mismatched t (.single (.message name)) j) :
    ∃ e, fromText t name text = .error e ∧ (e = .stopped ∨ ∃ fault, e = .invalidText fault) ∧
      (t.FormFree name → t.Whole name → e ≠ .stopped) := by
  unfold fromText
  cases hj : Json.read text with
  | error e => exact ⟨_, rfl, .inr ⟨_, rfl⟩, fun _ _ => by simp⟩
  | ok j =>
    dsimp only
    cases hstops : j.stops t (.single (.message name)) with
    | true =>
      refine ⟨_, rfl, .inl rfl, fun _ hwhole => ?_⟩
      rw [Json.stops_whole _ hwhole.kind] at hstops
      cases hstops
    | false =>
      have hno := FromJson.value_mismatched (h j hj) (some (.single (.message name)))
      cases hv : FromJson.value t (.single (.message name))
          (j.spelledAt t (some (.single (.message name)))) with
      | ok v => exact absurd hv (hno v)
      | error e =>
        refine ⟨.ofText e, ?_, ofText_cases e, fun hfree hwhole => MessageError.ofText_ne ?_⟩
        · simp only [Json.spelledAt] at hv
          simp only [Bool.false_eq_true, ↓reduceIte, ofJson, FromJson.message, hv, bind,
            Except.bind]
        · rintro rfl
          have hsteady : t.Steady name := ⟨hwhole, .inl hfree⟩
          exact FromJson.value_answers (.single (.message name)) hsteady.kind (by simp) _ hv

/-- Messages in a list and in a map, and a number. -/
def treeSource : String :=
  "message M{repeated M l=1;map<string,M> m=2;optional int32 n=3;}"

/-- A number, and a value in place of one in a map in a list. -/
def treeJson (j : Json) : Json :=
  .obj [("l", .arr [.obj [], .obj [("m", .obj [("k", .obj [("n", j)])])]]), ("n", .int 1)]

theorem read_treeJson : Json.read (treeJson (.bool true)).pretty = .ok (treeJson (.bool true)) := by
  have hplain : (treeJson (.bool true)).IsPlain := by
    simp [treeJson, Json.IsPlain, Json.ArePlain, Json.ArePlainMembers]
  have hlevels : (treeJson (.bool true)).levels < Json.depthLimit := by
    simp [treeJson, Json.levels, Json.levelsOf, Json.levelsOfMembers, Json.depthLimit]
  exact Json.read_pretty hplain hlevels

theorem fromText_mismatched_tree :
    ∃ s e, Schema.load (.ofFile "a.proto" treeSource) "/a.proto" [] = .ok s ∧
      fromText s.types "M" (treeJson (.bool true)).pretty = .error (.invalidText e) := by
  have h : ∃ s ∈ (Schema.load (.ofFile "a.proto" treeSource) "/a.proto" []).toOption,
      (∀ type ∈ s.types.messages, ∀ f ∈ s.types.fieldsOf type, f.kind.form?.isNone) ∧
      s.types.Regular ∧ ∃ type ∈ s.types.message? "M",
        (∃ f ∈ FromJson.fieldFor? s.types type "l", s.types.shape f = .list (.message "M")) ∧
        (∃ f ∈ FromJson.fieldFor? s.types type "m",
          s.types.shape f = .map (.scalar .string) (.message "M")) ∧
        ∃ f ∈ FromJson.fieldFor? s.types type "n", s.types.shape f = .single (.scalar .int32) := by
    decide +kernel
  obtain ⟨s, hs, hforms, hreg, type, ht, ⟨l, hl, hls⟩, ⟨m, hm, hms⟩, n, hn, hns⟩ := h
  have hname : WellKnown.ofName? "M" = none := by decide
  have hnumber : Mismatched s.types (s.types.shape n) (.bool true) := by
    rw [hns]
    exact .here (by simp) rfl
  have hmap : Mismatched s.types (s.types.shape m) (.obj [("k", .obj [("n", .bool true)])]) := by
    rw [hms]
    exact .entry (.head _) (.member hname ht (.head _) hn hnumber)
  have hlist : Mismatched s.types (s.types.shape l)
      (.arr [.obj [], .obj [("m", .obj [("k", .obj [("n", .bool true)])])]]) := by
    rw [hls]
    exact .item (.tail _ (.head _)) (.member hname ht (.head _) hm hmap)
  have hroot : Mismatched s.types (.single (.message "M")) (treeJson (.bool true)) :=
    .member hname ht (.head _) hl hlist
  have hread : ∀ j, Json.read (treeJson (.bool true)).pretty = .ok j →
      Mismatched s.types (.single (.message "M")) j := by
    intro j hj
    rw [read_treeJson] at hj
    cases hj
    exact hroot
  obtain ⟨e, he, hcases, hno⟩ := fromText_mismatched hread
  obtain ⟨fault, rfl⟩ := hcases.resolve_left (hno (.all hname hforms) (hreg.whole "M"))
  exact ⟨s, fault, ok_of_mem hs, he⟩

/-- A map whose entries, marked as such by hand, have no value. -/
def tornSource : String :=
  "syntax=\"proto3\";message E{option map_entry=true;}message M{repeated E b=1;int32 n=2;}"

/-- Such a map, and something that is no number in place of one. -/
def tornJson : Json :=
  .obj [("b", .obj []), ("n", .bool true)]

/-- The program stops at such a map, whatever is wrong behind it. -/
theorem mismatch_stops :
    ∃ s, Schema.load (.ofFile "a.proto" tornSource) "/a.proto" [] = .ok s ∧
      s.types.FormFree "M" ∧ Json.read tornJson.pretty = .ok tornJson ∧
      Mismatched s.types (.single (.message "M")) tornJson ∧
      fromText s.types "M" tornJson.pretty = .error .stopped := by
  have hread : Json.read tornJson.pretty = .ok tornJson := by
    refine Json.read_pretty ?_ ?_
    · simp [tornJson, Json.IsPlain, Json.ArePlainMembers]
    · simp [tornJson, Json.levels, Json.levelsOfMembers, Json.depthLimit]
  have h : ∃ s ∈ (Schema.load (.ofFile "a.proto" tornSource) "/a.proto" []).toOption,
      (∀ type ∈ s.types.messages, ∀ f ∈ s.types.fieldsOf type, f.kind.form?.isNone) ∧
      tornJson.stops s.types (.single (.message "M")) = true ∧
      ∃ type ∈ s.types.message? "M", ∃ f ∈ FromJson.fieldFor? s.types type "n",
        s.types.shape f = .single (.scalar .int32) := by
    decide +kernel
  obtain ⟨s, hs, hforms, hstops, type, ht, n, hn, hns⟩ := h
  have hname : WellKnown.ofName? "M" = none := by decide
  have hnumber : Mismatched s.types (s.types.shape n) (.bool true) := by
    rw [hns]
    exact .here (by simp) rfl
  refine ⟨s, ok_of_mem hs, .all hname hforms, hread,
    .member hname ht (.tail _ (.head _)) hn hnumber, ?_⟩
  simp only [fromText, hread, hstops, ↓reduceIte]

end Message
end RpcConsole

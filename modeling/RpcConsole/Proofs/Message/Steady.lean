import RpcConsole.Proofs.Message.Parsed
import RpcConsole.Proofs.Message.Whole
import RpcConsole.Proofs.WellKnown.Holds
import RpcConsole.Proofs.Wire.Answers
import RpcConsole.Proofs.Wire.Holds

namespace RpcConsole

theorem TextFault.ofWire_ne {e : Wire.Fault} (h : e ≠ .stopped) : ofWire e ≠ .stopped := by
  cases e <;> simp_all [ofWire]

theorem RenderFault.ofWire_ne {e : Wire.Fault} (h : e ≠ .stopped) : ofWire e ≠ .stopped := by
  cases e <;> simp_all [ofWire]

namespace MessageError

theorem ofText_ne {e : TextFault} (h : e ≠ .stopped) : ofText e ≠ .stopped := by
  cases e <;> simp_all [ofText]

theorem ofRender_ne {e : RenderFault} (h : e ≠ .stopped) : ofRender e ≠ .stopped := by
  cases e <;> simp_all [ofRender]

theorem ofWire_ne {e : Wire.Fault} (h : e ≠ .stopped) : ofWire e ≠ .stopped := by
  cases e <;> simp_all [ofWire]

end MessageError

variable {t : TypeTable}

namespace TypeTable

/-- The program does not stop over values of a type: it leads to whole entries of maps only, and to
no form of text of its own unless the schema is as the definitions of these forms expect. -/
def Steady (t : TypeTable) (name : String) : Prop :=
  t.Whole name ∧ (t.FormFree name ∨ t.Sound ∧ t.Regular)

def SteadyKind (t : TypeTable) (kind : Kind) : Prop :=
  ∀ name, kind = .message name → t.Steady name

variable {type : MessageType} {name : String} {f : Field}

theorem Steady.kind (h : t.Steady name) : t.SteadyKind (.message name) := by
  rintro _ ⟨⟩
  exact h

theorem Regular.steady (hs : t.Sound) (hreg : t.Regular) (name : String) : t.Steady name :=
  ⟨hreg.whole name, .inr ⟨hs, hreg⟩⟩

theorem Steady.item (h : t.Steady name) (ht : t.message? name = some type)
    (hf : f ∈ t.fieldsOf type) : t.SteadyKind (t.shape f).item := by
  intro inner hi
  refine ⟨h.1.item ht hf inner hi, h.2.imp (fun hfree => ?_) id⟩
  exact hfree.item ht hf inner hi

theorem Steady.field (h : t.Steady name) (ht : t.message? name = some type)
    (hf : f ∈ t.fieldsOf type) : t.SteadyKind f.kind := by
  intro inner hk
  exact ⟨fun n other hn => h.1 n other (.head ⟨type, ht, f, hf, hk⟩ hn),
    h.2.imp (fun hfree => hfree.field ht hf inner hk) id⟩

/-- A type with a form of text of its own is found only where the schema is regular. -/
theorem Steady.regular (h : t.Steady name) {w : WellKnown} (hw : WellKnown.ofName? name = some w) :
    t.Sound ∧ t.Regular := by
  refine h.2.resolve_left fun hfree => ?_
  rw [hfree name .refl] at hw
  cases hw

end TypeTable

namespace FromJson

theorem ofInteger_answers (r : IntRange) (n : Int) : Avoids .stopped (r.ofInteger n) := by
  unfold IntRange.ofInteger
  repeat' split
  all_goals simp

theorem ofBinary64_answers (r : IntRange) (x : Binary64) : Avoids .stopped (r.ofBinary64 x) := by
  unfold IntRange.ofBinary64
  dsimp only
  repeat' split
  all_goals simp

theorem ofText_answers (r : IntRange) (s : String) : Avoids .stopped (r.ofText s) := by
  unfold IntRange.ofText
  split <;> simp

theorem spelled_answers (s : String) : Avoids .stopped (Spelled.ofText s) := by
  unfold Spelled.ofText
  repeat' split
  all_goals simp

theorem scalar_answers (s : Scalar) (j : Json) : Avoids .stopped (scalar s j) := by
  unfold scalar
  split
  · unfold intOf
    split
    · exact (ofInteger_answers _ _).map
    · exact (ofBinary64_answers _ _).map
    · exact (ofText_answers _ _).map
    · exact .error (by simp)
  · unfold doubleOf
    split
    · exact .ok _
    · exact .ok _
    · exact (spelled_answers _).map
    · exact .error (by simp)
  · unfold singleOf
    split
    · exact .ok _
    · split <;> simp
    · exact (spelled_answers _).map
    · exact .error (by simp)
  · unfold bytesOf
    repeat' split
    all_goals simp
  · split
    · exact .ok _
    · exact .ok _
    · exact .error (by simp)

theorem enum_answers (t : TypeTable) (name : String) (j : Json) :
    Avoids .stopped (enum t name j) := by
  unfold enum
  split
  · exact .ok _
  · split
    · exact .error (by simp)
    · exact (ofInteger_answers _ _).map
  · split <;> simp
  · exact .error (by simp)

theorem mapKey_answers (kind : Kind) (key : String) : Avoids .stopped (mapKey kind key) := by
  unfold mapKey
  split
  · repeat' split
    all_goals simp
  · split
    · exact (ofText_answers _ _).map
    · exact .ok _
  · exact .ok _

open WellKnown (HasForm types valueName hasForm holds_cons holds_nil plain_holds texts_hold)

/-- What the definitions of the forms of text can hold passes into the schema. -/
theorem settle_answers (hreg : t.Regular) {name : String} {m : Message}
    (h : Wire.messageHolds types name m = true) : Avoids .stopped (settle t name m) := by
  unfold settle WellKnown.transfer
  cases ht : t.message? name with
  | none => exact .ok _
  | some type =>
    have hread := Wire.readMessage_answers hreg type (Wire.message types name m)
    simp only [Wire.message?, h, ↓reduceIte]
    split
    · exact .ok _
    · rename_i e he
      exact hread.relay he TextFault.ofWire_ne

theorem time_answers (hreg : t.Regular) {name : String} (seconds nanos : Int)
    (h : WellKnown.HasField name 1 (.single (.scalar .int64)) ∧
      WellKnown.HasField name 2 (.single (.scalar .int32))) :
    Avoids .stopped (settle t name (timeMessage seconds nanos)) :=
  settle_answers hreg <| holds_cons _ h.1 (fun _ hf => plain_holds hf (by simp) rfl) <|
    holds_cons _ h.2 (fun _ hf => plain_holds hf (by simp) rfl) (holds_nil _)

theorem wellKnown_answers (hreg : t.Regular) {name : String} {w : WellKnown}
    (hw : WellKnown.ofName? name = some w) (j : Json) : Avoids .stopped (wellKnown t name w j) := by
  have hform := hasForm hw
  cases w with
  | value =>
    obtain rfl := hform
    exact settle_answers hreg (anyValue_holds j)
  | struct =>
    obtain rfl := hform
    cases j with
    | obj ms => exact settle_answers hreg (struct_holds ms)
    | _ => exact .error (by simp)
  | listValue =>
    obtain rfl := hform
    cases j with
    | arr vs => exact settle_answers hreg (list_holds vs)
    | _ => exact .error (by simp)
  | wrapper s =>
    refine (scalar_answers s j).bind fun v hv => settle_answers hreg ?_
    have htakes : (Kind.scalar s).Takes v := scalar_takes hv
    exact holds_cons _ hform (fun _ hf => plain_holds hf (by simp) (Wire.holds_of_takes htakes))
      (holds_nil _)
  | empty =>
    cases j with
    | obj ms =>
      simp only [wellKnown]
      split <;> simp
    | _ => exact .error (by simp)
  | timestamp =>
    cases j with
    | str s =>
      simp only [wellKnown]
      split
      · exact time_answers hreg _ _ hform
      · exact .error (by simp)
    | _ => exact .error (by simp)
  | duration =>
    cases j with
    | str s =>
      simp only [wellKnown]
      split
      · exact time_answers hreg _ _ hform
      · exact .error (by simp)
    | _ => exact .error (by simp)
  | fieldMask =>
    cases j with
    | str s =>
      simp only [wellKnown]
      split
      · exact settle_answers hreg (holds_cons _ hform (fun _ hf => texts_hold hf _) (holds_nil _))
      · exact .error (by simp)
    | _ => exact .error (by simp)
  | any => exact .error (by simp)

theorem null_answers {f : Field} (h : t.SteadyKind f.kind) : Avoids .stopped (null t f) := by
  unfold null
  split
  · rename_i name hk
    split
    · rename_i hname
      obtain rfl := beq_iff_eq.mp hname
      obtain ⟨-, hreg⟩ := (h _ hk).regular (w := .value) (by decide)
      exact (settle_answers hreg (anyValue_holds .null)).bind fun _ _ => .ok _
    · exact .ok _
  · exact .ok _
  · exact .ok _

/-- A message of a kind that has a form of text of its own, or none at all, in place of something
that is no object. -/
theorem special_answers {name : String} (h : t.Steady name) (j : Json) :
    Avoids .stopped (match WellKnown.ofName? name with
      | some w => do return some (.message name (← wellKnown t name w j))
      | none => .error (.unexpected j "a map") : Except TextFault (Option Value)) := by
  split
  · rename_i w hname
    exact (wellKnown_answers (h.regular hname).2 hname j).bind fun _ _ => .ok _
  · exact .error (by simp)

theorem anyType_answers (t : TypeTable) (ms : List (String × Json)) :
    Avoids .stopped (anyType t ms) := by
  unfold anyType
  repeat' split
  all_goals simp

/-- The type that is named in a message of any type is found under its own name. -/
theorem anyType_message {ms : List (String × Json)} {url : String} {type : MessageType}
    (h : anyType t ms = .ok (url, type)) : t.message? type.name = some type := by
  unfold anyType at h
  repeat' split at h
  all_goals cases h
  rename_i ht
  rw [TypeTable.message?_name ht]
  exact ht

theorem wrapAny_answers (hreg : t.Regular) {name url inner : String} {type : MessageType}
    {m : Message} (hname : WellKnown.ofName? name = some .any) (ht : t.message? inner = some type)
    (hm : m.Fits t type) : Avoids .stopped (wrapAny t name url inner m) := by
  obtain ⟨hurl, hbytes⟩ := hasForm hname
  simp only [wrapAny, Wire.message?, Wire.messageHolds_of_fits ht m hm, ↓reduceIte]
  exact settle_answers hreg <| holds_cons _ hurl (fun _ hf => plain_holds hf (by simp) rfl) <|
    holds_cons _ hbytes (fun _ hf => plain_holds hf (by simp) rfl) (holds_nil _)

theorem assign_answers (t : TypeTable) (type : MessageType) (f : Field) (v : Option Value)
    (m : Message) : Avoids .stopped (assign t type f v m) := by
  unfold assign
  split <;> simp

/-- The message inside one of any type, where it has a form of text of its own. -/
theorem anyMember_fits (hs : t.Sound) (hreg : t.Regular) {name : String} {type : MessageType}
    (ht : t.message? name = some type) {ms : List (String × Json)} {m : Message}
    (h : anyMember t name ms = .ok m) : m.Fits t type := by
  induction ms with
  | nil => cases h
  | cons e ms ih =>
    obtain ⟨k, j⟩ := e
    rw [anyMember] at h
    split at h
    · obtain ⟨v, hv, h⟩ := bind_eq_ok.mp h
      split at h
      · cases pure_eq_ok.mp h
        exact (value_message hs hreg ht hv).2
      · cases h
    · exact ih h

mutual

/-- The program does not stop over a value of a kind, unless it is taken for a map whose entries
lack a key or a value. -/
theorem value_answers (shape : Shape) (h : t.SteadyKind shape.item)
    (hshape : ∀ entry value, shape ≠ .torn entry value) :
    ∀ j : Json, Avoids .stopped (value t shape j)
  | .obj ms => by
    unfold value
    cases shape with
    | torn entry value => exact absurd rfl (hshape entry value)
    | map key kind => exact (entries_answers h key ms).bind fun _ _ => .ok _
    | list => exact .error (by simp)
    | single kind =>
      cases kind with
      | scalar s => exact (scalar_answers s _).map
      | enum name => exact enum_answers t name _
      | message name =>
        have hsteady := h name rfl
        dsimp only
        split
        · rename_i hname
          obtain ⟨hs, hreg⟩ := hsteady.regular hname
          -- what is inside is written with its own type, whatever types the outer one leads to
          refine (anyType_answers t ms).bind fun r hr => ?_
          have ht := anyType_message hr
          have hinner := hreg.steady hs r.2.name
          split
          · exact (anyMember_answers hinner ms).bind fun m hm =>
              (wrapAny_answers hreg hname ht (anyMember_fits hs hreg ht hm)).bind fun _ _ => .ok _
          · have htype := TypeTable.message?_mem ht
            have hfit := members_fit hs hreg r.2 htype (some typeKey) ms .empty
            exact (members_answers hinner ht (some typeKey) ms .empty).bind fun m hm =>
              (wrapAny_answers hreg hname ht (hfit m (Message.empty_fits t r.2) hm)).bind
                fun _ _ => .ok _
        · rename_i w _ hname
          exact (wellKnown_answers (hsteady.regular hname).2 hname _).bind fun _ _ => .ok _
        · cases ht : t.message? name with
          | none => exact .error (by simp)
          | some type => exact (members_answers hsteady ht none ms _).bind fun _ _ => .ok _
  | .arr vs => by
    unfold value
    cases shape with
    | map | torn => exact .error (by simp)
    | list kind => exact (items_answers h vs).bind fun _ _ => .ok _
    | single kind =>
      cases kind with
      | scalar s => exact (scalar_answers s _).map
      | enum name => exact enum_answers t name _
      | message name => exact special_answers (h name rfl) _
  | .null | .bool _ | .int _ | .double _ | .single _ | .str _ => by
    unfold value
    cases shape with
    | map | torn | list => exact .error (by simp)
    | single kind =>
      cases kind with
      | scalar s => exact (scalar_answers s _).map
      | enum name => exact enum_answers t name _
      | message name => exact special_answers (h name rfl) _

theorem items_answers {kind : Kind} (h : t.SteadyKind kind) :
    ∀ vs : List Json, Avoids .stopped (items t kind vs)
  | [] => .ok _
  | v :: vs =>
    (value_answers (.single kind) h nofun v).bind fun _ _ =>
      (items_answers h vs).bind fun _ _ => .ok _

theorem entries_answers {kind : Kind} (h : t.SteadyKind kind) (key : Kind) :
    ∀ ms : List (String × Json), Avoids .stopped (entries t key kind ms)
  | [] => .ok _
  | (k, v) :: ms => by
    rw [entries]
    refine (mapKey_answers key k).bind fun _ _ =>
      (value_answers (.single kind) h nofun v).bind fun w _ =>
        (entries_answers h key ms).bind fun rest _ => ?_
    cases w with
    | none => exact .ok _
    | some w =>
      dsimp only
      split <;> exact .ok _

theorem members_answers {name : String} {type : MessageType} (h : t.Steady name)
    (ht : t.message? name = some type) (skip : Option String) :
    ∀ (ms : List (String × Json)) (m : Message), Avoids .stopped (members t type skip ms m)
  | [], _ => .ok _
  | (k, j) :: ms, m => by
    cases hk : skip == some k with
    | true =>
      rw [members, hk]
      exact members_answers h ht skip ms m
    | false =>
      rw [members_cons hk]
      cases hf : fieldFor? t type k with
      | none => exact members_answers h ht skip ms m
      | some f =>
        have hmem := TypeTable.fieldFor?_mem hf
        have hread : Avoids .stopped (member t f j) := by
          by_cases hj : j = .null
          · rw [hj]
            exact null_answers (h.field ht hmem)
          · rw [member_eq_value hj]
            exact value_answers _ (h.item ht hmem) (h.1.hasEntries ht hmem).not_torn j
        exact hread.bind fun v _ => (assign_answers t type f v m).bind fun m _ =>
          members_answers h ht skip ms m

theorem anyMember_answers {name : String} (h : t.Steady name) :
    ∀ ms : List (String × Json), Avoids .stopped (anyMember t name ms)
  | [] => .error (by simp)
  | (k, j) :: ms => by
    rw [anyMember]
    split
    · refine (value_answers (.single (.message name)) h.kind nofun j).bind fun v _ => ?_
      split
      · exact .ok _
      · exact .error (by simp)
    · exact anyMember_answers h ms

end

/-- The program does not stop over a message either, whatever it is read from. -/
theorem message_answers {name : String} (h : t.Steady name) (j : Json) :
    Avoids .stopped (message t name j) := by
  refine (value_answers (.single (.message name)) h.kind nofun j).bind fun v _ => ?_
  split
  · exact .ok _
  · exact .error (by simp)

end FromJson
end RpcConsole

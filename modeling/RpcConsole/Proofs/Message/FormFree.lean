import RpcConsole.Proofs.Message.Legible

namespace RpcConsole

/-- The form of text of its own that messages of a kind have. -/
def Kind.form? : Kind → Option WellKnown
  | .message name => WellKnown.ofName? name
  | .scalar _ | .enum _ => none

namespace TypeTable

/-- Fields and extensions of a type lead to no message with a form of text of its own. -/
def FormFree (t : TypeTable) (name : String) : Prop :=
  ∀ n, Relation.ReflTransGen t.Mentions name n → WellKnown.ofName? n = none

/-- Nor do the messages of a kind, if it is one of messages. -/
def FormFreeKind (t : TypeTable) (kind : Kind) : Prop :=
  ∀ name, kind = .message name → t.FormFree name

variable {t : TypeTable} {type : MessageType} {name key : String} {f : Field}

theorem FormFree.all (hname : WellKnown.ofName? name = none)
    (h : ∀ type ∈ t.messages, ∀ f ∈ t.fieldsOf type, f.kind.form?.isNone) : t.FormFree name := by
  intro n hn
  induction hn with
  | refl => exact hname
  | tail _ hm _ =>
    obtain ⟨type, ht, f, hf, hk⟩ := hm
    have hform := h type (message?_mem ht) f hf
    rw [hk] at hform
    exact Option.isNone_iff_eq_none.mp hform

/-- A key means a field of a type or an extension of it. -/
theorem fieldFor?_mem (h : FromJson.fieldFor? t type key = some f) : f ∈ t.fieldsOf type := by
  rcases Option.or_eq_some_iff.mp h with h | ⟨-, hx⟩
  · rcases Option.or_eq_some_iff.mp h with hj | ⟨-, hn⟩
    · exact List.mem_append_left _ (List.mem_of_find?_eq_some hj)
    · exact List.mem_append_left _ (List.mem_of_find?_eq_some hn)
  · obtain ⟨x, hfind, rfl⟩ := Option.map_eq_some_iff.mp hx
    have hx := List.mem_of_find?_eq_some hfind
    have hp := List.find?_some hfind
    simp only [Bool.and_eq_true] at hp
    exact List.mem_append_right _ (List.mem_map_of_mem (List.mem_filter.mpr ⟨hx, hp.1⟩))

theorem FormFree.field (h : t.FormFree name) (ht : t.message? name = some type)
    (hf : f ∈ t.fieldsOf type) : t.FormFreeKind f.kind :=
  fun _ hk n hn => h n (.head ⟨type, ht, f, hf, hk⟩ hn)

/-- The messages in a field of a type, those in its list or map included, are of a type that it
leads to. -/
theorem mentions_item (ht : t.message? name = some type) (hf : f ∈ t.fieldsOf type)
    {inner : String} (hi : (t.shape f).item = .message inner) :
    Relation.ReflTransGen t.Mentions name inner := by
  have hown (hk : f.kind = .message inner) : Relation.ReflTransGen t.Mentions name inner :=
    .single ⟨type, ht, f, hf, hk⟩
  unfold shape at hi
  split at hi
  · split at hi
    · rename_i entry he
      obtain ⟨hk, hentry, -⟩ := mapEntry?_eq_some he
      have hvalue {v : Field} (hv : entry.fieldNumbered? 2 = some v)
          (hi : v.kind = .message inner) : Relation.ReflTransGen t.Mentions name inner := by
        have hv : v ∈ t.fieldsOf entry := List.mem_append_left _ (List.mem_of_find?_eq_some hv)
        exact .tail (.single ⟨type, ht, f, hf, hk⟩) ⟨entry, hentry, v, hv, hi⟩
      split at hi
      · rename_i hv
        exact hvalue hv hi
      · cases hv : entry.fieldNumbered? 2 with
        | none => exact hown (by simpa [hv, Shape.item] using hi)
        | some v => exact hvalue hv (by simpa [hv, Shape.item] using hi)
    · exact hown hi
  · exact hown hi

theorem FormFree.item (h : t.FormFree name) (ht : t.message? name = some type)
    (hf : f ∈ t.fieldsOf type) : t.FormFreeKind (t.shape f).item :=
  fun _ hi n hn => h n ((mentions_item ht hf hi).trans hn)

end TypeTable

namespace FromJson

variable {t : TypeTable}

/-- What is read for a value of a shape without a form of text of its own. -/
inductive Reads (t : TypeTable) : Shape → Json → Option Value → Prop where
  | message {name : String} {type : MessageType} {ms : List (String × Json)} {m : Message}
      (ht : t.message? name = some type) (h : members t type none ms .empty = .ok m) :
      Reads t (.single (.message name)) (.obj ms) (some (.message name m))
  | map {key kind : Kind} {ms : List (String × Json)} {es : List (MapKey × Value)}
      (h : entries t key kind ms = .ok es) : Reads t (.map key kind) (.obj ms) (some (.map es))
  | list {kind : Kind} {js : List Json} {vs : List Value} (h : items t kind js = .ok vs) :
      Reads t (.list kind) (.arr js) (some (.list vs))
  | scalar {s : Scalar} {j : Json} {v : Value} (h : scalar s j = .ok v) :
      Reads t (.single (.scalar s)) j (some v)
  | enum {name : String} {j : Json} {v : Option Value} (h : enum t name j = .ok v) :
      Reads t (.single (.enum name)) j v

theorem reads_scalar {s : Scalar} {j : Json} {v : Option Value}
    (h : (scalar s j).map some = .ok v) : Reads t (.single (.scalar s)) j v := by
  obtain ⟨w, hw, rfl⟩ := map_ok h
  exact .scalar hw

/-- A value is read in one of these ways. -/
theorem reads_of_value {shape : Shape} {j : Json} {v : Option Value}
    (hw : ∀ name, shape = .single (.message name) → WellKnown.ofName? name = none)
    (h : value t shape j = .ok v) : Reads t shape j v := by
  cases shape with
  | torn => cases j <;> simp [value] at h
  | map key kind =>
    cases j with
    | obj ms =>
      obtain ⟨es, hes, h⟩ := bind_eq_ok.mp h
      cases pure_eq_ok.mp h
      exact .map hes
    | null | bool | int | double | single | str | arr => simp [value] at h
  | list kind =>
    cases j with
    | arr js =>
      obtain ⟨vs, hvs, h⟩ := bind_eq_ok.mp h
      cases pure_eq_ok.mp h
      exact .list hvs
    | null | bool | int | double | single | str | obj => simp [value] at h
  | single kind =>
    cases kind with
    | scalar s => cases j <;> exact reads_scalar (by simpa [value] using h)
    | enum name => cases j <;> exact .enum (by simpa [value] using h)
    | message name =>
      have hname := hw name rfl
      cases j with
      | obj ms =>
        cases ht : t.message? name with
        | none => simp [value, hname, ht] at h
        | some type =>
          simp only [value, hname, ht] at h
          obtain ⟨m, hm, h⟩ := bind_eq_ok.mp h
          cases pure_eq_ok.mp h
          exact .message ht hm
      | null | bool | int | double | single | str | arr => simp [value, hname] at h

/-- A value of such a kind, or of a list or a map of it, is read in one of these ways. -/
theorem reads_of_formFree {shape : Shape} {j : Json} {v : Option Value}
    (hfree : t.FormFreeKind shape.item) (h : value t shape j = .ok v) : Reads t shape j v :=
  reads_of_value (fun name hs => hfree name (by rw [hs]; rfl) name .refl) h

end FromJson
end RpcConsole

import Mathlib.Logic.Relation
import RpcConsole.Message.FromJson
import RpcConsole.Proofs.Message.Retold
import RpcConsole.Proofs.Message.Spelling

namespace RpcConsole

/-- The member name of an extension. -/
def Extension.key (x : Extension) : String :=
  "[" ++ x.field.fullName ++ "]"

namespace TypeTable

/-- The fields of a message type and its extensions. -/
def fieldsOf (t : TypeTable) (type : MessageType) : List Field :=
  type.fields ++ (t.extensions.filter fun x => x.extendee == type.name).map Extension.field

/-- A message type has a field or an extension that holds messages of another one. -/
def Mentions (t : TypeTable) (a b : String) : Prop :=
  ∃ type ∈ t.message? a, ∃ f ∈ t.fieldsOf type, f.kind = .message b

end TypeTable

/-- A type has no form of text of its own and no value that is shown as null, and a JSON name is the
name of no other field. -/
structure MessageType.Ordinary (t : TypeTable) (type : MessageType) : Prop where
  ordinary : WellKnown.ofName? type.name = none
  nulls : ∀ f ∈ t.fieldsOf type, f.kind ≠ .enum WellKnown.nullValue
  names : ∀ f ∈ type.fields, ∀ g ∈ type.fields, g.name = f.jsonName → g.number = f.number

/-- An ordinary type in which no field has the member name of an extension. -/
structure MessageType.Legible (t : TypeTable) (type : MessageType) : Prop
    extends MessageType.Ordinary t type where
  keys : ∀ x ∈ t.extensions, x.extendee = type.name →
    ∀ f ∈ type.fields, f.jsonName ≠ x.key ∧ f.name ≠ x.key

instance (t : TypeTable) : DecidablePred (MessageType.Ordinary t) := fun type =>
  decidable_of_iff (WellKnown.ofName? type.name = none ∧
      (∀ f ∈ t.fieldsOf type, f.kind ≠ .enum WellKnown.nullValue) ∧
      ∀ f ∈ type.fields, ∀ g ∈ type.fields, g.name = f.jsonName → g.number = f.number)
    ⟨fun h => ⟨h.1, h.2.1, h.2.2⟩, fun h => ⟨h.ordinary, h.nulls, h.names⟩⟩

instance (t : TypeTable) : DecidablePred (MessageType.Legible t) := fun type =>
  decidable_of_iff (type.Ordinary t ∧ ∀ x ∈ t.extensions, x.extendee = type.name →
      ∀ f ∈ type.fields, f.jsonName ≠ x.key ∧ f.name ≠ x.key)
    ⟨fun h => ⟨h.1, h.2⟩, fun h => ⟨h.toOrdinary, h.keys⟩⟩

namespace TypeTable

/-- All types are legible to which a type leads through fields and extensions. -/
def Legible (t : TypeTable) (name : String) : Prop :=
  ∀ n type, Relation.ReflTransGen t.Mentions name n → t.message? n = some type → type.Legible t

/-- What is needed of the values of a field for them to be shown as they are. -/
structure Tells (t : TypeTable) (f : Field) : Prop where
  legible : ∀ name, f.kind = .message name → t.Legible name
  nulls : f.kind ≠ .enum WellKnown.nullValue

variable {t : TypeTable} {type : MessageType} {name : String} {f : Field} {number : Nat}

theorem Legible.all (h : ∀ type ∈ t.messages, type.Legible t) : t.Legible name :=
  fun _ _ _ ht => h _ (message?_mem ht)

theorem Legible.own (h : t.Legible name) (ht : t.message? name = some type) : type.Legible t :=
  h name type .refl ht

/-- The fields and extensions of a legible type lead to legible types. -/
theorem Legible.tells (h : t.Legible name) (ht : t.message? name = some type)
    (hf : f ∈ t.fieldsOf type) : t.Tells f where
  legible _ hk m other hm ho := h m other (.head ⟨type, ht, f, hf, hk⟩ hm) ho
  nulls := (h.own ht).nulls f hf

theorem fieldNumbered?_mem (h : t.fieldNumbered? type number = some f) : f ∈ t.fieldsOf type := by
  obtain ⟨-, ho | ⟨x, hx, he, rfl⟩⟩ := fieldNumbered?_cases h
  · exact List.mem_append_left _ (List.mem_of_find?_eq_some ho)
  · refine List.mem_append_right _ (List.mem_map_of_mem (List.mem_filter.mpr ⟨hx, ?_⟩))
    exact beq_iff_eq.mpr he

/-- No value of a field that is shown as it is stands alone where a list is wanted. -/
theorem Tells.shape (h : t.Tells f) (hreg : t.Regular) {shape : Shape} (hu : UnderField t f shape)
    {v : Value} (hv : v.Fits t shape) (hc : v.isCollection = false) : shape = .single f.kind := by
  rcases hu with rfl | rfl
  · rcases hreg.form f with ⟨-, -, hs⟩ | ⟨-, -, hs⟩ | ⟨-, -, -, -, hs⟩
    · exact hs
    · rw [hs] at hv
      rcases Value.fits_list hv with ⟨vs, rfl, -⟩ | ⟨hnull, hsingle⟩
      · cases hc
      · cases hk : f.kind with
        | scalar s => simp [hk, Kind.holdsNull] at hnull
        | enum n =>
          rw [hk, Kind.holdsNull, beq_iff_eq] at hnull
          exact absurd (hnull ▸ hk) h.nulls
        | message n =>
          rw [hk, Kind.holdsNull, beq_iff_eq] at hnull
          rw [hk] at hsingle
          rcases Value.fits_single hsingle with ⟨_, other, _, hn, -, ho, -⟩ | htakes
          · cases hn
            have hordinary := ((h.legible n hk).own ho).ordinary
            rw [message?_name ho, hnull] at hordinary
            exact absurd hordinary (by decide)
          · simp [Kind.Takes] at htakes
    · rw [hs] at hv
      obtain ⟨es, rfl, -⟩ := Value.fits_map hv
      cases hc
  · rfl

/-- The member name under which the value of a number is shown. -/
def key (t : TypeTable) (type : MessageType) (number : Nat) : String :=
  match type.fieldNumbered? number with
  | some f => f.jsonName
  | none => ((t.extensionNumbered? type.name number).map Extension.key).getD ""

theorem key_own (h : type.fieldNumbered? number = some f) : t.key type number = f.jsonName := by
  simp [key, h]

theorem key_extension {x : Extension} (ho : type.fieldNumbered? number = none)
    (hx : t.extensionNumbered? type.name number = some x) : t.key type number = x.key := by
  simp [key, ho, hx]

theorem fieldNumbered?_none (ho : type.fieldNumbered? number = none)
    (h : t.fieldNumbered? type number = some f) :
    ∃ x ∈ t.extensions, t.extensionNumbered? type.name number = some x ∧
      x.extendee = type.name ∧ x.field = f := by
  obtain ⟨x, hx, hf⟩ : ∃ x, t.extensionNumbered? type.name number = some x ∧ x.field = f := by
    simpa [fieldNumbered?, ho] using h
  have hp := List.find?_some hx
  simp only [Bool.and_eq_true, beq_iff_eq] at hp
  exact ⟨x, List.mem_of_find?_eq_some hx, hx, hp.1, hf⟩

section

variable (hl : type.Legible t) (hn : t.Named) (ht : type ∈ t.messages)

include hl in
/-- No field has the member name of an extension. -/
theorem extensionKey_free {x : Extension} (hx : x ∈ t.extensions)
    (he : x.extendee = type.name) :
    type.fieldWithJsonName? x.key = none ∧ type.fieldNamed? x.key = none := by
  constructor
  · refine List.find?_eq_none.mpr fun f hf => ?_
    simpa using (hl.keys x hx he f hf).1
  · refine List.find?_eq_none.mpr fun f hf => ?_
    simpa using (hl.keys x hx he f hf).2

include hl hn ht in
/-- What is shown under a key is read for the same field. -/
theorem fieldFor?_key (h : t.fieldNumbered? type number = some f) :
    FromJson.fieldFor? t type (t.key type number) = some f := by
  cases ho : type.fieldNumbered? number with
  | some g =>
    have hg := fieldNumbered?_own (t := t) ho
    rw [h, Option.some.injEq] at hg
    subst hg
    have hj : type.fieldWithJsonName? f.jsonName = some f :=
      find?_of_nodup Field.jsonName (hn.jsonNames type ht) (List.mem_of_find?_eq_some ho)
    rw [key_own ho, FromJson.fieldFor?, hj]
    rfl
  | none =>
    obtain ⟨x, hx, hnum, he, rfl⟩ := fieldNumbered?_none ho h
    obtain ⟨hj, hname⟩ := extensionKey_free hl hx he
    have hfind : t.extensions.find? (fun y =>
        y.extendee == type.name && "[" ++ y.field.fullName ++ "]" == x.key) = some x := by
      cases hy : t.extensions.find? (fun y =>
          y.extendee == type.name && "[" ++ y.field.fullName ++ "]" == x.key) with
      | none =>
        have hno := List.find?_eq_none.mp hy x hx
        simp [he, Extension.key] at hno
      | some y =>
        have hp := List.find?_some hy
        simp only [Extension.key, Bool.and_eq_true, beq_iff_eq, String.append_left_inj,
          String.append_right_inj] at hp
        have hsame := List.inj_on_of_nodup_map hn.extensions (List.mem_of_find?_eq_some hy) hx hp.2
        rw [hsame]
    rw [key_extension ho hnum, FromJson.fieldFor?, hj, hname, hfind]
    rfl

include hn ht in
/-- Different numbers have different keys. -/
theorem key_inj (hl : type.Legible t) {m : Nat} {g : Field}
    (hf : t.fieldNumbered? type number = some f) (hg : t.fieldNumbered? type m = some g)
    (hk : t.key type number = t.key type m) : number = m := by
  have h := fieldFor?_key hl hn ht hf
  rw [hk, fieldFor?_key hl hn ht hg, Option.some.injEq] at h
  rw [← fieldNumbered?_number hf, ← fieldNumbered?_number hg, h]

include hl hn ht in
/-- Enum names are brought to their spelling in the field of a key; the keys of extensions mean no
field there. -/
theorem fieldForSpelling?_key (hs : t.Sound) (h : t.fieldNumbered? type number = some f) :
    type.fieldForSpelling? (t.key type number) = type.fieldNumbered? number := by
  cases ho : type.fieldNumbered? number with
  | some g =>
    have hg := List.mem_of_find?_eq_some ho
    have hj : type.fieldWithJsonName? g.jsonName = some g :=
      find?_of_nodup Field.jsonName (hn.jsonNames type ht) hg
    rw [key_own ho]
    exact MessageType.Means.fieldForSpelling? (.inr hj) hl.names (hs.numbers type ht)
  | none =>
    obtain ⟨x, hx, hnum, he, rfl⟩ := fieldNumbered?_none ho h
    obtain ⟨hj, hname⟩ := extensionKey_free hl hx he
    rw [key_extension ho hnum, MessageType.fieldForSpelling?, hj, hname]
    rfl

end

end TypeTable
end RpcConsole

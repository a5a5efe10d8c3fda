import Mathlib.Logic.Relation
import RpcConsole.Message.FromJson
import RpcConsole.Proofs.Schema.Sound

namespace RpcConsole

namespace EnumType

/-- A name without the difference between capital and small letters. -/
def folded (name : String) : List Char :=
  name.toList.map Char.toLower

/-- No two names of an enum differ only in the case of letters. -/
def Apart (e : EnumType) : Prop :=
  (e.values.map fun v => folded v.1).Nodup

instance : DecidablePred Apart := fun e =>
  inferInstanceAs (Decidable (e.values.map fun v => folded v.1).Nodup)

variable {e : EnumType} {a b : String}

theorem sameName_iff : sameName a b = true ↔ folded a = folded b := by
  simp [sameName, folded]

theorem sameName_self (a : String) : sameName a a = true :=
  sameName_iff.mpr rfl

/-- A declared name keeps its spelling. -/
theorem spelling_declared (h : (e.number? a).isSome = true) : e.spelling a = a := by
  simp [spelling, h]

/-- A name keeps its spelling if it is not declared in any case, and it has no number. -/
theorem spelling_unknown (h : ∀ v ∈ e.values, sameName v.1 a = false) :
    e.spelling a = a ∧ e.number? a = none := by
  have hfind : e.values.find? (fun v => sameName v.1 a) = none :=
    List.find?_eq_none.mpr fun v hv => by simp [h v hv]
  have hn : e.number? a = none := by
    refine List.lookup_eq_none_iff.mpr fun v hv => ?_
    rw [bne_iff_ne]
    rintro rfl
    have hsame := h v hv
    rw [sameName_self] at hsame
    cases hsame
  refine ⟨?_, hn⟩
  simp [spelling, hn, hfind]

/-- A name that is spelled as it is declared has the number of the value that has this name in some
case. -/
theorem number?_spelling (h : e.Apart) (a : String) :
    e.number? (e.spelling a) =
      (e.values.find? fun v => folded v.1 == folded a).map Prod.snd := by
  have hfind {v : String × Int} (hv : v ∈ e.values) (hf : folded v.1 = folded a) :
      (e.values.find? fun w => folded w.1 == folded a) = some v := by
    rw [← hf]
    exact find?_of_nodup (fun w : String × Int => folded w.1) h hv
  have hlookup {v : String × Int} (hv : v ∈ e.values) : e.number? v.1 = some v.2 := by
    have hnames : (e.values.map Prod.fst).Nodup := by
      rw [Apart, ← Function.comp_def folded, ← List.map_map] at h
      exact h.of_map
    exact lookup_of_nodup hnames hv
  unfold spelling
  cases hn : e.number? a with
  | some n => simp [hn, hfind (mem_of_lookup hn) rfl]
  | none =>
    have hsame : (fun v : String × Int => sameName v.1 a) = fun v => folded v.1 == folded a := rfl
    rw [hsame]
    cases hv : e.values.find? fun v => folded v.1 == folded a with
    | none => simp [hn]
    | some v => simpa using hlookup (List.mem_of_find?_eq_some hv)

/-- Names that differ in case only have one number once they are spelled as they are declared. -/
theorem number?_sameName (h : e.Apart) (hs : sameName a b = true) :
    e.number? (e.spelling a) = e.number? (e.spelling b) := by
  rw [number?_spelling h, number?_spelling h, sameName_iff.mp hs]

end EnumType

namespace MessageType

/-- No JSON name is the declared name of another field. -/
def Unmixed (type : MessageType) : Prop :=
  ∀ f ∈ type.fields, ∀ g ∈ type.fields, g.name = f.jsonName → g.number = f.number

instance : DecidablePred Unmixed := fun type =>
  inferInstanceAs (Decidable (∀ f ∈ type.fields, ∀ g ∈ type.fields,
    g.name = f.jsonName → g.number = f.number))

/-- A key is the declared name or the JSON name of a field. -/
def Means (type : MessageType) (key : String) (f : Field) : Prop :=
  type.fieldNamed? key = some f ∨ type.fieldWithJsonName? key = some f

variable {t : TypeTable} {type : MessageType} {key : String} {f g : Field}

theorem Means.mem (h : type.Means key f) : f ∈ type.fields := by
  rcases h with h | h <;> exact List.mem_of_find?_eq_some h

theorem means_of_fieldForSpelling? (h : type.fieldForSpelling? key = some f) :
    type.Means key f := by
  rcases Option.or_eq_some_iff.mp h with h | ⟨-, h⟩
  · exact .inl h
  · exact .inr h

/-- A declared name and a JSON name that are alike are of one field. -/
theorem Unmixed.eq (h : type.Unmixed) (hn : (type.fields.map Field.number).Nodup)
    (hf : type.fieldWithJsonName? key = some f) (hg : type.fieldNamed? key = some g) : g = f := by
  have hfm := List.mem_of_find?_eq_some hf
  have hgm := List.mem_of_find?_eq_some hg
  have hfk := List.find?_some hf
  have hgk := List.find?_some hg
  simp only [beq_iff_eq] at hfk hgk
  exact List.inj_on_of_nodup_map hn hgm hfm (h f hfm g hgm (hgk.trans hfk.symm))

/-- If keys cannot be mixed up, the spelling takes a key for its field. -/
theorem Means.fieldForSpelling? (h : type.Means key f) (hu : type.Unmixed)
    (hn : (type.fields.map Field.number).Nodup) : type.fieldForSpelling? key = some f := by
  unfold MessageType.fieldForSpelling?
  rcases h with h | h
  · simp [h]
  · cases hg : type.fieldNamed? key with
    | none => simp [h]
    | some g => simp [hu.eq hn h hg]

theorem Means.fieldFor? (h : type.Means key f) (hu : type.Unmixed)
    (hn : (type.fields.map Field.number).Nodup) : FromJson.fieldFor? t type key = some f := by
  unfold FromJson.fieldFor?
  rcases h with h | h
  · cases hg : type.fieldWithJsonName? key with
    | none => simp [h]
    | some g => simp [hu.eq hn hg h]
  · simp [h]

end MessageType

/-- The enum of a kind. -/
def TypeTable.enumOf? (t : TypeTable) : Kind → Option EnumType
  | .enum name => t.enum? name
  | _ => none

namespace TypeTable

/-- A message type has a field that holds messages of another one. -/
def Leads (t : TypeTable) (a b : String) : Prop :=
  ∃ type ∈ t.message? a, ∃ f ∈ type.fields, f.kind = .message b

/-- A property of all types that a type leads to through fields, and of the type itself. -/
def Throughout (t : TypeTable) (P : MessageType → Prop) (name : String) : Prop :=
  ∀ n type, Relation.ReflTransGen t.Leads name n → t.message? n = some type → P type

variable {t : TypeTable} {type : MessageType} {P : MessageType → Prop} {name : String} {f : Field}

theorem Throughout.all (h : ∀ type ∈ t.messages, P type) : t.Throughout P name :=
  fun _ _ _ ht => h _ (message?_mem ht)

theorem Throughout.own (h : t.Throughout P name) (ht : t.message? name = some type) : P type :=
  h name type .refl ht

/-- The values of a field of a type, those in its list or map included, are of a kind of a field
of a type that the type leads to. -/
theorem item_shape (ht : t.message? name = some type) (hf : f ∈ type.fields) :
    ∃ n owner, Relation.ReflTransGen t.Leads name n ∧ t.message? n = some owner ∧
      ∃ g ∈ owner.fields, g.kind = (t.shape f).item := by
  have hown : ∃ n owner, Relation.ReflTransGen t.Leads name n ∧ t.message? n = some owner ∧
      ∃ g ∈ owner.fields, g.kind = f.kind := ⟨name, type, .refl, ht, f, hf, rfl⟩
  unfold shape
  split
  · split
    · rename_i entry he
      obtain ⟨hk, hentry, -⟩ := mapEntry?_eq_some he
      split
      · rename_i k v _ hv
        exact ⟨entry.name, entry, .single ⟨type, ht, f, hf, hk⟩, hentry, v,
          List.mem_of_find?_eq_some hv, rfl⟩
      · cases hv : entry.fieldNumbered? 2 with
        | none => exact hown
        | some v =>
          exact ⟨entry.name, entry, .single ⟨type, ht, f, hf, hk⟩, hentry, v,
            List.mem_of_find?_eq_some hv, rfl⟩
    · exact hown
  · exact hown

/-- The messages in a field of a type are of a type that it leads to. -/
theorem Throughout.item (h : t.Throughout P name) (ht : t.message? name = some type)
    (hf : f ∈ type.fields) {inner : String} (hi : (t.shape f).item = .message inner) :
    t.Throughout P inner := by
  obtain ⟨n, owner, hr, ho, g, hg, hk⟩ := item_shape ht hf
  intro m other hm ho'
  exact h m other (hr.trans (.head ⟨owner, ho, g, hg, hk.trans hi⟩ hm)) ho'

end TypeTable
end RpcConsole

import RpcConsole.Pool.Fields
import RpcConsole.Proofs.Basic
import RpcConsole.Proofs.Pool.Naming

namespace RpcConsole

namespace Pool

@[simp] theorem undotted_dotted (full : String) : Name.undotted (dotted full) = full := by
  simp [Name.undotted, dotted]

namespace Scope

variable {sc : Scope} {want : Want} {scope name full : String} {s : SchemaSymbol}

/-- A name that stands for something of the wanted kind. -/
structure Finds (sc : Scope) (want : Want) (s : SchemaSymbol) : Prop where
  find : sc.find? s.name = some s
  accepted : want.accepts s.kind = true

theorem Finds.mem (h : sc.Finds want s) : s ∈ sc.symbols :=
  List.mem_of_find?_eq_some h.find

theorem look_found (h : sc.look want full = .found s) : sc.Finds want s := by
  unfold look at h
  cases hf : sc.find? full with
  | none => simp [hf] at h
  | some t =>
    simp only [hf] at h
    split at h
    · cases h
    · split at h
      · rename_i ha
        cases h
        have hn : s.name = full := by simpa using List.find?_some hf
        exact ⟨by rw [hn]; exact hf, ha⟩
      · cases h

theorem findSimple_ok {reason : Option LinkError} {scopes : List String}
    (h : sc.findSimple want name reason scopes = .ok s) : sc.Finds want s := by
  induction scopes generalizing reason with
  | nil => cases h
  | cons scope rest ih =>
    unfold findSimple at h
    split at h
    · rename_i hl
      cases h
      exact look_found hl
    · exact ih h
    · exact ih h

theorem findDotted_ok {first : String} {scopes : List String}
    (h : sc.findDotted want name first scopes = .ok s) : sc.Finds want s := by
  induction scopes with
  | nil => cases h
  | cons scope rest ih =>
    unfold findDotted at h
    split at h
    · split at h
      · rename_i hl
        cases h
        exact look_found hl
      · cases h
      · cases h
    · exact ih h

/-- What a name resolves to is declared and of the wanted kind. -/
theorem resolve_ok (h : sc.resolve want scope name = .ok s) : sc.Finds want s := by
  unfold resolve at h
  split at h
  · split at h
    · rename_i hl
      cases h
      exact look_found hl
    · cases h
    · cases h
  · split at h
    · exact findSimple_ok h
    · exact findSimple_ok h
    · exact findDotted_ok h

theorem Finds.message (h : sc.Finds .message s) : ∃ ranges, s.kind = .message ranges := by
  have ha := h.accepted
  cases hk : s.kind <;> simp_all [Want.accepts]

/-- The kind of a linked reference names something that is declared. -/
inductive KindDeclared (sc : Scope) : Kind → Prop where
  | scalar (s : Scalar) : KindDeclared sc (.scalar s)
  | message {s : SchemaSymbol} {ranges : List NumberRange} (hs : s ∈ sc.symbols)
      (hk : s.kind = .message ranges) : KindDeclared sc (.message s.name)
  | enum {s : SchemaSymbol} {values : List String} (hs : s ∈ sc.symbols)
      (hk : s.kind = .enum values) : KindDeclared sc (.enum s.name)

theorem linkType_ok {r r' : TypeRef} (h : sc.linkType name r = .ok r') :
    sc.KindDeclared r'.kind := by
  have hm {n : String} {g : String → TypeRef} (hg : ∀ x, (g x).kind = .message (Name.undotted x))
      (h : (do let s ← sc.resolve .message name n; return g (dotted s.name)) = .ok r') :
      sc.KindDeclared r'.kind := by
    obtain ⟨s, hs, hr⟩ := bind_eq_ok.mp h
    have hr := pure_eq_ok.mp hr
    obtain ⟨ranges, hk⟩ := (resolve_ok hs).message
    rw [← hr, hg, undotted_dotted]
    exact .message (resolve_ok hs).mem hk
  have ht {n : String} (h : sc.linkType name (.enum n) = .ok r') : sc.KindDeclared r'.kind := by
    obtain ⟨s, hs, hr⟩ := bind_eq_ok.mp h
    have hf := resolve_ok hs
    split at hr
    · rename_i values hk
      have hr := pure_eq_ok.mp hr
      rw [← hr, TypeRef.kind, undotted_dotted]
      exact .enum hf.mem hk
    · rename_i hk
      have hr := pure_eq_ok.mp hr
      have ha := hf.accepted
      cases hks : s.kind <;> simp_all [Want.accepts]
      rw [← hr, TypeRef.kind, undotted_dotted]
      exact .message hf.mem hks
  cases r with
  | scalar s => cases h; exact .scalar s
  | group n => exact hm (fun _ => rfl) h
  | message n => exact hm (fun _ => rfl) h
  | enum n => exact ht h
  | named n => exact ht h

/-- A field and what it is when it is linked and its options are set. -/
structure LinkedField (sc : Scope) (f g : FieldDecl) : Prop where
  same : g = { f with
    type := g.type, jsonName := g.jsonName, extendee := g.extendee, options := g.options }
  declared : sc.KindDeclared g.type.kind
  named : g.jsonName.isSome = true

theorem linkField_ok {f g : FieldDecl} (h : sc.linkField scope f = .ok g) :
    sc.LinkedField f g := by
  unfold linkField at h
  obtain ⟨type, ht, h⟩ := bind_eq_ok.mp h
  have hk := linkType_ok ht
  have hg : g = { f with type, jsonName := some (f.jsonName.getD (Name.json f.name)) } := by
    dsimp only at h
    split at h
    · obtain ⟨-, -, h⟩ := bind_eq_ok.mp h
      exact (pure_eq_ok.mp h).symm
    · exact (pure_eq_ok.mp h).symm
  subst hg
  exact ⟨rfl, hk, rfl⟩

/-- The numbers and the JSON names of linked fields: each comes once, and none was taken before. -/
structure Distinct (taken : Taken) (gs : List FieldDecl) : Prop where
  numbers : (gs.map FieldDecl.number).Nodup
  jsonNames : (gs.map FieldDecl.jsonName).Nodup
  newNumbers : ∀ g ∈ gs, g.number ∉ taken.numbers
  newNames : ∀ g ∈ gs, g.jsonName.getD "" ∉ taken.jsonNames

theorem take_ok {taken taken' : Taken} {g : FieldDecl} {written : Option String}
    (h : taken.take g written = .ok taken') :
    g.number ∉ taken.numbers ∧ g.jsonName.getD "" ∉ taken.jsonNames ∧
      taken' = ⟨g.number :: taken.numbers, g.jsonName.getD "" :: taken.jsonNames⟩ := by
  unfold Taken.take at h
  dsimp only at h
  split at h
  · cases h
  · split at h
    · cases h
    · rename_i hn hj
      exact ⟨by simpa using hn, by simpa using hj, (Except.ok.inj h).symm⟩

/-- A field number that passes its check lies in no range that is left to extensions. -/
theorem checkNumber_ok {reserved extensions : List NumberRange} {n : Int}
    (h : checkNumber reserved extensions n = .ok ()) : ∀ r ∈ extensions, holds n r = false := by
  unfold checkNumber at h
  split at h
  · cases h
  · split at h
    · cases h
    · cases h
    · rename_i hn
      intro r hr
      simpa using List.find?_eq_none.mp hn r hr

/-- Linking the fields of a message. -/
theorem linkFields_ok {reserved extensions : List NumberRange} {taken : Taken}
    {fs gs : List FieldDecl}
    (h : sc.linkFields scope reserved extensions taken fs = .ok gs) :
    List.Forall₂ sc.LinkedField fs gs ∧ Distinct taken gs ∧
      ∀ g ∈ gs, ∀ r ∈ extensions, holds g.number r = false := by
  induction fs generalizing taken gs with
  | nil =>
    cases h
    exact ⟨.nil, ⟨by simp, by simp, by simp, by simp⟩, by simp⟩
  | cons f fs ih =>
    unfold linkFields at h
    obtain ⟨g, hg, h⟩ := bind_eq_ok.mp h
    obtain ⟨taken', ht, h⟩ := bind_eq_ok.mp h
    obtain ⟨⟨⟩, hc, h⟩ := bind_eq_ok.mp h
    obtain ⟨rest, hr, h⟩ := bind_eq_ok.mp h
    have h := pure_eq_ok.mp h
    subst h
    have hl := linkField_ok hg
    have hnum : g.number = f.number := by rw [hl.same]
    obtain ⟨hn, hj, rfl⟩ := take_ok ht
    obtain ⟨hrest, hd, hrange⟩ := ih hr
    refine ⟨.cons hl hrest, ⟨?_, ?_, ?_, ?_⟩, ?_⟩
    · refine List.nodup_cons.mpr ⟨fun hm => ?_, hd.numbers⟩
      obtain ⟨x, hx, he⟩ := List.mem_map.mp hm
      exact hd.newNumbers x hx (by simp [he])
    · refine List.nodup_cons.mpr ⟨fun hm => ?_, hd.jsonNames⟩
      obtain ⟨x, hx, he⟩ := List.mem_map.mp hm
      exact hd.newNames x hx (by simp [he])
    · intro x hx
      rcases List.mem_cons.mp hx with rfl | hx
      · exact hn
      · exact fun hm => hd.newNumbers x hx (List.mem_cons_of_mem _ hm)
    · intro x hx
      rcases List.mem_cons.mp hx with rfl | hx
      · exact hj
      · exact fun hm => hd.newNames x hx (List.mem_cons_of_mem _ hm)
    · intro x hx
      rcases List.mem_cons.mp hx with rfl | hx
      · exact hnum ▸ checkNumber_ok hc
      · exact hrange x hx

/-- An extension and what it is when it is linked: its number is one that the extended message
leaves to extensions. -/
structure LinkedExtension (sc : Scope) (f g : FieldDecl) : Prop extends sc.LinkedField f g where
  extended : ∃ s ranges, s ∈ sc.symbols ∧ s.kind = .message ranges ∧
    g.extendee = some (dotted s.name) ∧ ranges.any (holds g.number) = true

theorem linkExtension_ok {f g : FieldDecl} (h : sc.linkExtension scope f = .ok g) :
    sc.LinkedExtension f g := by
  unfold linkExtension at h
  obtain ⟨linked, hl, h⟩ := bind_eq_ok.mp h
  obtain ⟨s, hs, h⟩ := bind_eq_ok.mp h
  have hl := linkField_ok hl
  have hf := resolve_ok hs
  obtain ⟨ranges, hk⟩ := hf.message
  split at h
  · rename_i ha
    have h := pure_eq_ok.mp h
    subst h
    have hr : sc.extensionRanges s.name = ranges := by
      simp [extensionRanges, hf.find, hk]
    have hn : linked.number = f.number := by rw [hl.same]
    refine ⟨⟨?_, hl.declared, hl.named⟩, s, ranges, hf.mem, hk, rfl, ?_⟩
    · rw [hl.same]
    · rw [← hr]
      exact hn ▸ ha
  · obtain ⟨-, h, -⟩ := bind_eq_ok.mp h
    cases h

theorem linkExtensions_ok {fs gs : List FieldDecl} (h : sc.linkExtensions scope fs = .ok gs) :
    List.Forall₂ sc.LinkedExtension fs gs := by
  induction fs generalizing gs with
  | nil => cases h; exact .nil
  | cons f fs ih =>
    unfold linkExtensions at h
    obtain ⟨g, hg, h⟩ := bind_eq_ok.mp h
    obtain ⟨rest, hr, h⟩ := bind_eq_ok.mp h
    have h := pure_eq_ok.mp h
    subst h
    exact .cons (linkExtension_ok hg) (ih hr)

end Scope
end Pool
end RpcConsole

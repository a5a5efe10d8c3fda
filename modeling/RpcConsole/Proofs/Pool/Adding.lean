import RpcConsole.Pool.Link
import RpcConsole.Proofs.Pool.Settings

namespace RpcConsole.Pool

/-- A message of a file and what it is in the pool. -/
structure LinkedMessage (sc : Scope) (p q : String × MessageDecl) : Prop where
  full : q.1 = p.1
  fields : List.Forall₂ sc.LinkedField p.2.fields q.2.fields
  distinct : Scope.Distinct {} q.2.fields
  free : ∀ g ∈ q.2.fields, ∀ r ∈ p.2.extensionRanges, holds g.number r.range = false
  extensions : List.Forall₂ sc.LinkedExtension p.2.extensions q.2.extensions
  enums : List.Forall₂ SameEnum p.2.enums q.2.enums

namespace Scope

variable {sc : Scope}

mutual

theorem linkMessage_ok {scope : String} {m m' : MessageDecl}
    (h : linkMessage sc scope m = .ok m') :
    List.Forall₂ (LinkedMessage sc) (MessageDecl.within scope m) (MessageDecl.within scope m') := by
  match m with
  | ⟨name, fields, extensions, nested, enums, ranges, oneofs, reserved, reservedNames, options⟩ =>
    rw [linkMessage] at h
    obtain ⟨fields', hf, h⟩ := bind_eq_ok.mp h
    obtain ⟨nested', hn, h⟩ := bind_eq_ok.mp h
    obtain ⟨extensions', hx, h⟩ := bind_eq_ok.mp h
    cases pure_eq_ok.mp h
    obtain ⟨hl, hd, hr⟩ := linkFields_ok hf
    rw [MessageDecl.within, MessageDecl.within]
    refine .cons ⟨rfl, hl, hd, fun g hg r hm => ?_, linkExtensions_ok hx, ?_⟩
      (linkMessages_ok hn)
    · exact hr g hg r.range (List.mem_map.mpr ⟨r, hm, rfl⟩)
    · exact List.forall₂_same.mpr fun e _ => ⟨rfl, rfl⟩

theorem linkMessages_ok {scope : String} {ms ms' : List MessageDecl}
    (h : linkMessages sc scope ms = .ok ms') :
    List.Forall₂ (LinkedMessage sc) (MessageDecl.withinAll scope ms)
      (MessageDecl.withinAll scope ms') := by
  match ms with
  | [] =>
    rw [linkMessages] at h
    cases h
    exact .nil
  | m :: ms =>
    rw [linkMessages] at h
    obtain ⟨m', hm, h⟩ := bind_eq_ok.mp h
    obtain ⟨rest, hr, h⟩ := bind_eq_ok.mp h
    cases pure_eq_ok.mp h
    simp only [MessageDecl.withinAll_cons]
    exact List.rel_append (linkMessage_ok hm) (linkMessages_ok hr)

end

end Scope

variable {sc : Scope}

theorem Scope.LinkedField.same_right {f g g' : FieldDecl} (h : sc.LinkedField f g)
    (hs : SameField g g') : sc.LinkedField f g' := by
  rw [SameField] at hs
  rw [hs]
  refine ⟨?_, h.declared, h.named⟩
  conv_lhs => rw [h.same]

theorem Scope.LinkedExtension.same_right {f g g' : FieldDecl} (h : sc.LinkedExtension f g)
    (hs : SameField g g') : sc.LinkedExtension f g' := by
  refine ⟨h.toLinkedField.same_right hs, ?_⟩
  rw [SameField] at hs
  rw [hs]
  exact h.extended

theorem SameField.number {f g : FieldDecl} (h : SameField f g) : g.number = f.number := by
  rw [SameField] at h
  rw [h]

theorem SameField.jsonName {f g : FieldDecl} (h : SameField f g) : g.jsonName = f.jsonName := by
  rw [SameField] at h
  rw [h]

theorem LinkedMessage.same_right {p q r : String × MessageDecl} (h : LinkedMessage sc p q)
    (hs : SameMessage q r) : LinkedMessage sc p r := by
  have hn := map_eq_of_forall₂ (fun f g (h : SameField f g) => h.number) hs.fields
  have hj := map_eq_of_forall₂ (fun f g (h : SameField f g) => h.jsonName) hs.fields
  refine ⟨hs.full.trans h.full, ?_, ⟨?_, ?_, by simp, by simp⟩, fun g hg => ?_, ?_, ?_⟩
  · exact forall₂_trans (fun _ _ _ hl => hl.same_right) h.fields hs.fields
  · rw [hn]
    exact h.distinct.numbers
  · rw [hj]
    exact h.distinct.jsonNames
  · have hm : g.number ∈ q.2.fields.map FieldDecl.number := hn ▸ List.mem_map.mpr ⟨g, hg, rfl⟩
    obtain ⟨g', hg', he⟩ := List.mem_map.mp hm
    exact he ▸ h.free g' hg'
  · exact forall₂_trans (fun _ _ _ hl => hl.same_right) h.extensions hs.extensions
  · exact forall₂_trans (fun _ _ _ h₁ h₂ => ⟨h₂.1.trans h₁.1, h₂.2.trans h₁.2⟩) h.enums hs.enums

/-- Two services with the same name whose methods have the same names in the same order. -/
def SameNames (s u : ServiceDecl) : Prop :=
  u.name = s.name ∧ u.methods.map MethodDecl.name = s.methods.map MethodDecl.name

/-- A method in the pool: its input and its output are messages that the pool knows. -/
structure LinkedMethod (sc : Scope) (m : MethodDecl) : Prop where
  input : sc.KindDeclared (.message (Name.undotted m.input))
  output : sc.KindDeclared (.message (Name.undotted m.output))

theorem Scope.linkMethods_ok {scope : String} {ms ns : List MethodDecl}
    (h : sc.linkMethods scope ms = .ok ns) : ∀ n ∈ ns, LinkedMethod sc n := by
  induction ms generalizing ns with
  | nil => cases h; simp
  | cons m ms ih =>
    unfold linkMethods at h
    obtain ⟨input, hi, h⟩ := bind_eq_ok.mp h
    obtain ⟨output, ho, h⟩ := bind_eq_ok.mp h
    obtain ⟨rest, hr, h⟩ := bind_eq_ok.mp h
    cases pure_eq_ok.mp h
    have hi := resolve_ok hi
    have ho := resolve_ok ho
    obtain ⟨_, hki⟩ := hi.message
    obtain ⟨_, hko⟩ := ho.message
    intro n hn
    rcases List.mem_cons.mp hn with rfl | hn
    · constructor
      · rw [undotted_dotted]
        exact .message hi.mem hki
      · rw [undotted_dotted]
        exact .message ho.mem hko
    · exact ih hr n hn

theorem Scope.linkServices_ok {scope : String} {ss us : List ServiceDecl}
    (h : sc.linkServices scope ss = .ok us) : ∀ u ∈ us, ∀ n ∈ u.methods, LinkedMethod sc n := by
  induction ss generalizing us with
  | nil => cases h; simp
  | cons s ss ih =>
    unfold linkServices at h
    obtain ⟨methods, hm, h⟩ := bind_eq_ok.mp h
    obtain ⟨rest, hr, h⟩ := bind_eq_ok.mp h
    cases pure_eq_ok.mp h
    intro u hu
    rcases List.mem_cons.mp hu with rfl | hu
    · exact linkMethods_ok hm
    · exact ih hr u hu

theorem Scope.linkMethods_names {scope : String} {ms ns : List MethodDecl}
    (h : sc.linkMethods scope ms = .ok ns) :
    ns.map MethodDecl.name = ms.map MethodDecl.name := by
  induction ms generalizing ns with
  | nil => cases h; rfl
  | cons m ms ih =>
    unfold linkMethods at h
    obtain ⟨input, -, h⟩ := bind_eq_ok.mp h
    obtain ⟨output, -, h⟩ := bind_eq_ok.mp h
    obtain ⟨rest, hr, h⟩ := bind_eq_ok.mp h
    cases pure_eq_ok.mp h
    simp only [List.map_cons, ih hr]

theorem Scope.linkServices_names {scope : String} {ss us : List ServiceDecl}
    (h : sc.linkServices scope ss = .ok us) : List.Forall₂ SameNames ss us := by
  induction ss generalizing us with
  | nil => cases h; exact .nil
  | cons s ss ih =>
    unfold linkServices at h
    obtain ⟨methods, hm, h⟩ := bind_eq_ok.mp h
    obtain ⟨rest, hr, h⟩ := bind_eq_ok.mp h
    cases pure_eq_ok.mp h
    exact .cons ⟨rfl, linkMethods_names hm⟩ (ih hr)

theorem SameMethod.name {m n : MethodDecl} (h : SameMethod m n) : n.name = m.name := by
  rw [SameMethod] at h
  rw [h]

theorem SameNames.same_right {s u u' : ServiceDecl} (h : SameNames s u) (hs : SameService u u') :
    SameNames s u' := by
  have hm := map_eq_of_forall₂ (fun m n (h : SameMethod m n) => h.name) hs.2
  exact ⟨hs.1.trans h.1, hm.trans h.2⟩

theorem LinkedMethod.same_right {m n : MethodDecl} (h : LinkedMethod sc m) (hs : SameMethod m n) :
    LinkedMethod sc n := by
  rw [SameMethod] at hs
  rw [hs]
  exact ⟨h.input, h.output⟩

/-- A file and what it is in a pool that knows the names of a scope. -/
structure LinkedFile (sc : Scope) (f g : FileDecl) : Prop where
  name : g.name = f.name
  package : g.package = f.package
  imports : g.imports = f.imports
  dialect : g.dialect = f.dialect
  messages : List.Forall₂ (LinkedMessage sc) f.allMessages g.allMessages
  enums : List.Forall₂ SameEnum f.enums g.enums
  extensions : List.Forall₂ sc.LinkedExtension f.extensions g.extensions
  services : List.Forall₂ SameNames f.services g.services
  methods : ∀ s ∈ g.services, ∀ m ∈ s.methods, LinkedMethod sc m

theorem linkReferences_ok {f g : FileDecl} (h : sc.linkReferences f = .ok g) :
    LinkedFile sc f g := by
  unfold Scope.linkReferences at h
  obtain ⟨messages, hm, h⟩ := bind_eq_ok.mp h
  obtain ⟨services, hs, h⟩ := bind_eq_ok.mp h
  obtain ⟨extensions, hx, h⟩ := bind_eq_ok.mp h
  cases pure_eq_ok.mp h
  exact ⟨rfl, rfl, rfl, rfl, Scope.linkMessages_ok hm,
    List.forall₂_same.mpr fun _ _ => ⟨rfl, rfl⟩, Scope.linkExtensions_ok hx,
    Scope.linkServices_names hs, Scope.linkServices_ok hs⟩

theorem LinkedFile.options {o : OptionScope} {f g g' : FileDecl} (h : LinkedFile sc f g)
    (ho : o.file g = .ok g') : LinkedFile sc f g' := by
  unfold OptionScope.file at ho
  obtain ⟨options, -, ho⟩ := bind_eq_ok.mp ho
  obtain ⟨messages, hm, ho⟩ := bind_eq_ok.mp ho
  obtain ⟨enums, he, ho⟩ := bind_eq_ok.mp ho
  obtain ⟨services, hs, ho⟩ := bind_eq_ok.mp ho
  obtain ⟨extensions, hx, ho⟩ := bind_eq_ok.mp ho
  cases pure_eq_ok.mp ho
  refine ⟨h.name, h.package, h.imports, h.dialect, ?_, ?_, ?_, ?_, fun s hsm m hmm => ?_⟩
  · exact forall₂_trans (fun _ _ _ hl => hl.same_right) h.messages (OptionScope.messages_ok hm)
  · exact forall₂_trans (fun _ _ _ h₁ h₂ => ⟨h₂.1.trans h₁.1, h₂.2.trans h₁.2⟩) h.enums
      (OptionScope.enums_ok he)
  · exact forall₂_trans (fun _ _ _ hl => hl.same_right) h.extensions (OptionScope.fields_ok hx)
  · exact forall₂_trans (fun _ _ _ hl => hl.same_right) h.services (OptionScope.services_ok hs)
  · obtain ⟨u, hu, -, hmethods⟩ := mem_of_forall₂ (OptionScope.services_ok hs) hsm
    obtain ⟨n, hn, hsame⟩ := mem_of_forall₂ hmethods hmm
    exact (h.methods u hu n hn).same_right hsame

/-- A file that is added stands behind the others, linked with the names that the pool knows from
then on. -/
theorem add_eq_ok {p p' : Pool} {f : FileDecl} (h : p.add f = .ok p') :
    ∃ g, p'.files = p.files ++ [g] ∧ p'.types = p.types ++ g.types p.types.enums ∧
      p.declare f = .ok p'.symbols ∧ LinkedFile ⟨p'.symbols, p.visible f⟩ f g := by
  unfold add at h
  obtain ⟨symbols, hs, h⟩ := bind_eq_ok.mp h
  obtain ⟨linked, hl, h⟩ := bind_eq_ok.mp h
  obtain ⟨g, hg, h⟩ := bind_eq_ok.mp h
  cases pure_eq_ok.mp h
  exact ⟨g, rfl, rfl, hs, (linkReferences_ok hl).options hg⟩

end RpcConsole.Pool

import RpcConsole.Pool.Settings
import RpcConsole.Proofs.Pool.Resolution

namespace RpcConsole.Pool

/-- Two fields that differ in their options only. -/
def SameField (f g : FieldDecl) : Prop :=
  g = { f with options := g.options }

/-- Two enums with the same names and numbers. -/
def SameEnum (d e : EnumDecl) : Prop :=
  e.name = d.name ∧
    e.values.map (fun v => (v.name, v.number)) = d.values.map (fun v => (v.name, v.number))

/-- Two messages that differ in options only, each with its full name. -/
structure SameMessage (p q : String × MessageDecl) : Prop where
  full : q.1 = p.1
  fields : List.Forall₂ SameField p.2.fields q.2.fields
  extensions : List.Forall₂ SameField p.2.extensions q.2.extensions
  enums : List.Forall₂ SameEnum p.2.enums q.2.enums
  ranges : q.2.extensionRanges.map ExtensionRange.range =
    p.2.extensionRanges.map ExtensionRange.range
  oneofs : q.2.oneofs.map OneofDecl.name = p.2.oneofs.map OneofDecl.name

/-- Two methods that differ in their options only. -/
def SameMethod (m n : MethodDecl) : Prop :=
  n = { m with options := n.options }

/-- Two services that differ in options only. -/
def SameService (s u : ServiceDecl) : Prop :=
  u.name = s.name ∧ List.Forall₂ SameMethod s.methods u.methods

namespace OptionScope

variable {o : OptionScope} {scope : String}

theorem fields_ok {fs gs : List FieldDecl} (h : o.fields scope fs = .ok gs) :
    List.Forall₂ SameField fs gs := by
  induction fs generalizing gs with
  | nil => cases h; exact .nil
  | cons f fs ih =>
    unfold fields at h
    obtain ⟨options, -, h⟩ := bind_eq_ok.mp h
    obtain ⟨rest, hr, h⟩ := bind_eq_ok.mp h
    cases pure_eq_ok.mp h
    exact .cons rfl (ih hr)

theorem oneofs_ok {ds es : List OneofDecl} (h : o.oneofs scope ds = .ok es) :
    es.map OneofDecl.name = ds.map OneofDecl.name := by
  induction ds generalizing es with
  | nil => cases h; rfl
  | cons d ds ih =>
    unfold oneofs at h
    obtain ⟨options, -, h⟩ := bind_eq_ok.mp h
    obtain ⟨rest, hr, h⟩ := bind_eq_ok.mp h
    cases pure_eq_ok.mp h
    simp [ih hr]

theorem enumValues_ok {vs ws : List EnumValueDecl} (h : o.enumValues scope vs = .ok ws) :
    ws.map (fun v => (v.name, v.number)) = vs.map (fun v => (v.name, v.number)) := by
  induction vs generalizing ws with
  | nil => cases h; rfl
  | cons v vs ih =>
    unfold enumValues at h
    obtain ⟨options, -, h⟩ := bind_eq_ok.mp h
    obtain ⟨rest, hr, h⟩ := bind_eq_ok.mp h
    cases pure_eq_ok.mp h
    simp [ih hr]

theorem enum_ok {d e : EnumDecl} (h : o.enum scope d = .ok e) : SameEnum d e := by
  unfold enum at h
  obtain ⟨options, -, h⟩ := bind_eq_ok.mp h
  obtain ⟨-, -, h⟩ := bind_eq_ok.mp h
  obtain ⟨values, hv, h⟩ := bind_eq_ok.mp h
  cases pure_eq_ok.mp h
  exact ⟨rfl, enumValues_ok hv⟩

theorem enums_ok {ds es : List EnumDecl} (h : o.enums scope ds = .ok es) :
    List.Forall₂ SameEnum ds es := by
  induction ds generalizing es with
  | nil => cases h; exact .nil
  | cons d ds ih =>
    unfold enums at h
    obtain ⟨e, he, h⟩ := bind_eq_ok.mp h
    obtain ⟨rest, hr, h⟩ := bind_eq_ok.mp h
    cases pure_eq_ok.mp h
    exact .cons (enum_ok he) (ih hr)

theorem extensionRanges_ok {rs qs : List ExtensionRange}
    (h : o.extensionRanges scope rs = .ok qs) :
    qs.map ExtensionRange.range = rs.map ExtensionRange.range := by
  induction rs generalizing qs with
  | nil => cases h; rfl
  | cons r rs ih =>
    unfold extensionRanges at h
    obtain ⟨options, -, h⟩ := bind_eq_ok.mp h
    obtain ⟨rest, hr, h⟩ := bind_eq_ok.mp h
    cases pure_eq_ok.mp h
    simp [ih hr]

mutual

theorem message_ok {scope : String} {m m' : MessageDecl} (h : message o scope m = .ok m') :
    List.Forall₂ SameMessage (MessageDecl.within scope m) (MessageDecl.within scope m') := by
  match m with
  | ⟨name, fields, extensions, nested, enums, ranges, oneofs, reserved, reservedNames, options⟩ =>
    rw [message] at h
    obtain ⟨options', -, h⟩ := bind_eq_ok.mp h
    obtain ⟨ranges', hr, h⟩ := bind_eq_ok.mp h
    obtain ⟨oneofs', ho, h⟩ := bind_eq_ok.mp h
    obtain ⟨fields', hf, h⟩ := bind_eq_ok.mp h
    obtain ⟨nested', hn, h⟩ := bind_eq_ok.mp h
    obtain ⟨enums', he, h⟩ := bind_eq_ok.mp h
    obtain ⟨extensions', hx, h⟩ := bind_eq_ok.mp h
    cases pure_eq_ok.mp h
    rw [MessageDecl.within, MessageDecl.within]
    exact .cons ⟨rfl, fields_ok hf, fields_ok hx, enums_ok he, extensionRanges_ok hr, oneofs_ok ho⟩
      (messages_ok hn)

theorem messages_ok {scope : String} {ms ms' : List MessageDecl}
    (h : messages o scope ms = .ok ms') :
    List.Forall₂ SameMessage (MessageDecl.withinAll scope ms)
      (MessageDecl.withinAll scope ms') := by
  match ms with
  | [] =>
    rw [messages] at h
    cases h
    exact .nil
  | m :: ms =>
    rw [messages] at h
    obtain ⟨m', hm, h⟩ := bind_eq_ok.mp h
    obtain ⟨rest, hr, h⟩ := bind_eq_ok.mp h
    cases pure_eq_ok.mp h
    simp only [MessageDecl.withinAll_cons]
    exact List.rel_append (message_ok hm) (messages_ok hr)

end

theorem methods_ok {ms ns : List MethodDecl} (h : o.methods scope ms = .ok ns) :
    List.Forall₂ SameMethod ms ns := by
  induction ms generalizing ns with
  | nil => cases h; exact .nil
  | cons m ms ih =>
    unfold methods at h
    obtain ⟨options, -, h⟩ := bind_eq_ok.mp h
    obtain ⟨rest, hr, h⟩ := bind_eq_ok.mp h
    cases pure_eq_ok.mp h
    exact .cons rfl (ih hr)

theorem services_ok {ss us : List ServiceDecl} (h : o.services scope ss = .ok us) :
    List.Forall₂ SameService ss us := by
  induction ss generalizing us with
  | nil => cases h; exact .nil
  | cons s ss ih =>
    unfold services at h
    obtain ⟨options, -, h⟩ := bind_eq_ok.mp h
    obtain ⟨methods, hm, h⟩ := bind_eq_ok.mp h
    obtain ⟨rest, hr, h⟩ := bind_eq_ok.mp h
    cases pure_eq_ok.mp h
    exact .cons ⟨rfl, methods_ok hm⟩ (ih hr)

end OptionScope
end RpcConsole.Pool

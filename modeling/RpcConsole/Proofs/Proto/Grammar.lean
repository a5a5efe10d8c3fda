import RpcConsole.Proto.Grammar
import RpcConsole.Proofs.Proto.Ensures
import RpcConsole.Proofs.Proto.Identifiers
import RpcConsole.Proofs.Schema.Messages

namespace RpcConsole

namespace FieldDecl

/-- A field as the grammar lets it stand in a message. -/
structure Plain (dialect : Dialect) (f : FieldDecl) : Prop where
  number : 1 ≤ f.number ∧ f.number ≤ 536870911
  single : f.oneofIndex.isSome = true ∨ f.isProto3Optional = true → f.label ≠ .repeated
  default : dialect = .proto3 → f.defaultText = none

end FieldDecl

/-- A value of an enum: its number fits into 32 bits, and its name is an identifier. -/
structure EnumValueDecl.Plain (v : EnumValueDecl) : Prop where
  number : -2147483648 ≤ v.number ∧ v.number ≤ 2147483647
  name : Proto.Lexeme.isIdentifier v.name.toList = true

def EnumDecl.Plain (e : EnumDecl) : Prop :=
  ∀ v ∈ e.values, v.Plain

namespace MessageDecl

/-- What the grammar says about the fields, extensions and enums of one message, and its name. -/
structure Plain (dialect : Dialect) (m : MessageDecl) : Prop where
  fields : ∀ f ∈ m.fields, f.Plain dialect
  extensions : ∀ f ∈ m.extensions, f.Plain dialect ∧ f.oneofIndex = none
  enums : ∀ e ∈ m.enums, e.Plain
  name : Name.IsDotted m.name

end MessageDecl

/-- The names of a service and of its methods are identifiers. -/
structure ServiceDecl.Plain (s : ServiceDecl) : Prop where
  name : Proto.Lexeme.isIdentifier s.name.toList = true
  methods : ∀ m ∈ s.methods, Proto.Lexeme.isIdentifier m.name.toList = true

namespace FileDecl

/-- What the grammar says about a file. -/
structure Plain (f : FileDecl) : Prop where
  messages : MessageDecl.Everywhere (MessageDecl.Plain f.dialect) f.messages
  enums : ∀ e ∈ f.enums, e.Plain
  services : ∀ s ∈ f.services, s.Plain
  extensions : ∀ x ∈ f.extensions, x.Plain f.dialect ∧ x.oneofIndex = none
  package : ∀ name ∈ f.package, Name.IsDotted name

end FileDecl

namespace MessageDecl

mutual

theorem within_dotted {scope : String} {m : MessageDecl} (hs : Name.IsDotted scope)
    (h : ∀ p ∈ within scope m, Name.IsDotted p.2.name) :
    ∀ p ∈ within scope m, Name.IsDotted p.1 := by
  match m with
  | ⟨name, fields, extensions, nested, enums, ranges, oneofs, reserved, reservedNames, options⟩ =>
    rw [within] at h ⊢
    obtain ⟨hm, hn⟩ := List.forall_mem_cons.mp h
    have hfull := hs.join hm
    exact List.forall_mem_cons.mpr ⟨hfull, withinAll_dotted hfull hn⟩

theorem withinAll_dotted {scope : String} {ms : List MessageDecl} (hs : Name.IsDotted scope)
    (h : ∀ p ∈ withinAll scope ms, Name.IsDotted p.2.name) :
    ∀ p ∈ withinAll scope ms, Name.IsDotted p.1 := by
  match ms with
  | [] => simp
  | m :: ms =>
    rw [withinAll_cons] at h ⊢
    obtain ⟨hm, hms⟩ := List.forall_mem_append.mp h
    exact List.forall_mem_append.mpr ⟨within_dotted hs hm, withinAll_dotted hs hms⟩

end

end MessageDecl

namespace FileDecl.Plain

variable {f : FileDecl}

theorem packageName (h : f.Plain) : Name.IsDotted f.packageName := by
  unfold FileDecl.packageName
  cases hp : f.package with
  | none => simp [Name.IsDotted]
  | some name => exact h.package name hp

theorem messageNames (h : f.Plain) : ∀ name ∈ f.messageNames, Name.IsDotted name := by
  intro name hn
  obtain ⟨p, hp, rfl⟩ := List.mem_map.mp hn
  exact MessageDecl.withinAll_dotted h.packageName
    (fun q hq => (h.messages _ q hq).name) p hp

end FileDecl.Plain

namespace Proto.Grammar
open Reading

/-- A field that was read, outside of oneofs or inside one. -/
structure FieldRead.Good (dialect : Dialect) (scope : Scope) (r : FieldRead) : Prop where
  plain : r.field.Plain dialect
  free : r.field.oneofIndex = none
  single : scope = .oneof → r.field.label ≠ .repeated
  nested : MessageDecl.Everywhere (MessageDecl.Plain dialect) r.nested

/-- What is needed of the reading of message bodies. -/
def Bodies (dialect : Dialect) (body : String → Reading MessageDecl) : Prop :=
  ∀ name, Name.IsDotted name →
    (body name).Ensures fun m => MessageDecl.Everywhere (MessageDecl.Plain dialect) [m]

variable {body : String → Reading MessageDecl} {dialect : Dialect} {scope : Scope}
  {label : Option Label}

/-- A label that is accepted has no fault. -/
theorem checkLabel_ensures (dialect : Dialect) (scope : Scope) (shape : Shape)
    (label : Option Label) (offset : Nat) :
    (checkLabel dialect scope shape label offset).Ensures fun _ =>
      labelFault? dialect scope shape label = none := by
  unfold checkLabel
  cases h : labelFault? dialect scope shape label with
  | some cause => exact .flag_bind
  | none => exact (Ensures.true _).mono fun _ _ => rfl

theorem entryMessage_plain {field : String} (h : Lexeme.isIdentifier field.toList = true)
    (key value : TypeRef) : (entryMessage field key value).Plain dialect where
  name := .mapEntry h
  fields f hf := by
    simp only [entryMessage, List.mem_cons, List.not_mem_nil, or_false] at hf
    rcases hf with rfl | rfl <;> exact ⟨by simp, by simp, by simp⟩
  extensions := by simp [entryMessage]
  enums := by simp [entryMessage]

/-- In proto3 no default value is accepted. -/
theorem fieldOptions_ensures (dialect : Dialect) (shape : Shape) (label : Option Label)
    (type : TypeRef) (options : List OptionText) :
    (fieldOptions dialect shape label type options).Ensures fun o =>
      dialect = .proto3 → o.defaultText = none := by
  unfold fieldOptions
  refine .foldlM (fun done o hd => .ite (fun _ => ?_) fun _ => .ite (fun _ => ?_) fun _ => ?_)
    (by simp)
  · dsimp only
    split
    · exact .flag_bind
    · refine .ite (fun _ => .flag_bind) fun h3 => ?_
      split
      · exact .pure fun hd => absurd (beq_iff_eq.mpr hd) h3
      · exact .flag_bind
  · split
    · exact .next fun name => .pure hd
    · exact .flag_bind
  · exact .next fun raw => .pure hd

theorem mapField_ensures (h : labelFault? dialect scope .map label = none) :
    (mapField dialect).Ensures (FieldRead.Good dialect scope) := by
  have hs : scope ≠ .oneof := by
    rintro rfl
    simp [labelFault?] at h
  unfold mapField
  refine .next fun _ => .next fun _ => .next fun key => ?_
  refine .ite (fun _ => ?_) fun _ => .flag_bind
  refine .next fun _ => .next fun value => .next fun _ => ident_ensures.bind fun name hname => ?_
  refine .next fun _ => .next fun n => (checkNumber_ensures _ n).bind fun number hn => ?_
  refine .next fun _ => .next fun options => .pure ?_
  exact ⟨⟨hn, by simp, by simp⟩, rfl, fun he => absurd he hs,
    .single (entryMessage_plain hname key value) .nil⟩

theorem groupField_ensures (hb : Bodies dialect body)
    (h : labelFault? dialect scope .group label = none) :
    (groupField body dialect label).Ensures (FieldRead.Good dialect scope) := by
  have hs : scope = .oneof → label.getD .optional ≠ .repeated := by
    rintro rfl
    cases label <;> simp [labelFault?] at h ⊢
  unfold groupField
  refine .next fun _ => ident_ensures.bind fun name hname => .ite (fun _ => ?_) fun _ => .fail_bind
  refine .next fun _ => .next fun n => (checkNumber_ensures _ n).bind fun number hn => ?_
  refine .next fun _ => (fieldOptions_ensures _ _ _ _ _).bind fun options ho => ?_
  exact (hb name (.of_identifier hname)).bind fun m hm => .pure ⟨⟨hn, by simp, ho⟩, rfl, hs, hm⟩

theorem plainField_ensures (h : labelFault? dialect scope .plain label = none) :
    (plainField dialect scope label).Ensures (FieldRead.Good dialect scope) := by
  have hs : scope = .oneof → label.getD .optional ≠ .repeated := by
    rintro rfl
    cases label <;> simp [labelFault?] at h ⊢
  unfold plainField
  refine .next fun type => .next fun name => .next fun _ => .next fun n => ?_
  refine (checkNumber_ensures _ n).bind fun number hn => .next fun _ => ?_
  refine (fieldOptions_ensures _ _ _ _ _).bind fun options hd => ?_
  refine .pure ⟨⟨hn, fun ho => ?_, hd⟩, rfl, hs, .nil⟩
  have hl : label = some .optional := by
    simp only [Option.isSome_none, Bool.false_eq_true, false_or, Bool.and_eq_true,
      beq_iff_eq] at ho
    exact ho.2
  simp [hl]

theorem field_ensures (hb : Bodies dialect body) :
    (field body dialect scope).Ensures (FieldRead.Good dialect scope) := by
  unfold field
  refine .next fun offset => .next fun label => .next fun isMap => .ite (fun _ => ?_) fun _ => ?_
  · exact (checkLabel_ensures _ _ _ _ _).bind fun _ h => mapField_ensures h
  · refine .next fun isGroup => .ite (fun _ => ?_) fun _ => ?_
    · exact (checkLabel_ensures _ _ _ _ _).bind fun _ h => groupField_ensures hb h
    · exact (checkLabel_ensures _ _ _ _ _).bind fun _ h => plainField_ensures h

/-- The fields and the messages of an `extend`. -/
def Extended (dialect : Dialect) (r : List FieldDecl × List MessageDecl) : Prop :=
  (∀ f ∈ r.1, f.Plain dialect ∧ f.oneofIndex = none) ∧
    MessageDecl.Everywhere (MessageDecl.Plain dialect) r.2

theorem extend_ensures (hb : Bodies dialect body) :
    (extend body dialect).Ensures (Extended dialect) := by
  unfold extend
  refine .next fun extendee => .next fun _ => .loop (fun r hr => ?_) ⟨by simp, .nil⟩
  refine .next fun _ => .ite (fun _ => .pure hr) fun _ => ?_
  refine .next fun _ => .ite (fun _ => .pure hr) fun _ => ?_
  refine .next fun _ => .ite (fun _ => ?_) fun _ => .failExpected
  refine (field_ensures hb).bind fun x hx => .pure ⟨fun f hf => ?_, hr.2.append hx.nested⟩
  rcases List.mem_append.mp hf with hf | hf
  · exact hr.1 f hf
  · have hf := List.mem_singleton.mp hf
    subst hf
    exact ⟨⟨hx.plain.number, hx.plain.single, hx.plain.default⟩, hx.free⟩

theorem enumValue_ensures : enumValue.Ensures EnumValueDecl.Plain := by
  unfold enumValue
  refine ident_ensures.bind fun name hname => .next fun _ => .next fun n => ?_
  refine (checkEnumNumber_ensures n).bind fun number hn => ?_
  exact .next fun _ => .next fun options => .pure ⟨hn, hname⟩

theorem enum_ensures : Grammar.enum.Ensures EnumDecl.Plain := by
  unfold Grammar.enum
  refine .next fun name => .next fun _ => .loop (fun e he => ?_) (by simp [EnumDecl.Plain])
  refine .next fun _ => .ite (fun _ => .pure he) fun _ => ?_
  refine .next fun _ => .ite (fun _ => .pure he) fun _ => ?_
  refine .next fun _ => .ite (fun _ => .next fun o => .pure he) fun _ => ?_
  refine .next fun _ => .ite (fun _ => .next fun _ => .next fun _ => .pure he) fun _ => ?_
  refine .next fun _ => .ite (fun _ => ?_) fun _ => .failExpected
  refine enumValue_ensures.bind fun v hv => .pure fun w hw => ?_
  rcases List.mem_append.mp hw with hw | hw
  · exact he w hw
  · exact List.mem_singleton.mp hw ▸ hv

/-- What holds of a message that is being read, and of those inside it. -/
def Growing (dialect : Dialect) (m : MessageDecl) : Prop :=
  m.Plain dialect ∧ MessageDecl.Everywhere (MessageDecl.Plain dialect) m.nested

theorem Growing.empty {name : String} (h : Name.IsDotted name) : Growing dialect { name } :=
  ⟨⟨by simp, by simp, by simp, h⟩, .nil⟩

/-- A message that gets one more field. -/
theorem Growing.withField {m : MessageDecl} (hm : Growing dialect m) {f : FieldDecl}
    (hf : f.Plain dialect) {nested : List MessageDecl}
    (hn : MessageDecl.Everywhere (MessageDecl.Plain dialect) nested) :
    Growing dialect { m with fields := m.fields ++ [f], nested := m.nested ++ nested } := by
  refine ⟨{ hm.1 with fields := fun g hg => ?_ }, hm.2.append hn⟩
  rcases List.mem_append.mp hg with hg | hg
  · exact hm.1.fields g hg
  · exact List.mem_singleton.mp hg ▸ hf

/-- A field that gets a oneof of its own is not repeated. -/
theorem addOwnOneof_plain {done : List FieldDecl × List OneofDecl} {f : FieldDecl}
    (hd : ∀ g ∈ done.1, g.Plain dialect) (hf : f.Plain dialect) :
    ∀ g ∈ (addOwnOneof done f).1, g.Plain dialect := by
  intro g hg
  unfold addOwnOneof at hg
  split at hg <;> rename_i ho <;> rcases List.mem_append.mp hg with hg | hg
  · exact hd g hg
  · rw [List.mem_singleton.mp hg]
    exact ⟨hf.number, fun _ => hf.single (.inr ho), hf.default⟩
  · exact hd g hg
  · exact List.mem_singleton.mp hg ▸ hf

theorem addOwnOneofs_plain {fs : List FieldDecl} {done : List FieldDecl × List OneofDecl}
    (hd : ∀ g ∈ done.1, g.Plain dialect) (hf : ∀ f ∈ fs, f.Plain dialect) :
    ∀ g ∈ (fs.foldl addOwnOneof done).1, g.Plain dialect := by
  induction fs generalizing done with
  | nil => exact hd
  | cons f fs ih =>
    exact ih (addOwnOneof_plain hd (hf f (by simp))) fun g hg => hf g (by simp [hg])

theorem withOwnOneofs_growing {m : MessageDecl} (hm : Growing dialect m) :
    Growing dialect (withOwnOneofs m) :=
  ⟨⟨addOwnOneofs_plain (by simp) hm.1.fields, hm.1.extensions, hm.1.enums, hm.1.name⟩, hm.2⟩

theorem oneof_ensures (hb : Bodies dialect body) {offset : Nat} {m : MessageDecl}
    (hm : Growing dialect m) :
    (oneof body dialect offset m).Ensures (Growing dialect) := by
  unfold oneof
  refine .next fun name => .next fun _ => ?_
  refine (Ensures.loop (I := fun r => Growing dialect r.1) (fun r hr => ?_) hm).bind fun r hr => ?_
  · obtain ⟨m', options, count⟩ := r
    refine .next fun _ => .ite (fun _ => .pure hr) fun _ => ?_
    refine .next fun _ => .ite (fun _ => .pure hr) fun _ => ?_
    refine .next fun _ => .ite (fun _ => .next fun o => .pure hr) fun _ => ?_
    refine .next fun _ => .ite (fun _ => ?_) fun _ => .failExpected
    refine (field_ensures hb).bind fun x hx => .pure ?_
    have hf : FieldDecl.Plain dialect { x.field with oneofIndex := some m.oneofs.length } :=
      ⟨hx.plain.number, fun _ => hx.single rfl, hx.plain.default⟩
    exact Growing.withField hr hf hx.nested
  · obtain ⟨m', options, count⟩ := r
    refine .ite (fun _ => .flag_bind) fun _ => .pure ?_
    exact ⟨⟨hr.1.fields, hr.1.extensions, hr.1.enums, hr.1.name⟩, hr.2⟩

theorem close_ensures {m : MessageRead} (hm : Growing dialect m.decl) :
    m.close.Ensures (Growing dialect) := by
  unfold MessageRead.close
  refine .next fun reserved => .next fun extensions => .pure (withOwnOneofs_growing ?_)
  exact ⟨⟨hm.1.fields, hm.1.extensions, hm.1.enums, hm.1.name⟩, hm.2⟩

theorem named_ensures {α : Type} {P : α → Prop} {body : String → Reading α}
    (hb : ∀ name, Name.IsDotted name → (body name).Ensures P) : (named body).Ensures P :=
  ident_ensures.bind fun name hn => hb name (.of_identifier hn)

/-- Each declaration inside a message leaves the message plain, and so does its end. -/
theorem messageBody_bodies (dialect : Dialect) (depth : Nat) :
    Bodies dialect (messageBody dialect depth) := by
  induction depth with
  | zero => exact fun _ _ => .failExpected
  | succ depth hb =>
    intro name hname
    unfold messageBody
    refine .next fun _ => ?_
    refine (Ensures.loop (I := fun m : MessageRead => Growing dialect m.decl) (fun m hm => ?_)
      (Growing.empty hname)).bind fun m hm => ?_
    · obtain ⟨hp, hn⟩ := hm
      refine .next fun offset => ?_
      refine .next fun _ => .ite (fun _ => .pure ⟨hp, hn⟩) fun _ => ?_
      refine .next fun _ => .ite (fun _ => .pure ⟨hp, hn⟩) fun _ => ?_
      refine .next fun _ =>
        .ite (fun _ => .next fun o => .pure ⟨⟨hp.1, hp.2, hp.3, hp.4⟩, hn⟩) fun _ => ?_
      refine .next fun _ => .ite (fun _ => ?_) fun _ => ?_
      · exact (named_ensures hb).bind fun i hi => .pure ⟨⟨hp.1, hp.2, hp.3, hp.4⟩, hn.append hi⟩
      refine .next fun _ => .ite (fun _ => ?_) fun _ => ?_
      · refine enum_ensures.bind fun e he => .pure ⟨⟨hp.1, hp.2, fun e' he' => ?_, hp.4⟩, hn⟩
        rcases List.mem_append.mp he' with he' | he'
        · exact hp.enums e' he'
        · exact List.mem_singleton.mp he' ▸ he
      refine .next fun _ => .ite (fun _ => ?_) fun _ => ?_
      · refine (extend_ensures hb).bind fun r hr => .pure ?_
        refine ⟨⟨hp.1, fun f hf => ?_, hp.3, hp.4⟩, hn.append hr.2⟩
        rcases List.mem_append.mp hf with hf | hf
        · exact hp.extensions f hf
        · exact hr.1 f hf
      refine .next fun _ => .ite (fun _ => (oneof_ensures hb ⟨hp, hn⟩).bind fun d hd => .pure hd)
        fun _ => ?_
      refine .next fun _ => .ite (fun _ => ?_) fun _ => ?_
      · exact .next fun r => .pure ⟨⟨hp.1, hp.2, hp.3, hp.4⟩, hn⟩
      refine .next fun _ => .ite (fun _ => ?_) fun _ => ?_
      · exact .next fun rs => .next fun options => .next fun _ => .pure ⟨hp, hn⟩
      refine .next fun _ => .ite (fun _ => ?_) fun _ => .failExpected
      refine (field_ensures hb).bind fun x hx => .pure ?_
      exact Growing.withField ⟨hp, hn⟩ hx.plain hx.nested
    · exact (close_ensures hm).mono fun d hd => .single hd.1 hd.2

theorem method_ensures :
    method.Ensures fun m => Lexeme.isIdentifier m.name.toList = true := by
  unfold method
  refine ident_ensures.bind fun name hn => .next fun input => .next fun _ => .next fun output => ?_
  refine .next fun _ => .ite (fun _ => .pure hn) fun _ => ?_
  refine .next fun _ => .ite (fun _ => ?_) fun _ => .failExpected
  exact .next fun options => .pure hn

theorem service_ensures : service.Ensures ServiceDecl.Plain := by
  unfold service
  refine ident_ensures.bind fun name hn => .next fun _ => .loop (fun s hs => ?_) ⟨hn, by simp⟩
  refine .next fun _ => .ite (fun _ => .pure hs) fun _ => ?_
  refine .next fun _ => .ite (fun _ => .pure hs) fun _ => ?_
  refine .next fun _ => .ite (fun _ => .next fun o => .pure ⟨hs.name, hs.methods⟩) fun _ => ?_
  refine .next fun _ => .ite (fun _ => ?_) fun _ => .failExpected
  refine method_ensures.bind fun m hm => .pure ⟨hs.name, fun n hn => ?_⟩
  rcases List.mem_append.mp hn with hn | hn
  · exact hs.methods n hn
  · exact List.mem_singleton.mp hn ▸ hm

/-- What holds of a file that is being read. -/
structure Reads (name : String) (f : FileDecl) : Prop where
  name_eq : f.name = name
  plain : f.Plain

/-- The parts of a name behind its first one. -/
theorem nameTail_ensures {stops : Token → Bool} {expected first : String}
    (h : Name.IsDotted first) : (nameTail stops expected first).Ensures Name.IsDotted := by
  unfold nameTail
  refine .loop (fun name hn => .next fun t => ?_) h
  split
  · refine .next fun _ => ident_ensures.bind fun part hp => .pure ?_
    exact (hn.append .dot).append (.of_identifier hp)
  · exact .ite (fun _ => .pure hn) fun _ => .failExpected
  · exact .failExpected

theorem package_ensures : package.Ensures Name.IsDotted := by
  unfold package
  refine ident_ensures.bind fun first hf => ?_
  exact (nameTail_ensures (.of_identifier hf)).bind fun name hn => .next fun _ => .pure hn

theorem importFile_ensures {name : String} {f : FileDecl} (hf : Reads name f) :
    (importFile f).Ensures (Reads name) := by
  obtain ⟨hn, hp⟩ := hf
  unfold importFile
  refine .next fun isPublic =>
    .ite (fun _ => .next fun isWeak => ?_) fun _ => .next fun isWeak => ?_
  all_goals
    refine .next fun literal => ?_
    dsimp only
    split
    · refine .next fun path => .ite (fun _ => ?_) fun _ => .fail_bind
      exact .next fun _ => .pure ⟨hn, ⟨hp.1, hp.2, hp.3, hp.4, hp.5⟩⟩
    · exact .fail_bind

theorem statement_ensures {name : String} {depth : Nat} {f : FileRead} (hf : Reads name f.decl) :
    (statement depth f).Ensures fun r => Reads name r.1.decl := by
  obtain ⟨hn, hp⟩ := hf
  have hb := messageBody_bodies f.decl.dialect depth
  unfold statement
  refine .next fun offset => ?_
  refine .next fun _ => .ite (fun _ => .pure ⟨hn, hp⟩) fun _ => ?_
  refine .next fun _ => .ite (fun _ => .pure ⟨hn, hp⟩) fun _ => ?_
  refine .next fun _ => .ite (fun _ => ?_) fun _ => ?_
  · exact (importFile_ensures ⟨hn, hp⟩).bind fun d hd => .pure hd
  refine .next fun _ => .ite (fun _ => ?_) fun _ => ?_
  · refine package_ensures.bind fun package hpackage => ?_
    split
    · refine .pure ⟨hn, ⟨hp.1, hp.2, hp.3, hp.4, fun name hname => ?_⟩⟩
      exact Option.mem_some.mp hname ▸ hpackage
    · exact .pure ⟨hn, hp⟩
  refine .next fun _ =>
    .ite (fun _ => .next fun o => .pure ⟨hn, ⟨hp.1, hp.2, hp.3, hp.4, hp.5⟩⟩) fun _ => ?_
  refine .next fun _ => .ite (fun _ => ?_) fun _ => ?_
  · refine (named_ensures hb).bind fun m hm => .pure ?_
    exact ⟨hn, ⟨hp.messages.append hm, hp.2, hp.3, hp.4, hp.5⟩⟩
  refine .next fun _ => .ite (fun _ => ?_) fun _ => ?_
  · refine enum_ensures.bind fun e he => .pure ⟨hn, ⟨hp.1, fun e' he' => ?_, hp.3, hp.4, hp.5⟩⟩
    rcases List.mem_append.mp he' with he' | he'
    · exact hp.enums e' he'
    · exact List.mem_singleton.mp he' ▸ he
  refine .next fun _ => .ite (fun _ => ?_) fun _ => ?_
  · refine service_ensures.bind fun s hs => .pure ?_
    refine ⟨hn, ⟨hp.1, hp.2, fun s' hs' => ?_, hp.4, hp.5⟩⟩
    rcases List.mem_append.mp hs' with hs' | hs'
    · exact hp.services s' hs'
    · exact List.mem_singleton.mp hs' ▸ hs
  refine .next fun _ => .ite (fun _ => ?_) fun _ => .failExpected
  refine (extend_ensures hb).bind fun r hr => .pure ?_
  refine ⟨hn, ⟨hp.messages.append hr.2, hp.enums, hp.services, fun f hf => ?_, hp.package⟩⟩
  rcases List.mem_append.mp hf with hf | hf
  · exact hp.extensions f hf
  · exact hr.1 f hf

theorem file_ensures (name : String) : (file name).Ensures (Reads name) := by
  unfold file
  refine .next fun dialect => .next fun left => ?_
  have hs : Reads name { name, dialect } := ⟨rfl, ⟨.nil, by simp, by simp, by simp, by simp⟩⟩
  refine (Ensures.loop (I := fun f : FileRead => Reads name f.decl)
    (fun f hf => statement_ensures hf) hs).bind fun f hf => ?_
  exact .ite (fun _ => .fail_bind) fun _ => .pure hf

end Proto.Grammar

/-- A file that is parsed has the name for which it is read, and its declarations are as the
grammar wants them. -/
theorem Proto.parse_reads {name source : String} {f : FileDecl}
    (h : Proto.parse name source = .ok f) : Grammar.Reads name f := by
  unfold Proto.parse at h
  cases hf : Grammar.file name ⟨(Lexeme.scan source.toList).items,
      (Lexeme.scan source.toList).fault, Lexeme.scan_named source.toList⟩ with
  | error e => simp [hf] at h
  | ok r =>
    obtain ⟨g, c, kept⟩ := r
    cases kept with
    | some e => simp [hf] at h
    | none =>
      simp only [hf, Except.ok.injEq] at h
      exact h ▸ Grammar.file_ensures name _ g c hf

end RpcConsole

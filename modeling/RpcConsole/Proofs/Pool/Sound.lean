import RpcConsole.Proofs.Number.Integer
import RpcConsole.Proofs.Pool.Adding
import RpcConsole.Proofs.Proto.Grammar
import RpcConsole.Proofs.Schema.Sound

namespace RpcConsole

namespace MessageDecl

/-- The type of a message with its full name. -/
def ownType (dialect : Dialect) (known : List EnumType) (p : String × MessageDecl) :
    MessageType where
  name := p.1
  fields := p.2.fields.map (FieldDecl.toField dialect known p.1)
  oneofs := p.2.oneofs.map OneofDecl.name
  isMapEntry := isMapEntry p.2.options

variable {dialect : Dialect} {known : List EnumType}

mutual

theorem types_eq (scope : String) (m : MessageDecl) :
    types dialect known scope m = (within scope m).map (ownType dialect known) := by
  match m with
  | ⟨name, fields, extensions, nested, enums, ranges, oneofs, reserved, reservedNames, options⟩ =>
    rw [types, within, List.map_cons, typesOf_eq]
    rfl

theorem typesOf_eq (scope : String) (ms : List MessageDecl) :
    typesOf dialect known scope ms = (withinAll scope ms).map (ownType dialect known) := by
  match ms with
  | [] => rw [typesOf, withinAll_nil, List.map_nil]
  | m :: ms => rw [typesOf, withinAll_cons, List.map_append, types_eq, typesOf_eq]

end

mutual

theorem enumTypes_eq (scope : String) (m : MessageDecl) :
    enumTypes scope m = (within scope m).flatMap fun p => p.2.enums.map (EnumDecl.type p.1) := by
  match m with
  | ⟨name, fields, extensions, nested, enums, ranges, oneofs, reserved, reservedNames, options⟩ =>
    rw [enumTypes, within, List.flatMap_cons, enumTypesOf_eq]

theorem enumTypesOf_eq (scope : String) (ms : List MessageDecl) :
    enumTypesOf scope ms =
      (withinAll scope ms).flatMap fun p => p.2.enums.map (EnumDecl.type p.1) := by
  match ms with
  | [] => rw [enumTypesOf, withinAll_nil, List.flatMap_nil]
  | m :: ms => rw [enumTypesOf, withinAll_cons, List.flatMap_append, enumTypes_eq, enumTypesOf_eq]

end

mutual

theorem extensionTypes_eq (scope : String) (m : MessageDecl) :
    extensionTypes dialect known scope m =
      (within scope m).flatMap fun p =>
        p.2.extensions.map (FieldDecl.toExtension dialect known p.1) := by
  match m with
  | ⟨name, fields, extensions, nested, enums, ranges, oneofs, reserved, reservedNames, options⟩ =>
    rw [extensionTypes, within, List.flatMap_cons, extensionTypesOf_eq]

theorem extensionTypesOf_eq (scope : String) (ms : List MessageDecl) :
    extensionTypesOf dialect known scope ms =
      (withinAll scope ms).flatMap fun p =>
        p.2.extensions.map (FieldDecl.toExtension dialect known p.1) := by
  match ms with
  | [] => rw [extensionTypesOf, withinAll_nil, List.flatMap_nil]
  | m :: ms =>
    rw [extensionTypesOf, withinAll_cons, List.flatMap_append, extensionTypes_eq,
      extensionTypesOf_eq]

end

end MessageDecl

namespace FileDecl

/-- The enums of a file, wherever they stand. -/
def allEnums (f : FileDecl) : List EnumDecl :=
  f.allMessages.flatMap (fun p => p.2.enums) ++ f.enums

/-- The extensions of a file, wherever they stand. -/
def allExtensions (f : FileDecl) : List FieldDecl :=
  f.allMessages.flatMap (fun p => p.2.extensions) ++ f.extensions

variable {f : FileDecl} {known : List EnumType}

theorem types_messages : (f.types known).messages =
    f.allMessages.map (MessageDecl.ownType f.dialect (known ++ f.enumTypes)) :=
  MessageDecl.typesOf_eq f.packageName f.messages

theorem mem_enumTypes {e : EnumType} (he : e ∈ f.enumTypes) :
    ∃ scope, ∃ d ∈ f.allEnums, e = d.type scope := by
  unfold enumTypes at he
  rw [MessageDecl.enumTypesOf_eq] at he
  rcases List.mem_append.mp he with he | he
  · obtain ⟨p, hp, he⟩ := List.mem_flatMap.mp he
    obtain ⟨d, hd, rfl⟩ := List.mem_map.mp he
    exact ⟨p.1, d, List.mem_append_left _ (List.mem_flatMap.mpr ⟨p, hp, hd⟩), rfl⟩
  · obtain ⟨d, hd, rfl⟩ := List.mem_map.mp he
    exact ⟨_, d, List.mem_append_right _ hd, rfl⟩

theorem mem_types_extensions {x : Extension} (hx : x ∈ (f.types known).extensions) :
    ∃ scope, ∃ d ∈ f.allExtensions, x = d.toExtension f.dialect (known ++ f.enumTypes) scope := by
  unfold types at hx
  simp only [MessageDecl.extensionTypesOf_eq] at hx
  rcases List.mem_append.mp hx with hx | hx
  · obtain ⟨p, hp, hx⟩ := List.mem_flatMap.mp hx
    obtain ⟨d, hd, rfl⟩ := List.mem_map.mp hx
    exact ⟨p.1, d, List.mem_append_left _ (List.mem_flatMap.mpr ⟨p, hp, hd⟩), rfl⟩
  · obtain ⟨d, hd, rfl⟩ := List.mem_map.mp hx
    exact ⟨_, d, List.mem_append_right _ hd, rfl⟩

end FileDecl

/-- The numbers of an enum fit into 32 bits. -/
def EnumType.IsNarrow (e : EnumType) : Prop :=
  ∀ v ∈ e.values, -2147483648 ≤ v.2 ∧ v.2 ≤ 2147483647

theorem Scalar.readDefault_takes {s : Scalar} {text : String} {v : Value}
    (h : s.readDefault text = some v) : s.Takes v := by
  unfold readDefault at h
  split at h
  · split at h
    · cases h
      rfl
    · split at h
      · cases h
        rfl
      · cases h
  · cases h
    rfl
  · cases h
    rfl
  · obtain ⟨x, -, rfl⟩ := Option.map_eq_some_iff.mp h
    rfl
  · obtain ⟨x, -, rfl⟩ := Option.map_eq_some_iff.mp h
    rfl
  · obtain ⟨r, hr, h⟩ := Option.bind_eq_some_iff.mp h
    obtain ⟨hl, hu⟩ := range_bounds hr
    split at h
    · rename_i n hn
      cases h
      exact ⟨hr, IntRange.read_contains hl hu hn⟩
    · cases h

namespace FieldDecl

variable {dialect : Dialect} {known : List EnumType} {f : FieldDecl}

theorem writtenDefault_takes (hk : ∀ e ∈ known, e.IsNarrow) {v : Value}
    (h : f.writtenDefault known = some v) : f.type.kind.Takes v := by
  unfold writtenDefault at h
  obtain ⟨text, -, h⟩ := Option.bind_eq_some_iff.mp h
  split at h
  · rename_i hs
    rw [hs]
    exact Scalar.readDefault_takes h
  · rename_i he
    obtain ⟨n, hn, rfl⟩ := Option.map_eq_some_iff.mp h
    obtain ⟨e, hf, hv⟩ := Option.bind_eq_some_iff.mp hn
    rw [he]
    exact hk e (List.mem_of_find?_eq_some hf) _ (mem_of_lookup hv)
  · cases h

theorem Plain.isNumber (h : f.Plain dialect) : Wire.IsNumber f.number.toNat := by
  have := h.number
  unfold Wire.IsNumber
  omega

theorem Plain.cast_toNat (h : f.Plain dialect) : (f.number.toNat : Int) = f.number := by
  have := h.number
  omega

theorem Plain.single_of_repeated (h : f.Plain dialect) (hl : f.label = .repeated) :
    f.oneofIndex = none ∧ f.isProto3Optional = false := by
  constructor
  · by_contra ho
    exact h.single (.inl (Option.isSome_iff_ne_none.mpr ho)) hl
  · by_contra ho
    exact h.single (.inr (by simpa using ho)) hl

end FieldDecl

namespace Pool.Scope

variable {sc : Scope} {t : TypeTable} {known : List EnumType} {f g : FieldDecl}

theorem LinkedField.number (h : sc.LinkedField f g) : g.number = f.number := by
  rw [h.same]

/-- A linked field is sound in a table that has the messages that can be named. -/
theorem LinkedField.sound (h : sc.LinkedField f g) {dialect : Dialect} (hp : f.Plain dialect)
    (scope : String) (hk : ∀ e ∈ known, e.IsNarrow)
    (hm : ∀ s ∈ sc.symbols, ∀ r, s.kind = .message r → (t.message? s.name).isSome) :
    (g.toField dialect known scope).Sound t where
  number := by
    show Wire.IsNumber g.number.toNat
    rw [h.number]
    exact hp.isNumber
  resolves name hn := by
    have hd := h.declared
    rw [show g.type.kind = .message name from hn] at hd
    cases hd with
    | message hs hk => exact hm _ hs _ hk
  presence hr := by
    have hl : f.label = .repeated := by
      have hg : g.label = f.label := by rw [h.same]
      rw [← hg]
      exact eq_of_beq hr
    obtain ⟨ho, h3⟩ := hp.single_of_repeated hl
    rw [h.same]
    simp [FieldDecl.toField, FieldDecl.hasPresence, ho, h3, hl]
  packed hr := by
    simp only [FieldDecl.toField, Bool.and_eq_true] at hr
    exact hr.2
  written v hv := FieldDecl.writtenDefault_takes hk hv
  oneof ho := by
    have ho : g.oneofIndex.isSome = true := ho
    simp [FieldDecl.toField, FieldDecl.hasPresence, ho]
  bare hpresence hr := by
    have hg : g.defaultText = f.defaultText := by rw [h.same]
    have hl : (g.label != .repeated) = true := by
      simpa [FieldDecl.toField, Field.isRepeated] using hr
    simp only [FieldDecl.toField, FieldDecl.hasPresence, hl, Bool.true_and, Bool.or_eq_false_iff]
      at hpresence
    obtain ⟨-, hd, hkind⟩ := hpresence
    have h3 : dialect = .proto3 := by
      cases dialect
      · cases hd
      · rfl
    constructor
    · show g.writtenDefault known = none
      rw [FieldDecl.writtenDefault, hg, hp.default h3]
      rfl
    · intro name hn
      rw [show g.type.kind = .message name from hn] at hkind
      cases hkind

/-- What is different in an extension is whether it can be seen to be set. -/
theorem LinkedExtension.sound (h : sc.LinkedExtension f g) {dialect : Dialect}
    (hp : f.Plain dialect) (ho : f.oneofIndex = none) (scope : String)
    (hk : ∀ e ∈ known, e.IsNarrow)
    (hm : ∀ s ∈ sc.symbols, ∀ r, s.kind = .message r → (t.message? s.name).isSome) :
    (g.toExtension dialect known scope).Sound t := by
  have hs := h.toLinkedField.sound hp scope hk hm
  have hg : g.oneofIndex = f.oneofIndex := by rw [h.same]
  have hpresence : (g.toExtension dialect known scope).field.hasPresence =
      !(g.toExtension dialect known scope).field.isRepeated := rfl
  have hfree := hg.trans ho
  refine ⟨⟨hs.number, hs.resolves, fun hr => ?_, hs.packed, hs.written, fun hr => ?_,
    fun hn hr => ?_⟩, hfree, fun hr => ?_⟩
  · rw [hpresence, hr]
    rfl
  · rw [show (g.toExtension dialect known scope).field.oneof = none from hfree] at hr
    cases hr
  · rw [hpresence, hr] at hn
    cases hn
  · rw [hpresence, hr]
    rfl

end Pool.Scope

namespace Pool.LinkedFile

variable {sc : Scope} {f g : FileDecl}

theorem messageNames (h : LinkedFile sc f g) : g.messageNames = f.messageNames :=
  map_eq_of_forall₂ (fun _ _ hl => hl.full) h.messages

theorem mem_message (h : LinkedFile sc f g) (hp : f.Plain) {q : String × MessageDecl}
    (hq : q ∈ g.allMessages) : ∃ p ∈ f.allMessages, LinkedMessage sc p q ∧ p.2.Plain g.dialect := by
  obtain ⟨p, hp', hl⟩ := mem_of_forall₂ h.messages hq
  exact ⟨p, hp', hl, h.dialect ▸ hp.messages f.packageName p hp'⟩

theorem mem_extension (h : LinkedFile sc f g) (hp : f.Plain) {y : FieldDecl}
    (hy : y ∈ g.allExtensions) :
    ∃ x : FieldDecl, sc.LinkedExtension x y ∧ x.Plain g.dialect ∧ x.oneofIndex = none := by
  rcases List.mem_append.mp hy with hy | hy
  · obtain ⟨q, hq, hy⟩ := List.mem_flatMap.mp hy
    obtain ⟨p, -, hl, hplain⟩ := h.mem_message hp hq
    obtain ⟨x, hx, hxl⟩ := mem_of_forall₂ hl.extensions hy
    exact ⟨x, hxl, hplain.extensions x hx⟩
  · obtain ⟨x, hx, hxl⟩ := mem_of_forall₂ h.extensions hy
    exact ⟨x, hxl, h.dialect ▸ hp.extensions x hx⟩

/-- The enums of a linked file are those that it was read with. -/
theorem mem_enum (h : LinkedFile sc f g) (hp : f.Plain) {e : EnumType} (he : e ∈ g.enumTypes) :
    ∃ d ∈ f.allEnums, d.Plain ∧ e.values = d.values.map fun v => (v.name, v.number) := by
  obtain ⟨scope, d, hd, rfl⟩ := FileDecl.mem_enumTypes he
  rcases List.mem_append.mp hd with hd | hd
  · obtain ⟨q, hq, hd⟩ := List.mem_flatMap.mp hd
    obtain ⟨p, hp', hl, hplain⟩ := h.mem_message hp hq
    obtain ⟨c, hc, hs⟩ := mem_of_forall₂ hl.enums hd
    exact ⟨c, List.mem_append_left _ (List.mem_flatMap.mpr ⟨p, hp', hc⟩), hplain.enums c hc, hs.2⟩
  · obtain ⟨c, hc, hs⟩ := mem_of_forall₂ h.enums hd
    exact ⟨c, List.mem_append_right _ hc, hp.enums c hc, hs.2⟩

theorem enumTypes_narrow (h : LinkedFile sc f g) (hp : f.Plain) :
    ∀ e ∈ g.enumTypes, e.IsNarrow := by
  intro e he v hv
  obtain ⟨d, -, hd, hvalues⟩ := h.mem_enum hp he
  rw [hvalues] at hv
  obtain ⟨w, hw, rfl⟩ := List.mem_map.mp hv
  exact (hd w hw).number

end Pool.LinkedFile

namespace TypeTable

variable {t u : TypeTable}

theorem message?_append {name : String} (h : (t.message? name).isSome) :
    ((t ++ u).message? name).isSome := by
  show ((t.messages ++ u.messages).find? _).isSome = true
  rw [List.find?_append, Option.isSome_or]
  exact Bool.or_eq_true_iff.mpr (.inl h)

theorem message?_of_mem {type : MessageType} (h : type ∈ t.messages) :
    (t.message? type.name).isSome := by
  unfold message?
  rw [List.find?_isSome]
  exact ⟨type, h, beq_self_eq_true _⟩

end TypeTable

theorem Field.Sound.append {t u : TypeTable} {f : Field} (h : f.Sound t) : f.Sound (t ++ u) :=
  { h with resolves := fun name hn => TypeTable.message?_append (h.resolves name hn) }

namespace Pool

/-- The numbers of the fields of a type are not among those that it leaves to extensions. -/
def Leaves (symbols : List SchemaSymbol) (type : MessageType) : Prop :=
  ∃ s ∈ symbols, ∃ ranges, s.name = type.name ∧ s.kind = .message ranges ∧
    ∀ f ∈ type.fields, ∀ r ∈ ranges, holds f.number r = false

/-- The number of an extension is among those that its message leaves to extensions. -/
def Extends (symbols : List SchemaSymbol) (x : Extension) : Prop :=
  ∃ s ∈ symbols, ∃ ranges, s.name = x.extendee ∧ s.kind = .message ranges ∧
    ranges.any (holds x.field.number) = true

/-- What holds of a pool however many files are added. -/
structure Sound (p : Pool) : Prop where
  names : (p.symbols.map SchemaSymbol.name).Nodup
  known : ∀ s ∈ p.symbols, ∀ r, s.kind = .message r → (p.types.message? s.name).isSome
  field : ∀ type ∈ p.types.messages, ∀ f ∈ type.fields, f.Sound p.types
  numbers : ∀ type ∈ p.types.messages, (type.fields.map Field.number).Nodup
  leaves : ∀ type ∈ p.types.messages, Leaves p.symbols type
  extension : ∀ x ∈ p.types.extensions, x.Sound p.types
  extended : ∀ x ∈ p.types.extensions, Extends p.symbols x
  enums : ∀ e ∈ p.types.enums, e.IsNarrow

variable {p p' : Pool} {f : FileDecl}

theorem Sound.empty : Sound {} := by
  constructor <;> simp

/-- The types of a sound pool are sound. An extension has no number of a field since a name is
declared once. -/
theorem Sound.types (h : p.Sound) : p.types.Sound where
  field := h.field
  numbers := h.numbers
  extension := h.extension
  enums := h.enums
  extensionFree x hx type ht he := by
    obtain ⟨s, hs, ranges, hn, hk, hfree⟩ := h.leaves type ht
    obtain ⟨s', hs', ranges', hn', hk', hany⟩ := h.extended x hx
    have hsame : s' = s :=
      List.inj_on_of_nodup_map h.names hs' hs (hn'.trans (he.trans hn.symm))
    subst hsame
    obtain rfl : ranges' = ranges := by
      rw [hk] at hk'
      exact (SymbolKind.message.inj hk').symm
    cases hf : type.fieldNumbered? x.field.number with
    | none => rfl
    | some g =>
      obtain ⟨r, hr, hx⟩ := List.any_eq_true.mp hany
      have hg : g.number = x.field.number := by simpa using List.find?_some hf
      have hno := hfree g (List.mem_of_find?_eq_some hf) r hr
      rw [hg, hx] at hno
      cases hno

theorem Leaves.mono {symbols : List SchemaSymbol} (hd : p.declare f = .ok symbols)
    {type : MessageType} (h : Leaves p.symbols type) : Leaves symbols type := by
  obtain ⟨s, hs, ranges, hn, hk, hfree⟩ := h
  exact ⟨s, declare_old hd hs hk, ranges, hn, hk, hfree⟩

theorem Extends.mono {symbols : List SchemaSymbol} (hd : p.declare f = .ok symbols)
    {x : Extension} (h : Extends p.symbols x) : Extends symbols x := by
  obtain ⟨s, hs, ranges, hn, hk, hany⟩ := h
  exact ⟨s, declare_old hd hs hk, ranges, hn, hk, hany⟩

theorem LinkedFile.message_sound {sc : Scope} {g : FileDecl} {known : List EnumType}
    {t : TypeTable} (hg : LinkedFile sc f g) (hp : f.Plain)
    (hk : ∀ e ∈ known ++ g.enumTypes, e.IsNarrow)
    (hm : ∀ s ∈ sc.symbols, ∀ r, s.kind = .message r → (t.message? s.name).isSome)
    {type : MessageType} (ht : type ∈ (g.types known).messages) :
    (∀ f ∈ type.fields, f.Sound t) ∧ (type.fields.map Field.number).Nodup := by
  rw [FileDecl.types_messages] at ht
  obtain ⟨q, hq, rfl⟩ := List.mem_map.mp ht
  obtain ⟨p₀, -, hl, hplain⟩ := hg.mem_message hp hq
  have hfield : ∀ y ∈ q.2.fields, ∃ x : FieldDecl, sc.LinkedField x y ∧ x.Plain g.dialect := by
    intro y hy
    obtain ⟨x, hx, hxy⟩ := mem_of_forall₂ hl.fields hy
    exact ⟨x, hxy, hplain.fields x hx⟩
  constructor
  · intro f' hf'
    obtain ⟨y, hy, rfl⟩ := List.mem_map.mp hf'
    obtain ⟨x, hxy, hx⟩ := hfield y hy
    exact hxy.sound hx q.1 hk hm
  · have hn : (MessageDecl.ownType g.dialect (known ++ g.enumTypes) q).fields.map Field.number =
        (q.2.fields.map FieldDecl.number).map Int.toNat := by
      simp [MessageDecl.ownType, FieldDecl.toField, Function.comp_def]
    rw [hn]
    refine hl.distinct.numbers.map_on fun a ha b hb he => ?_
    obtain ⟨y, hy, rfl⟩ := List.mem_map.mp ha
    obtain ⟨z, hz, rfl⟩ := List.mem_map.mp hb
    obtain ⟨x, hxy, hx⟩ := hfield y hy
    obtain ⟨w, hwz, hw⟩ := hfield z hz
    have := hx.number
    have := hw.number
    rw [hxy.number, hwz.number] at he ⊢
    omega

theorem LinkedFile.message_leaves {sc : Scope} {g : FileDecl} {known : List EnumType}
    (hg : LinkedFile sc f g) (hp : f.Plain) (hd : p.declare f = .ok sc.symbols)
    {type : MessageType} (ht : type ∈ (g.types known).messages) : Leaves sc.symbols type := by
  rw [FileDecl.types_messages] at ht
  obtain ⟨q, hq, rfl⟩ := List.mem_map.mp ht
  obtain ⟨p₀, hp₀, hl, hplain⟩ := hg.mem_message hp hq
  obtain ⟨s, hs, hn, hk⟩ := declare_new hd hp₀
  refine ⟨s, hs, _, hn.trans hl.full.symm, hk, fun f' hf' r hr => ?_⟩
  obtain ⟨y, hy, rfl⟩ := List.mem_map.mp hf'
  obtain ⟨x, hx, hxy⟩ := mem_of_forall₂ hl.fields hy
  obtain ⟨range, hrange, rfl⟩ := List.mem_map.mp hr
  have hcast := (hplain.fields x hx).cast_toNat
  rw [← hxy.number] at hcast
  have hfree := hl.free y hy range hrange
  rw [← hcast] at hfree
  exact hfree

theorem LinkedFile.extension_sound {sc : Scope} {g : FileDecl} {known : List EnumType}
    {t : TypeTable} (hg : LinkedFile sc f g) (hp : f.Plain)
    (hk : ∀ e ∈ known ++ g.enumTypes, e.IsNarrow)
    (hm : ∀ s ∈ sc.symbols, ∀ r, s.kind = .message r → (t.message? s.name).isSome)
    {x : Extension} (hx : x ∈ (g.types known).extensions) :
    x.Sound t ∧ Extends sc.symbols x := by
  obtain ⟨scope, y, hy, rfl⟩ := FileDecl.mem_types_extensions hx
  obtain ⟨d, hl, hd, ho⟩ := hg.mem_extension hp hy
  refine ⟨hl.sound hd ho scope hk hm, ?_⟩
  obtain ⟨s, ranges, hs, hkind, he, hany⟩ := hl.extended
  refine ⟨s, hs, ranges, by simp [FieldDecl.toExtension, he], hkind, ?_⟩
  have hcast := hd.cast_toNat
  rw [← hl.toLinkedField.number] at hcast
  rw [← hcast] at hany
  exact hany

/-- Adding a file keeps a pool sound. -/
theorem Sound.add (h : p.Sound) (hp : f.Plain) (ha : p.add f = .ok p') : p'.Sound := by
  obtain ⟨g, -, htypes, hd, hg⟩ := add_eq_ok ha
  have hnarrow : ∀ e ∈ p.types.enums ++ g.enumTypes, e.IsNarrow := by
    intro e he
    rcases List.mem_append.mp he with he | he
    · exact h.enums e he
    · exact hg.enumTypes_narrow hp e he
  have hknown : ∀ s ∈ p'.symbols, ∀ r, s.kind = .message r →
      (p'.types.message? s.name).isSome := by
    intro s hs r hk
    rw [htypes]
    rcases declare_message hd hs hk with hs | hs
    · exact TypeTable.message?_append (h.known s hs r hk)
    · rw [← hg.messageNames] at hs
      obtain ⟨q, hq, hn⟩ := List.mem_map.mp hs
      have hmem : MessageDecl.ownType g.dialect (p.types.enums ++ g.enumTypes) q ∈
          (p.types ++ g.types p.types.enums).messages := by
        refine List.mem_append_right _ ?_
        rw [FileDecl.types_messages]
        exact List.mem_map_of_mem hq
      rw [← hn]
      exact TypeTable.message?_of_mem hmem
  have hmessages : ∀ type ∈ p'.types.messages,
      type ∈ p.types.messages ∨ type ∈ (g.types p.types.enums).messages := by
    intro type ht
    rw [htypes] at ht
    exact List.mem_append.mp ht
  have hextensions : ∀ x ∈ p'.types.extensions,
      x ∈ p.types.extensions ∨ x ∈ (g.types p.types.enums).extensions := by
    intro x hx
    rw [htypes] at hx
    exact List.mem_append.mp hx
  have hold {f : Field} (hf : f.Sound p.types) : f.Sound p'.types := htypes ▸ hf.append
  constructor
  case names => exact (Naming.enterAll_eq_ok hd).2 h.names
  case known => exact hknown
  case field =>
    intro type ht f' hf'
    rcases hmessages type ht with ht | ht
    · exact hold (h.field type ht f' hf')
    · exact (hg.message_sound hp hnarrow hknown ht).1 f' hf'
  case numbers =>
    intro type ht
    rcases hmessages type ht with ht | ht
    · exact h.numbers type ht
    · exact (hg.message_sound hp hnarrow hknown ht).2
  case leaves =>
    intro type ht
    rcases hmessages type ht with ht | ht
    · exact (h.leaves type ht).mono hd
    · exact hg.message_leaves hp hd ht
  case extension =>
    intro x hx
    rcases hextensions x hx with hx | hx
    · exact { h.extension x hx with field := hold (h.extension x hx).field }
    · exact (hg.extension_sound hp hnarrow hknown hx).1
  case extended =>
    intro x hx
    rcases hextensions x hx with hx | hx
    · exact (h.extended x hx).mono hd
    · exact (hg.extension_sound hp hnarrow hknown hx).2
  case enums =>
    rw [htypes]
    exact hnarrow

end Pool
end RpcConsole

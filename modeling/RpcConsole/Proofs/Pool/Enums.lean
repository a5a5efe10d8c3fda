import RpcConsole.Proofs.Load.Types

namespace RpcConsole

/-- Fields find their enums, each of which has values with names. -/
structure TypeTable.Enumerated (t : TypeTable) : Prop where
  field : ∀ type ∈ t.messages, ∀ f ∈ type.fields, ∀ name, f.kind = .enum name →
    (t.enum? name).isSome = true
  values : ∀ e ∈ t.enums, e.values ≠ [] ∧ ∀ v ∈ e.values, v.1 ≠ ""

namespace TypeTable

theorem enum?_append {t u : TypeTable} {name : String} (h : (t.enum? name).isSome = true) :
    ((t ++ u).enum? name).isSome = true := by
  show ((t.enums ++ u.enums).find? _).isSome = true
  rw [List.find?_append, Option.isSome_or]
  exact Bool.or_eq_true_iff.mpr (.inl h)

theorem enum?_of_mem {t : TypeTable} {e : EnumType} (h : e ∈ t.enums) :
    (t.enum? e.name).isSome = true := by
  unfold enum?
  rw [List.find?_isSome]
  exact ⟨e, h, beq_self_eq_true _⟩

end TypeTable

namespace Pool

namespace Naming

variable {symbols symbols' : List SchemaSymbol} {steps : List NameStep}

/-- Where names are entered, nothing was wrong. -/
theorem no_fault_of_enterAll (h : enterAll steps symbols = .ok symbols') (e : LinkError) :
    .error e ∉ steps := by
  induction steps generalizing symbols with
  | nil => simp
  | cons step rest ih =>
    cases step with
    | error e => cases h
    | ok s =>
      simp only [enterAll] at h
      cases he : enter symbols s with
      | error e => simp [he] at h
      | ok next =>
        simp only [he] at h
        simpa using ih h

/-- The names of the enums in a scope that have the given values. -/
def enumNames (values : List String) (scope : String) (es : List EnumDecl) : List String :=
  (es.filter fun e => e.values.map EnumValueDecl.name == values).map fun e => Name.join scope e.name

variable {values : List String}

theorem enums_of_enums (file : String) (dialect : Dialect) (scope : String) (es : List EnumDecl) :
    es.flatMap (fun e => namesOf (.enum values) (declared (enumSteps file dialect scope e))) =
      enumNames values scope es := by
  induction es with
  | nil => rfl
  | cons e es ih =>
    rw [List.flatMap_cons, ih, declared_enum]
    cases h : e.values.map EnumValueDecl.name == values <;>
      simp_all [enumNames, beq_iff_eq]

theorem owns_enums (values : List String) :
    Owns (.enum values) fun p => enumNames values p.1 p.2.enums := by
  intro file dialect scope m
  rw [declared_message]
  simp only [namesOf_append, namesOf_cons, namesOf_map, namesOf_flatMap, enums_of_enums]
  simpa using List.perm_append_comm

/-- The enums of a file. -/
theorem enums_of_file (f : FileDecl) :
    (namesOf (.enum values) (declared (fileSteps f))).Perm
      ((f.allMessages.flatMap fun p => enumNames values p.1 p.2.enums) ++
        enumNames values f.packageName f.enums) := by
  have h := (owns_enums values).messages f.name f.dialect f.packageName f.messages
  rw [declared_file]
  simp only [namesOf_append, namesOf_map, namesOf_flatMap, enums_of_enums, declared_service]
  simpa [FileDecl.allMessages, flatMap_none] using
    h.append_right (enumNames values f.packageName f.enums)

/-- The types of the enums of a file have the names that the file enters for them. -/
theorem enum_of_file {f : FileDecl} {name : String}
    (h : name ∈ namesOf (.enum values) (declared (fileSteps f))) :
    ∃ e ∈ f.enumTypes, e.name = name := by
  have hname {scope : String} {es : List EnumDecl} (h : name ∈ enumNames values scope es) :
      ∃ d ∈ es, (d.type scope).name = name := by
    obtain ⟨d, hd, hn⟩ := List.mem_map.mp h
    exact ⟨d, (List.mem_filter.mp hd).1, hn⟩
  unfold FileDecl.enumTypes
  rw [MessageDecl.enumTypesOf_eq]
  rcases List.mem_append.mp ((enums_of_file f).mem_iff.mp h) with h | h
  · obtain ⟨p, hp, h⟩ := List.mem_flatMap.mp h
    obtain ⟨d, hd, hn⟩ := hname h
    exact ⟨_, List.mem_append_left _ (List.mem_flatMap.mpr ⟨p, hp, List.mem_map_of_mem hd⟩), hn⟩
  · obtain ⟨d, hd, hn⟩ := hname h
    exact ⟨_, List.mem_append_right _ (List.mem_map_of_mem hd), hn⟩

theorem emptyEnum_mem {file scope : String} {dialect : Dialect} {e : EnumDecl}
    (h : e.values = []) : .error .emptyEnum ∈ enumSteps file dialect scope e := by
  simp [enumSteps, enumFaults, h]

mutual

theorem enumSteps_of_message (file : String) (dialect : Dialect) (scope : String)
    (m : MessageDecl) : ∀ p ∈ MessageDecl.within scope m, ∀ e ∈ p.2.enums,
      ∀ x ∈ enumSteps file dialect p.1 e, x ∈ messageSteps file dialect scope m := by
  match m with
  | ⟨name, fields, extensions, nested, enums, ranges, oneofs, reserved, reservedNames, options⟩ =>
    intro p hp e he x hx
    rw [MessageDecl.within] at hp
    rw [messageSteps]
    simp only [List.mem_cons, List.mem_append]
    rcases List.mem_cons.mp hp with rfl | hp
    · exact .inr (.inl (.inr (List.mem_flatMap.mpr ⟨e, he, hx⟩)))
    · exact .inr (.inl (.inl (.inr (enumSteps_of_messages file dialect _ nested p hp e he x hx))))

theorem enumSteps_of_messages (file : String) (dialect : Dialect) (scope : String)
    (ms : List MessageDecl) : ∀ p ∈ MessageDecl.withinAll scope ms, ∀ e ∈ p.2.enums,
      ∀ x ∈ enumSteps file dialect p.1 e, x ∈ messagesSteps file dialect scope ms := by
  match ms with
  | [] => simp
  | m :: ms =>
    intro p hp e he x hx
    rw [MessageDecl.withinAll_cons] at hp
    rw [messagesSteps]
    rcases List.mem_append.mp hp with hp | hp
    · exact List.mem_append_left _ (enumSteps_of_message file dialect scope m p hp e he x hx)
    · exact List.mem_append_right _ (enumSteps_of_messages file dialect scope ms p hp e he x hx)

end

/-- A file whose names are entered has no enum without values. -/
theorem enums_full {f : FileDecl} (h : enterAll (fileSteps f) symbols = .ok symbols') :
    ∀ d ∈ f.allEnums, d.values ≠ [] := by
  intro d hd hnil
  apply no_fault_of_enterAll h .emptyEnum
  unfold fileSteps
  simp only [List.mem_append]
  rcases List.mem_append.mp hd with hd | hd
  · obtain ⟨p, hp, hd⟩ := List.mem_flatMap.mp hd
    exact .inl (.inl (.inl (.inr
      (enumSteps_of_messages _ _ _ _ p hp d hd _ (emptyEnum_mem hnil)))))
  · exact .inl (.inl (.inr (List.mem_flatMap.mpr ⟨d, hd, emptyEnum_mem hnil⟩)))

end Naming

open Naming

variable {p p' : Pool} {f : FileDecl}

/-- Linking leaves the names of enums as they are. -/
theorem LinkedFile.enum_names {sc : Scope} {g : FileDecl} (h : LinkedFile sc f g) :
    g.enumTypes.map EnumType.name = f.enumTypes.map EnumType.name := by
  have hown {ds es : List EnumDecl} (hs : List.Forall₂ SameEnum ds es) (scope : String) :
      es.map (fun e => (e.type scope).name) = ds.map fun d => (d.type scope).name :=
    map_eq_of_forall₂ (fun d e (hs : SameEnum d e) => by simp [EnumDecl.type, hs.1]) hs
  have hinner : (g.allMessages.map fun p => p.2.enums.map fun e => (e.type p.1).name) =
      f.allMessages.map fun p => p.2.enums.map fun e => (e.type p.1).name :=
    map_eq_of_forall₂ (fun p q (hl : LinkedMessage sc p q) => by
      rw [hl.full, hown hl.enums]) h.messages
  have hnames (k : FileDecl) : k.enumTypes.map EnumType.name =
      (k.allMessages.map fun p => p.2.enums.map fun e => (e.type p.1).name).flatten ++
        k.enums.map fun e => (e.type k.packageName).name := by
    unfold FileDecl.enumTypes
    simp only [MessageDecl.enumTypesOf_eq, List.map_append, List.map_flatMap, List.map_map]
    rfl
  rw [hnames, hnames, hinner, h.packageName, hown h.enums]

theorem LinkedFile.enums_full {sc : Scope} {g : FileDecl} (h : LinkedFile sc f g) (hp : f.Plain)
    (hd : p.declare f = .ok sc.symbols) :
    ∀ e ∈ g.enumTypes, e.values ≠ [] ∧ ∀ v ∈ e.values, v.1 ≠ "" := by
  intro e he
  obtain ⟨d, hdm, hplain, hv⟩ := h.mem_enum hp he
  rw [hv]
  refine ⟨by simpa using Naming.enums_full hd d hdm, fun v hvm hempty => ?_⟩
  obtain ⟨w, hw, rfl⟩ := List.mem_map.mp hvm
  have hident := (hplain w hw).name
  rw [show w.name = "" from hempty] at hident
  cases hident

/-- An enum that a pool knows with a file was known before or is one that the file declares. -/
theorem declare_enum {symbols : List SchemaSymbol} {s : SchemaSymbol} {values : List String}
    (h : p.declare f = .ok symbols) (hs : s ∈ symbols) (hk : s.kind = .enum values) :
    s ∈ p.symbols ∨ ∃ e ∈ f.enumTypes, e.name = s.name := by
  have hproper : s ∈ proper symbols := List.mem_filter.mpr ⟨hs, by simp [hk]⟩
  rw [(enterAll_eq_ok h).1] at hproper
  rcases List.mem_append.mp hproper with hm | hm
  · have hname : s.name ∈ namesOf (.enum values) (declared (fileSteps f)) :=
      List.mem_map.mpr ⟨s, List.mem_filter.mpr ⟨List.mem_reverse.mp hm, by simp [hk]⟩, rfl⟩
    exact .inr (enum_of_file hname)
  · exact .inl (List.mem_filter.mp hm).1

/-- What holds of the enums of a pool however many files are added. -/
structure Enumerated (p : Pool) : Prop where
  known : ∀ s ∈ p.symbols, ∀ values, s.kind = .enum values → (p.types.enum? s.name).isSome = true
  types : p.types.Enumerated

theorem Enumerated.empty : Enumerated {} :=
  ⟨by simp, by simp, by simp⟩

/-- Adding a file keeps the enums of a pool. -/
theorem Enumerated.add (h : p.Enumerated) (hp : f.Plain) (ha : p.add f = .ok p') :
    p'.Enumerated := by
  obtain ⟨g, -, htypes, hd, hg⟩ := add_eq_ok ha
  have hknown : ∀ s ∈ p'.symbols, ∀ values, s.kind = .enum values →
      (p'.types.enum? s.name).isSome = true := by
    intro s hs values hk
    rw [htypes]
    rcases declare_enum hd hs hk with hs | ⟨e, he, hn⟩
    · exact TypeTable.enum?_append (h.known s hs values hk)
    · have hname : s.name ∈ g.enumTypes.map EnumType.name := by
        rw [hg.enum_names, ← hn]
        exact List.mem_map_of_mem he
      obtain ⟨e', he', hn'⟩ := List.mem_map.mp hname
      rw [← hn']
      exact TypeTable.enum?_of_mem (List.mem_append_right _ he')
  refine ⟨hknown, fun type ht x hx name hk => ?_, fun e he => ?_⟩
  · rw [htypes] at ht
    rcases List.mem_append.mp ht with ht | ht
    · rw [htypes]
      exact TypeTable.enum?_append (h.types.field type ht x hx name hk)
    · rw [FileDecl.types_messages] at ht
      obtain ⟨q, hq, rfl⟩ := List.mem_map.mp ht
      obtain ⟨p₀, -, hl, -⟩ := hg.mem_message hp hq
      obtain ⟨y, hy, rfl⟩ := List.mem_map.mp hx
      obtain ⟨x, -, hxy⟩ := mem_of_forall₂ hl.fields hy
      have hdeclared := hxy.declared
      rw [show y.type.kind = .enum name from hk] at hdeclared
      cases hdeclared with
      | enum hs hks => exact hknown _ hs _ hks
  · rw [htypes] at he
    rcases List.mem_append.mp he with he | he
    · exact h.types.values e he
    · exact hg.enums_full hp hd e he

end Pool

theorem Schema.load_enumerated {d : Disk} {root : String} {importPath : ImportPath} {s : Schema}
    (h : load d root importPath = .ok s) : s.types.Enumerated :=
  (load_keeps Pool.Enumerated.empty (fun _ _ _ hf hp ha => hp.add hf ha) h).types

end RpcConsole

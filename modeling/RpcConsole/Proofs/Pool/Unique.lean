import RpcConsole.Proofs.Pool.Sound

namespace RpcConsole.Pool

namespace Naming

/-- The names of one kind. -/
def namesOf (kind : SymbolKind) (symbols : List SchemaSymbol) : List String :=
  (symbols.filter fun s => s.kind == kind).map SchemaSymbol.name

variable {kind : SymbolKind} {symbols symbols' : List SchemaSymbol} {steps : List NameStep}

@[simp] theorem namesOf_nil : namesOf kind [] = [] := rfl

@[simp] theorem namesOf_append (as bs : List SchemaSymbol) :
    namesOf kind (as ++ bs) = namesOf kind as ++ namesOf kind bs := by
  simp [namesOf]

@[simp] theorem namesOf_cons (name file : String) (k : SymbolKind) (symbols : List SchemaSymbol) :
    namesOf kind (⟨name, file, k⟩ :: symbols) =
      if k == kind then name :: namesOf kind symbols else namesOf kind symbols := by
  cases h : k == kind <;> simp [namesOf, h]

@[simp] theorem namesOf_map {α : Type} (name : α → String) (file : String) (k : SymbolKind)
    (as : List α) :
    namesOf kind (as.map fun a => ⟨name a, file, k⟩) = if k == kind then as.map name else [] := by
  induction as with
  | nil => simp
  | cons a as ih => cases h : k == kind <;> simp [ih, h]

@[simp] theorem namesOf_flatMap {α : Type} (symbols : α → List SchemaSymbol) (as : List α) :
    namesOf kind (as.flatMap symbols) = as.flatMap fun a => namesOf kind (symbols a) := by
  induction as with
  | nil => rfl
  | cons a as ih => simp [ih]

theorem namesOf_nodup (kind : SymbolKind) (h : (symbols.map SchemaSymbol.name).Nodup) :
    (namesOf kind symbols).Nodup :=
  h.sublist (List.filter_sublist.map _)

theorem namesOf_proper (hk : kind ≠ .package) (symbols : List SchemaSymbol) :
    namesOf kind (proper symbols) = namesOf kind symbols := by
  rw [namesOf, proper, List.filter_filter]
  congr 1
  refine List.filter_congr fun s _ => ?_
  cases hs : s.kind == kind with
  | false => rfl
  | true =>
    rw [beq_iff_eq] at hs
    simp [hs, hk]

/-- Of a kind other than packages, the names that are entered come in front of those before. -/
theorem namesOf_enterAll (hk : kind ≠ .package) (h : enterAll steps symbols = .ok symbols') :
    namesOf kind symbols' = (namesOf kind (declared steps)).reverse ++ namesOf kind symbols := by
  have hp := congrArg (namesOf kind) (enterAll_eq_ok h).1
  rw [namesOf_proper hk, namesOf_append, namesOf_proper hk] at hp
  rw [hp, namesOf, List.filter_reverse, List.map_reverse]
  rfl

/-- A message enters some names of a kind by itself, beside those of the messages inside it. -/
def Owns (kind : SymbolKind) (own : String × MessageDecl → List String) : Prop :=
  ∀ file dialect scope m,
    (namesOf kind (declared (messageSteps file dialect scope m))).Perm
      (own (Name.join scope m.name, m) ++
        namesOf kind (declared (messagesSteps file dialect (Name.join scope m.name) m.nested)))

variable {own : String × MessageDecl → List String}

mutual

theorem Owns.message (h : Owns kind own) (file : String) (dialect : Dialect) (scope : String)
    (m : MessageDecl) :
    (namesOf kind (declared (messageSteps file dialect scope m))).Perm
      ((MessageDecl.within scope m).flatMap own) := by
  match m with
  | ⟨name, fields, extensions, nested, enums, ranges, oneofs, reserved, reservedNames, options⟩ =>
    refine (h file dialect scope _).trans ?_
    rw [MessageDecl.within, List.flatMap_cons]
    exact (h.messages file dialect (Name.join scope name) nested).append_left _

theorem Owns.messages (h : Owns kind own) (file : String) (dialect : Dialect) (scope : String)
    (ms : List MessageDecl) :
    (namesOf kind (declared (messagesSteps file dialect scope ms))).Perm
      ((MessageDecl.withinAll scope ms).flatMap own) := by
  match ms with
  | [] =>
    rw [messagesSteps]
    simp
  | m :: ms =>
    rw [messagesSteps, declared_append, namesOf_append, MessageDecl.withinAll_cons,
      List.flatMap_append]
    exact (h.message file dialect scope m).append (h.messages file dialect scope ms)

end

/-- The full names of the values of an enum; they stand beside it. -/
def valueNames (scope : String) (e : EnumDecl) : List String :=
  e.values.map fun v => Name.join scope v.name

/-- The full names of the extensions in a scope. -/
def extensionNames (scope : String) (xs : List FieldDecl) : List String :=
  xs.map fun x => Name.join scope x.name

theorem values_of_enum (file : String) (dialect : Dialect) (scope : String) (e : EnumDecl) :
    namesOf .enumValue (declared (enumSteps file dialect scope e)) = valueNames scope e := by
  simp [declared_enum, valueNames]

theorem flatMap_none {α : Type} (as : List α) : as.flatMap (fun _ => ([] : List String)) = [] :=
  List.flatMap_eq_nil_iff.mpr fun _ _ => rfl

theorem owns_values : Owns .enumValue fun p => p.2.enums.flatMap (valueNames p.1) := by
  intro file dialect scope m
  rw [declared_message]
  simp only [namesOf_append, namesOf_cons, namesOf_map, namesOf_flatMap, values_of_enum]
  simpa using List.perm_append_comm

theorem owns_extensions : Owns .extension fun p => extensionNames p.1 p.2.extensions := by
  intro file dialect scope m
  rw [declared_message]
  simp only [namesOf_append, namesOf_cons, namesOf_map, namesOf_flatMap, declared_enum]
  simpa [extensionNames, flatMap_none] using List.perm_append_comm

/-- The values of the enums of a file. -/
theorem values_of_file (f : FileDecl) :
    (namesOf .enumValue (declared (fileSteps f))).Perm
      ((f.allMessages.flatMap fun p => p.2.enums.flatMap (valueNames p.1)) ++
        f.enums.flatMap (valueNames f.packageName)) := by
  have h := owns_values.messages f.name f.dialect f.packageName f.messages
  rw [declared_file]
  simp only [namesOf_append, namesOf_map, namesOf_flatMap, values_of_enum, declared_service]
  simpa [FileDecl.allMessages, flatMap_none] using
    h.append_right (f.enums.flatMap (valueNames f.packageName))

/-- The extensions of a file. -/
theorem extensions_of_file (f : FileDecl) :
    (namesOf .extension (declared (fileSteps f))).Perm
      ((f.allMessages.flatMap fun p => extensionNames p.1 p.2.extensions) ++
        extensionNames f.packageName f.extensions) := by
  have h := owns_extensions.messages f.name f.dialect f.packageName f.messages
  rw [declared_file]
  simp only [namesOf_append, namesOf_map, namesOf_flatMap, declared_enum, declared_service]
  simpa [FileDecl.allMessages, extensionNames, flatMap_none] using
    h.append_right (extensionNames f.packageName f.extensions)

end Naming

open Naming

namespace LinkedFile

variable {sc : Scope} {f g : FileDecl} {known : List EnumType}

theorem packageName (h : LinkedFile sc f g) : g.packageName = f.packageName := by
  rw [FileDecl.packageName, h.package, FileDecl.packageName]

/-- The extensions of a linked file have the names that the file enters. -/
theorem extension_names (h : LinkedFile sc f g) :
    ((g.types known).extensions.map fun x => x.field.fullName).Perm
      (namesOf .extension (declared (fileSteps f))) := by
  have hown {xs ys : List FieldDecl} (hxy : List.Forall₂ sc.LinkedExtension xs ys)
      (scope : String) : extensionNames scope ys = extensionNames scope xs :=
    map_eq_of_forall₂ (fun x y (hl : sc.LinkedExtension x y) => by rw [hl.same]) hxy
  have hinner : (g.allMessages.map fun p => extensionNames p.1 p.2.extensions) =
      f.allMessages.map fun p => extensionNames p.1 p.2.extensions :=
    map_eq_of_forall₂ (fun p q (hl : LinkedMessage sc p q) => by
      rw [hl.full, hown hl.extensions]) h.messages
  have htypes : ((g.types known).extensions.map fun x => x.field.fullName) =
      (g.allMessages.flatMap fun p => extensionNames p.1 p.2.extensions) ++
        extensionNames g.packageName g.extensions := by
    unfold FileDecl.types
    simp only [MessageDecl.extensionTypesOf_eq, List.map_append, List.map_flatMap, List.map_map]
    rfl
  rw [htypes, List.flatMap_def, hinner, ← List.flatMap_def, hown h.extensions, h.packageName]
  exact (extensions_of_file f).symm

/-- No two values of an enum have one name. -/
theorem values_nodup (h : LinkedFile sc f g)
    (hn : (namesOf .enumValue (declared (fileSteps f))).Nodup) :
    ∀ e ∈ g.enumTypes, (e.values.map Prod.fst).Nodup := by
  have hown {d e : EnumDecl} (hs : SameEnum d e) {scope : String} (hd : (valueNames scope d).Nodup)
      (scope' : String) : ((e.type scope').values.map Prod.fst).Nodup := by
    have hnames : (e.type scope').values.map Prod.fst = d.values.map EnumValueDecl.name := by
      have hsame := congrArg (List.map Prod.fst) hs.2
      simpa [EnumDecl.type, Function.comp_def] using hsame
    rw [hnames]
    rw [valueNames, ← Function.comp_def, ← List.map_map] at hd
    exact hd.of_map
  obtain ⟨hinner, houter, -⟩ := List.nodup_append.mp ((values_of_file f).nodup_iff.mp hn)
  intro e he
  unfold FileDecl.enumTypes at he
  rw [MessageDecl.enumTypesOf_eq] at he
  rcases List.mem_append.mp he with he | he
  · obtain ⟨q, hq, he⟩ := List.mem_flatMap.mp he
    obtain ⟨d, hd, rfl⟩ := List.mem_map.mp he
    obtain ⟨p, hp, hl⟩ := mem_of_forall₂ h.messages hq
    obtain ⟨c, hc, hs⟩ := mem_of_forall₂ hl.enums hd
    have hmessage := (List.nodup_flatMap.mp hinner).1 p hp
    exact hown hs ((List.nodup_flatMap.mp hmessage).1 c hc) q.1
  · obtain ⟨d, hd, rfl⟩ := List.mem_map.mp he
    obtain ⟨c, hc, hs⟩ := mem_of_forall₂ h.enums hd
    exact hown hs ((List.nodup_flatMap.mp houter).1 c hc) _

/-- No two fields of a message have one JSON name. -/
theorem jsonNames_nodup (h : LinkedFile sc f g) :
    ∀ type ∈ (g.types known).messages, (type.fields.map Field.jsonName).Nodup := by
  intro type ht
  rw [FileDecl.types_messages] at ht
  obtain ⟨q, hq, rfl⟩ := List.mem_map.mp ht
  obtain ⟨p, -, hl⟩ := mem_of_forall₂ h.messages hq
  have hnames : (q.2.fields.map FieldDecl.jsonName) =
      ((MessageDecl.ownType g.dialect (known ++ g.enumTypes) q).fields.map
        Field.jsonName).map some := by
    simp only [MessageDecl.ownType, List.map_map]
    refine List.map_congr_left fun y hy => ?_
    obtain ⟨x, -, hxy⟩ := mem_of_forall₂ hl.fields hy
    obtain ⟨name, hname⟩ := Option.isSome_iff_exists.mp hxy.named
    simp [FieldDecl.toField, hname]
  have hd := hl.distinct.jsonNames
  rw [hnames] at hd
  exact hd.of_map

end LinkedFile

/-- What holds of the names of a pool however many files are added. -/
structure Named (p : Pool) : Prop where
  names : (p.symbols.map SchemaSymbol.name).Nodup
  jsonNames : ∀ type ∈ p.types.messages, (type.fields.map Field.jsonName).Nodup
  values : ∀ e ∈ p.types.enums, (e.values.map Prod.fst).Nodup
  extensions : (p.types.extensions.map fun x => x.field.fullName).Perm
    (namesOf .extension p.symbols)

variable {p p' : Pool} {f : FileDecl}

theorem Named.empty : Named {} := by
  constructor <;> simp

theorem Named.types (h : p.Named) : p.types.Named :=
  ⟨h.jsonNames, h.values, h.extensions.nodup_iff.mpr (namesOf_nodup _ h.names)⟩

/-- Adding a file keeps the names of a pool apart. -/
theorem Named.add (h : p.Named) (ha : p.add f = .ok p') : p'.Named := by
  obtain ⟨g, -, htypes, hd, hg⟩ := add_eq_ok ha
  have hnames := (enterAll_eq_ok hd).2 h.names
  constructor
  case names => exact hnames
  case jsonNames =>
    intro type ht
    rw [htypes] at ht
    rcases List.mem_append.mp ht with ht | ht
    · exact h.jsonNames type ht
    · exact hg.jsonNames_nodup type ht
  case values =>
    have hv := namesOf_nodup .enumValue hnames
    rw [namesOf_enterAll (by simp) hd] at hv
    intro e he
    rw [htypes] at he
    rcases List.mem_append.mp he with he | he
    · exact h.values e he
    · exact hg.values_nodup (List.nodup_reverse.mp (List.nodup_append.mp hv).1) e he
  case extensions =>
    rw [htypes, namesOf_enterAll (by simp) hd]
    show ((p.types.extensions ++ (g.types p.types.enums).extensions).map _).Perm _
    rw [List.map_append]
    refine (h.extensions.append hg.extension_names).trans ?_
    exact List.perm_append_comm.trans ((List.reverse_perm _).symm.append_right _)

end RpcConsole.Pool

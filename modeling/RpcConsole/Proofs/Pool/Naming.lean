import Mathlib.Data.List.Nodup
import RpcConsole.Pool.Naming
import RpcConsole.Proofs.Schema.Messages

namespace RpcConsole.Pool

/-- The full name of a message with the numbers that it leaves to extensions. -/
def message? (s : SchemaSymbol) : Option (String × List NumberRange) :=
  match s.kind with
  | .message ranges => some (s.name, ranges)
  | _ => none

namespace Naming

/-- A name that is entered and is no package. -/
def declaration? : NameStep → Option SchemaSymbol
  | .ok s => if s.kind == .package then none else some s
  | .error _ => none

/-- The names that some steps enter, packages aside. -/
def declared (steps : List NameStep) : List SchemaSymbol :=
  steps.filterMap declaration?

/-- Names without the packages among them. -/
def proper (symbols : List SchemaSymbol) : List SchemaSymbol :=
  symbols.filter fun s => s.kind != .package

@[simp] theorem declared_nil : declared [] = [] := rfl

@[simp] theorem declared_append (as bs : List NameStep) :
    declared (as ++ bs) = declared as ++ declared bs := by
  simp [declared]

@[simp] theorem declared_step (file name : String) (kind : SymbolKind) (steps : List NameStep) :
    declared (step file name kind :: steps) =
      if kind == .package then declared steps else ⟨name, file, kind⟩ :: declared steps := by
  cases h : kind == .package <;> simp [declared, declaration?, step, h]

variable {symbols symbols' : List SchemaSymbol} {s : SchemaSymbol} {steps : List NameStep}

/-- A name is entered if it is new; a package may be there already. -/
theorem enter_eq_ok (h : enter symbols s = .ok symbols') :
    s.kind = .package ∧ symbols' = symbols ∨
      symbols' = s :: symbols ∧ ∀ t ∈ symbols, t.name ≠ s.name := by
  unfold enter at h
  cases hf : symbols.find? (fun t => t.name == s.name) with
  | none =>
    simp only [hf, Except.ok.injEq] at h
    refine .inr ⟨h.symm, fun t ht => ?_⟩
    simpa using List.find?_eq_none.mp hf t ht
  | some t =>
    simp only [hf] at h
    split at h
    · rename_i hk
      simp only [Bool.and_eq_true, beq_iff_eq] at hk
      exact .inl ⟨hk.2, (Except.ok.inj h).symm⟩
    · split at h <;> cases h

/-- What entering names does to those that are no packages, and that no name comes twice. -/
theorem enterAll_eq_ok (h : enterAll steps symbols = .ok symbols') :
    proper symbols' = (declared steps).reverse ++ proper symbols ∧
      ((symbols.map SchemaSymbol.name).Nodup → (symbols'.map SchemaSymbol.name).Nodup) := by
  induction steps generalizing symbols with
  | nil =>
    cases h
    exact ⟨rfl, id⟩
  | cons step rest ih =>
    cases step with
    | error e => cases h
    | ok s =>
      simp only [enterAll] at h
      cases he : enter symbols s with
      | error e => simp [he] at h
      | ok next =>
        simp only [he] at h
        obtain ⟨hp, hn⟩ := ih h
        rcases enter_eq_ok he with ⟨hk, rfl⟩ | ⟨rfl, hnew⟩
        · exact ⟨by simp [hp, declared, declaration?, hk], hn⟩
        · constructor
          · rw [hp]
            by_cases hk : s.kind = .package <;> simp [declared, declaration?, proper, hk]
          · intro hd
            exact hn (List.nodup_cons.mpr ⟨by simpa using fun t ht he => hnew t ht he, hd⟩)

theorem declared_camelCase (dialect : Dialect) (fields : List FieldDecl) :
    declared (camelCase dialect fields) = [] := by
  unfold camelCase
  split <;> rfl

theorem declared_map {α : Type} (file : String) (name : α → String) (kind : SymbolKind)
    (hk : kind ≠ .package) (as : List α) :
    declared (as.map fun a => step file (name a) kind) = as.map fun a => ⟨name a, file, kind⟩ := by
  induction as with
  | nil => rfl
  | cons a as ih => simp [declared_step, ih, hk]

theorem declared_flatMap {α : Type} (steps : α → List NameStep) (as : List α) :
    declared (as.flatMap steps) = as.flatMap fun a => declared (steps a) := by
  induction as with
  | nil => rfl
  | cons a as ih => simp [ih]

theorem declared_enumFaults (dialect : Dialect) (e : EnumDecl) :
    declared (enumFaults dialect e) = [] := by
  unfold enumFaults
  split
  · rfl
  · split <;> rfl
  · rfl

/-- An enum enters its name and those of its values. -/
theorem declared_enum (file : String) (dialect : Dialect) (scope : String) (e : EnumDecl) :
    declared (enumSteps file dialect scope e) =
      ⟨Name.join scope e.name, file, .enum (e.values.map EnumValueDecl.name)⟩ ::
        e.values.map fun v => ⟨Name.join scope v.name, file, .enumValue⟩ := by
  rw [enumSteps, declared_step, declared_append, declared_enumFaults,
    declared_map file (fun v : EnumValueDecl => Name.join scope v.name) .enumValue (by simp)]
  rfl

/-- A message enters its name, then what stands inside it. -/
theorem declared_message (file : String) (dialect : Dialect) (scope : String) (m : MessageDecl) :
    declared (messageSteps file dialect scope m) =
      let full := Name.join scope m.name
      ⟨full, file, .message (m.extensionRanges.map ExtensionRange.range)⟩ ::
        (m.oneofs.map (fun o => ⟨Name.join full o.name, file, .oneof⟩) ++
          m.fields.map (fun f => ⟨Name.join full f.name, file, .field⟩) ++
          declared (messagesSteps file dialect full m.nested) ++
          m.enums.flatMap (fun e => declared (enumSteps file dialect full e)) ++
          m.extensions.map (fun f => ⟨Name.join full f.name, file, .extension⟩)) := by
  cases m
  rw [messageSteps]
  simp only [declared_step, declared_append, declared_camelCase, extensionSteps, List.nil_append]
  rw [declared_map file _ .oneof (by simp), declared_map file _ .field (by simp),
    declared_map file _ .extension (by simp), declared_flatMap]
  rfl

/-- A message under its full name, with the ranges of its extensions. -/
def messageEntry (p : String × MessageDecl) : String × List NumberRange :=
  (p.1, p.2.extensionRanges.map ExtensionRange.range)

mutual

theorem messages_of_message (file : String) (dialect : Dialect) (scope : String)
    (m : MessageDecl) :
    (declared (messageSteps file dialect scope m)).filterMap message? =
      (MessageDecl.within scope m).map messageEntry := by
  match m with
  | ⟨name, fields, extensions, nested, enums, ranges, oneofs, reserved, reservedNames, options⟩ =>
    rw [declared_message, MessageDecl.within]
    simp [message?, messageEntry, messages_of_messages, declared_enum, List.filterMap_flatMap,
      Function.comp_def]

theorem messages_of_messages (file : String) (dialect : Dialect) (scope : String)
    (ms : List MessageDecl) :
    (declared (messagesSteps file dialect scope ms)).filterMap message? =
      (MessageDecl.withinAll scope ms).map messageEntry := by
  match ms with
  | [] => rw [messagesSteps]; simp
  | m :: ms =>
    rw [messagesSteps]
    simp [messages_of_message, messages_of_messages]

end

theorem declared_packages (f : FileDecl) : declared (packages f) = [] := by
  unfold packages
  split
  · rfl
  · refine List.filterMap_eq_nil_iff.mpr fun s hs => ?_
    obtain ⟨name, -, rfl⟩ := List.mem_map.mp hs
    rfl

/-- A service enters its name and those of its methods. -/
theorem declared_service (file scope : String) (s : ServiceDecl) :
    declared (serviceSteps file scope s) =
      ⟨Name.join scope s.name, file, .service⟩ ::
        s.methods.map fun m => ⟨Name.join (Name.join scope s.name) m.name, file, .method⟩ := by
  rw [serviceSteps, declared_step,
    declared_map file (fun m : MethodDecl => Name.join (Name.join scope s.name) m.name) .method
      (by simp)]
  rfl

/-- A file enters what its declarations enter. -/
theorem declared_file (f : FileDecl) :
    declared (fileSteps f) =
      declared (messagesSteps f.name f.dialect f.packageName f.messages) ++
        f.enums.flatMap (fun e => declared (enumSteps f.name f.dialect f.packageName e)) ++
        f.services.flatMap (fun s => declared (serviceSteps f.name f.packageName s)) ++
        f.extensions.map (fun x => ⟨Name.join f.packageName x.name, f.name, .extension⟩) := by
  rw [fileSteps]
  simp only [declared_append, declared_packages, extensionSteps, List.nil_append,
    declared_flatMap]
  rw [declared_map f.name (fun x : FieldDecl => Name.join f.packageName x.name) .extension
    (by simp)]

/-- The messages among the names of a file are those that it declares. -/
theorem messages_of_file (f : FileDecl) :
    (declared (fileSteps f)).filterMap message? = f.allMessages.map messageEntry := by
  rw [declared_file, FileDecl.allMessages]
  simp [message?, messages_of_messages, declared_enum, declared_service, List.filterMap_flatMap,
    Function.comp_def]

end Naming

open Naming

variable {p : Pool} {f : FileDecl} {symbols : List SchemaSymbol} {s : SchemaSymbol}
  {ranges : List NumberRange}

/-- A message that a pool knows with a file was known before or is one that the file declares. -/
theorem declare_message (h : p.declare f = .ok symbols) (hs : s ∈ symbols)
    (hk : s.kind = .message ranges) : s ∈ p.symbols ∨ s.name ∈ f.messageNames := by
  obtain ⟨hp, -⟩ := enterAll_eq_ok h
  have hm : s ∈ proper symbols := List.mem_filter.mpr ⟨hs, by simp [hk]⟩
  rw [hp] at hm
  rcases List.mem_append.mp hm with hm | hm
  · have hd : (s.name, ranges) ∈ (declared (fileSteps f)).filterMap message? :=
      List.mem_filterMap.mpr ⟨s, List.mem_reverse.mp hm, by simp [message?, hk]⟩
    rw [messages_of_file] at hd
    obtain ⟨q, hq, he⟩ := List.mem_map.mp hd
    exact .inr (List.mem_map.mpr ⟨q, hq, congrArg Prod.fst he⟩)
  · exact .inl (List.mem_filter.mp hm).1

/-- The messages that a pool knows stay known. -/
theorem declare_old (h : p.declare f = .ok symbols) (hs : s ∈ p.symbols)
    (hk : s.kind = .message ranges) : s ∈ symbols := by
  obtain ⟨hp, -⟩ := enterAll_eq_ok h
  have hm : s ∈ proper symbols := by
    rw [hp]
    exact List.mem_append_right _ (List.mem_filter.mpr ⟨hs, by simp [hk]⟩)
  exact (List.mem_filter.mp hm).1

/-- The messages of a file get known, with the numbers that they leave to extensions. -/
theorem declare_new (h : p.declare f = .ok symbols) {q : String × MessageDecl}
    (hq : q ∈ f.allMessages) :
    ∃ s ∈ symbols, s.name = q.1 ∧
      s.kind = .message (q.2.extensionRanges.map ExtensionRange.range) := by
  obtain ⟨hp, -⟩ := enterAll_eq_ok h
  have he : messageEntry q ∈ (declared (fileSteps f)).filterMap message? := by
    rw [messages_of_file]
    exact List.mem_map_of_mem hq
  obtain ⟨s, hs, hm⟩ := List.mem_filterMap.mp he
  have hs' : s ∈ proper symbols := by
    rw [hp]
    exact List.mem_append_left _ (List.mem_reverse.mpr hs)
  refine ⟨s, (List.mem_filter.mp hs').1, ?_⟩
  unfold message? at hm
  split at hm
  · rename_i hk
    obtain ⟨hn, hr⟩ := Prod.mk.inj (Option.some.inj hm)
    exact ⟨hn, hr ▸ hk⟩
  · cases hm

end RpcConsole.Pool

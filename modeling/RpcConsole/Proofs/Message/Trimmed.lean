import RpcConsole.Proofs.Message.ClearedPlaces

namespace RpcConsole

mutual

/-- Two messages set the same fields to the same values, down to every part of a message, a list or
a map. An ordinary field counts as set as `isSet` has it; extensions and unknown fields are the same
as they are stored. -/
def Message.Agrees (t : TypeTable) (name : String) : Message → Message → Prop
  | ⟨known, unknown⟩, n =>
    match t.message? name with
    | none => n = ⟨known, unknown⟩
    | some type =>
      n.unknown = unknown ∧
        (∀ number, type.fieldNumbered? number = none → n.find? number = known.lookup number) ∧
        (∀ f ∈ type.fields, t.isSet f n = t.isSet f ⟨known, unknown⟩) ∧
        Message.FieldsAgree t type known n
termination_by structural m => m

/-- What is set among some fields is set in a message to values that agree. -/
def Message.FieldsAgree (t : TypeTable) (type : MessageType) :
    List (Nat × Value) → Message → Prop
  | [], _ => True
  | (number, v) :: rest, n =>
    (match type.fieldNumbered? number with
      | none => True
      | some f =>
        t.isRedundant f v = false → ∃ w, n.find? number = some w ∧ Value.Agrees t f v w) ∧
      Message.FieldsAgree t type rest n
termination_by structural fields => fields

def Value.Agrees (t : TypeTable) (f : Field) : Value → Value → Prop
  | .message name m, w => ∃ n, w = .message name n ∧ m.Agrees t name n
  | .list items, w => ∃ others, w = .list others ∧ Value.ItemsAgree t f items others
  | .map entries, w =>
    match (t.mapEntry? f).bind (fun e => e.fieldNumbered? 2) with
    | some v => ∃ others, w = .map others ∧ Value.EntriesAgree t v entries others
    | none => w = .map entries
  | v, w => w = v
termination_by structural v => v

def Value.ItemsAgree (t : TypeTable) (f : Field) : List Value → List Value → Prop
  | [], others => others = []
  | v :: vs, others => ∃ w ws, others = w :: ws ∧ v.Agrees t f w ∧ Value.ItemsAgree t f vs ws
termination_by structural items => items

def Value.EntriesAgree (t : TypeTable) (f : Field) :
    List (MapKey × Value) → List (MapKey × Value) → Prop
  | [], others => others = []
  | (k, v) :: rest, others =>
    ∃ w ws, others = (k, w) :: ws ∧ v.Agrees t f w ∧ Value.EntriesAgree t f rest ws
termination_by structural entries => entries

end

mutual

/-- No ordinary field without presence stores its default, at any depth. Extensions are not looked
into. -/
def Message.isTrimmed (t : TypeTable) (name : String) : Message → Bool
  | ⟨known, _⟩ =>
    match t.message? name with
    | none => true
    | some type => Message.fieldsTrimmed t type known

def Message.fieldsTrimmed (t : TypeTable) (type : MessageType) : List (Nat × Value) → Bool
  | [] => true
  | (number, v) :: rest =>
    (match type.fieldNumbered? number with
      | none => true
      | some f => !t.isRedundant f v && v.isTrimmed t f) && Message.fieldsTrimmed t type rest

def Value.isTrimmed (t : TypeTable) (f : Field) : Value → Bool
  | .message name m => m.isTrimmed t name
  | .list items => Value.itemsTrimmed t f items
  | .map entries =>
    match (t.mapEntry? f).bind (fun e => e.fieldNumbered? 2) with
    | some v => Value.entriesTrimmed t v entries
    | none => true
  | _ => true

def Value.itemsTrimmed (t : TypeTable) (f : Field) : List Value → Bool
  | [] => true
  | v :: vs => v.isTrimmed t f && Value.itemsTrimmed t f vs

def Value.entriesTrimmed (t : TypeTable) (f : Field) : List (MapKey × Value) → Bool
  | [] => true
  | (_, v) :: rest => v.isTrimmed t f && Value.entriesTrimmed t f rest

end

mutual

theorem Message.clearDefaults_trimmed (t : TypeTable) (name : String) : ∀ m : Message,
    (m.clearDefaults t name).isTrimmed t name = true
  | ⟨known, unknown⟩ => by
    cases ht : t.message? name with
    | none => simp [Message.clearDefaults, Message.isTrimmed, ht]
    | some type =>
      simpa [Message.clearDefaults, Message.isTrimmed, ht] using
        Message.clearFields_trimmed t type known

theorem Message.clearFields_trimmed (t : TypeTable) (type : MessageType) :
    ∀ fields : List (Nat × Value),
      Message.fieldsTrimmed t type (Message.clearFields t type fields) = true
  | [] => by simp [Message.clearFields, Message.fieldsTrimmed]
  | (number, v) :: rest => by
    have ih := Message.clearFields_trimmed t type rest
    cases ho : type.fieldNumbered? number with
    | none => simp [Message.clearFields, Message.fieldsTrimmed, ho, ih]
    | some f =>
      cases hx : t.isRedundant f v with
      | true => simp [Message.clearFields, ho, hx, ih]
      | false =>
        have hr := t.isRedundant_clearDefaults f v
        rw [hx] at hr
        simp [Message.clearFields, Message.fieldsTrimmed, ho, hx, hr, ih,
          Value.clearDefaults_trimmed t f v]

theorem Value.clearDefaults_trimmed (t : TypeTable) (f : Field) : ∀ v : Value,
    (v.clearDefaults t f).isTrimmed t f = true
  | .bool _ | .int _ _ | .enum _ | .single _ | .double _ | .str _ | .bytes _ => by
    simp [Value.clearDefaults, Value.isTrimmed]
  | .message name m => by
    simp [Value.clearDefaults, Value.isTrimmed, Message.clearDefaults_trimmed t name m]
  | .list items => by
    simp [Value.clearDefaults, Value.isTrimmed, Value.clearItems_trimmed t f items]
  | .map entries => by
    cases hv : (t.mapEntry? f).bind (fun e => e.fieldNumbered? 2) with
    | none => simp [Value.clearDefaults, Value.isTrimmed, hv]
    | some v =>
      simp [Value.clearDefaults, Value.isTrimmed, hv, Value.clearEntries_trimmed t v entries]

theorem Value.clearItems_trimmed (t : TypeTable) (f : Field) : ∀ items : List Value,
    Value.itemsTrimmed t f (Value.clearItems t f items) = true
  | [] => by simp [Value.clearItems, Value.itemsTrimmed]
  | v :: vs => by
    simp [Value.clearItems, Value.itemsTrimmed, Value.clearDefaults_trimmed t f v,
      Value.clearItems_trimmed t f vs]

theorem Value.clearEntries_trimmed (t : TypeTable) (f : Field) :
    ∀ entries : List (MapKey × Value),
      Value.entriesTrimmed t f (Value.clearEntries t f entries) = true
  | [] => by simp [Value.clearEntries, Value.entriesTrimmed]
  | (k, v) :: rest => by
    simp [Value.clearEntries, Value.entriesTrimmed, Value.clearDefaults_trimmed t f v,
      Value.clearEntries_trimmed t f rest]

end

mutual

/-- The cleared message is equal to the message if there was nothing to clear, and only then. -/
theorem Message.same_clearDefaults (t : TypeTable) (name : String) : ∀ m : Message,
    m.hasNaN = false → (m.clearDefaults t name).same m = m.isTrimmed t name
  | ⟨known, unknown⟩, h => by
    cases ht : t.message? name with
    | none =>
      simpa [Message.clearDefaults, Message.isTrimmed, ht] using
        Message.same_self ⟨known, unknown⟩ h
    | some type =>
      have hk := Message.sameFields_clearFields t type known h
      simp [Message.clearDefaults, Message.isTrimmed, Message.same, ht, hk,
        UnknownValue.sameFields_self unknown]

theorem Message.sameFields_clearFields (t : TypeTable) (type : MessageType) :
    ∀ fields : List (Nat × Value), Message.fieldsHaveNaN fields = false →
      Message.sameFields (Message.clearFields t type fields) fields =
        Message.fieldsTrimmed t type fields
  | [], _ => by simp [Message.clearFields, Message.fieldsTrimmed, Message.sameFields]
  | (number, v) :: rest, h => by
    obtain ⟨hv, hrest⟩ := Bool.or_eq_false_iff.mp h
    have ih := Message.sameFields_clearFields t type rest hrest
    cases ho : type.fieldNumbered? number with
    | none =>
      simp [Message.clearFields, Message.fieldsTrimmed, Message.sameFields, ho, ih,
        Value.same_self v hv]
    | some f =>
      cases hx : t.isRedundant f v with
      | false =>
        simp [Message.clearFields, Message.fieldsTrimmed, Message.sameFields, ho, hx, ih,
          Value.same_clearDefaults t f v hv]
      | true =>
        -- one value less is stored than before
        have hless : Message.sameFields (Message.clearFields t type rest)
            ((number, v) :: rest) = false := by
          by_contra hsame
          have hnumbers := Message.sameFields_numbers (Bool.eq_true_of_not_eq_false hsame)
          have hlength := congrArg List.length hnumbers
          have hle := Message.clearFields_length t type rest
          simp only [Message.numbers, List.length_map, List.length_cons] at hlength
          omega
        simp [Message.clearFields, Message.fieldsTrimmed, ho, hx, hless]

theorem Value.same_clearDefaults (t : TypeTable) (f : Field) : ∀ v : Value,
    v.hasNaN = false → (v.clearDefaults t f).same v = v.isTrimmed t f
  | .bool _, h | .int _ _, h | .enum _, h | .single _, h | .double _, h | .str _, h
  | .bytes _, h => by
    simpa [Value.clearDefaults, Value.isTrimmed] using Value.same_self _ h
  | .message name m, h => by
    simp [Value.clearDefaults, Value.isTrimmed, Value.same, Message.same_clearDefaults t name m h]
  | .list items, h => by
    simp [Value.clearDefaults, Value.isTrimmed, Value.same, Value.sameItems_clearItems t f items h]
  | .map entries, h => by
    cases hv : (t.mapEntry? f).bind (fun e => e.fieldNumbered? 2) with
    | none => simpa [Value.clearDefaults, Value.isTrimmed, hv] using Value.same_self _ h
    | some v =>
      simp [Value.clearDefaults, Value.isTrimmed, Value.same, hv,
        Value.sameEntries_clearEntries t v entries h]

theorem Value.sameItems_clearItems (t : TypeTable) (f : Field) : ∀ items : List Value,
    Value.itemsHaveNaN items = false →
      Value.sameItems (Value.clearItems t f items) items = Value.itemsTrimmed t f items
  | [], _ => by simp [Value.clearItems, Value.itemsTrimmed, Value.sameItems]
  | v :: vs, h => by
    obtain ⟨hv, hvs⟩ := Bool.or_eq_false_iff.mp h
    simp [Value.clearItems, Value.itemsTrimmed, Value.sameItems, Value.same_clearDefaults t f v hv,
      Value.sameItems_clearItems t f vs hvs]

theorem Value.sameEntries_clearEntries (t : TypeTable) (f : Field) :
    ∀ entries : List (MapKey × Value), Value.entriesHaveNaN entries = false →
      Value.sameEntries (Value.clearEntries t f entries) entries = Value.entriesTrimmed t f entries
  | [], _ => by simp [Value.clearEntries, Value.entriesTrimmed, Value.sameEntries]
  | (k, v) :: rest, h => by
    obtain ⟨hv, hrest⟩ := Bool.or_eq_false_iff.mp h
    simp [Value.clearEntries, Value.entriesTrimmed, Value.sameEntries,
      Value.same_clearDefaults t f v hv, Value.sameEntries_clearEntries t f rest hrest]

end

section

variable {t : TypeTable} {type : MessageType} {name : String}

theorem MessageType.fieldNumbered?_self (hs : t.Sound) (ht : type ∈ t.messages) {f : Field}
    (hf : f ∈ type.fields) : type.fieldNumbered? f.number = some f :=
  find?_of_nodup Field.number (hs.numbers type ht) hf

/-- A field is set after clearing if it was set before. -/
theorem Message.isSet_clearDefaults (hs : t.Sound) (ht : t.message? name = some type) {m : Message}
    (hm : m.Fits t type) {f : Field} (hf : f ∈ type.fields) :
    t.isSet f (m.clearDefaults t name) = t.isSet f m := by
  have hown := MessageType.fieldNumbered?_self hs (TypeTable.message?_mem ht) hf
  unfold TypeTable.isSet
  rw [Message.find?_clearDefaults ht hm, hown]
  cases hv : m.find? f.number with
  | none => rfl
  | some v =>
    have hr := t.isRedundant_clearDefaults f v
    cases hx : t.isRedundant f v with
    | true => simp [Option.filter_some, hx]
    | false => simp [Option.filter_some, hx, hr]

mutual

theorem Message.agrees_clearDefaults (hs : t.Sound) (name : String) (type : MessageType)
    (ht : t.message? name = some type) : ∀ m : Message, m.Fits t type →
      m.Agrees t name (m.clearDefaults t name)
  | ⟨known, unknown⟩, hm => by
    have hfind := Message.find?_clearDefaults ht hm
    simp only [Message.Agrees, ht]
    refine ⟨by simp [Message.clearDefaults, ht], fun number ho => ?_,
      fun f hf => Message.isSet_clearDefaults hs ht hm hf, ?_⟩
    · rw [hfind, ho]
      rfl
    · refine Message.fieldsAgree_clearFields hs type _ known hm.2 fun number v hv f hf hx => ?_
      have hstored : Message.find? number ⟨known, unknown⟩ = some v :=
        lookup_of_nodup hm.1.nodup hv
      simp [hfind, hf, hstored, Option.filter_some, hx]

theorem Message.fieldsAgree_clearFields (hs : t.Sound) (type : MessageType) (n : Message) :
    ∀ fields : List (Nat × Value), Message.FieldsFit t type fields →
      (∀ number v, (number, v) ∈ fields → ∀ f, type.fieldNumbered? number = some f →
        t.isRedundant f v = false → n.find? number = some (v.clearDefaults t f)) →
      Message.FieldsAgree t type fields n
  | [], _, _ => trivial
  | (number, v) :: rest, hfit, hn => by
    obtain ⟨hv, hrest⟩ := hfit
    refine ⟨?_, Message.fieldsAgree_clearFields hs type n rest hrest fun number v hmem =>
      hn number v (List.mem_cons_of_mem _ hmem)⟩
    cases ho : type.fieldNumbered? number with
    | none => trivial
    | some f =>
      rw [TypeTable.fieldNumbered?_own ho] at hv
      exact fun hx => ⟨_, hn number v (List.mem_cons_self ..) f ho hx,
        Value.agrees_clearDefaults hs f v (t.shape f) (.inl rfl) hv⟩

theorem Value.agrees_clearDefaults (hs : t.Sound) (f : Field) :
    ∀ (v : Value) (shape : Shape), UnderField t f shape → v.Fits t shape →
      v.Agrees t f (v.clearDefaults t f)
  | .bool _, _, _, _ | .int _ _, _, _, _ | .enum _, _, _, _ | .single _, _, _, _
  | .double _, _, _, _ | .str _, _, _, _ | .bytes _, _, _, _ => by
    simp [Value.Agrees, Value.clearDefaults]
  | .message name m, shape, hu, hfit => by
    obtain ⟨-, -, type, ht, hm⟩ := hu.message hfit
    simpa [Value.Agrees, Value.clearDefaults] using
      Message.agrees_clearDefaults hs name type ht m hm
  | .list items, shape, hu, hfit => by
    obtain ⟨-, hitems⟩ := hu.list hfit
    simpa [Value.Agrees, Value.clearDefaults] using Value.itemsAgree_clearItems hs f items hitems
  | .map entries, shape, hu, hfit => by
    obtain ⟨entry, k, w, hm, -, hw, -, hentries⟩ := hu.entries hfit
    have hvalue : (t.mapEntry? f).bind (fun e => e.fieldNumbered? 2) = some w := by simp [hm, hw]
    simpa [Value.Agrees, Value.clearDefaults, hvalue] using
      Value.entriesAgree_clearEntries hs w k.kind entries hentries

theorem Value.itemsAgree_clearItems (hs : t.Sound) (f : Field) :
    ∀ items : List Value, Value.ItemsFit t f.kind items →
      Value.ItemsAgree t f items (Value.clearItems t f items)
  | [], _ => by simp [Value.ItemsAgree, Value.clearItems]
  | v :: vs, hfit => by
    rw [Value.clearItems]
    exact ⟨_, _, rfl, Value.agrees_clearDefaults hs f v (.single f.kind) (.inr rfl) hfit.1,
      Value.itemsAgree_clearItems hs f vs hfit.2⟩

theorem Value.entriesAgree_clearEntries (hs : t.Sound) (f : Field) (key : Kind) :
    ∀ entries : List (MapKey × Value), Value.EntriesFit t key f.kind entries →
      Value.EntriesAgree t f entries (Value.clearEntries t f entries)
  | [], _ => by simp [Value.EntriesAgree, Value.clearEntries]
  | (k, v) :: rest, hfit => by
    rw [Value.clearEntries]
    exact ⟨_, _, rfl, Value.agrees_clearDefaults hs f v (.single f.kind) (.inr rfl) hfit.1.2,
      Value.entriesAgree_clearEntries hs f key rest hfit.2⟩

end

end

end RpcConsole

import RpcConsole.Message.Normal
import RpcConsole.Proofs.Message.Fits

namespace RpcConsole

namespace Value

def isCollection : Value → Bool
  | .list _ | .map _ => true
  | _ => false

/-- Whether a value stands alone where a list is wanted. -/
def isLone (f : Field) (v : Value) : Bool :=
  f.isRepeated && !v.isCollection

def enlisted (f : Field) (v : Value) : Value :=
  if v.isLone f then .list [v] else v

end Value

/-- Whether an entry of a map is written without its value. -/
def TypeTable.isHidden (t : TypeTable) (f : Field) (v : Value) : Bool :=
  !f.hasPresence && v.isSingle (t.fieldDefault f)

mutual

/-- A message as it is read from its own bytes. -/
def Message.stripped (t : TypeTable) (name : String) : Message → Message
  | ⟨known, unknown⟩ =>
    match t.message? name with
    | none => ⟨known, unknown⟩
    | some type => ⟨Message.strippedFields t type known, unknown⟩

def Message.strippedFields (t : TypeTable) (type : MessageType) :
    List (Nat × Value) → List (Nat × Value)
  | [] => []
  | (number, v) :: rest =>
    match t.fieldNumbered? type number with
    | none => Message.strippedFields t type rest
    | some f =>
      if t.isRedundant f v then Message.strippedFields t type rest
      else (number, (v.stripped t f).enlisted f) :: Message.strippedFields t type rest

def Value.stripped (t : TypeTable) (f : Field) : Value → Value
  | .message name m => .message name (m.stripped t name)
  | .list items => .list (Value.strippedItems t f items)
  | .map entries =>
    match (t.mapEntry? f).bind (fun e => e.fieldNumbered? 2) with
    | some v => .map (Value.strippedEntries t v entries)
    | none => .map entries
  | v => v

def Value.strippedItems (t : TypeTable) (f : Field) : List Value → List Value
  | [] => []
  | v :: vs => v.stripped t f :: Value.strippedItems t f vs

def Value.strippedEntries (t : TypeTable) (f : Field) :
    List (MapKey × Value) → List (MapKey × Value)
  | [] => []
  | (k, v) :: rest =>
    (k, if t.isHidden f v then t.fieldDefault f else v.stripped t f) ::
      Value.strippedEntries t f rest

end

mutual

/-- Whether nothing redundant and no lone value is stored, at any depth. -/
def Message.isSettled (t : TypeTable) (name : String) : Message → Bool
  | ⟨known, _⟩ =>
    match t.message? name with
    | none => true
    | some type => Message.fieldsSettled t type known

def Message.fieldsSettled (t : TypeTable) (type : MessageType) : List (Nat × Value) → Bool
  | [] => true
  | (number, v) :: rest =>
    (match t.fieldNumbered? type number with
      | some f => !t.isRedundant f v && !v.isLone f && v.isSettled t f
      | none => false) && Message.fieldsSettled t type rest

def Value.isSettled (t : TypeTable) (f : Field) : Value → Bool
  | .message name m => m.isSettled t name
  | .list items => Value.itemsSettled t f items
  | .map entries =>
    match (t.mapEntry? f).bind (fun e => e.fieldNumbered? 2) with
    | some v => Value.entriesSettled t v entries
    | none => true
  | _ => true

def Value.itemsSettled (t : TypeTable) (f : Field) : List Value → Bool
  | [] => true
  | v :: vs => v.isSettled t f && Value.itemsSettled t f vs

def Value.entriesSettled (t : TypeTable) (f : Field) : List (MapKey × Value) → Bool
  | [] => true
  | (_, v) :: rest => v.isSettled t f && Value.entriesSettled t f rest

end

mutual

def Message.hasNaN : Message → Bool
  | ⟨known, _⟩ => Message.fieldsHaveNaN known

def Message.fieldsHaveNaN : List (Nat × Value) → Bool
  | [] => false
  | (_, v) :: rest => v.hasNaN || Message.fieldsHaveNaN rest

def Value.hasNaN : Value → Bool
  | .single x => x.meaning.isNan
  | .double x => x.meaning.isNan
  | .message _ m => m.hasNaN
  | .list items => Value.itemsHaveNaN items
  | .map entries => Value.entriesHaveNaN entries
  | _ => false

def Value.itemsHaveNaN : List Value → Bool
  | [] => false
  | v :: vs => v.hasNaN || Value.itemsHaveNaN vs

def Value.entriesHaveNaN : List (MapKey × Value) → Bool
  | [] => false
  | (_, v) :: rest => v.hasNaN || Value.entriesHaveNaN rest

end

mutual

theorem UnknownValue.same_self : ∀ v : UnknownValue, v.same v = true
  | .varint _ | .fixed64 _ | .bytes _ | .fixed32 _ => by simp [UnknownValue.same]
  | .group fields => by simp [UnknownValue.same, UnknownValue.sameFields_self fields]

theorem UnknownValue.sameFields_self :
    ∀ fields : List (Nat × UnknownValue), UnknownValue.sameFields fields fields = true
  | [] => rfl
  | (number, v) :: rest => by
    simp [UnknownValue.sameFields, UnknownValue.same_self v, UnknownValue.sameFields_self rest]

end

theorem Binary32.numEq_comm (x y : Binary32) : x.numEq y = y.numEq x := by
  simp only [Binary32.numEq, Bool.or_comm x.meaning.isNan, BEq.comm (a := x),
    Bool.and_comm x.meaning.isZero]

theorem Binary64.numEq_comm (x y : Binary64) : x.numEq y = y.numEq x := by
  simp only [Binary64.numEq, Bool.or_comm x.meaning.isNan, BEq.comm (a := x),
    Bool.and_comm x.meaning.isZero]

namespace Value

theorem isSingle_comm (v w : Value) : v.isSingle w = w.isSingle v := by
  cases v <;> cases w <;> simp [isSingle, Binary32.numEq_comm, Binary64.numEq_comm, BEq.comm]

theorem same_of_isSingle {v w : Value} (h : v.isSingle w = true) : v.same w = true := by
  cases v <;> cases w <;> simp_all [isSingle, same]

/-- A single value that can be left out of an entry has no parts. -/
theorem isSettled_of_isSingle {t : TypeTable} {f : Field} {v w : Value}
    (h : v.isSingle w = true) : v.isSettled t f = true := by
  cases v <;> simp_all [isSingle, isSettled]

theorem isHidden_same {t : TypeTable} {f : Field} {v : Value} (h : t.isHidden f v = true) :
    (t.fieldDefault f).same v = v.isSettled t f := by
  obtain ⟨-, hs⟩ := Bool.and_eq_true_iff.mp h
  rw [isSettled_of_isSingle hs]
  exact same_of_isSingle (by rw [isSingle_comm]; exact hs)

theorem stripped_isCollection (t : TypeTable) (f : Field) (v : Value) :
    (v.stripped t f).isCollection = v.isCollection := by
  cases v with
  | bool | int | enum | single | double | str | bytes | list | message => rfl
  | map es =>
    simp only [stripped]
    split <;> rfl

theorem enlisted_stripped_same (t : TypeTable) (f : Field) (v : Value) :
    ((v.stripped t f).enlisted f).same v = (!v.isLone f && (v.stripped t f).same v) := by
  cases hl : v.isLone f with
  | false =>
    have hn : (v.stripped t f).isLone f = false := by
      rw [isLone, stripped_isCollection]
      exact hl
    simp [enlisted, hn]
  | true =>
    have hn : (v.stripped t f).isLone f = true := by
      rw [isLone, stripped_isCollection]
      exact hl
    simp only [enlisted, hn, ↓reduceIte]
    cases v <;> simp_all [same, isSingle, isLone, isCollection]

end Value

mutual

theorem Message.same_self : ∀ m : Message, m.hasNaN = false → m.same m = true
  | ⟨known, unknown⟩, h => by
    have hk := Message.sameFields_self known h
    simp [Message.same, hk, UnknownValue.sameFields_self unknown]

theorem Message.sameFields_self : ∀ fields : List (Nat × Value),
    Message.fieldsHaveNaN fields = false → Message.sameFields fields fields = true
  | [], _ => by simp [Message.sameFields]
  | (number, v) :: rest, h => by
    obtain ⟨hv, hr⟩ := Bool.or_eq_false_iff.mp h
    simp [Message.sameFields, Value.same_self v hv, Message.sameFields_self rest hr]

theorem Value.same_self : ∀ v : Value, v.hasNaN = false → v.same v = true
  | .bool _, _ | .int _ _, _ | .enum _, _ | .str _, _ | .bytes _, _ => by
    simp [Value.same, Value.isSingle]
  | .single x, h => by
    have hx : x.meaning.isNan = false := h
    simp [Value.same, Value.isSingle, Binary32.numEq, hx]
  | .double x, h => by
    have hx : x.meaning.isNan = false := h
    simp [Value.same, Value.isSingle, Binary64.numEq, hx]
  | .message _ m, h => by
    simp [Value.same, Message.same_self m h]
  | .list items, h => by
    simp [Value.same, Value.sameItems_self items h]
  | .map entries, h => by
    simp [Value.same, Value.sameEntries_self entries h]

theorem Value.sameItems_self : ∀ items : List Value, Value.itemsHaveNaN items = false →
    Value.sameItems items items = true
  | [], _ => by simp [Value.sameItems]
  | v :: vs, h => by
    obtain ⟨hv, hr⟩ := Bool.or_eq_false_iff.mp h
    simp [Value.sameItems, Value.same_self v hv, Value.sameItems_self vs hr]

theorem Value.sameEntries_self : ∀ entries : List (MapKey × Value),
    Value.entriesHaveNaN entries = false → Value.sameEntries entries entries = true
  | [], _ => by simp [Value.sameEntries]
  | (k, v) :: rest, h => by
    obtain ⟨hv, hr⟩ := Bool.or_eq_false_iff.mp h
    simp [Value.sameEntries, Value.same_self v hv, Value.sameEntries_self rest hr]

end

theorem Message.sameFields_length : ∀ {xs ys : List (Nat × Value)},
    Message.sameFields xs ys = true → xs.length = ys.length
  | [], [], _ => rfl
  | [], _ :: _, h => by simp [Message.sameFields] at h
  | _ :: _, [], h => by simp [Message.sameFields] at h
  | (_, _) :: xs, (_, _) :: ys, h => by
    simp only [Message.sameFields, Bool.and_eq_true] at h
    simp [Message.sameFields_length h.2]

theorem Message.strippedFields_length (t : TypeTable) (type : MessageType)
    (fields : List (Nat × Value)) :
    (Message.strippedFields t type fields).length ≤ fields.length := by
  induction fields with
  | nil => simp [Message.strippedFields]
  | cons e rest ih =>
    simp only [Message.strippedFields]
    split
    · exact Nat.le_succ_of_le ih
    · split
      · exact Nat.le_succ_of_le ih
      · exact Nat.succ_le_succ ih

/-- A message that lost a field is another one. -/
theorem Message.strippedFields_not_same (t : TypeTable) (type : MessageType) (e : Nat × Value)
    (rest : List (Nat × Value)) :
    Message.sameFields (Message.strippedFields t type rest) (e :: rest) = false := by
  have hl := Message.strippedFields_length t type rest
  cases h : Message.sameFields (Message.strippedFields t type rest) (e :: rest) with
  | false => rfl
  | true =>
    have := Message.sameFields_length h
    simp only [List.length_cons] at this
    omega

mutual

theorem Message.stripped_same (t : TypeTable) (name : String) : ∀ m : Message, m.hasNaN = false →
    (m.stripped t name).same m = m.isSettled t name
  | ⟨known, unknown⟩, h => by
    have hu := UnknownValue.sameFields_self unknown
    cases ht : t.message? name with
    | none =>
      have hk := Message.sameFields_self known h
      simp [Message.stripped, Message.isSettled, Message.same, ht, hk, hu]
    | some type =>
      have hk := Message.strippedFields_same t type known h
      simp [Message.stripped, Message.isSettled, Message.same, ht, hk, hu]

theorem Message.strippedFields_same (t : TypeTable) (type : MessageType) :
    ∀ fields : List (Nat × Value), Message.fieldsHaveNaN fields = false →
      Message.sameFields (Message.strippedFields t type fields) fields =
        Message.fieldsSettled t type fields
  | [], _ => by simp [Message.strippedFields, Message.fieldsSettled, Message.sameFields]
  | (number, v) :: rest, h => by
    obtain ⟨hv, hr⟩ := Bool.or_eq_false_iff.mp h
    have ih := Message.strippedFields_same t type rest hr
    cases hf : t.fieldNumbered? type number with
    | none =>
      simp [Message.strippedFields, Message.fieldsSettled, hf,
        Message.strippedFields_not_same t type]
    | some f =>
      cases hx : t.isRedundant f v with
      | true =>
        simp [Message.strippedFields, Message.fieldsSettled, hf, hx,
          Message.strippedFields_not_same t type]
      | false =>
        have hs := Value.stripped_same t f v hv
        have hl := Value.enlisted_stripped_same t f v
        rw [hs] at hl
        simp [Message.strippedFields, Message.fieldsSettled, Message.sameFields, hf, hx, ih, hl]

theorem Value.stripped_same (t : TypeTable) (f : Field) : ∀ v : Value, v.hasNaN = false →
    (v.stripped t f).same v = v.isSettled t f
  | .bool _, _ | .int _ _, _ | .enum _, _ | .str _, _ | .bytes _, _ => by
    simp [Value.stripped, Value.isSettled, Value.same, Value.isSingle]
  | .single x, h => Value.same_self (.single x) h
  | .double x, h => Value.same_self (.double x) h
  | .message name m, h => by
    simp [Value.stripped, Value.isSettled, Value.same, Message.stripped_same t name m h]
  | .list items, h => by
    simp [Value.stripped, Value.isSettled, Value.same, Value.strippedItems_same t f items h]
  | .map entries, h => by
    cases hv : (t.mapEntry? f).bind (fun e => e.fieldNumbered? 2) with
    | none =>
      simp [Value.stripped, Value.isSettled, Value.same, hv, Value.sameEntries_self entries h]
    | some v =>
      simp [Value.stripped, Value.isSettled, Value.same, hv,
        Value.strippedEntries_same t v entries h]

theorem Value.strippedItems_same (t : TypeTable) (f : Field) : ∀ items : List Value,
    Value.itemsHaveNaN items = false →
      Value.sameItems (Value.strippedItems t f items) items = Value.itemsSettled t f items
  | [], _ => by simp [Value.strippedItems, Value.itemsSettled, Value.sameItems]
  | v :: vs, h => by
    obtain ⟨hv, hr⟩ := Bool.or_eq_false_iff.mp h
    simp [Value.strippedItems, Value.itemsSettled, Value.sameItems, Value.stripped_same t f v hv,
      Value.strippedItems_same t f vs hr]

theorem Value.strippedEntries_same (t : TypeTable) (f : Field) :
    ∀ entries : List (MapKey × Value), Value.entriesHaveNaN entries = false →
      Value.sameEntries (Value.strippedEntries t f entries) entries =
        Value.entriesSettled t f entries
  | [], _ => by simp [Value.strippedEntries, Value.entriesSettled, Value.sameEntries]
  | (k, v) :: rest, h => by
    obtain ⟨hv, hr⟩ := Bool.or_eq_false_iff.mp h
    have ih := Value.strippedEntries_same t f rest hr
    cases hx : t.isHidden f v with
    | true =>
      have hs := Value.isHidden_same hx
      simp [Value.strippedEntries, Value.entriesSettled, Value.sameEntries, hx, ih, hs]
    | false =>
      have hs := Value.stripped_same t f v hv
      simp [Value.strippedEntries, Value.entriesSettled, Value.sameEntries, hx, ih, hs]

end

namespace TypeTable

theorem isRedundant_stripped (t : TypeTable) (f : Field) (v : Value) :
    t.isRedundant f ((v.stripped t f).enlisted f) = t.isRedundant f v := by
  have he : (v.stripped t f).isEmpty = v.isEmpty := by
    cases v with
    | bool | int | enum | single | double | str | bytes | message => rfl
    | list items => cases items <;> rfl
    | map es =>
      simp only [Value.stripped]
      split
      · cases es <;> rfl
      · rfl
  have hs : (v.stripped t f).isSingle (t.fieldDefault f) = v.isSingle (t.fieldDefault f) := by
    cases v with
    | bool | int | enum | single | double | str | bytes => rfl
    | list | message => simp [Value.stripped, Value.isSingle]
    | map es =>
      simp only [Value.stripped]
      split <;> simp [Value.isSingle]
  cases hl : v.isLone f with
  | false =>
    have hn : (v.stripped t f).isLone f = false := by
      rw [Value.isLone, Value.stripped_isCollection]
      exact hl
    simp [Value.enlisted, hn, isRedundant, he, hs]
  | true =>
    have hn : (v.stripped t f).isLone f = true := by
      rw [Value.isLone, Value.stripped_isCollection]
      exact hl
    have hv : v.isEmpty = false := by
      cases v <;> simp_all [Value.isLone, Value.isCollection, Value.isEmpty]
    have hf : f.isRepeated = true := by
      cases h : f.isRepeated <;> simp_all [Value.isLone]
    have hn' : (Value.list [v.stripped t f]).isEmpty = false := rfl
    simp [Value.enlisted, hn, isRedundant, hv, hf, hn']

theorem fieldNumbered?_own {t : TypeTable} {type : MessageType} {number : Nat} {f : Field}
    (h : type.fieldNumbered? number = some f) : t.fieldNumbered? type number = some f := by
  simp [fieldNumbered?, h]

end TypeTable

theorem Value.clearDefaults_of_isSingle {t : TypeTable} {f : Field} {v w : Value}
    (h : v.isSingle w = true) : w.clearDefaults t f = w := by
  cases v <;> cases w <;> simp_all [isSingle, clearDefaults]

mutual

theorem Message.clearDefaults_stripped (t : TypeTable) (name : String) : ∀ m : Message,
    (m.stripped t name).clearDefaults t name = m.stripped t name
  | ⟨known, unknown⟩ => by
    cases ht : t.message? name with
    | none => simp [Message.stripped, Message.clearDefaults, ht]
    | some type =>
      simp [Message.stripped, Message.clearDefaults, ht,
        Message.clearFields_stripped t type known]

theorem Message.clearFields_stripped (t : TypeTable) (type : MessageType) :
    ∀ fields : List (Nat × Value),
      Message.clearFields t type (Message.strippedFields t type fields) =
        Message.strippedFields t type fields
  | [] => by simp [Message.strippedFields, Message.clearFields]
  | (number, v) :: rest => by
    have ih := Message.clearFields_stripped t type rest
    cases hf : t.fieldNumbered? type number with
    | none => simp [Message.strippedFields, hf, ih]
    | some f =>
      cases hx : t.isRedundant f v with
      | true => simp [Message.strippedFields, hf, hx, ih]
      | false =>
        cases ho : type.fieldNumbered? number with
        | none => simp [Message.strippedFields, Message.clearFields, hf, hx, ho, ih]
        | some g =>
          have hg := TypeTable.fieldNumbered?_own (t := t) ho
          rw [hf, Option.some.injEq] at hg
          subst hg
          have hr := t.isRedundant_stripped f v
          rw [hx] at hr
          have hv := Value.clearDefaults_stripped t f v
          have he : ((v.stripped t f).enlisted f).clearDefaults t f =
              (v.stripped t f).enlisted f := by
            unfold Value.enlisted
            split
            · simp [Value.clearDefaults, Value.clearItems, hv]
            · exact hv
          simp [Message.strippedFields, Message.clearFields, hf, hx, ho, hr, he, ih]

theorem Value.clearDefaults_stripped (t : TypeTable) (f : Field) : ∀ v : Value,
    (v.stripped t f).clearDefaults t f = v.stripped t f
  | .bool _ | .int _ _ | .enum _ | .single _ | .double _ | .str _ | .bytes _ => by
    simp [Value.stripped, Value.clearDefaults]
  | .message name m => by
    simp [Value.stripped, Value.clearDefaults, Message.clearDefaults_stripped t name m]
  | .list items => by
    simp [Value.stripped, Value.clearDefaults, Value.clearItems_stripped t f items]
  | .map entries => by
    cases hv : (t.mapEntry? f).bind (fun e => e.fieldNumbered? 2) with
    | none => simp [Value.stripped, Value.clearDefaults, hv]
    | some v =>
      simp [Value.stripped, Value.clearDefaults, hv, Value.clearEntries_stripped t v entries]

theorem Value.clearItems_stripped (t : TypeTable) (f : Field) : ∀ items : List Value,
    Value.clearItems t f (Value.strippedItems t f items) = Value.strippedItems t f items
  | [] => by simp [Value.strippedItems, Value.clearItems]
  | v :: vs => by
    simp [Value.strippedItems, Value.clearItems, Value.clearDefaults_stripped t f v,
      Value.clearItems_stripped t f vs]

theorem Value.clearEntries_stripped (t : TypeTable) (f : Field) :
    ∀ entries : List (MapKey × Value),
      Value.clearEntries t f (Value.strippedEntries t f entries) =
        Value.strippedEntries t f entries
  | [] => by simp [Value.strippedEntries, Value.clearEntries]
  | (k, v) :: rest => by
    have ih := Value.clearEntries_stripped t f rest
    cases hx : t.isHidden f v with
    | false =>
      simp [Value.strippedEntries, Value.clearEntries, hx, Value.clearDefaults_stripped t f v, ih]
    | true =>
      obtain ⟨-, hs⟩ := Bool.and_eq_true_iff.mp hx
      have hd := Value.clearDefaults_of_isSingle (t := t) (f := f) hs
      simp [Value.strippedEntries, Value.clearEntries, hx, hd, ih]

end

/-- Whether two values agree to the sign of a zero. -/
def Value.sameSign : Value → Value → Bool
  | .single x, .single y => x == y
  | .double x, .double y => x == y
  | _, _ => true

mutual

/-- Whether a map holds a zero with a sign where its zero is left out of the bytes. -/
def Message.hasSignedZero (t : TypeTable) (name : String) : Message → Bool
  | ⟨known, _⟩ =>
    match t.message? name with
    | none => false
    | some type => Message.fieldsHaveSignedZero t type known

def Message.fieldsHaveSignedZero (t : TypeTable) (type : MessageType) :
    List (Nat × Value) → Bool
  | [] => false
  | (number, v) :: rest =>
    (match t.fieldNumbered? type number with
      | some f => v.hasSignedZero t f
      | none => false) || Message.fieldsHaveSignedZero t type rest

def Value.hasSignedZero (t : TypeTable) (f : Field) : Value → Bool
  | .message name m => m.hasSignedZero t name
  | .list items => Value.itemsHaveSignedZero t f items
  | .map entries =>
    match (t.mapEntry? f).bind (fun e => e.fieldNumbered? 2) with
    | some v => Value.entriesHaveSignedZero t v entries
    | none => false
  | _ => false

def Value.itemsHaveSignedZero (t : TypeTable) (f : Field) : List Value → Bool
  | [] => false
  | v :: vs => v.hasSignedZero t f || Value.itemsHaveSignedZero t f vs

def Value.entriesHaveSignedZero (t : TypeTable) (f : Field) : List (MapKey × Value) → Bool
  | [] => false
  | (_, v) :: rest =>
    t.isHidden f v && !v.sameSign (t.fieldDefault f) || v.hasSignedZero t f ||
      Value.entriesHaveSignedZero t f rest

end

theorem Value.eq_of_isSingle {v w : Value} (h : v.isSingle w = true)
    (hs : v.sameSign w = true) : v = w := by
  cases v <;> cases w <;> simp_all [isSingle, sameSign]

mutual

/-- A settled message comes back as it is. -/
theorem Message.stripped_eq (t : TypeTable) (name : String) : ∀ m : Message,
    m.isSettled t name = true → m.hasSignedZero t name = false → m.stripped t name = m
  | ⟨known, unknown⟩, hs, hz => by
    cases ht : t.message? name with
    | none => simp [Message.stripped, ht]
    | some type =>
      simp only [Message.isSettled, Message.hasSignedZero, ht] at hs hz
      simp [Message.stripped, ht, Message.strippedFields_eq t type known hs hz]

theorem Message.strippedFields_eq (t : TypeTable) (type : MessageType) :
    ∀ fields : List (Nat × Value), Message.fieldsSettled t type fields = true →
      Message.fieldsHaveSignedZero t type fields = false →
      Message.strippedFields t type fields = fields
  | [], _, _ => rfl
  | (number, v) :: rest, hs, hz => by
    cases hf : t.fieldNumbered? type number with
    | none => simp [Message.fieldsSettled, hf] at hs
    | some f =>
      simp only [Message.fieldsSettled, hf, Bool.and_eq_true, Bool.not_eq_true'] at hs
      simp only [Message.fieldsHaveSignedZero, hf, Bool.or_eq_false_iff] at hz
      obtain ⟨⟨⟨hr, hl⟩, hv⟩, hrest⟩ := hs
      have ih := Message.strippedFields_eq t type rest hrest hz.2
      have hstrip := Value.stripped_eq t f v hv hz.1
      simp [Message.strippedFields, hf, hr, hstrip, Value.enlisted, hl, ih]

theorem Value.stripped_eq (t : TypeTable) (f : Field) : ∀ v : Value,
    v.isSettled t f = true → v.hasSignedZero t f = false → v.stripped t f = v
  | .bool _, _, _ | .int _ _, _, _ | .enum _, _, _ | .single _, _, _ | .double _, _, _
  | .str _, _, _ | .bytes _, _, _ => rfl
  | .message name m, hs, hz => by
    simp only [Value.isSettled, Value.hasSignedZero] at hs hz
    simp [Value.stripped, Message.stripped_eq t name m hs hz]
  | .list items, hs, hz => by
    simp only [Value.isSettled, Value.hasSignedZero] at hs hz
    simp [Value.stripped, Value.strippedItems_eq t f items hs hz]
  | .map entries, hs, hz => by
    cases hv : (t.mapEntry? f).bind (fun e => e.fieldNumbered? 2) with
    | none => simp [Value.stripped, hv]
    | some v =>
      simp only [Value.isSettled, Value.hasSignedZero, hv] at hs hz
      simp [Value.stripped, hv, Value.strippedEntries_eq t v entries hs hz]

theorem Value.strippedItems_eq (t : TypeTable) (f : Field) : ∀ items : List Value,
    Value.itemsSettled t f items = true → Value.itemsHaveSignedZero t f items = false →
      Value.strippedItems t f items = items
  | [], _, _ => rfl
  | v :: vs, hs, hz => by
    simp only [Value.itemsSettled, Bool.and_eq_true] at hs
    simp only [Value.itemsHaveSignedZero, Bool.or_eq_false_iff] at hz
    simp [Value.strippedItems, Value.stripped_eq t f v hs.1 hz.1,
      Value.strippedItems_eq t f vs hs.2 hz.2]

theorem Value.strippedEntries_eq (t : TypeTable) (f : Field) :
    ∀ entries : List (MapKey × Value), Value.entriesSettled t f entries = true →
      Value.entriesHaveSignedZero t f entries = false →
      Value.strippedEntries t f entries = entries
  | [], _, _ => rfl
  | (k, v) :: rest, hs, hz => by
    simp only [Value.entriesSettled, Bool.and_eq_true] at hs
    simp only [Value.entriesHaveSignedZero, Bool.or_eq_false_iff] at hz
    obtain ⟨⟨hsign, hv⟩, hrest⟩ := hz
    have ih := Value.strippedEntries_eq t f rest hs.2 hrest
    cases hx : t.isHidden f v with
    | false => simp [Value.strippedEntries, hx, Value.stripped_eq t f v hs.1 hv, ih]
    | true =>
      obtain ⟨-, hsingle⟩ := Bool.and_eq_true_iff.mp hx
      simp only [hx, Bool.true_and, Bool.not_eq_false'] at hsign
      simp [Value.strippedEntries, hx, ← Value.eq_of_isSingle hsingle hsign, ih]

end

end RpcConsole

import RpcConsole.Proofs.Message.Stripped
import RpcConsole.Proofs.Schema.Sound

namespace RpcConsole

mutual

/-- Whether all values that a message stores pass a test, which is told the field of the value and
whether that is an extension. -/
def Message.all (t : TypeTable) (test : Bool → Field → Value → Bool) (name : String) :
    Message → Bool
  | ⟨known, _⟩ =>
    match t.message? name with
    | none => true
    | some type => Message.allFields t test type known

def Message.allFields (t : TypeTable) (test : Bool → Field → Value → Bool) (type : MessageType) :
    List (Nat × Value) → Bool
  | [] => true
  | (number, v) :: rest =>
    (match t.fieldNumbered? type number with
      | some f => test (type.fieldNumbered? number).isNone f v && v.all t test f
      | none => false) && Message.allFields t test type rest

def Value.all (t : TypeTable) (test : Bool → Field → Value → Bool) (f : Field) : Value → Bool
  | .message name m => m.all t test name
  | .list items => Value.allItems t test f items
  | .map entries =>
    match (t.mapEntry? f).bind (fun e => e.fieldNumbered? 2) with
    | some v => Value.allEntries t test v entries
    | none => true
  | _ => true

def Value.allItems (t : TypeTable) (test : Bool → Field → Value → Bool) (f : Field) :
    List Value → Bool
  | [] => true
  | v :: vs => v.all t test f && Value.allItems t test f vs

def Value.allEntries (t : TypeTable) (test : Bool → Field → Value → Bool) (f : Field) :
    List (MapKey × Value) → Bool
  | [] => true
  | (_, v) :: rest => v.all t test f && Value.allEntries t test f rest

end

mutual

/-- Whether a floating-point value is set, at any depth. -/
def Message.hasFloat (t : TypeTable) (name : String) : Message → Bool
  | ⟨known, _⟩ =>
    match t.message? name with
    | none => false
    | some type => Message.fieldsHaveFloat t type known

def Message.fieldsHaveFloat (t : TypeTable) (type : MessageType) : List (Nat × Value) → Bool
  | [] => false
  | (number, v) :: rest =>
    (match t.fieldNumbered? type number with
      | some f => !t.isRedundant f v && v.hasFloat t f
      | none => false) || Message.fieldsHaveFloat t type rest

def Value.hasFloat (t : TypeTable) (f : Field) : Value → Bool
  | .single _ | .double _ => true
  | .message name m => m.hasFloat t name
  | .list items => Value.itemsHaveFloat t f items
  | .map entries =>
    match (t.mapEntry? f).bind (fun e => e.fieldNumbered? 2) with
    | some v => Value.entriesHaveFloat t v entries
    | none => false
  | _ => false

def Value.itemsHaveFloat (t : TypeTable) (f : Field) : List Value → Bool
  | [] => false
  | v :: vs => v.hasFloat t f || Value.itemsHaveFloat t f vs

def Value.entriesHaveFloat (t : TypeTable) (f : Field) : List (MapKey × Value) → Bool
  | [] => false
  | (_, v) :: rest => v.hasFloat t f || Value.entriesHaveFloat t f rest

end

mutual

/-- Whether unknown fields are stored, at any depth. -/
def Message.hasUnknown : Message → Bool
  | ⟨known, unknown⟩ => !unknown.isEmpty || Message.fieldsHaveUnknown known

def Message.fieldsHaveUnknown : List (Nat × Value) → Bool
  | [] => false
  | (_, v) :: rest => v.hasUnknown || Message.fieldsHaveUnknown rest

def Value.hasUnknown : Value → Bool
  | .message _ m => m.hasUnknown
  | .list items => Value.itemsHaveUnknown items
  | .map entries => Value.entriesHaveUnknown entries
  | _ => false

def Value.itemsHaveUnknown : List Value → Bool
  | [] => false
  | v :: vs => v.hasUnknown || Value.itemsHaveUnknown vs

def Value.entriesHaveUnknown : List (MapKey × Value) → Bool
  | [] => false
  | (_, v) :: rest => v.hasUnknown || Value.entriesHaveUnknown rest

end

section

variable {t : TypeTable} {p q r : Bool → Field → Value → Bool}

/-- Two tests together imply a third one; what is told to be an extension is one. -/
def Implies (t : TypeTable) (p q r : Bool → Field → Value → Bool) : Prop :=
  ∀ x f v, (x = true → ∃ e ∈ t.extensions, e.field = f) → p x f v = true → q x f v = true →
    r x f v = true

mutual

theorem Message.all_of (h : Implies t p q r) (name : String) : ∀ m : Message,
    m.all t p name = true → m.all t q name = true → m.all t r name = true
  | ⟨known, unknown⟩, hp, hq => by
    cases ht : t.message? name with
    | none => simp [Message.all, ht]
    | some type =>
      simp only [Message.all, ht] at hp hq ⊢
      exact Message.allFields_of h type known hp hq

theorem Message.allFields_of (h : Implies t p q r) (type : MessageType) :
    ∀ fields : List (Nat × Value), Message.allFields t p type fields = true →
      Message.allFields t q type fields = true → Message.allFields t r type fields = true
  | [], _, _ => rfl
  | (number, v) :: rest, hp, hq => by
    cases hf : t.fieldNumbered? type number with
    | none => simp [Message.allFields, hf] at hp
    | some f =>
      have hx : (type.fieldNumbered? number).isNone = true → ∃ e ∈ t.extensions, e.field = f := by
        intro hno
        obtain ⟨-, ho | ⟨e, he, -, hef⟩⟩ := TypeTable.fieldNumbered?_cases hf
        · simp [ho] at hno
        · exact ⟨e, he, hef⟩
      simp only [Message.allFields, hf, Bool.and_eq_true] at hp hq ⊢
      exact ⟨⟨h _ _ _ hx hp.1.1 hq.1.1, Value.all_of h f v hp.1.2 hq.1.2⟩,
        Message.allFields_of h type rest hp.2 hq.2⟩

theorem Value.all_of (h : Implies t p q r) (f : Field) : ∀ v : Value,
    v.all t p f = true → v.all t q f = true → v.all t r f = true
  | .bool _, _, _ | .int _ _, _, _ | .enum _, _, _ | .single _, _, _ | .double _, _, _
  | .str _, _, _ | .bytes _, _, _ => rfl
  | .message name m, hp, hq => by
    simp only [Value.all] at hp hq ⊢
    exact Message.all_of h name m hp hq
  | .list items, hp, hq => by
    simp only [Value.all] at hp hq ⊢
    exact Value.allItems_of h f items hp hq
  | .map entries, hp, hq => by
    cases hv : (t.mapEntry? f).bind (fun e => e.fieldNumbered? 2) with
    | none => simp [Value.all, hv]
    | some v =>
      simp only [Value.all, hv] at hp hq ⊢
      exact Value.allEntries_of h v entries hp hq

theorem Value.allItems_of (h : Implies t p q r) (f : Field) : ∀ items : List Value,
    Value.allItems t p f items = true → Value.allItems t q f items = true →
      Value.allItems t r f items = true
  | [], _, _ => rfl
  | v :: vs, hp, hq => by
    simp only [Value.allItems, Bool.and_eq_true] at hp hq ⊢
    exact ⟨Value.all_of h f v hp.1 hq.1, Value.allItems_of h f vs hp.2 hq.2⟩

theorem Value.allEntries_of (h : Implies t p q r) (f : Field) :
    ∀ entries : List (MapKey × Value), Value.allEntries t p f entries = true →
      Value.allEntries t q f entries = true → Value.allEntries t r f entries = true
  | [], _, _ => rfl
  | (k, v) :: rest, hp, hq => by
    simp only [Value.allEntries, Bool.and_eq_true] at hp hq ⊢
    exact ⟨Value.all_of h f v hp.1 hq.1, Value.allEntries_of h f rest hp.2 hq.2⟩

end

end

namespace Message

variable (t : TypeTable) (name : String) (m : Message)

/-- No extension is set to an empty list. -/
def hasNoEmptyExtension : Bool :=
  m.all t (fun x _ v => !(x && v.isEmpty)) name

/-- No value stands alone where a list is wanted. -/
def hasNoLone : Bool :=
  m.all t (fun _ f v => !v.isLone f) name

/-- Nothing redundant is stored below extensions. -/
def extensionsSettled : Bool :=
  m.all t (fun x f v => !x || v.isSettled t f) name

end Message
end RpcConsole

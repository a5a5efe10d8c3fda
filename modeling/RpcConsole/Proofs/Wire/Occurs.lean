import RpcConsole.Proofs.Message.Fits
import RpcConsole.Proofs.Wire.Plain
import RpcConsole.Wire.Read

namespace RpcConsole.Wire

namespace Reading

variable {α β : Type} {x : Reading α} {f : α → Reading β} {a : α} {bs rest : List UInt8}

theorem bind_eq_ok {b : β} : (x >>= f) bs = .ok (b, rest) ↔
    ∃ a rest', x bs = .ok (a, rest') ∧ f a rest' = .ok (b, rest) := by
  show (x bs >>= fun r => f r.1 r.2) = _ ↔ _
  cases h : x bs with
  | error e => simp [bind, Except.bind]
  | ok r =>
    constructor
    · intro hf
      exact ⟨r.1, r.2, rfl, hf⟩
    · rintro ⟨a, rest', hr, hf⟩
      cases hr
      exact hf

theorem bind_of_ok (h : x bs = .ok (a, rest)) : (x >>= f) bs = f a rest := by
  show (x bs >>= fun r => f r.1 r.2) = _
  rw [h]
  rfl

@[simp] theorem pure_apply : (pure a : Reading α) bs = .ok (a, bs) := rfl

@[simp] theorem left_apply : left bs = .ok (bs.length, bs) := rfl

@[simp] theorem lift_apply (y : Except Fault α) :
    (liftM y : Reading α) bs = y.map (fun a => (a, bs)) := by
  cases y <;> rfl

end Reading

theorem readKey_key {number : Nat} (hn : IsNumber number) (wt : WireType) (rest : List UInt8) :
    readKey (key number wt ++ rest) = .ok ((number, wt), rest) := by
  have hc : wt.code < 8 := by cases wt <;> simp [WireType.code]
  have ho : WireType.ofCode? wt.code = some wt := by cases wt <;> rfl
  obtain ⟨hl, hu⟩ := hn
  have hk : number * 8 + wt.code ≤ keyLimit := by
    have : keyLimit = 4294967295 := rfl
    have h5 : wt.code ≤ 5 := by cases wt <;> simp [WireType.code]
    omega
  have hlt : number * 8 + wt.code < wordLimit := Nat.lt_of_le_of_lt hk (by decide)
  have hm : (number * 8 + wt.code) % 8 = wt.code := by omega
  have hd : (number * 8 + wt.code) / 8 = number := by omega
  have hz : number ≠ 0 := by omega
  rw [readKey, key, readVarint_varint hlt]
  simp [Nat.not_lt.mpr hk, hm, ho, hd, hz]

theorem key_length_pos (number : Nat) (wt : WireType) : 1 ≤ (key number wt).length :=
  varint_length_pos _

/-- The end of a part of the given bytes. -/
theorem partEnd_counted {body : List UInt8} (h : body.length < wordLimit) (rest : List UInt8) :
    partEnd (counted body ++ rest) = .ok (rest.length, body ++ rest) := by
  have hr := readVarint_varint h (body ++ rest)
  unfold partEnd
  rw [counted, List.append_assoc]
  rw [Reading.bind_of_ok (x := readVarint) hr, Reading.bind_of_ok Reading.left_apply]
  have hl : ¬ (body ++ rest).length < body.length := by simp
  have hd : (body ++ rest).length - body.length = rest.length := by simp
  simp only [hl, ↓reduceIte, hd]
  rfl

theorem atEnd_append (bs rest : List UInt8) :
    atEnd rest.length (bs ++ rest) = .ok (bs.isEmpty, bs ++ rest) := by
  unfold atEnd
  rw [Reading.bind_of_ok Reading.left_apply]
  have hl : ¬ (bs ++ rest).length < rest.length := by simp
  simp only [hl, ↓reduceIte]
  cases bs with
  | nil => simp
  | cons b bs =>
    have hne : ¬ bs.length + rest.length + 1 = rest.length := by omega
    simp [hne]

/-- A field behind its key takes a message to another one. -/
def FieldReads (t : TypeTable) (depth : Nat) (type : MessageType) (number : Nat) (wt : WireType)
    (body : List UInt8) (m m' : Message) : Prop :=
  ∀ fuel rest, 4 * body.length + 7 ≤ fuel →
    readField t fuel depth type number wt m (body ++ rest) = .ok (m', rest)

/-- Bytes that are a row of fields, and what they make of a message. -/
inductive Occurs (t : TypeTable) (depth : Nat) (type : MessageType) :
    List UInt8 → Message → Message → Prop where
  | nil (m : Message) : Occurs t depth type [] m m
  | field {number : Nat} {wt : WireType} {body bs : List UInt8} {m m' m'' : Message}
      (hn : IsNumber number) (hwt : wt ≠ .endGroup)
      (head : FieldReads t depth type number wt body m m') (tail : Occurs t depth type bs m' m'') :
      Occurs t depth type (key number wt ++ body ++ bs) m m''

namespace Occurs

variable {t : TypeTable} {depth : Nat} {type : MessageType} {bs cs : List UInt8}
variable {m m' m'' : Message}

theorem append (h : Occurs t depth type bs m m') (h' : Occurs t depth type cs m' m'') :
    Occurs t depth type (bs ++ cs) m m'' := by
  induction h with
  | nil => exact h'
  | field hn hwt head _ ih =>
    rw [List.append_assoc]
    exact .field hn hwt head (ih h')

theorem one {number : Nat} {wt : WireType} {body : List UInt8} (hn : IsNumber number)
    (hwt : wt ≠ .endGroup) (head : FieldReads t depth type number wt body m m') :
    Occurs t depth type (key number wt ++ body) m m' := by
  have h := Occurs.field hn hwt head (.nil m')
  rwa [List.append_nil] at h

theorem readFields (h : Occurs t depth type bs m m') : ∀ fuel rest, 4 * bs.length + 4 ≤ fuel →
    Wire.readFields t fuel depth type rest.length m (bs ++ rest) = .ok (m', rest) := by
  induction h with
  | nil m =>
    intro fuel rest hf
    obtain ⟨fuel, rfl⟩ : ∃ k, fuel = k + 1 := ⟨fuel - 1, by omega⟩
    rw [Wire.readFields, Reading.bind_of_ok (atEnd_append [] rest)]
    simp
  | @field number wt body bs m m' m'' hn hwt head tail ih =>
    intro fuel rest hf
    have hk := key_length_pos number wt
    simp only [List.length_append] at hf
    obtain ⟨fuel, rfl⟩ : ∃ k, fuel = k + 1 := ⟨fuel - 1, by omega⟩
    have hne : (key number wt ++ body ++ bs).isEmpty = false := by
      cases hc : key number wt with
      | nil => simp [hc] at hk
      | cons b bs => rfl
    rw [Wire.readFields, Reading.bind_of_ok (atEnd_append _ rest), hne]
    simp only [Bool.false_eq_true, ↓reduceIte, List.append_assoc]
    rw [Reading.bind_of_ok (x := readKey) (readKey_key hn wt _),
      Reading.bind_of_ok (head fuel (bs ++ rest) (by omega))]
    exact ih fuel rest (by omega)

theorem readGroup (h : Occurs t depth type bs m m') {group : Nat} (hg : IsNumber group) :
    ∀ fuel rest, 4 * bs.length + 4 ≤ fuel →
      Wire.readGroup t fuel depth type group m (bs ++ (key group .endGroup ++ rest)) =
        .ok (m', rest) := by
  induction h with
  | nil m =>
    intro fuel rest hf
    obtain ⟨fuel, rfl⟩ : ∃ k, fuel = k + 1 := ⟨fuel - 1, by omega⟩
    rw [Wire.readGroup, List.nil_append,
      Reading.bind_of_ok (x := readKey) (readKey_key hg .endGroup rest)]
    simp
  | @field number wt body bs m m' m'' hn hwt head tail ih =>
    intro fuel rest hf
    have hk := key_length_pos number wt
    simp only [List.length_append] at hf
    obtain ⟨fuel, rfl⟩ : ∃ k, fuel = k + 1 := ⟨fuel - 1, by omega⟩
    rw [Wire.readGroup]
    simp only [List.append_assoc]
    rw [Reading.bind_of_ok (x := readKey) (readKey_key hn wt _)]
    have hw : (wt == .endGroup) = false := by simp [hwt]
    simp only [hw, Bool.false_eq_true, ↓reduceIte]
    rw [Reading.bind_of_ok (head fuel (bs ++ (key group .endGroup ++ rest)) (by omega))]
    exact ih fuel rest (by omega)

end Occurs
end RpcConsole.Wire

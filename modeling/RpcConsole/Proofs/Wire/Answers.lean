import RpcConsole.Proofs.Schema.Sound
import RpcConsole.Wire.Read

namespace RpcConsole.Wire

/-- What is read is a result or a fault that the caller sees, whatever bytes there are. -/
def Reading.Answers {α : Type} (p : Reading α) : Prop :=
  ∀ bs, Avoids .stopped (p bs)

namespace Reading.Answers

variable {α β : Type}

theorem pure (a : α) : Answers (pure a : Reading α) :=
  fun _ => .ok _

theorem fail {e : Fault} (h : e ≠ .stopped) : Answers (fail e : Reading α) :=
  fun _ => .error h

theorem bind {p : Reading α} {f : α → Reading β} (hp : Answers p) (hf : ∀ a, Answers (f a)) :
    Answers (p >>= f) :=
  fun bs => (hp bs).bind fun r _ => hf r.1 r.2

theorem lift {r : Except Fault α} (h : Avoids .stopped r) : Answers (liftM r : Reading α) :=
  fun _ => h.bind fun _ _ => .ok _

end Reading.Answers

open Reading (Answers left)

theorem readVarint_answers : Answers readVarint := by
  have h (index : Nat) (bs : List UInt8) : Avoids .stopped (readVarintFrom index bs) := by
    induction bs generalizing index with
    | nil => exact .error (by simp)
    | cons b bs ih =>
      unfold readVarintFrom
      split
      · split <;> simp
      · split
        · exact .error (by simp)
        · split
          · exact .ok _
          · rename_i e he
            exact (ih _).rethrow he
  exact h 0

theorem takeBytes_answers (count : Nat) : Answers (takeBytes count) := by
  intro bs
  unfold takeBytes
  split <;> simp

theorem readFixed_answers (width : Nat) : Answers (readFixed width) := by
  intro bs
  unfold readFixed
  split
  · exact .ok _
  · rename_i e he
    exact (takeBytes_answers width bs).rethrow he

theorem readBytes_answers : Answers readBytes := by
  intro bs
  unfold readBytes
  split
  · exact takeBytes_answers _ _
  · rename_i e he
    exact (readVarint_answers bs).rethrow he

theorem readKey_answers : Answers readKey := by
  intro bs
  unfold readKey
  split
  · rename_i e he
    exact (readVarint_answers bs).rethrow he
  · repeat' split
    all_goals simp

theorem expect_answers (expected found : WireType) : Avoids .stopped (expect expected found) := by
  unfold expect
  split <;> simp

theorem readPlain_answers (kind : Kind) : Answers (readPlain kind) := by
  intro bs
  unfold readPlain
  split
  · unfold readScalar
    split
    · split
      · rename_i e he
        exact (readBytes_answers bs).rethrow he
      · split <;> simp
    · exact (readBytes_answers bs).map
    · exact (readFixed_answers 4 bs).map
    · exact (readFixed_answers 8 bs).map
    · exact (readVarint_answers bs).map
  · exact (readVarint_answers bs).map
  · exact .ok _

theorem left_answers : Answers left :=
  fun _ => .ok _

theorem deeper_answers (depth : Nat) : Answers (deeper depth) := by
  cases depth with
  | zero => exact .fail (by simp)
  | succ depth => exact .pure _

theorem partEnd_answers : Answers partEnd :=
  readVarint_answers.bind fun count => left_answers.bind fun left => by
    split
    · exact .fail (by simp)
    · exact .pure _

theorem atEnd_answers (stop : Nat) : Answers (atEnd stop) :=
  left_answers.bind fun left => by
    split
    · exact .fail (by simp)
    · exact .pure _

/-- What stands under a number that no field has is read without a stop. -/
theorem readUnknown_answers (fuel : Nat) :
    (∀ depth number wt, Answers (readUnknown fuel depth number wt)) ∧
      ∀ depth number, Answers (readUnknownGroup fuel depth number) := by
  induction fuel with
  | zero => exact ⟨fun _ _ _ => .fail (by simp), fun _ _ => .fail (by simp)⟩
  | succ fuel ih =>
    obtain ⟨ihValue, ihGroup⟩ := ih
    refine ⟨fun depth number wt => ?_, fun depth number => ?_⟩
    · cases wt with
      | varint => exact readVarint_answers.bind fun _ => .pure _
      | fixed64 => exact (readFixed_answers 8).bind fun _ => .pure _
      | counted => exact readBytes_answers.bind fun _ => .pure _
      | fixed32 => exact (readFixed_answers 4).bind fun _ => .pure _
      | endGroup => exact .fail (by simp)
      | startGroup =>
        exact (deeper_answers depth).bind fun _ => (ihGroup _ number).bind fun _ => .pure _
    · refine readKey_answers.bind fun key => ?_
      dsimp only
      split
      · split
        · exact .pure _
        · exact .fail (by simp)
      · exact (ihValue depth key.1 key.2).bind fun _ => (ihGroup depth number).bind fun _ => .pure _

theorem skip_answers (fuel : Nat) :
    (∀ depth number wt, Answers (skipField fuel depth number wt)) ∧
      ∀ depth number, Answers (skipGroup fuel depth number) := by
  induction fuel with
  | zero => exact ⟨fun _ _ _ => .fail (by simp), fun _ _ => .fail (by simp)⟩
  | succ fuel ih =>
    obtain ⟨ihField, ihGroup⟩ := ih
    refine ⟨fun depth number wt => ?_, fun depth number => ?_⟩
    · refine (deeper_answers depth).bind fun inside => ?_
      cases wt with
      | varint => exact readVarint_answers.bind fun _ => .pure _
      | fixed64 => exact (readFixed_answers 8).bind fun _ => .pure _
      | counted => exact readBytes_answers.bind fun _ => .pure _
      | fixed32 => exact (readFixed_answers 4).bind fun _ => .pure _
      | endGroup => exact .fail (by simp)
      | startGroup => exact ihGroup inside number
    · refine readKey_answers.bind fun key => ?_
      dsimp only
      split
      · split
        · exact .pure _
        · exact .fail (by simp)
      · exact (ihField depth key.1 key.2).bind fun _ => ihGroup depth number

theorem readPacked_answers (kind : Kind) (stop : Nat) :
    ∀ (fuel : Nat) (items : List Value), Answers (readPacked kind stop fuel items)
  | 0, _ => .fail (by simp)
  | fuel + 1, items => (atEnd_answers stop).bind fun done => by
    split
    · exact .pure _
    · exact (readPlain_answers kind).bind fun _ => readPacked_answers kind stop fuel _

/-- The readers with some fuel give an answer. -/
structure ReadsAnswer (t : TypeTable) (fuel : Nat) : Prop where
  field : ∀ depth type number wt m, Answers (readField t fuel depth type number wt m)
  value : ∀ depth f wt before, Answers (readValue t fuel depth f wt before)
  fields : ∀ depth type stop m, Answers (readFields t fuel depth type stop m)
  group : ∀ depth type number m, Answers (readGroup t fuel depth type number m)
  entry : ∀ depth k v stop key value, Answers (readEntry t fuel depth k v stop key value)

variable {t : TypeTable} {fuel : Nat}

theorem readField_answers (hreg : t.Regular) (ih : ReadsAnswer t fuel) (depth : Nat)
    (type : MessageType) (number : Nat) (wt : WireType) (m : Message) :
    Answers (readField t (fuel + 1) depth type number wt m) := by
  unfold readField
  cases hf : t.fieldNumbered? type number with
  | none => exact ((readUnknown_answers fuel).1 depth number wt).bind fun _ => .pure _
  | some f =>
    -- a field that is a map has entries with a key and a value
    rcases hreg.form f with
      ⟨hrep, hmap, -⟩ | ⟨hrep, hmap, -⟩ | @⟨entry, k, v, -, -, hmap, hk, -⟩
    · simp only [hmap, hrep]
      exact (ih.value depth f wt _).bind fun _ => .pure _
    · simp only [hmap, hrep, ↓reduceIte]
      split
      · exact partEnd_answers.bind fun _ => left_answers.bind fun _ =>
          (readPacked_answers f.kind _ _ _).bind fun _ => .pure _
      · exact (ih.value depth f wt _).bind fun _ => .pure _
    · simp only [hmap, hk.key, hk.value]
      exact (deeper_answers depth).bind fun _ => partEnd_answers.bind fun _ =>
        (ih.entry _ k v _ _ _).bind fun _ => .pure _

theorem readValue_answers (ih : ReadsAnswer t fuel) (depth : Nat) (f : Field) (wt : WireType)
    (before : Message) : Answers (readValue t (fuel + 1) depth f wt before) := by
  unfold readValue
  split
  · split
    · exact .fail (by simp)
    · split
      · exact (Answers.lift (expect_answers _ _)).bind fun _ => (deeper_answers depth).bind fun _ =>
          (ih.group _ _ _ before).bind fun _ => .pure _
      · exact (Answers.lift (expect_answers _ _)).bind fun _ => (deeper_answers depth).bind fun _ =>
          partEnd_answers.bind fun _ => (ih.fields _ _ _ before).bind fun _ => .pure _
  · exact (Answers.lift (expect_answers _ _)).bind fun _ => readPlain_answers _

theorem readEntry_answers (ih : ReadsAnswer t fuel) (depth : Nat) (k v : Field) (stop : Nat)
    (key value : Option Value) : Answers (readEntry t (fuel + 1) depth k v stop key value) := by
  unfold readEntry
  refine (atEnd_answers stop).bind fun done => ?_
  split
  · exact .pure _
  · refine readKey_answers.bind fun r => ?_
    dsimp only
    split
    · exact (ih.value depth k _ _).bind fun _ => ih.entry depth k v stop _ _
    · split
      · exact (ih.value depth v _ _).bind fun _ => ih.entry depth k v stop _ _
      · exact ((skip_answers fuel).1 depth _ _).bind fun _ => ih.entry depth k v stop _ _

theorem readsAnswer (hreg : t.Regular) (fuel : Nat) : ReadsAnswer t fuel := by
  induction fuel with
  | zero =>
    constructor
    case field => intros; unfold readField; exact .fail (by simp)
    case value => intros; unfold readValue; exact .fail (by simp)
    case fields => intros; unfold readFields; exact .fail (by simp)
    case group => intros; unfold readGroup; exact .fail (by simp)
    case entry => intros; unfold readEntry; exact .fail (by simp)
  | succ fuel ih =>
    constructor
    case field => exact readField_answers hreg ih
    case value => exact readValue_answers ih
    case entry => exact readEntry_answers ih
    case fields =>
      intro depth type stop m
      unfold readFields
      refine (atEnd_answers stop).bind fun done => ?_
      split
      · exact .pure _
      · exact readKey_answers.bind fun r => (ih.field depth type r.1 r.2 m).bind fun m' =>
          ih.fields depth type stop m'
    case group =>
      intro depth type number m
      unfold readGroup
      refine readKey_answers.bind fun r => ?_
      dsimp only
      split
      · split
        · exact .pure _
        · exact .fail (by simp)
      · exact (ih.field depth type r.1 r.2 m).bind fun m' => ih.group depth type number m'

/-- The program does not stop while it reads a message from bytes, whatever the bytes are. -/
theorem readMessage_answers (hreg : t.Regular) (type : MessageType) (bs : List UInt8) :
    Avoids .stopped (readMessage t type bs) := by
  unfold readMessage
  split
  · exact .ok _
  · rename_i e he
    exact ((readsAnswer hreg _).fields _ type 0 .empty bs).rethrow he

end RpcConsole.Wire

import RpcConsole.Proofs.Wire.RoundTrip

namespace RpcConsole.Wire

namespace Reading

variable {α β : Type}

/-- The first reading gives what the second one gives, or it stops at the limit of depth. -/
def Shallower (x y : Reading α) : Prop :=
  ∀ bs, x bs = y bs ∨ x bs = .error .recursionLimit

namespace Shallower

variable {x y z : Reading α} {f g : α → Reading β}

theorem refl (x : Reading α) : Shallower x x :=
  fun _ => .inl rfl

theorem trans (h : Shallower x y) (h' : Shallower y z) : Shallower x z := by
  intro bs
  rcases h bs with h | h
  · rw [h]
    exact h' bs
  · exact .inr h

theorem bind (h : Shallower x y) (hf : ∀ a, Shallower (f a) (g a)) :
    Shallower (x >>= f) (y >>= g) := by
  intro bs
  show (x bs >>= fun r => f r.1 r.2) = (y bs >>= fun r => g r.1 r.2) ∨
    (x bs >>= fun r => f r.1 r.2) = .error .recursionLimit
  rcases h bs with h | h
  · rw [h]
    cases y bs with
    | error e => exact .inl rfl
    | ok r => exact hf r.1 r.2
  · rw [h]
    exact .inr rfl

/-- What is read one level down, with one level more on the right. -/
theorem deeper {depth : Nat} {f g : Nat → Reading β} (hf : ∀ d, Shallower (f d) (g (d + 1))) :
    Shallower (deeper depth >>= f) (deeper (depth + 1) >>= g) := by
  cases depth with
  | zero => exact fun _ => .inr rfl
  | succ depth => exact hf depth

end Shallower
end Reading

open Reading

theorem readUnknown_shallower (fuel : Nat) :
    (∀ depth number wt,
      Shallower (readUnknown fuel depth number wt) (readUnknown fuel (depth + 1) number wt)) ∧
    ∀ depth number,
      Shallower (readUnknownGroup fuel depth number)
        (readUnknownGroup fuel (depth + 1) number) := by
  induction fuel with
  | zero =>
    constructor
    · intro depth number wt
      unfold readUnknown
      exact .refl _
    · intro depth number
      unfold readUnknownGroup
      exact .refl _
  | succ fuel ih =>
    obtain ⟨ihValue, ihGroup⟩ := ih
    constructor
    · intro depth number wt
      unfold readUnknown
      cases wt with
      | startGroup => exact .deeper fun d => .bind (ihGroup d number) fun _ => .refl _
      | varint | fixed64 | counted | fixed32 | endGroup => exact .refl _
    · intro depth number
      unfold readUnknownGroup
      refine .bind (.refl _) fun tag => ?_
      obtain ⟨inner, wt⟩ := tag
      dsimp only
      split
      · exact .refl _
      · exact .bind (ihValue depth inner wt) fun v =>
          .bind (ihGroup depth number) fun _ => .refl _

theorem skipField_shallower (fuel : Nat) :
    (∀ depth number wt,
      Shallower (skipField fuel depth number wt) (skipField fuel (depth + 1) number wt)) ∧
    ∀ depth number,
      Shallower (skipGroup fuel depth number) (skipGroup fuel (depth + 1) number) := by
  induction fuel with
  | zero =>
    constructor
    · intro depth number wt
      unfold skipField
      exact .refl _
    · intro depth number
      unfold skipGroup
      exact .refl _
  | succ fuel ih =>
    obtain ⟨ihField, ihGroup⟩ := ih
    constructor
    · intro depth number wt
      unfold skipField
      refine .deeper fun d => ?_
      cases wt with
      | startGroup => exact ihGroup d number
      | varint | fixed64 | counted | fixed32 | endGroup => exact .refl _
    · intro depth number
      unfold skipGroup
      refine .bind (.refl _) fun tag => ?_
      obtain ⟨inner, wt⟩ := tag
      dsimp only
      split
      · exact .refl _
      · exact .bind (ihField depth inner wt) fun _ => ihGroup depth number

/-- The readers with some fuel lose nothing but what is too deep. -/
structure ReadersShallower (t : TypeTable) (fuel : Nat) : Prop where
  field : ∀ depth type number wt m, Shallower (readField t fuel depth type number wt m)
    (readField t fuel (depth + 1) type number wt m)
  value : ∀ depth f wt before, Shallower (readValue t fuel depth f wt before)
    (readValue t fuel (depth + 1) f wt before)
  fields : ∀ depth type stop m, Shallower (readFields t fuel depth type stop m)
    (readFields t fuel (depth + 1) type stop m)
  group : ∀ depth type number m, Shallower (readGroup t fuel depth type number m)
    (readGroup t fuel (depth + 1) type number m)
  entry : ∀ depth k v stop key value, Shallower (readEntry t fuel depth k v stop key value)
    (readEntry t fuel (depth + 1) k v stop key value)

variable {t : TypeTable} {fuel : Nat}

theorem readField_shallower (ih : ReadersShallower t fuel) (depth : Nat) (type : MessageType)
    (number : Nat) (wt : WireType) (m : Message) :
    Shallower (readField t (fuel + 1) depth type number wt m)
      (readField t (fuel + 1) (depth + 1) type number wt m) := by
  unfold readField
  cases t.fieldNumbered? type number with
  | none => exact .bind ((readUnknown_shallower fuel).1 depth number wt) fun _ => .refl _
  | some f =>
    dsimp only
    cases t.mapEntry? f with
    | some entry =>
      dsimp only
      split
      · exact .deeper fun d => .bind (.refl _) fun stop =>
          .bind (ih.entry d _ _ stop none none) fun _ => .refl _
      · exact .refl _
    | none =>
      dsimp only
      split
      · split
        · exact .refl _
        · exact .bind (ih.value depth f wt .empty) fun _ => .refl _
      · exact .bind (ih.value depth f wt (held f m)) fun _ => .refl _

theorem readValue_shallower (ih : ReadersShallower t fuel) (depth : Nat) (f : Field)
    (wt : WireType) (before : Message) :
    Shallower (readValue t (fuel + 1) depth f wt before)
      (readValue t (fuel + 1) (depth + 1) f wt before) := by
  unfold readValue
  cases f.kind with
  | scalar | enum => exact .refl _
  | message name =>
    dsimp only
    cases t.message? name with
    | none => exact .refl _
    | some type =>
      dsimp only
      split
      · exact .bind (.refl _) fun _ => .deeper fun d =>
          .bind (ih.group d type f.number before) fun _ => .refl _
      · exact .bind (.refl _) fun _ => .deeper fun d => .bind (.refl _) fun stop =>
          .bind (ih.fields d type stop before) fun _ => .refl _

theorem readEntry_shallower (ih : ReadersShallower t fuel) (depth : Nat) (k v : Field)
    (stop : Nat) (key value : Option Value) :
    Shallower (readEntry t (fuel + 1) depth k v stop key value)
      (readEntry t (fuel + 1) (depth + 1) k v stop key value) := by
  unfold readEntry
  refine .bind (.refl _) fun done => ?_
  split
  · exact .refl _
  · refine .bind (.refl _) fun tag => ?_
    obtain ⟨number, wt⟩ := tag
    dsimp only
    split
    · exact .bind (ih.value depth k wt .empty) fun w => ih.entry depth k v stop (some w) value
    · split
      · exact .bind (ih.value depth v wt _) fun w => ih.entry depth k v stop key (some w)
      · exact .bind ((skipField_shallower fuel).1 depth number wt) fun _ =>
          ih.entry depth k v stop key value

theorem readersShallower (t : TypeTable) (fuel : Nat) : ReadersShallower t fuel := by
  induction fuel with
  | zero =>
    constructor
    · intros
      unfold readField
      exact .refl _
    · intros
      unfold readValue
      exact .refl _
    · intros
      unfold readFields
      exact .refl _
    · intros
      unfold readGroup
      exact .refl _
    · intros
      unfold readEntry
      exact .refl _
  | succ fuel ih =>
    refine ⟨readField_shallower ih, readValue_shallower ih, ?_, ?_, readEntry_shallower ih⟩
    · intro depth type stop m
      unfold readFields
      refine .bind (.refl _) fun done => ?_
      split
      · exact .refl _
      · refine .bind (.refl _) fun tag => ?_
        exact .bind (ih.field depth type tag.1 tag.2 m) fun m' => ih.fields depth type stop m'
    · intro depth type number m
      unfold readGroup
      refine .bind (.refl _) fun tag => ?_
      obtain ⟨inner, wt⟩ := tag
      dsimp only
      split
      · exact .refl _
      · exact .bind (ih.field depth type inner wt m) fun m' => ih.group depth type number m'

/-- Fields that are read with less depth, however much less. -/
theorem readFields_shallower (t : TypeTable) (fuel : Nat) {depth depth' : Nat}
    (hd : depth ≤ depth') (type : MessageType) (stop : Nat) (m : Message) :
    Shallower (readFields t fuel depth type stop m) (readFields t fuel depth' type stop m) := by
  induction hd with
  | refl => exact .refl _
  | step _ ih => exact ih.trans ((readersShallower t fuel).fields _ type stop m)

/-- The bytes of a message are read as it was written, less what is redundant, or they are refused
for their depth. -/
theorem readMessage_message_or (hs : t.Sound) (hreg : t.Regular) {name : String}
    {type : MessageType} {m : Message} (ht : t.message? name = some type) (hm : m.Fits t type)
    (hl : (message t name m).length < wordLimit) :
    readMessage t type (message t name m) = .ok (m.stripped t name) ∨
      depthLimit < m.depth ∧ readMessage t type (message t name m) = .error .recursionLimit := by
  by_cases hd : m.depth ≤ depthLimit
  · exact .inl (readMessage_message hs hreg ht hm hd hl)
  · have hlt : depthLimit < m.depth := Nat.lt_of_not_le hd
    have hocc := messagesOccur hs hreg m.depth name type m ht hm (Nat.le_refl _) hl
    have hr := hocc.readFields (4 * (message t name m).length + 4) [] (Nat.le_refl _)
    rw [List.append_nil, show ([] : List UInt8).length = 0 from rfl] at hr
    have hshallow := readFields_shallower t (4 * (message t name m).length + 4)
      (Nat.le_of_lt hlt) type 0 .empty (message t name m)
    rcases hshallow with h | h
    · left
      unfold readMessage
      rw [h, hr]
    · right
      refine ⟨hlt, ?_⟩
      unfold readMessage
      rw [h]

end RpcConsole.Wire

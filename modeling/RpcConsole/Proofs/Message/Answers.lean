import RpcConsole.Proofs.Message.Shown
import RpcConsole.Proofs.Message.Steady

namespace RpcConsole

variable {t : TypeTable} {name : String} {type : MessageType} {m : Message}

namespace ToJson

/-- What fits the schema passes into the definitions of the forms of text. -/
theorem unsettle_answers (ht : t.message? name = some type) (hm : m.Fits t type) :
    Avoids .stopped (unsettle t name m) := by
  unfold unsettle WellKnown.transfer
  cases hform : WellKnown.types.message? name with
  | none => exact .ok _
  | some form =>
    have hread := Wire.readMessage_answers WellKnown.types_regular form (Wire.message t name m)
    simp only [Wire.message?, Wire.messageHolds_of_fits ht m hm, ↓reduceIte]
    split
    · exact .ok _
    · rename_i e he
      exact hread.relay he RenderFault.ofWire_ne

/-- The program does not stop over the messages inside those of any type. -/
def Inner.Answers (t : TypeTable) (inner : Inner) : Prop :=
  ∀ name type m, t.message? name = some type → m.Fits t type → Avoids .stopped (inner name m)

variable {inner : Inner}

theorem anyJson_answers (hs : t.Sound) (hreg : t.Regular) (hi : inner.Answers t) (m : Message) :
    Avoids .stopped (anyJson inner t m) := by
  unfold anyJson
  dsimp only
  cases anyTypeName? (textField 1 m) with
  | none => exact .error (by simp)
  | some word =>
    dsimp only
    cases ht : t.messageNamed? word with
    | none => exact .error (by simp)
    | some type =>
      have hname : t.message? type.name = some type := by
        rw [TypeTable.message?_name ht]
        exact ht
      have hmem := TypeTable.message?_mem ht
      have hread := Wire.readMessage_answers hreg type (bytesField 2 m)
      dsimp only
      cases hc : Wire.readMessage t type (bytesField 2 m) with
      | error e =>
        exact hread.relay hc RenderFault.ofWire_ne
      | ok content =>
        have hfit := Wire.readMessage_fits hs hreg hmem hc
        refine (hi type.name type content hname hfit).bind fun j _ => ?_
        split <;> exact .ok _

theorem wellKnown_answers (hs : t.Sound) (hreg : t.Regular) (hi : inner.Answers t) (w : WellKnown)
    (m : Message) : Avoids .stopped (wellKnown inner t w m) := by
  have hfinite (j : Option Json) : Avoids .stopped (finite j) := by
    cases j with
    | none => exact .error (by simp)
    | some j => exact .ok j
  unfold wellKnown
  split
  · exact anyJson_answers hs hreg hi m
  · dsimp only
    split
    · exact .ok _
    · exact .error (by simp)
  · dsimp only
    split
    · exact .ok _
    · exact .error (by simp)
  · split
    · exact .ok _
    · exact .error (by simp)
  · exact hfinite _
  · exact hfinite _
  · exact hfinite _
  · exact .ok _
  · exact .ok _

section

-- the linter looks at each theorem of a mutual block alone
set_option linter.unusedSectionVars false

variable (hs : t.Sound) (hreg : t.Regular) (hi : inner.Answers t)

include hs hreg hi

mutual

/-- The program does not stop over a message that fits its type. -/
theorem message_answers (name : String) (type : MessageType) (ht : t.message? name = some type) :
    ∀ m : Message, m.Fits t type → Avoids .stopped (message inner t name m)
  | ⟨known, unknown⟩, hm => by
    have htorn := TypeTable.hasTorn_eq_false fun f (_ : f ∈ type.fields) => hreg.hasEntries f
    unfold message
    split
    · exact .ok _
    · exact (unsettle_answers ht hm).bind fun m _ => wellKnown_answers hs hreg hi _ m
    · simp only [ht, htorn]
      exact (fields_answer type known hm.2).bind fun _ _ => .ok _

theorem fields_answer (type : MessageType) : ∀ known : List (Nat × Value),
    Message.FieldsFit t type known → Avoids .stopped (fields inner t type known)
  | [], _ => .ok _
  | (number, v) :: rest, ⟨hv, hrest⟩ => by
    have ih := fields_answer type rest hrest
    unfold fields
    cases hf : t.fieldNumbered? type number with
    | none => simp [hf] at hv
    | some f =>
      simp only [hf] at hv
      dsimp only
      split
      · exact ih
      · exact (value_answers f v (t.shape f) (.inl rfl) hv).bind fun _ _ => ih.bind fun _ _ => .ok _

theorem value_answers (f : Field) : ∀ (v : Value) (shape : Shape), UnderField t f shape →
    v.Fits t shape → Avoids .stopped (value inner t f v)
  | .message name m, shape, hu, hfit => by
    obtain ⟨-, -, type, ht, hm⟩ := hu.message hfit
    rw [value]
    exact message_answers name type ht m hm
  | .list items, shape, hu, hfit => by
    obtain ⟨-, hitems⟩ := hu.list hfit
    exact (items_answer f items hitems).bind fun _ _ => .ok _
  | .map entries, shape, hu, hfit => by
    obtain ⟨entry, k, w, hm, hk, hw, -, hentries⟩ := hu.entries hfit
    have hvalue : (t.mapEntry? f).bind (fun e => e.fieldNumbered? 2) = some w := by simp [hm, hw]
    simp only [value, hvalue]
    exact (entries_answer w k.kind entries hentries).bind fun _ _ => .ok _
  | .bool _, shape, hu, h | .int _ _, shape, hu, h | .enum _, shape, hu, h
  | .single _, shape, hu, h | .double _, shape, hu, h | .str _, shape, hu, h
  | .bytes _, shape, hu, h => by
    simp only [Value.Fits] at h
    split at h
    · rename_i kind hkind
      obtain rfl := hu.kind (Shape.kind?_cases hkind)
      rw [value_takes inner h]
      exact .ok _
    · cases h

theorem items_answer (f : Field) : ∀ items : List Value, Value.ItemsFit t f.kind items →
    Avoids .stopped (ToJson.items inner t f items)
  | [], _ => .ok _
  | v :: vs, ⟨hv, hvs⟩ =>
    (value_answers f v (.single f.kind) (.inr rfl) hv).bind fun _ _ =>
      (items_answer f vs hvs).bind fun _ _ => .ok _

theorem entries_answer (f : Field) (key : Kind) : ∀ entries : List (MapKey × Value),
    Value.EntriesFit t key f.kind entries → Avoids .stopped (ToJson.entries inner t f entries)
  | [], _ => .ok _
  | (_, v) :: rest, ⟨⟨_, hv⟩, hrest⟩ =>
    (value_answers f v (.single f.kind) (.inr rfl) hv).bind fun _ _ =>
      (entries_answer f key rest hrest).bind fun _ _ => .ok _

end

end

theorem nested_answers (hs : t.Sound) (hreg : t.Regular) (depth : Nat) :
    Inner.Answers t (nested t depth) := by
  induction depth with
  | zero => exact fun _ _ _ _ _ => .error (by simp)
  | succ depth ih => exact fun name type m ht hm => message_answers hs hreg ih name type ht m hm

end ToJson

namespace Message

/-- In a regular schema the program answers to every text. -/
theorem fromText_answers (hs : t.Sound) (hreg : t.Regular) (name text : String) :
    Avoids .stopped (fromText t name text) := by
  unfold fromText
  split
  · exact .error (by simp)
  · rename_i j _
    have hread := FromJson.message_answers (hreg.steady hs name)
      (j.spelled t (.single (.message name)))
    simp only [Json.stops_regular hreg, Bool.false_eq_true, ↓reduceIte]
    split
    · rename_i e he
      exact hread.relay he MessageError.ofText_ne
    · exact .ok _

theorem fromWire_answers (hreg : t.Regular) (name : String) (bs : List UInt8) :
    Avoids .stopped (fromWire t name bs) := by
  unfold fromWire
  split
  · exact .ok _
  · rename_i type _
    have hread := Wire.readMessage_answers hreg type bs
    split
    · rename_i e he
      exact hread.relay he MessageError.ofWire_ne
    · exact .ok _

/-- A message that fits its type in a regular schema is shown, or it is told why not. -/
theorem toText_answers (hs : t.Sound) (hreg : t.Regular) (ht : t.message? name = some type)
    (hm : m.Fits t type) : Avoids .stopped (m.toText t name) := by
  have hshow := ToJson.nested_answers hs hreg ((Wire.message t name m).length + 1) name type m ht hm
  unfold toText ToJson.render
  split
  · exact .ok _
  · rename_i e he
    exact hshow.relay he MessageError.ofRender_ne

end Message
end RpcConsole

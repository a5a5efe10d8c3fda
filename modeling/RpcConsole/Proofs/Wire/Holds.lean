import RpcConsole.Message.Convert
import RpcConsole.Proofs.Message.Cleared

namespace RpcConsole

namespace Wire

variable {t : TypeTable}

theorem holds_of_takes {kind : Kind} {v : Value} (h : kind.Takes v) : kind.holds v = true := by
  cases kind with
  | message => cases h
  | enum => cases v <;> first | rfl | cases h
  | scalar s => cases v <;> simp_all [Kind.holds, Kind.Takes, Scalar.Takes]

mutual

/-- Fields can hold what fits them: under the number of a field there is what this field takes, not
what a later extension of the number would take. -/
theorem messageHolds_of_fits {name : String} {type : MessageType}
    (ht : t.message? name = some type) :
    ∀ m : Message, m.Fits t type → messageHolds t name m = true
  | ⟨known, _⟩, hm => by
    simp only [messageHolds, ht]
    exact fieldsHold_of_fits type known hm.2

theorem fieldsHold_of_fits (type : MessageType) :
    ∀ fields : List (Nat × Value), Message.FieldsFit t type fields → fieldsHold t type fields = true
  | [], _ => rfl
  | (number, v) :: rest, ⟨hv, hrest⟩ => by
    cases hf : t.fieldNumbered? type number with
    | none => simp [hf] at hv
    | some f =>
      simp only [hf] at hv
      have hholds := fieldHolds_of_fits f v (t.shape f) (.inl rfl) hv
      simp [fieldsHold, hf, hholds, fieldsHold_of_fits type rest hrest]

theorem fieldHolds_of_fits (f : Field) :
    ∀ (v : Value) (shape : Shape), UnderField t f shape → v.Fits t shape →
      fieldHolds t f v = true
  | .message name m, shape, hu, h => by
    obtain ⟨hk, -, type, ht, hm⟩ := hu.message h
    simp [fieldHolds, hk, Kind.holds, messageHolds_of_fits ht m hm]
  | .list items, shape, hu, h => by
    obtain ⟨rfl, hitems⟩ := hu.list h
    obtain ⟨-, hr, hm⟩ := TypeTable.shape_list (hu.resolve_right nofun).symm
    simp [fieldHolds, hr, hm, itemsHold_of_fits f items hitems]
  | .map entries, shape, hu, h => by
    obtain ⟨entry, k, w, hm, hk, hw, -, hentries⟩ := hu.entries h
    simp [fieldHolds, hm, hk, hw, entriesHold_of_fits k w entries hentries]
  | .bool _, shape, hu, h | .int _ _, shape, hu, h | .enum _, shape, hu, h
  | .single _, shape, hu, h | .double _, shape, hu, h | .str _, shape, hu, h
  | .bytes _, shape, hu, h => by
    simp only [Value.Fits] at h
    split at h
    · rename_i kind hkind
      obtain rfl := hu.kind (Shape.kind?_cases hkind)
      exact holds_of_takes h
    · cases h

theorem itemsHold_of_fits (f : Field) :
    ∀ items : List Value, Value.ItemsFit t f.kind items → itemsHold t f items = true
  | [], _ => rfl
  | v :: vs, ⟨hv, hvs⟩ => by
    rw [itemsHold, fieldHolds_of_fits f v _ (.inr rfl) hv, itemsHold_of_fits f vs hvs,
      Bool.and_self]

theorem entriesHold_of_fits (k w : Field) :
    ∀ entries : List (MapKey × Value), Value.EntriesFit t k.kind w.kind entries →
      entriesHold t k w entries = true
  | [], _ => rfl
  | (key, v) :: rest, ⟨⟨hkey, hv⟩, hrest⟩ => by
    simp [entriesHold, holds_of_takes hkey, fieldHolds_of_fits w v _ (.inr rfl) hv,
      entriesHold_of_fits k w rest hrest]

end

end Wire

/-- The program does not stop over a message that fits its type. -/
theorem Message.toWire_of_fits {t : TypeTable} {name : String} {type : MessageType} {m : Message}
    (ht : t.message? name = some type) (hm : m.Fits t type) :
    m.toWire t name = some (Wire.message t name m) := by
  rw [toWire, Wire.message?, Wire.messageHolds_of_fits ht m hm, if_pos rfl]

end RpcConsole

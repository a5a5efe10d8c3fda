import RpcConsole.Message.Convert
import RpcConsole.Proofs.Message.FormFree

namespace RpcConsole

namespace TypeTable

/-- All types of map entries that fields and extensions of a type lead to have a key and a value, as
they do unless they were marked as such by hand. -/
def Whole (t : TypeTable) (name : String) : Prop :=
  ∀ n type, Relation.ReflTransGen t.Mentions name n → t.message? n = some type →
    type.isMapEntry = true →
      (type.fieldNumbered? 1).isSome = true ∧ (type.fieldNumbered? 2).isSome = true

def WholeKind (t : TypeTable) (kind : Kind) : Prop :=
  ∀ name, kind = .message name → t.Whole name

variable {t : TypeTable} {type : MessageType} {name : String} {f : Field}

theorem Whole.kind (h : t.Whole name) : t.WholeKind (.message name) := by
  rintro _ ⟨⟩
  exact h

theorem Regular.whole (h : t.Regular) (name : String) : t.Whole name := by
  intro n type _ ht he
  obtain ⟨k, v, hk⟩ := h.entry (message?_mem ht) he
  simp [hk.key, hk.value]

theorem Whole.hasEntries (h : t.Whole name) (ht : t.message? name = some type)
    (hf : f ∈ t.fieldsOf type) : t.HasEntries f := by
  intro entry he
  obtain ⟨hk, hentry, hmarked⟩ := mapEntry?_eq_some he
  exact h entry.name entry (.single ⟨type, ht, f, hf, hk⟩) hentry hmarked

theorem Whole.item (h : t.Whole name) (ht : t.message? name = some type)
    (hf : f ∈ t.fieldsOf type) : t.WholeKind (t.shape f).item :=
  fun _ hi n other hn => h n other ((mentions_item ht hf hi).trans hn)

end TypeTable

variable {t : TypeTable}

namespace Json

mutual

/-- The program does not stop while it brings names to their spelling. -/
theorem stops_whole (shape : Shape) (h : t.WholeKind shape.item) :
    ∀ j : Json, j.stops t shape = false
  | .arr vs => by
    unfold stops
    split
    · exact stopsItems_whole h vs
    · rfl
  | .obj ms => by
    unfold stops
    split
    · exact stopsEntries_whole h ms
    · exact stopsEntries_whole h ms
    · split
      · rename_i ht
        exact stopsMembers_whole (h _ rfl) ht ms
      · rfl
    · rfl
  | .null | .bool _ | .int _ | .double _ | .single _ | .str _ => by simp [stops]

theorem stopsItems_whole {kind : Kind} (h : t.WholeKind kind) :
    ∀ vs : List Json, stopsItems t kind vs = false
  | [] => rfl
  | v :: vs => by
    rw [stopsItems, stops_whole (.single kind) h v, stopsItems_whole h vs, Bool.or_false]

theorem stopsEntries_whole {kind : Kind} (h : t.WholeKind kind) :
    ∀ ms : List (String × Json), stopsEntries t kind ms = false
  | [] => rfl
  | (_, v) :: ms => by
    rw [stopsEntries, stops_whole (.single kind) h v, stopsEntries_whole h ms,
      Bool.or_false]

theorem stopsMembers_whole {name : String} {type : MessageType} (h : t.Whole name)
    (ht : t.message? name = some type) :
    ∀ ms : List (String × Json), stopsMembers t type ms = false
  | [] => rfl
  | (k, v) :: ms => by
    have hrest := stopsMembers_whole h ht ms
    rw [stopsMembers, hrest, Bool.or_false]
    cases hf : type.fieldForSpelling? k with
    | none => rfl
    | some f =>
      have hmem : f ∈ t.fieldsOf type :=
        List.mem_append_left _ (MessageType.means_of_fieldForSpelling? hf).mem
      have hv := stops_whole (t.shape f) (h.item ht hmem) v
      simp [hv, (h.hasEntries ht hmem).lacksValue]

end

theorem stops_regular (h : t.Regular) (name : String) (j : Json) :
    j.stops t (.single (.message name)) = false :=
  stops_whole _ (h.whole name).kind j

end Json

end RpcConsole

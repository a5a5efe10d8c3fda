import RpcConsole.Message.Convert
import RpcConsole.Proofs.Message.Cleared
import RpcConsole.Proofs.Message.Parsed
import RpcConsole.Proofs.Wire.Fits

namespace RpcConsole.Message

/-- The messages of a type that there can be: the one without fields, and those that are read from
text or bytes. -/
inductive Made (t : TypeTable) (name : String) : Message → Prop where
  | new : Made t name instantiate
  | text {s : String} {m : Message} (h : fromText t name s = .ok m) : Made t name m
  | wire {bs : List UInt8} {m : Message} (h : fromWire t name bs = .ok m) : Made t name m

variable {t : TypeTable} {type : MessageType} {name : String} {m : Message}

/-- What is read before it is cleared. -/
theorem Made.cleared (hs : t.Sound) (hreg : t.Regular) (ht : t.message? name = some type)
    (h : m.Made t name) : ∃ m₀ : Message, m₀.Fits t type ∧ m = m₀.clearDefaults t name := by
  cases h with
  | new =>
    refine ⟨instantiate, empty_fits t type, ?_⟩
    simp [instantiate, empty, clearDefaults, ht, clearFields]
  | text h =>
    unfold fromText at h
    split at h
    · cases h
    · split at h
      · cases h
      · split at h
        · cases h
        · rename_i m₀ hm
          cases h
          exact ⟨m₀, FromJson.message_fits hs hreg ht hm, rfl⟩
  | wire h =>
    unfold fromWire at h
    simp only [ht] at h
    split at h
    · cases h
    · rename_i m₀ hm
      cases h
      exact ⟨m₀, Wire.readMessage_fits hs hreg (TypeTable.message?_mem ht) hm, rfl⟩

theorem Made.fits (hs : t.Sound) (hreg : t.Regular) (ht : t.message? name = some type)
    (h : m.Made t name) : m.Fits t type := by
  obtain ⟨m₀, hm, rfl⟩ := h.cleared hs hreg ht
  exact clearDefaults_fits hreg ht m₀ hm

/-- Clearing once more changes nothing. -/
theorem Made.clear (hs : t.Sound) (hreg : t.Regular) (ht : t.message? name = some type)
    (h : m.Made t name) : m.clearDefaults t name = m := by
  obtain ⟨m₀, -, rfl⟩ := h.cleared hs hreg ht
  exact clearDefaults_cleared t name m₀

/-- An extension that is set to something redundant is set to an empty list. -/
theorem isRedundant_extension (hs : t.Sound) {x : Bool} {f : Field} {v : Value}
    (hx : x = true → ∃ e ∈ t.extensions, e.field = f) (hempty : (!(x && v.isEmpty)) = true) :
    (!(x && t.isRedundant f v)) = true := by
  cases x with
  | false => rfl
  | true =>
    obtain ⟨e, he, rfl⟩ := hx rfl
    cases hrep : e.field.isRepeated with
    | false => simp [TypeTable.isRedundant, (hs.extension e he).presence hrep]
    | true =>
      have hv : v.isEmpty = false := by simpa using hempty
      simp [TypeTable.isRedundant, hv, hrep]

end RpcConsole.Message

import RpcConsole.Proofs.Call.Engine

namespace RpcConsole

/-- Two texts differ within the length of the shorter one. -/
def Text.Differ (a b : String) : Prop :=
  ¬ a.toList <+: b.toList ∧ ¬ b.toList <+: a.toList

namespace Text.Differ

variable {a b : String}

instance : Decidable (Differ a b) :=
  inferInstanceAs (Decidable (_ ∧ _))

theorem append (h : Differ a b) (c : String) : Differ a (b ++ c) := by
  unfold Differ at h ⊢
  rw [String.toList_append]
  refine ⟨fun hp => ?_, fun hp => h.2 ((List.prefix_append _ _).trans hp)⟩
  exact (List.prefix_or_prefix_of_prefix hp (List.prefix_append _ _)).elim h.1 h.2

end Text.Differ

theorem Text.prefix_append {a b : String} (h : a.toList <+: b.toList) (c : String) :
    a.toList <+: (b ++ c).toList := by
  rw [String.toList_append]
  exact h.trans (List.prefix_append _ _)

namespace Outcome

/-- How the refusal of a stream starts. -/
def shapeMark : String := "unsupported call shape"

/-- Whether a call was refused for the shape of its method. -/
def isShapeRefusal : Outcome → Bool
  | .refused why => shapeMark.toList.isPrefixOf why.toList
  | _ => false

theorem isShapeRefusal_refused {why : String} :
    (refused why).isShapeRefusal = true ↔ shapeMark.toList <+: why.toList :=
  List.isPrefixOf_iff_prefix

end Outcome

open Text (Differ)
open Outcome (shapeMark)

theorem Json.ReadError.message_differs (e : Json.ReadError) : Differ shapeMark e.message := by
  have h : ∀ cause : Json.Cause, Differ shapeMark cause.message := by
    intro cause
    cases cause <;> decide
  exact ((((h e.cause).append _).append _).append _).append _

theorem IntRange.Fault.message_differs (e : IntRange.Fault) : Differ shapeMark e.message := by
  cases e <;> decide

theorem Timestamp.Fault.message_differs (e : Timestamp.Fault) : Differ shapeMark e.message := by
  cases e with
  | separator found =>
    have h : Differ shapeMark "invalid rfc3339 timestamp: expected 'T' but found " := by decide
    exact h.append _
  | zone found =>
    have h : Differ shapeMark
        "invalid rfc3339 timestamp: expected 'Z', '+' or '-' but found " := by
      decide
    exact h.append _
  | trailing found =>
    have h : Differ shapeMark
        "invalid rfc3339 timestamp: expected end of string but found " := by
      decide
    exact h.append _
  | _ => decide

theorem Duration.Fault.message_differs (e : Duration.Fault) : Differ shapeMark e.message := by
  cases e <;> decide

theorem TextFault.message_differs (e : TextFault) : Differ shapeMark e.message := by
  cases e with
  | malformed e => exact e.message_differs
  | integer e => exact e.message_differs
  | timestamp e => exact e.message_differs
  | duration e => exact e.message_differs
  | unexpected value expected =>
    have h : Differ shapeMark "invalid type: " := by decide
    exact ((h.append _).append _).append _
  | base64 e =>
    have h : Differ shapeMark "invalid base64: " := by decide
    exact h.append _
  | severalInOneof name =>
    have h : Differ shapeMark "multiple fields provided for oneof '" := by decide
    exact (h.append _).append _
  | typeUrl url =>
    have h : Differ shapeMark "unsupported type url '" := by decide
    exact (h.append _).append _
  | unknownMessage name =>
    have h : Differ shapeMark "message '" := by decide
    exact (h.append _).append _
  | undecodable e =>
    have h : Differ shapeMark "error decoding: " := by decide
    exact h.append _
  | _ => decide

theorem MessageError.message_differs (e : MessageError) : Differ shapeMark e.message := by
  cases e with
  | invalidText e => exact e.message_differs
  | render e =>
    have h : Differ shapeMark "failed to render message as text: " := by decide
    exact h.append _
  | decode e =>
    have h : Differ shapeMark "failed to decode message bytes: " := by decide
    exact h.append _
  | stopped => decide

theorem RequestFault.streaming_prefix (method : String) (shape : Streaming) :
    shapeMark.toList <+: (streaming method shape).message.toList := by
  have h : shapeMark.toList <+: "unsupported call shape: '".toList := ⟨": '".toList, by decide⟩
  exact Text.prefix_append (Text.prefix_append (Text.prefix_append (Text.prefix_append h _) _) _) _

namespace Method

variable {t : TypeTable} {m : Method} {text : String}

theorem streaming?_isSome (m : Method) : m.streaming?.isSome = m.isStreaming := by
  cases hc : m.clientStreaming <;> cases hs : m.serverStreaming <;>
    simp [streaming?, isStreaming, hc, hs]

/-- Without a request, the refusal tells the shape exactly if the method is a stream. -/
theorem isShapeRefusal_of_error {e : RequestFault} (h : m.request t text = .error e) :
    (Outcome.refused e.message).isShapeRefusal = m.isStreaming := by
  rw [← streaming?_isSome]
  unfold request at h
  split at h
  · rename_i shape hshape
    cases h
    rw [hshape]
    exact Outcome.isShapeRefusal_refused.mpr (RequestFault.streaming_prefix m.fullName shape)
  · rename_i hnone
    split at h
    · cases h
    · rename_i e' he
      cases h
      rw [hnone, Option.isSome_none, Bool.eq_false_iff, Ne, Outcome.isShapeRefusal_refused]
      exact e'.message_differs.1

/-- With a request, the method is no stream and nothing is refused. -/
theorem isShapeRefusal_of_ok {request : Message} (h : m.request t text = .ok request)
    (r : Reply) : (m.outcome? t r).any Outcome.isShapeRefusal = m.isStreaming := by
  have hnone : m.streaming? = none := by
    unfold Method.request at h
    split at h
    · cases h
    · assumption
  rw [← streaming?_isSome, hnone]
  have hends := Invocation.ends_outcome ⟨t, m, text, ""⟩ r
  simp only [Invocation.outcome?] at hends
  generalize m.outcome? t r = o at hends
  cases hends <;> rfl

/-- A call of a stream is refused for its shape, and no other call is. -/
theorem invoke_isShapeRefusal {σ : Type} (t : TypeTable) (send : Transport (StateM σ)) (st : σ)
    (m : Method) (text address : String) :
    ((m.invoke t send text address).run st).1.any Outcome.isShapeRefusal = m.isStreaming := by
  cases hr : m.request t text with
  | error e =>
    rw [← isShapeRefusal_of_error hr]
    unfold invoke
    simp only [hr]
    split
    · rename_i he
      cases he
      have hno : (Outcome.refused Wire.stoppedText).isShapeRefusal = false := by decide
      exact hno.symm
    · rename_i he
      cases he
      rfl
    · rename_i he
      cases he
  | ok request =>
    -- whatever the reply is
    rw [← isShapeRefusal_of_ok hr (.error default)]
    cases hw : request.toWire t m.input with
    | none =>
      simp only [invoke, hr, hw]
      rfl
    | some bytes =>
      have hrun : ((m.invoke t send text address).run st).1 = m.outcome? t
          ((send ⟨address, m.path, bytes⟩).run st).1 := by
        simp only [invoke, hr, hw]
        rfl
      rw [hrun, isShapeRefusal_of_ok hr, isShapeRefusal_of_ok hr]

end Method
end RpcConsole

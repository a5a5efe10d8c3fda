import RpcConsole.Call.Invoke
import RpcConsole.Proofs.Json.RoundTrip
import RpcConsole.Proofs.Json.Sorted
import RpcConsole.Proofs.Text.Utf8

namespace RpcConsole

namespace StatusCode

/-- The code of a name. -/
def ofName? (name : String) : Option StatusCode :=
  all.find? (fun c => c.name == name)

theorem ofName?_name (c : StatusCode) : ofName? c.name = some c := by
  cases c <;> rfl

end StatusCode

namespace CallFailure

variable {e e' : CallFailure}

/-- The members of an envelope stand in the order in which they are read. -/
theorem envelope_asRead (e : CallFailure) : e.envelope.asRead = e.envelope := by
  have horder (code bin length message : Json) :
      Json.InOrder [("code", code), ("details_bin", bin), ("details_length", length),
        ("message", message)] := by
    change ["code", "details_bin", "details_length", "message"].Pairwise (· < ·)
    decide
  unfold envelope
  simp only [Json.asRead, Json.asReadMembers]
  rw [Json.sorted_of_inOrder (horder ..), Json.sorted_of_inOrder (List.pairwise_singleton ..)]

theorem envelope_isPlain (h : e.details.length < 2 ^ 64) : e.envelope.IsPlain := by
  simp only [envelope, Json.IsPlain, Json.ArePlainMembers, true_and, and_true]
  omega

/-- The text of a failure is read as its envelope. -/
theorem read_text (h : e.details.length < 2 ^ 64) :
    Json.read (Outcome.failed e).text = .ok e.envelope := by
  have hl : e.envelope.levels < Json.depthLimit := by
    simp [envelope, Json.levels, Json.levelsOfMembers, Json.depthLimit]
  have hr := Json.read_pretty (envelope_isPlain h) hl
  rwa [envelope_asRead] at hr

/-- The code, the message, and details that are UTF-8 are in the envelope. -/
theorem eq_of_envelope (hu : (Utf8.toString? e.details).isSome)
    (hu' : (Utf8.toString? e'.details).isSome) (h : e.envelope = e'.envelope) : e = e' := by
  simp only [envelope, Json.obj.injEq, List.cons.injEq, Prod.mk.injEq, Json.str.injEq,
    true_and, and_true] at h
  obtain ⟨hname, hbin, -, hmessage⟩ := h
  have hcode : e.code = e'.code := by
    apply Option.some.inj
    rw [← StatusCode.ofName?_name e.code, hname, StatusCode.ofName?_name]
  have hdetails : e.details = e'.details := by
    rw [← Utf8.ofString_toStringLossy_iff.mpr hu, hbin, Utf8.ofString_toStringLossy_iff.mpr hu']
  cases e
  cases e'
  simp only at hcode hmessage hdetails
  rw [hcode, hmessage, hdetails]

end CallFailure

namespace Outcome

/-- The text of a request that was not made is read as its envelope. -/
theorem read_refused (why : String) :
    Json.read (refused why).text = .ok (refusalEnvelope why) := by
  apply Json.read_pretty
  · simp [refusalEnvelope, Json.IsPlain, Json.ArePlainMembers]
  · simp [refusalEnvelope, Json.levels, Json.levelsOfMembers, Json.depthLimit]

theorem refused_text_inj {why why' : String} :
    (refused why).text = (refused why').text ↔ why = why' := by
  constructor
  · intro h
    have hr := read_refused why
    rw [h, read_refused why'] at hr
    cases hr
    rfl
  · rintro rfl
    rfl

theorem failed_text_inj {e e' : CallFailure} (hl : e.details.length < 2 ^ 64)
    (hl' : e'.details.length < 2 ^ 64) (hu : (Utf8.toString? e.details).isSome)
    (hu' : (Utf8.toString? e'.details).isSome) :
    (failed e).text = (failed e').text ↔ e = e' := by
  constructor
  · intro h
    have hr := CallFailure.read_text hl
    rw [h, CallFailure.read_text hl'] at hr
    exact CallFailure.eq_of_envelope hu hu' (Except.ok.inj hr).symm
  · rintro rfl
    rfl

/-- The texts of failures, read as JSON. The text of a request that was not made has the one member
that says why. The text of a failed call has one member, and in it are the name of the code, which
is the name of no other code, the message as it is, the count of the bytes of the details, and
their text, which has the bytes of the details exactly if these are UTF-8. So texts tell failures
apart as far as the details are UTF-8. The bytes of details are counted in a machine word. -/
theorem failure_texts_faithful :
    (∀ why : String,
      Json.read (refused why).text = .ok (.obj [("request_parse_error", .str why)])) ∧
    (∀ e : CallFailure, e.details.length < 2 ^ 64 →
      Json.read (failed e).text = .ok (.obj [("grpc_error", .obj
        [("code", .str e.code.name), ("details_bin", .str (Utf8.toStringLossy e.details)),
          ("details_length", .int e.details.length), ("message", .str e.message)])]) ∧
      StatusCode.ofName? e.code.name = some e.code ∧
      (Utf8.ofString (Utf8.toStringLossy e.details) = e.details ↔
        (Utf8.toString? e.details).isSome)) ∧
    (∀ why why' : String, (refused why).text = (refused why').text ↔ why = why') ∧
    (∀ e e' : CallFailure, e.details.length < 2 ^ 64 → e'.details.length < 2 ^ 64 →
      (Utf8.toString? e.details).isSome → (Utf8.toString? e'.details).isSome →
      ((failed e).text = (failed e').text ↔ e = e')) := by
  refine ⟨read_refused, ?_, ?_, ?_⟩
  · intro e hl
    refine ⟨CallFailure.read_text hl, StatusCode.ofName?_name e.code, ?_⟩
    exact Utf8.ofString_toStringLossy_iff
  · intro why why'
    exact refused_text_inj
  · intro e e' hl hl' hu hu'
    exact failed_text_inj hl hl' hu hu'

/-- Details that are not UTF-8 are replaced, and counted in full. -/
theorem failure_texts_faithful_binary :
    Json.read (failed ⟨.internal, "boom", [0xff, 0x6f, 0x6b, 0xfe]⟩).text =
      .ok (.obj [("grpc_error", .obj [("code", .str "INTERNAL"),
        ("details_bin", .str "\ufffdok\ufffd"), ("details_length", .int 4),
        ("message", .str "boom")])]) ∧
    (failed ⟨.internal, "a\tb", [0x6f, 0x6b]⟩).text ≠
      (failed ⟨.internal, "a\\tb", [0x6f, 0x6b]⟩).text := by
  obtain ⟨-, hread, -, hinj⟩ := failure_texts_faithful
  constructor
  · have h := (hread ⟨.internal, "boom", [0xff, 0x6f, 0x6b, 0xfe]⟩ (by decide)).1
    have hshown : Utf8.toStringLossy [0xff, 0x6f, 0x6b, 0xfe] = "\ufffdok\ufffd" := by
      decide +kernel
    rw [hshown] at h
    exact h
  · have hdecode : Utf8.toString? [0x6f, 0x6b] = some "ok" := Utf8.toString?_eq_some.mpr rfl
    have hutf : (Utf8.toString? [0x6f, 0x6b]).isSome := by rw [hdecode, Option.isSome_some]
    rw [Ne, hinj _ _ (by decide) (by decide) hutf hutf]
    decide

end Outcome

end RpcConsole

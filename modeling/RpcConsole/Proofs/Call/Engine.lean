import Mathlib.Data.List.Forall2
import RpcConsole.Call.Invoke
import RpcConsole.Proofs.Message.Answers
import RpcConsole.Proofs.Message.Made
import RpcConsole.Proofs.Service.Types

namespace RpcConsole

/-- One use of an engine: a method with the types of its schema, the text of the request, and the
address to call. -/
structure Invocation where
  types : TypeTable
  method : Method
  text : String
  address : String

namespace Outcome

/-- Whether a request was made, whatever came of it. -/
def wasSent : Outcome → Bool
  | .refused _ => false
  | _ => true

end Outcome

namespace Invocation

def invoke {μ : Type → Type} [Monad μ] (send : Transport μ) (i : Invocation) : μ (Option Outcome) :=
  i.method.invoke i.types send i.text i.address

def outcome? (i : Invocation) (r : Reply) : Option Outcome :=
  i.method.outcome? i.types r

/-- Calls methods one after the other over one transport, until the program stops if it does. -/
def invokeAll {μ : Type → Type} [Monad μ] (send : Transport μ) :
    List Invocation → μ (List (Option Outcome))
  | [] => pure []
  | i :: is => do
    match ← i.invoke send with
    | none => return [none]
    | some o => return some o :: (← invokeAll send is)

/-- What a run of calls leaves behind. -/
structure Trace (σ : Type) where
  outcomes : List (Option Outcome)
  calls : List Call
  state : σ

/-- Runs calls over a transport that is in a state and was handed some calls before. -/
def trace {σ : Type} (send : Transport (StateM σ)) (s : σ) (before : List Call)
    (is : List Invocation) : Trace σ :=
  let r := ((invokeAll send.recorded is).run before).run s
  ⟨r.1.1, r.1.2, r.2⟩

/-- How a call that was made ends. -/
inductive Ends (i : Invocation) : Reply → Option Outcome → Prop where
  | failed (e : CallFailure) : Ends i (.error e) (some (.failed e))
  | success {bs : List UInt8} {reply : Message} {text : String}
      (decoded : Message.fromWire i.types i.method.output bs = .ok reply)
      (rendered : reply.toText i.types i.method.output = .ok text) :
      Ends i (.ok bs) (some (.success text))
  | undecodable {bs : List UInt8} {e : MessageError}
      (decoded : Message.fromWire i.types i.method.output bs = .error e) (told : e ≠ .stopped) :
      Ends i (.ok bs)
        (some (.failed ⟨.internal, s!"failed to decode response: {e.message}", []⟩))
  | unrenderable {bs : List UInt8} {reply : Message} {e : MessageError}
      (decoded : Message.fromWire i.types i.method.output bs = .ok reply)
      (rendered : reply.toText i.types i.method.output = .error e) (told : e ≠ .stopped) :
      Ends i (.ok bs)
        (some (.failed ⟨.internal, s!"failed to decode response: {e.message}", []⟩))
  | stoppedAtBytes {bs : List UInt8}
      (decoded : Message.fromWire i.types i.method.output bs = .error .stopped) :
      Ends i (.ok bs) none
  | stoppedAtText {bs : List UInt8} {reply : Message}
      (decoded : Message.fromWire i.types i.method.output bs = .ok reply)
      (rendered : reply.toText i.types i.method.output = .error .stopped) : Ends i (.ok bs) none

/-- What an invocation hands to the transport and gets back, if anything, and how it ends. It has no
outcome if the program stops. -/
inductive Exchange (i : Invocation) : Option (Call × Reply) → Option Outcome → Prop where
  | streaming {s : Streaming}
      (streams : i.method.clientStreaming = true ∨ i.method.serverStreaming = true)
      (shape : i.method.streaming? = some s) :
      Exchange i none (some (.refused (RequestFault.streaming i.method.fullName s).message))
  | rejected {e : MessageError}
      (unary : i.method.clientStreaming = false ∧ i.method.serverStreaming = false)
      (parsed : Message.fromText i.types i.method.input i.text = .error e) (told : e ≠ .stopped) :
      Exchange i none (some (.refused e.message))
  | carried {request : Message} {bytes : List UInt8} {reply : Reply} {o : Option Outcome}
      (unary : i.method.clientStreaming = false ∧ i.method.serverStreaming = false)
      (parsed : Message.fromText i.types i.method.input i.text = .ok request)
      (written : request.toWire i.types i.method.input = some bytes) (ends : Ends i reply o) :
      Exchange i
        (some (⟨i.address, "/" ++ i.method.service ++ "/" ++ i.method.name, bytes⟩, reply)) o
  | stoppedAtText
      (unary : i.method.clientStreaming = false ∧ i.method.serverStreaming = false)
      (parsed : Message.fromText i.types i.method.input i.text = .error .stopped) :
      Exchange i none none
  | stoppedAtBytes {request : Message}
      (unary : i.method.clientStreaming = false ∧ i.method.serverStreaming = false)
      (parsed : Message.fromText i.types i.method.input i.text = .ok request)
      (written : request.toWire i.types i.method.input = none) : Exchange i none none

variable {i : Invocation}

theorem ends_outcome (i : Invocation) (r : Reply) : Ends i r (i.outcome? r) := by
  cases r with
  | error e => exact .failed e
  | ok bs =>
    simp only [outcome?, Method.outcome?, Method.replyText, bind, Except.bind]
    cases hd : Message.fromWire i.types i.method.output bs with
    | error e =>
      cases e with
      | stopped => exact .stoppedAtBytes hd
      | _ => exact .undecodable hd (by simp)
    | ok reply =>
      cases ht : reply.toText i.types i.method.output with
      | error e =>
        cases e with
        | stopped => simpa [ht] using Ends.stoppedAtText hd ht
        | _ => simpa [ht] using Ends.unrenderable hd ht (by simp)
      | ok text => simpa [ht] using Ends.success hd ht

/-- A call ends in one way only. -/
theorem Ends.unique {r : Reply} {o o' : Option Outcome} (h : Ends i r o) (h' : Ends i r o') :
    o = o' := by
  cases h <;> cases h' <;> simp_all

/-- Whether something is handed over depends on the invocation alone, and so does what it is; how
the invocation ends depends on the reply besides. -/
theorem Exchange.unique {x x' : Option (Call × Reply)} {o o' : Option Outcome}
    (h : Exchange i x o) (h' : Exchange i x' o') :
    x.map Prod.fst = x'.map Prod.fst ∧ (x.map Prod.snd = x'.map Prod.snd → o = o') := by
  cases h with
  | streaming streams shape => cases h' <;> simp_all
  | rejected unary parsed told => cases h' <;> simp_all
  | stoppedAtText unary parsed => cases h' <;> simp_all
  | stoppedAtBytes unary parsed written => cases h' <;> simp_all
  | carried unary parsed written ends =>
    cases h' with
    | streaming => simp_all
    | rejected => simp_all
    | stoppedAtText => simp_all
    | stoppedAtBytes => simp_all
    | carried _ parsed' written' ends' =>
      obtain rfl := Except.ok.inj (parsed.symm.trans parsed')
      obtain rfl := Option.some.inj (written.symm.trans written')
      refine ⟨rfl, fun hs => ?_⟩
      have he := Option.some.inj hs
      dsimp only at he
      subst he
      exact ends.unique ends'

/-- A request is handed over exactly when the outcome is no refusal. -/
theorem Exchange.isSome_eq {x : Option (Call × Reply)} {o : Outcome}
    (h : Exchange i x (some o)) : x.isSome = o.wasSent := by
  cases h with
  | streaming | rejected => rfl
  | carried _ _ _ ends => cases ends <;> rfl

/-- A method that a regular schema was loaded with, called with the types of the schema. -/
def IsRegular (i : Invocation) : Prop :=
  ∃ d root importPath schema, Schema.load d root importPath = .ok schema ∧
    schema.types.Regular ∧ i.types = schema.types ∧
    ∃ service ∈ schema.serviceTree.services, i.method ∈ service.methods

/-- The program does not stop over the method of a regular schema. -/
theorem Exchange.answered {x : Option (Call × Reply)} {o : Option Outcome} (h : Exchange i x o)
    (hi : i.IsRegular) : o.isSome = true := by
  obtain ⟨d, root, importPath, schema, hload, hreg, htypes, service, hservice, hm⟩ := hi
  have hs := Schema.load_sound hload
  obtain ⟨⟨input, hin⟩, ⟨output, hout⟩⟩ := Schema.load_methods hload hservice hm
  rw [← htypes] at hs hreg hin hout
  cases h with
  | streaming | rejected => rfl
  | stoppedAtText _ parsed => exact absurd parsed (Message.fromText_answers hs hreg _ _)
  | stoppedAtBytes _ parsed written =>
    have hfit := (Message.Made.text parsed).fits hs hreg hin
    rw [Message.toWire_of_fits hin hfit] at written
    cases written
  | carried _ _ _ ends =>
    cases ends with
    | failed | success | undecodable | unrenderable => rfl
    | stoppedAtBytes decoded => exact absurd decoded (Message.fromWire_answers hreg _ _)
    | stoppedAtText decoded rendered =>
      have hfit := (Message.Made.wire decoded).fits hs hreg hout
      exact absurd rendered (Message.toText_answers hs hreg hout hfit)

/-- What was handed over, with the replies, in order. -/
def handed (ps : List (Option (Call × Reply) × Option Outcome)) : List (Call × Reply) :=
  ps.filterMap Prod.fst

variable {σ : Type} {send : Transport (StateM σ)}

/-- A run goes on until no invocation is left or one has no outcome. -/
def GoesOn (is : List Invocation) (ps : List (Option (Call × Reply) × Option Outcome)) : Prop :=
  (ps.length = is.length ∧ ∀ p ∈ ps, p.2.isSome = true) ∨
    ∃ qs x, ps = qs ++ [(x, none)] ∧ ∀ p ∈ qs, p.2.isSome = true

theorem GoesOn.cons {is : List Invocation} {ps} (h : GoesOn is ps) (x : Option (Call × Reply))
    (o : Outcome) : GoesOn (i :: is) ((x, some o) :: ps) := by
  rcases h with ⟨hlength, hall⟩ | ⟨qs, y, rfl, hall⟩
  · exact .inl ⟨congrArg (· + 1) hlength, List.forall_mem_cons.mpr ⟨rfl, hall⟩⟩
  · exact .inr ⟨(x, some o) :: qs, y, rfl, List.forall_mem_cons.mpr ⟨rfl, hall⟩⟩

/-- The invocations of a run and what became of each. The transport sees nothing but the calls that
are handed over, one after the other. -/
structure Carries (send : Transport (StateM σ)) (s : σ) (is : List Invocation)
    (ps : List (Option (Call × Reply) × Option Outcome)) (s' : σ) : Prop where
  each : List.Forall₂ (fun i p => Exchange i p.1 p.2) (is.take ps.length) ps
  replies : (((handed ps).map Prod.fst).mapM send).run s = ((handed ps).map Prod.snd, s')
  goesOn : GoesOn is ps

@[simp] theorem trace_nil (send : Transport (StateM σ)) (s : σ) (before : List Call) :
    trace send s before [] = ⟨[], before, s⟩ := rfl

/-- What a run leaves behind in which the first invocation ended so: nothing more is called if it
has no outcome. -/
def follow (o : Option Outcome) (send : Transport (StateM σ)) (s : σ) (before : List Call)
    (is : List Invocation) : Trace σ :=
  match o with
  | none => ⟨[none], before, s⟩
  | some o =>
    let rest := trace send s before is
    { rest with outcomes := some o :: rest.outcomes }

theorem trace_cons_quiet (s : σ) (before : List Call) (is : List Invocation) {o : Option Outcome}
    (h : i.invoke send.recorded = pure o) :
    trace send s before (i :: is) = follow o send s before is := by
  cases o <;> simp only [trace, invokeAll, h] <;> rfl

theorem trace_cons_call (s : σ) (before : List Call) (is : List Invocation) {c : Call}
    (h : i.invoke send.recorded = do return i.outcome? (← send.recorded c)) :
    trace send s before (i :: is) =
      follow (i.outcome? ((send c).run s).1) send ((send c).run s).2 (before ++ [c]) is := by
  have hrun : ((invokeAll send.recorded (i :: is)).run before).run s =
      ((do
        match i.outcome? ((send c).run s).1 with
        | none => return [none]
        | some o => return some o :: (← invokeAll send.recorded is) :
          StateT (List Call) (StateM σ) (List (Option Outcome))).run (before ++ [c])).run
        ((send c).run s).2 := by
    simp only [invokeAll, h]
    rfl
  simp only [trace, hrun]
  cases i.outcome? ((send c).run s).1 <;> rfl

/-- The refusal of a text or of a stream, and what is handed over otherwise. -/
theorem invoke_cases {μ : Type → Type} [Monad μ] (send : Transport μ)
    (i : Invocation) :
    (∃ o, i.invoke send = pure o ∧ Exchange i none o) ∨
      ∃ c, i.invoke send = (do return i.outcome? (← send c)) ∧
        ∀ r, Exchange i (some (c, r)) (i.outcome? r) := by
  unfold invoke Method.invoke Method.request
  cases hs : i.method.streaming? with
  | some shape =>
    refine .inl ⟨_, rfl, .streaming ?_ hs⟩
    cases hc : i.method.clientStreaming <;> cases hv : i.method.serverStreaming <;>
      simp_all [Method.streaming?]
  | none =>
    have unary : i.method.clientStreaming = false ∧ i.method.serverStreaming = false := by
      cases hc : i.method.clientStreaming <;> cases hv : i.method.serverStreaming <;>
        simp_all [Method.streaming?]
    cases hp : Message.fromText i.types i.method.input i.text with
    | error e =>
      cases e with
      | stopped => exact .inl ⟨none, rfl, .stoppedAtText unary hp⟩
      | _ => exact .inl ⟨_, rfl, .rejected unary hp (by simp)⟩
    | ok request =>
      cases hw : request.toWire i.types i.method.input with
      | none => exact .inl ⟨none, by simp only [hw], .stoppedAtBytes unary hp hw⟩
      | some bytes =>
        exact .inr ⟨⟨i.address, i.method.path, bytes⟩, by simp only [hw]; rfl,
          fun r => .carried unary hp hw (ends_outcome i r)⟩

theorem Carries.nil (send : Transport (StateM σ)) (s : σ) : Carries send s [] [] s :=
  ⟨.nil, rfl, .inl ⟨rfl, by simp⟩⟩

theorem Carries.stop {s s' : σ} {x : Option (Call × Reply)} (hx : Exchange i x none)
    (hreply : (((handed [(x, none)]).map Prod.fst).mapM send).run s =
      ((handed [(x, none)]).map Prod.snd, s')) (is : List Invocation) :
    Carries send s (i :: is) [(x, none)] s' :=
  ⟨.cons hx .nil, hreply, .inr ⟨[], x, rfl, by simp⟩⟩

/-- A run whose first invocation handed nothing over. -/
theorem Carries.quiet {s s' : σ} {is : List Invocation} {ps} {o : Outcome}
    (h : Carries send s is ps s') (hx : Exchange i none (some o)) :
    Carries send s (i :: is) ((none, some o) :: ps) s' :=
  ⟨.cons hx h.each, h.replies, h.goesOn.cons none o⟩

/-- A run whose first invocation made a call. -/
theorem Carries.call {s s' : σ} {is : List Invocation} {ps} {o : Outcome} {c : Call}
    (h : Carries send ((send c).run s).2 is ps s')
    (hx : Exchange i (some (c, ((send c).run s).1)) (some o)) :
    Carries send s (i :: is) ((some (c, ((send c).run s).1), some o) :: ps) s' := by
  refine ⟨.cons hx h.each, ?_, h.goesOn.cons _ o⟩
  let r := (send c).run s
  let q := (((handed ps).map Prod.fst).mapM send).run r.2
  have hq : q = ((handed ps).map Prod.snd, s') := h.replies
  have hm : ((c :: (handed ps).map Prod.fst).mapM send).run s = (r.1 :: q.1, q.2) := by
    rw [List.mapM_cons]
    rfl
  rw [hq] at hm
  exact hm

/-- Every run is a row of exchanges. -/
theorem trace_carries (send : Transport (StateM σ)) (s : σ) (before : List Call)
    (is : List Invocation) :
    ∃ ps s', Carries send s is ps s' ∧
      trace send s before is = ⟨ps.map Prod.snd, before ++ (handed ps).map Prod.fst, s'⟩ := by
  induction is generalizing s before with
  | nil => exact ⟨[], s, .nil send s, by simp [handed]⟩
  | cons i is ih =>
    rcases invoke_cases send.recorded i with ⟨o, hi, hx⟩ | ⟨c, hi, hx⟩
    · rw [trace_cons_quiet s before is hi]
      cases o with
      | none => exact ⟨_, s, .stop hx rfl is, by simp [follow, handed]⟩
      | some o =>
        obtain ⟨ps, s', hc, ht⟩ := ih s before
        exact ⟨_, s', hc.quiet hx, by simp [follow, ht, handed]⟩
    · have hx := hx ((send c).run s).1
      rw [trace_cons_call s before is hi]
      cases ho : i.outcome? ((send c).run s).1 with
      | none =>
        rw [ho] at hx
        exact ⟨_, _, .stop hx (by simp [handed]; rfl) is, by simp [follow, handed]⟩
      | some o =>
        rw [ho] at hx
        obtain ⟨ps, s', hc, ht⟩ := ih ((send c).run s).2 (before ++ [c])
        exact ⟨_, s', hc.call hx, by simp [follow, ht, handed]⟩

/-- A run of regular methods takes all invocations to an outcome. -/
theorem Carries.complete {s s' : σ} {is : List Invocation} {ps} (h : Carries send s is ps s')
    (hi : ∀ i ∈ is, i.IsRegular) : ps.length = is.length ∧ ∀ p ∈ ps, p.2.isSome = true := by
  refine h.goesOn.resolve_right ?_
  rintro ⟨qs, x, rfl, -⟩
  obtain ⟨i, hmem, hx⟩ := mem_of_forall₂ h.each (b := (x, none)) (by simp)
  have hsome := hx.answered (hi i (List.mem_of_mem_take hmem))
  cases hsome

/-- The outcomes of exchanges that handed something over, counted. -/
theorem length_handed {ps : List (Option (Call × Reply) × Option Outcome)} {is : List Invocation}
    (h : List.Forall₂ (fun i p => Exchange i p.1 p.2) is ps) (hall : ∀ p ∈ ps, p.2.isSome = true) :
    (handed ps).length = (ps.map Prod.snd).countP (Option.any Outcome.wasSent) := by
  induction h with
  | nil => rfl
  | @cons i p is ps hx _ ih =>
    obtain ⟨hp, hrest⟩ := List.forall_mem_cons.mp hall
    obtain ⟨x, o⟩ := p
    obtain ⟨o, rfl⟩ := Option.isSome_iff_exists.mp hp
    have hs := hx.isSome_eq
    have ih := ih hrest
    cases x with
    | none => simp_all [handed]
    | some cr =>
      have ho : o.wasSent = true := hs.symm
      simp_all [handed]

/-- The outcomes of the first calls of a run are those of a run of these calls alone. -/
theorem outcomes_take (s : σ) (before : List Call) (is : List Invocation) (n : Nat) :
    (trace send s before (is.take n)).outcomes = (trace send s before is).outcomes.take n := by
  induction is generalizing s before n with
  | nil => simp
  | cons i is ih =>
    cases n with
    | zero => rfl
    | succ n =>
      have hfollow (o : Option Outcome) (s : σ) (before : List Call) :
          (follow o send s before (is.take n)).outcomes =
            (follow o send s before is).outcomes.take (n + 1) := by
        cases o with
        | none => simp [follow]
        | some o => simp [follow, ih]
      rw [List.take_succ_cons]
      rcases invoke_cases send.recorded i with ⟨o, hi, -⟩ | ⟨c, hi, -⟩
      · rw [trace_cons_quiet _ _ _ hi, trace_cons_quiet _ _ _ hi, hfollow]
      · rw [trace_cons_call _ _ _ hi, trace_cons_call _ _ _ hi, hfollow]

theorem length_calls (s : σ) (before : List Call) (is : List Invocation)
    (hall : ∀ o ∈ (trace send s before is).outcomes, o.isSome = true) :
    (trace send s before is).calls.length = before.length +
      (trace send s before is).outcomes.countP (Option.any Outcome.wasSent) := by
  obtain ⟨ps, s', hc, ht⟩ := trace_carries send s before is
  rw [ht] at hall ⊢
  rw [List.length_append, List.length_map, length_handed hc.each fun p hp => ?_]
  exact hall p.2 (List.mem_map_of_mem hp)

/-- Over any transport, a run of calls is a row of exchanges: the transport is handed the requests
of the calls that are not refused, in order and nothing else, and each call ends as its own exchange
says. What an exchange is depends on the call and its reply alone. After each call, as many requests
were handed over as calls were not refused. The run is cut short only where the program stops, which
it does not over the methods of regular schemas. -/
theorem run_exchanges {σ : Type} (send : Transport (StateM σ)) (s : σ) (before : List Call)
    (is : List Invocation) :
    (∃ ps s', Carries send s is ps s' ∧
      trace send s before is = ⟨ps.map Prod.snd, before ++ (handed ps).map Prod.fst, s'⟩ ∧
      ((∀ i ∈ is, i.IsRegular) → ps.length = is.length ∧ ∀ p ∈ ps, p.2.isSome = true)) ∧
    (∀ n, (∀ o ∈ (trace send s before is).outcomes.take n, o.isSome = true) →
      (trace send s before (is.take n)).calls.length = before.length +
        ((trace send s before is).outcomes.take n).countP (Option.any Outcome.wasSent)) ∧
    ∀ i x x' o o', Exchange i x o → Exchange i x' o' →
      x.map Prod.fst = x'.map Prod.fst ∧ (x.map Prod.snd = x'.map Prod.snd → o = o') := by
  refine ⟨?_, fun n hall => ?_, fun _ _ _ _ _ h h' => h.unique h'⟩
  · obtain ⟨ps, s', hc, ht⟩ := trace_carries send s before is
    exact ⟨ps, s', hc, ht, hc.complete⟩
  · rw [← outcomes_take] at hall ⊢
    exact length_calls s before (is.take n) hall

/-- A method of a regular schema. -/
def echoSource : String :=
  "message M{optional int32 a=1;}service S{rpc Get(M)returns(M);}"

theorem run_exchanges_echo :
    ∃ i, i.IsRegular ∧ ∃ ps s', Carries (σ := Unit) (fun _ => pure (.ok [])) () [i, i] ps s' ∧
      ps.length = 2 ∧ ∀ p ∈ ps, p.2.isSome = true := by
  have h : ∃ s ∈ (Schema.load (.ofFile "a.proto" echoSource) "/a.proto" []).toOption,
      s.types.Regular ∧ ∃ service ∈ s.serviceTree.services, ∃ m ∈ service.methods,
        m.streaming? = none := by
    decide +kernel
  obtain ⟨s, hs, hreg, service, hservice, m, hm, -⟩ := h
  let i : Invocation := ⟨s.types, m, "\x7b\x7d", "localhost"⟩
  have hi : i.IsRegular :=
    ⟨_, _, _, s, ok_of_mem hs, hreg, rfl, service, hservice, hm⟩
  obtain ⟨ps, s', hc, -, hall⟩ := (run_exchanges (fun _ => pure (.ok [])) () [] [i, i]).1
  exact ⟨i, hi, ps, s', hc, hall (by simp [hi])⟩

/-- A method whose message has two extensions of one number. -/
def clashSource : String :=
  "message M{extensions 1;}extend M{optional int32 a=1;repeated int32 b=1;}" ++
    "service S{rpc Get(M)returns(M);}"

/-- A value of the extension that is declared later. -/
def clashText : String :=
  "\x7b\"[b]\":[1,2]\x7d"

/-- The program stops over it, though it is read from the text. -/
theorem clash_stops :
    ∃ s m request, Schema.load (.ofFile "a.proto" clashSource) "/a.proto" [] = .ok s ∧
      (∃ service ∈ s.serviceTree.services, m ∈ service.methods) ∧ m.streaming? = none ∧
      Message.fromText s.types m.input clashText = .ok request ∧
      ∀ (σ : Type) (send : Transport (StateM σ)) (state : σ) (address : String),
        trace send state [] [⟨s.types, m, clashText, address⟩] = ⟨[none], [], state⟩ := by
  have h : ∃ s ∈ (Schema.load (.ofFile "a.proto" clashSource) "/a.proto" []).toOption,
      ∃ service ∈ s.serviceTree.services, ∃ m ∈ service.methods, m.streaming? = none ∧
        ∃ request ∈ (Message.fromText s.types m.input clashText).toOption,
          (request.toWire s.types m.input).isNone = true := by
    decide +kernel
  obtain ⟨s, hs, service, hservice, m, hm, hstream, request, hread, hbytes⟩ := h
  have hread := ok_of_mem hread
  refine ⟨s, m, request, ok_of_mem hs, ⟨service, hservice, hm⟩, hstream, hread, ?_⟩
  intro σ send state address
  refine (trace_cons_quiet (o := none) state [] [] ?_).trans rfl
  simp only [invoke, Method.invoke, Method.request, hstream, hread,
    Option.isNone_iff_eq_none.mp hbytes]

end Invocation
end RpcConsole

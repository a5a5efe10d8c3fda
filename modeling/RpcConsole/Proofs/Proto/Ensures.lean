import RpcConsole.Proto.Reading

namespace RpcConsole.Proto.Reading

variable {α β σ : Type} {x y : Reading α} {f : α → Reading β} {P Q : α → Prop} {R : β → Prop}

/-- Without a fault of any kind, the result of a reading has a property. -/
def Ensures (x : Reading α) (P : α → Prop) : Prop :=
  ∀ c a c', x c = .ok (a, c', none) → P a

namespace Ensures

theorem mono (h : x.Ensures P) (hp : ∀ a, P a → Q a) : x.Ensures Q :=
  fun c a c' hr => hp a (h c a c' hr)

theorem true (x : Reading α) : x.Ensures fun _ => True :=
  fun _ _ _ _ => trivial

protected theorem pure {a : α} (h : P a) : Ensures (pure a) P := by
  intro c a' c' hr
  cases hr
  exact h

protected theorem fail {e : Fault} : Ensures (fail e) P := by
  intro c a c' hr
  cases hr

/-- A fault of meaning in the first of two readings is one of both. -/
theorem bind (hx : x.Ensures P) (hf : ∀ a, P a → (f a).Ensures R) : (x >>= f).Ensures R := by
  intro c b c' hr
  change andThen x f c = .ok (b, c', none) at hr
  unfold andThen at hr
  cases ha : x c with
  | error e => simp [ha] at hr
  | ok r =>
    obtain ⟨a, c₁, kept⟩ := r
    cases hb : f a c₁ with
    | error e => simp [ha, hb] at hr
    | ok r =>
      obtain ⟨b', c₂, later⟩ := r
      simp only [ha, hb, Except.ok.injEq, Prod.mk.injEq] at hr
      obtain ⟨rfl, rfl, hk⟩ := hr
      cases kept with
      | some e => simp at hk
      | none =>
        have hl : later = none := by simpa using hk
        subst hl
        exact hf a (hx c a c₁ ha) c₁ b' c₂ hb

/-- The first of two readings gives nothing that matters. -/
theorem next (hf : ∀ a, (f a).Ensures R) : (x >>= f).Ensures R :=
  (Ensures.true x).bind fun a _ => hf a

/-- Behind a fault of meaning nothing is accepted. -/
theorem flag (offset : Nat) (cause : Cause) : (flag offset cause).Ensures fun _ => False := by
  intro c a c' hr
  simp [Reading.flag] at hr

theorem flag_bind {offset : Nat} {cause : Cause} {f : Unit → Reading β} :
    (Reading.flag offset cause >>= f).Ensures R :=
  (flag offset cause).bind fun _ h => h.elim

theorem fail_bind {e : Fault} {f : α → Reading β} : (Reading.fail e >>= f).Ensures R :=
  Ensures.bind (P := fun _ => False) .fail fun _ h => h.elim

theorem failExpected {expected : String} : (failExpected expected : Reading α).Ensures P := by
  refine next fun l => ?_
  cases l with
  | none => exact .fail
  | some l => exact .fail

protected theorem ite {c : Prop} [Decidable c] (ht : c → x.Ensures P) (hf : ¬c → y.Ensures P) :
    (if c then x else y).Ensures P := by
  split
  · exact ht ‹_›
  · exact hf ‹_›

theorem iterate {I : σ → Prop} {step : σ → Reading (σ × Bool)}
    (hs : ∀ s, I s → (step s).Ensures fun r => I r.1) (n : Nat) {s : σ} (h : I s) :
    (iterate step n s).Ensures I := by
  induction n generalizing s with
  | zero => exact .pure h
  | succ n ih =>
    refine (hs s h).bind fun r hr => ?_
    obtain ⟨s', isDone⟩ := r
    exact .ite (fun _ => .pure hr) fun _ => ih hr

/-- What each step of a loop keeps holds behind the loop. -/
theorem loop {I : σ → Prop} {step : σ → Reading (σ × Bool)}
    (hs : ∀ s, I s → (step s).Ensures fun r => I r.1) {s : σ} (h : I s) :
    (loop step s).Ensures I :=
  next fun n => iterate hs (n + 1) h

/-- What each step of a fold keeps holds behind the fold. -/
theorem foldlM {I : σ → Prop} {step : σ → α → Reading σ}
    (hs : ∀ s a, I s → (step s a).Ensures I) {as : List α} {s : σ} (h : I s) :
    (as.foldlM step s).Ensures I := by
  induction as generalizing s with
  | nil => exact .pure h
  | cons a as ih =>
    rw [List.foldlM_cons]
    exact (hs s a h).bind fun s hs => ih hs

end Ensures

/-- The next token, if it is a name, is an identifier. -/
theorem token_ensures :
    token?.Ensures fun t => ∀ name, t = some (.ident name) →
      Lexeme.isIdentifier name.toList = true := by
  intro c t c' h name ht
  obtain ⟨items, fault, named⟩ := c
  cases items with
  | cons l items =>
    have hl : some l.token = t := by
      cases h
      rfl
    exact named l (by simp) name (Option.some.inj (hl.trans ht))
  | nil =>
    subst ht
    cases fault <;> cases h

theorem ident_ensures : ident.Ensures fun name => Lexeme.isIdentifier name.toList = true := by
  unfold ident
  refine token_ensures.bind fun t ht => ?_
  split
  · exact .next fun _ => .pure (ht _ rfl)
  · exact .failExpected

/-- A field number that is not flagged lies in its bounds. -/
theorem checkNumber_ensures (limit : Nat) (n : IntLiteral) :
    (checkNumber limit n).Ensures fun i => 1 ≤ i ∧ i ≤ limit := by
  refine .ite (fun _ => .flag_bind) fun h => .pure ?_
  simp only [Bool.or_eq_true, beq_iff_eq, decide_eq_true_eq, not_or, Bool.not_eq_true] at h
  obtain ⟨⟨hn, hz⟩, hl⟩ := h
  simp only [IntLiteral.value, hn, Bool.false_eq_true, ↓reduceIte]
  omega

theorem checkEnumNumber_ensures (n : IntLiteral) :
    (checkEnumNumber n).Ensures fun i => -2147483648 ≤ i ∧ i ≤ 2147483647 := by
  refine .ite (fun _ => .flag_bind) fun h => .pure ?_
  simp only [Bool.or_eq_true, decide_eq_true_eq, not_or, Int.not_lt] at h
  exact h

end RpcConsole.Proto.Reading

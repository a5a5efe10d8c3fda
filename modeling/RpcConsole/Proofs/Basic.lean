import Mathlib.Data.List.Forall2

namespace RpcConsole

/-- The first of two steps of a computation that may fail, and then the second one. -/
theorem bind_eq_ok {ε α β : Type} {x : Except ε α} {f : α → Except ε β} {b : β} :
    (x >>= f) = .ok b ↔ ∃ a, x = .ok a ∧ f a = .ok b := by
  cases x <;> simp [bind, Except.bind]

theorem pure_eq_ok {ε α : Type} {a b : α} : (pure a : Except ε α) = .ok b ↔ a = b := by
  simp [pure, Except.pure]

theorem map_ok {ε α β : Type} {x : Except ε α} {f : α → β} {b : β} (h : x.map f = .ok b) :
    ∃ a, x = .ok a ∧ f a = b := by
  cases x with
  | error e => cases h
  | ok a => exact ⟨a, rfl, Except.ok.inj h⟩

theorem ok_of_mem {ε α : Type} {x : Except ε α} {a : α} (h : a ∈ x.toOption) : x = .ok a := by
  cases x with
  | error e => cases h
  | ok b => exact congrArg Except.ok (Option.some.inj h)

/-- A computation does not end with an error. -/
def Avoids {ε α : Type} (e : ε) (r : Except ε α) : Prop :=
  r ≠ .error e

namespace Avoids

variable {ε α β : Type} {e : ε} {r : Except ε α}

@[simp] theorem ok (a : α) : Avoids e (.ok a) := nofun

@[simp] theorem error_iff {e' : ε} : Avoids e (.error e' : Except ε α) ↔ e' ≠ e := by
  simp [Avoids]

theorem error {e' : ε} (h : e' ≠ e) : Avoids e (.error e' : Except ε α) :=
  error_iff.mpr h

theorem rethrow {e' : ε} (hr : Avoids e r) (h : r = .error e') :
    Avoids e (.error e' : Except ε β) :=
  .error fun he => hr (he ▸ h)

/-- What tells the errors of one computation to another one. -/
theorem relay {δ : Type} {d : δ} {e' : ε} {g : ε → δ} (hr : Avoids e r) (h : r = .error e')
    (hg : e' ≠ e → g e' ≠ d) : Avoids d (.error (g e') : Except δ β) :=
  .error (hg fun he => hr (he ▸ h))

theorem bind {g : α → Except ε β} (hr : Avoids e r) (hg : ∀ a, r = .ok a → Avoids e (g a)) :
    Avoids e (r >>= g) := by
  cases r with
  | ok a => exact hg a rfl
  | error e' => exact hr.rethrow rfl

theorem map {g : α → β} (hr : Avoids e r) : Avoids e (r.map g) := by
  cases r with
  | ok a => exact .ok (g a)
  | error e' => exact hr.rethrow rfl

end Avoids

theorem forall₂_trans {α β γ : Type} {R : α → β → Prop} {S : β → γ → Prop} {T : α → γ → Prop}
    (hT : ∀ a b c, R a b → S b c → T a c) {as : List α} {bs : List β} {cs : List γ}
    (h : List.Forall₂ R as bs) (h' : List.Forall₂ S bs cs) : List.Forall₂ T as cs := by
  induction h generalizing cs with
  | nil => cases h'; exact .nil
  | cons hab _ ih =>
    cases h' with
    | cons hbc h' => exact .cons (hT _ _ _ hab hbc) (ih h')

theorem map_eq_of_forall₂ {α β γ : Type} {R : α → β → Prop} {k : α → γ} {k' : β → γ}
    (hR : ∀ a b, R a b → k' b = k a) {as : List α} {bs : List β} (h : List.Forall₂ R as bs) :
    bs.map k' = as.map k := by
  induction h with
  | nil => rfl
  | cons hab _ ih => simp [hR _ _ hab, ih]

theorem mem_of_forall₂ {α β : Type} {R : α → β → Prop} {as : List α} {bs : List β} {b : β}
    (h : List.Forall₂ R as bs) (hb : b ∈ bs) : ∃ a ∈ as, R a b := by
  induction h with
  | nil => simp at hb
  | cons hab _ ih =>
    rcases List.mem_cons.mp hb with rfl | hb
    · exact ⟨_, by simp, hab⟩
    · obtain ⟨a, ha, hr⟩ := ih hb
      exact ⟨a, by simp [ha], hr⟩

theorem mem_of_lookup {α β : Type} [BEq α] [LawfulBEq α] {l : List (α × β)} {a : α} {b : β}
    (h : l.lookup a = some b) : (a, b) ∈ l := by
  obtain ⟨front, back, rfl, -⟩ := List.lookup_eq_some_iff.mp h
  simp

theorem lookup_of_nodup {α β : Type} [BEq α] [LawfulBEq α] {l : List (α × β)} {a : α} {b : β}
    (hn : (l.map Prod.fst).Nodup) (h : (a, b) ∈ l) : l.lookup a = some b := by
  induction l with
  | nil => cases h
  | cons e l ih =>
    obtain ⟨he, hn⟩ := List.nodup_cons.mp hn
    rcases List.mem_cons.mp h with rfl | h
    · simp
    · have hne : (a == e.1) = false := by
        rw [beq_eq_false_iff_ne]
        intro hk
        exact he (List.mem_map.mpr ⟨(a, b), h, hk⟩)
      rw [List.lookup_cons, hne]
      exact ih hn h

/-- What differs from all else in a key is found by its key. -/
theorem find?_of_nodup {α β : Type} [BEq β] [LawfulBEq β] (key : α → β) {l : List α} {x : α}
    (hn : (l.map key).Nodup) (hx : x ∈ l) : l.find? (fun y => key y == key x) = some x := by
  induction l with
  | nil => cases hx
  | cons y l ih =>
    obtain ⟨hy, hn⟩ := List.nodup_cons.mp hn
    rcases List.mem_cons.mp hx with rfl | hx
    · simp
    · have hne : (key y == key x) = false := by
        rw [beq_eq_false_iff_ne]
        intro he
        exact hy (he ▸ List.mem_map_of_mem hx)
      rw [List.find?_cons, hne]
      exact ih hn hx

/-- What has a key that comes once comes once. -/
theorem count_le_one {α β : Type} [BEq α] [LawfulBEq α] [BEq β] [LawfulBEq β] {key : α → Option β}
    {l : List α} {a : α} {b : β} (hn : (l.filterMap key).Nodup) (ha : key a = some b) :
    l.count a ≤ 1 := by
  have hkey : l.count a ≤ (l.filterMap key).count b := by
    rw [List.count_eq_countP, List.count_eq_countP, List.countP_filterMap]
    refine List.countP_mono_left fun x _ hx => ?_
    rw [beq_iff_eq.mp hx, ha]
    simp
  exact Nat.le_trans hkey (List.nodup_iff_count.mp hn b)

end RpcConsole

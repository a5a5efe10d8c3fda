import Mathlib.Data.List.Induction
import Mathlib.Data.String.Basic
import RpcConsole.Json.Value

namespace RpcConsole.Json

/-- The keys of some members. -/
def keys (members : List (String × Json)) : List String :=
  members.map Prod.fst

/-- Members by key, each key once. -/
abbrev InOrder (members : List (String × Json)) : Prop :=
  (keys members).Pairwise (· < ·)

variable {key k : String} {v : Json} {m : String × Json} {members : List (String × Json)}

theorem mem_put (h : m ∈ put key v members) : m = (key, v) ∨ m ∈ members := by
  induction members with
  | nil => exact .inl (by simpa [put] using h)
  | cons d rest ih =>
    unfold put at h
    split at h
    · exact List.mem_cons.mp h
    · split at h
      · rcases List.mem_cons.mp h with h | h
        · exact .inl h
        · exact .inr (List.mem_cons_of_mem _ h)
      · rcases List.mem_cons.mp h with rfl | h
        · exact .inr (by simp)
        · exact (ih h).imp_right (List.mem_cons_of_mem _)

theorem mem_keys_put : k ∈ keys (put key v members) ↔ k = key ∨ k ∈ keys members := by
  induction members with
  | nil => simp [put, keys]
  | cons d rest ih =>
    unfold put
    split
    · simp [keys]
    · split
      · rename_i he
        rw [beq_iff_eq] at he
        simp [keys, he]
      · have ih : k ∈ List.map Prod.fst (put key v rest) ↔ k = key ∨ k ∈ rest.map Prod.fst := ih
        simp only [keys, List.map_cons, List.mem_cons, ih]
        exact or_left_comm

theorem put_inOrder (h : InOrder members) : InOrder (put key v members) := by
  induction members with
  | nil => simp [put, InOrder, keys]
  | cons d rest ih =>
    obtain ⟨hlt, hrest⟩ := List.pairwise_cons.mp h
    unfold put
    by_cases hkd : key < d.1
    · simp only [hkd, ↓reduceIte]
      refine .cons (fun k hk => ?_) h
      rcases List.mem_cons.mp hk with rfl | hk
      · exact hkd
      · exact lt_trans hkd (hlt k hk)
    · by_cases heq : key = d.1
      · subst heq
        simp only [hkd, ↓reduceIte, beq_self_eq_true]
        exact .cons hlt hrest
      · have hne : (key == d.1) = false := by simp [heq]
        simp only [hkd, ↓reduceIte, hne, Bool.false_eq_true]
        refine .cons (fun k hk => ?_) (ih hrest)
        rcases mem_keys_put.mp hk with rfl | hk
        · exact lt_of_le_of_ne (not_lt.mp hkd) fun he => heq he.symm
        · exact hlt k hk

/-- Behind all other members a member is put at the end. -/
theorem put_end (h : ∀ k ∈ keys members, k < key) :
    put key v members = members ++ [(key, v)] := by
  induction members with
  | nil => rfl
  | cons d rest ih =>
    obtain ⟨hd, hrest⟩ := List.forall_mem_cons.mp h
    have hlt : ¬ key < d.1 := not_lt.mpr (le_of_lt hd)
    have hne : (key == d.1) = false := by simp [(ne_of_lt hd).symm]
    simp only [put, hlt, ↓reduceIte, hne, Bool.false_eq_true, ih hrest, List.cons_append]

theorem sorted_snoc : sorted (members ++ [m]) = put m.1 m.2 (sorted members) := by
  simp [sorted]

theorem mem_sorted (h : m ∈ sorted members) : m ∈ members := by
  induction members using List.reverseRecOn with
  | nil => cases h
  | append_singleton members d ih =>
    rw [sorted_snoc] at h
    rcases mem_put h with rfl | h
    · simp
    · exact List.mem_append_left _ (ih h)

theorem mem_keys_sorted : k ∈ keys (sorted members) ↔ k ∈ keys members := by
  induction members using List.reverseRecOn with
  | nil => rfl
  | append_singleton members d ih =>
    rw [sorted_snoc, mem_keys_put, ih, keys, keys, List.map_append, List.mem_append,
      List.map_singleton, List.mem_singleton]
    exact or_comm

theorem sorted_inOrder (members : List (String × Json)) : InOrder (sorted members) := by
  induction members using List.reverseRecOn with
  | nil => exact .nil
  | append_singleton members d ih =>
    rw [sorted_snoc]
    exact put_inOrder ih

/-- Members in order stay as they are. -/
theorem sorted_of_inOrder (h : InOrder members) : sorted members = members := by
  induction members using List.reverseRecOn with
  | nil => rfl
  | append_singleton members d ih =>
    rw [InOrder, keys, List.map_append, List.pairwise_append] at h
    obtain ⟨hmembers, -, hlt⟩ := h
    rw [sorted_snoc, ih hmembers, put_end fun k hk => hlt k hk d.1 (by simp)]

end RpcConsole.Json

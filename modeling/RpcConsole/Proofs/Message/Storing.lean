import RpcConsole.Proofs.Message.Fits
import Mathlib.Order.Basic
import Mathlib.Data.String.Basic

namespace RpcConsole

namespace Message

variable {number : Nat} {v w : Value} {known : List (Nat × Value)}
variable {unknown : List (Nat × UnknownValue)}

theorem insertField_end (h : ∀ k ∈ numbers known, k < number) :
    insertField number v known = known ++ [(number, v)] := by
  induction known with
  | nil => rfl
  | cons e rest ih =>
    simp only [numbers, List.map_cons, List.forall_mem_cons] at h
    have hlt : ¬ number < e.1 := by omega
    have hne : ¬ number = e.1 := by omega
    simp [insertField, hlt, hne, ih h.2]

theorem insertField_last (h : ∀ k ∈ numbers known, k < number) :
    insertField number v (known ++ [(number, w)]) = known ++ [(number, v)] := by
  induction known with
  | nil => simp [insertField]
  | cons e rest ih =>
    simp only [numbers, List.map_cons, List.forall_mem_cons] at h
    have hlt : ¬ number < e.1 := by omega
    have hne : ¬ number = e.1 := by omega
    simp [insertField, hlt, hne, ih h.2]

theorem lookup_none (h : number ∉ numbers known) : known.lookup number = none := by
  induction known with
  | nil => rfl
  | cons e rest ih =>
    obtain ⟨k, w⟩ := e
    simp only [numbers, List.map_cons, List.mem_cons, not_or] at h
    have hne : (number == k) = false := by simp [h.1]
    simpa [List.lookup_cons, hne] using ih h.2

theorem lookup_last (h : number ∉ numbers known) :
    (known ++ [(number, v)]).lookup number = some v := by
  induction known with
  | nil => simp
  | cons e rest ih =>
    obtain ⟨k, w⟩ := e
    simp only [numbers, List.map_cons, List.mem_cons, not_or] at h
    have hne : (number == k) = false := by simp [h.1]
    simpa [List.lookup_cons, hne] using ih h.2

theorem clear_of_not_mem (h : number ∉ numbers known) :
    clear ⟨known, unknown⟩ number = ⟨known, unknown⟩ := by
  have hf : known.filter (fun f => f.1 != number) = known := by
    rw [List.filter_eq_self]
    intro e he
    have hm : e.1 ∈ numbers known := List.mem_map_of_mem he
    have hne : e.1 ≠ number := by
      rintro rfl
      exact h hm
    simp [hne]
  rw [clear, hf]

theorem insertUnknown_end {u : UnknownValue} (h : ∀ k ∈ numbers unknown, k ≤ number) :
    insertUnknown number u unknown = unknown ++ [(number, u)] := by
  induction unknown with
  | nil => rfl
  | cons e rest ih =>
    simp only [numbers, List.map_cons, List.forall_mem_cons] at h
    have hlt : ¬ number < e.1 := by omega
    simp [insertUnknown, hlt, ih h.2]

end Message

/-- Where no other member of the oneof is stored, storing only puts the value in its place. -/
theorem MessageType.store_of_free {type : MessageType} {f : Field} {v : Value}
    {known : List (Nat × Value)} {unknown : List (Nat × UnknownValue)}
    (h : ∀ g ∈ type.rivals f, g.number ∉ Message.numbers known) :
    type.store f v ⟨known, unknown⟩ = ⟨Message.insertField f.number v known, unknown⟩ := by
  have hc : ∀ gs : List Field, (∀ g ∈ gs, g.number ∉ Message.numbers known) →
      gs.foldl (fun m g => m.clear g.number) ⟨known, unknown⟩ =
        (⟨known, unknown⟩ : Message) := by
    intro gs hgs
    induction gs with
    | nil => rfl
    | cons g gs ih =>
      obtain ⟨hg, hgs⟩ := List.forall_mem_cons.mp hgs
      rw [List.foldl_cons, Message.clear_of_not_mem hg]
      exact ih hgs
  rw [store, hc _ h]
  rfl

namespace Value

abbrev Sorted (es : List (MapKey × Value)) : Prop :=
  es.Pairwise (fun a b => a.1.text < b.1.text)

variable {key : MapKey} {v : Value} {es ds : List (MapKey × Value)}

/-- The order of a map is that of its keys. -/
theorem sorted_of_keys (hk : ds.map Prod.fst = es.map Prod.fst) (h : Sorted es) : Sorted ds := by
  have hp : (es.map Prod.fst).Pairwise (fun a b => a.text < b.text) := List.pairwise_map.mpr h
  rw [← hk] at hp
  exact (List.pairwise_map (f := Prod.fst) (R := fun a b : MapKey => a.text < b.text)).mp hp

theorem insertEntry_perm (h : ∀ e ∈ es, e.1.text ≠ key.text) :
    (insertEntry key v es).Perm ((key, v) :: es) := by
  induction es with
  | nil => exact .refl _
  | cons e rest ih =>
    obtain ⟨he, hr⟩ := List.forall_mem_cons.mp h
    have hne : ¬ key = e.1 := by
      rintro rfl
      exact he rfl
    by_cases hlt : key.text < e.1.text
    · simp [insertEntry, hlt]
    · simp only [insertEntry, hlt, ↓reduceIte, beq_iff_eq, hne]
      exact ((ih hr).cons e).trans (.swap _ _ _)

theorem insertEntry_sorted (hs : Sorted es) (h : ∀ e ∈ es, e.1.text ≠ key.text) :
    Sorted (insertEntry key v es) := by
  induction es with
  | nil => simp [insertEntry, Sorted]
  | cons e rest ih =>
    obtain ⟨he, hr⟩ := List.forall_mem_cons.mp h
    obtain ⟨hlt, hs⟩ := List.pairwise_cons.mp hs
    have hne : ¬ key = e.1 := by
      rintro rfl
      exact he rfl
    by_cases hk : key.text < e.1.text
    · simp only [insertEntry, hk, ↓reduceIte]
      refine .cons ?_ (.cons hlt hs)
      intro d hd
      rcases List.mem_cons.mp hd with rfl | hd
      · exact hk
      · exact lt_trans hk (hlt d hd)
    · simp only [insertEntry, hk, ↓reduceIte, beq_iff_eq, hne]
      refine .cons ?_ (ih hs hr)
      intro d hd
      rcases List.mem_cons.mp ((insertEntry_perm hr).mem_iff.mp hd) with rfl | hd
      · exact lt_of_le_of_ne (not_lt.mp hk) he
      · exact hlt d hd

/-- Puts entries into a map one after the other. -/
def insertAll (ds es : List (MapKey × Value)) : List (MapKey × Value) :=
  ds.foldl (fun es d => insertEntry d.1 d.2 es) es

theorem insertAll_perm (hd : (ds ++ es).Pairwise (fun a b => a.1.text ≠ b.1.text)) :
    (insertAll ds es).Perm (ds ++ es) := by
  induction ds generalizing es with
  | nil => exact .refl _
  | cons d ds ih =>
    obtain ⟨hne, hd⟩ := List.pairwise_cons.mp hd
    have hes : ∀ e ∈ es, e.1.text ≠ d.1.text := fun e he =>
      (hne e (List.mem_append_right ds he)).symm
    have hp := insertEntry_perm (v := d.2) hes
    have hmid : (ds ++ insertEntry d.1 d.2 es).Perm (d :: (ds ++ es)) :=
      (hp.append_left ds).trans List.perm_middle
    have hsym : ∀ {a b : MapKey × Value}, a.1.text ≠ b.1.text → b.1.text ≠ a.1.text :=
      fun h => h.symm
    have hd' := (hmid.pairwise_iff hsym).mpr (List.pairwise_cons.mpr ⟨hne, hd⟩)
    exact (ih hd').trans hmid

theorem insertAll_sorted (hs : Sorted es)
    (hd : (ds ++ es).Pairwise (fun a b => a.1.text ≠ b.1.text)) : Sorted (insertAll ds es) := by
  induction ds generalizing es with
  | nil => exact hs
  | cons d ds ih =>
    obtain ⟨hne, hd⟩ := List.pairwise_cons.mp hd
    have hes : ∀ e ∈ es, e.1.text ≠ d.1.text := fun e he =>
      (hne e (List.mem_append_right ds he)).symm
    have hp := insertEntry_perm (v := d.2) hes
    have hmid : (ds ++ insertEntry d.1 d.2 es).Perm (d :: (ds ++ es)) :=
      (hp.append_left ds).trans List.perm_middle
    have hsym : ∀ {a b : MapKey × Value}, a.1.text ≠ b.1.text → b.1.text ≠ a.1.text :=
      fun h => h.symm
    have hd' := (hmid.pairwise_iff hsym).mpr (List.pairwise_cons.mpr ⟨hne, hd⟩)
    exact ih (insertEntry_sorted hs hes) hd'

theorem Sorted.distinct (hs : Sorted es) : es.Pairwise (fun a b => a.1.text ≠ b.1.text) :=
  hs.imp fun h => ne_of_lt h

/-- In whatever order the entries of a map come, they make the same map. -/
theorem insertAll_of_perm (hs : Sorted es) (hp : ds.Perm es) : insertAll ds [] = es := by
  have hsym : ∀ {a b : MapKey × Value}, a.1.text ≠ b.1.text → b.1.text ≠ a.1.text :=
    fun h => h.symm
  have hd : (ds ++ []).Pairwise (fun a b : MapKey × Value => a.1.text ≠ b.1.text) := by
    rw [List.append_nil]
    exact (hp.pairwise_iff hsym).mpr hs.distinct
  have hperm := insertAll_perm hd
  rw [List.append_nil] at hperm
  refine (hperm.trans hp).eq_of_pairwise ?_ (insertAll_sorted .nil hd) hs
  intro a b _ _ hab hba
  exact absurd (lt_trans hab hba) (lt_irrefl _)

end Value
end RpcConsole

import RpcConsole.Proofs.Message.Explicit
import RpcConsole.Proofs.Message.Places

namespace RpcConsole

variable {t : TypeTable} {type : MessageType} {f : Field} {shape shape' : Shape} {v v' w : Value}

/-- A field has a default of its shape. -/
theorem TypeTable.default_fits (hs : t.Sound) (hreg : t.Regular) (hf : f.Sound t) :
    (t.fieldDefault f).Fits t (t.shape f) := by
  rcases hreg.form f with ⟨hr, -, hshape⟩ | ⟨hr, hm, hshape⟩ | ⟨hr, -, hm, -, hshape⟩
  · rw [hshape]
    exact Wire.fieldDefault_fits hs hf hr
  · have hd : t.fieldDefault f = .list [] := by simp [fieldDefault, hr, hm]
    rw [hshape, hd]
    trivial
  · have hd : t.fieldDefault f = .map [] := by simp [fieldDefault, hr, hm]
    rw [hshape, hd]
    exact ⟨.nil, trivial⟩

theorem Message.fits_of_value {name held : String} {m : Message} (ht : t.message? name = some type)
    (h : (Value.message held m).Fits t (.single (.message name))) :
    name = held ∧ m.Fits t type := by
  obtain ⟨hkind, hm⟩ := h
  obtain rfl := Kind.message.inj (Option.some.inj hkind)
  exact ⟨rfl, by simpa [ht] using hm⟩

/-- What a field of a message has fits, whether it is stored or not. -/
theorem Message.valueOf_fits (hs : t.Sound) (hreg : t.Regular) (ht : type ∈ t.messages)
    {number : Nat} (hf : t.fieldNumbered? type number = some f) {m : Message}
    (hm : m.Fits t type) : (t.valueOf f m).Fits t (t.shape f) := by
  obtain rfl := TypeTable.fieldNumbered?_number hf
  unfold TypeTable.valueOf
  cases hv : m.find? f.number with
  | none => exact TypeTable.default_fits hs hreg (hs.numbered ht hf)
  | some v => exact stored_fits hm hf hv

namespace Value

theorem step?_fits {step : Step} (hs : t.Sound) (hreg : t.Regular) (hv : v.Fits t shape)
    (h : step? t (shape, v) step = some (shape', v')) : v'.Fits t shape' := by
  cases stepsTo_of_step? h with
  | item h => exact itemsFit_iff.mp hv _ (List.mem_of_getElem? h)
  | entry h => exact (entriesFit_iff.mp hv.2 _ (mem_of_lookup h)).2
  | field ht hf =>
    obtain ⟨-, hm⟩ := Message.fits_of_value ht hv
    exact Message.valueOf_fits hs hreg (TypeTable.message?_mem ht) hf hm

/-- What can be left of a value: all of it, a number equal to it, or the value less what is
redundant inside it. -/
inductive LeftOf (t : TypeTable) (shape : Shape) (v : Value) : Value → Prop where
  | kept : LeftOf t shape v v
  | equal {w : Value} (h : v.isSingle w = true) : LeftOf t shape v w
  | cleared {f : Field} (hu : UnderField t f shape) : LeftOf t shape v (v.clearDefaults t f)

/-- What is redundant is the default, or a number equal to it. -/
theorem redundant_cases (hreg : t.Regular) (hv : v.Fits t (t.shape f))
    (hx : t.isRedundant f v = true) :
    t.fieldDefault f = v ∨ v.isSingle (t.fieldDefault f) = true := by
  have hsame := default_same hreg hv hx
  simp only [TypeTable.isRedundant, Bool.and_eq_true, Bool.or_eq_true] at hx
  rcases hx.2 with hempty | ⟨-, hsingle⟩
  · left
    generalize t.fieldDefault f = d at hsame
    unfold isEmpty at hempty
    split at hempty
    · cases d with
      | list items =>
        cases items with
        | nil => rfl
        | cons => simp [same, sameItems] at hsame
      | _ => simp [same, isSingle] at hsame
    · cases d with
      | map es =>
        cases es with
        | nil => rfl
        | cons => simp [same, sameEntries] at hsame
      | _ => simp [same, isSingle] at hsame
    · cases hempty
  · exact .inr hsingle

theorem getElem?_clearItems (vs : List Value) (i : Nat) :
    (clearItems t f vs)[i]? = vs[i]?.map (clearDefaults t f) := by
  induction vs generalizing i with
  | nil => simp [clearItems]
  | cons v vs ih =>
    cases i with
    | zero => simp [clearItems]
    | succ i => simpa [clearItems] using ih i

theorem lookup_clearEntries (es : List (MapKey × Value)) (k : MapKey) :
    (clearEntries t f es).lookup k = (es.lookup k).map (clearDefaults t f) := by
  induction es with
  | nil => simp [clearEntries]
  | cons e es ih =>
    obtain ⟨l, w⟩ := e
    rw [clearEntries, List.lookup_cons, List.lookup_cons]
    split
    · rfl
    · exact ih

end Value

/-- What is left for a number of the fields that are stored. -/
theorem Message.lookup_clearFields (t : TypeTable) (type : MessageType)
    {known : List (Nat × Value)} (hn : (numbers known).Nodup) (number : Nat) :
    (clearFields t type known).lookup number =
      match type.fieldNumbered? number with
      | none => known.lookup number
      | some f => ((known.lookup number).filter fun v => !t.isRedundant f v).map
          (Value.clearDefaults t f) := by
  induction known with
  | nil => split <;> simp [clearFields]
  | cons e rest ih =>
    obtain ⟨k, v⟩ := e
    obtain ⟨hk, hrest⟩ := List.nodup_cons.mp hn
    have ih := ih hrest
    by_cases he : number = k
    · subst he
      have hfree : (clearFields t type rest).lookup number = none :=
        lookup_none fun h => hk ((clearFields_numbers t type rest).subset h)
      cases ho : type.fieldNumbered? number with
      | none => simp [clearFields, ho]
      | some f =>
        cases hx : t.isRedundant f v with
        | true => simp [clearFields, ho, hx, hfree, Option.filter_some]
        | false => simp [clearFields, ho, hx, Option.filter_some]
    · have hne : (number == k) = false := beq_eq_false_iff_ne.mpr he
      rw [List.lookup_cons, hne]
      simp only
      rw [← ih, clearFields]
      split
      · rw [List.lookup_cons, hne]
      · split
        · rfl
        · rw [List.lookup_cons, hne]

theorem Message.Arranged.nodup {known : List (Nat × Value)} {unknown : List (Nat × UnknownValue)}
    (h : Arranged t type known unknown) : (numbers known).Nodup :=
  h.sorted.imp Nat.ne_of_lt

/-- What is stored for a number after clearing. -/
theorem Message.find?_clearDefaults {name : String} (ht : t.message? name = some type) {m : Message}
    (hm : m.Fits t type) (number : Nat) :
    (m.clearDefaults t name).find? number =
      match type.fieldNumbered? number with
      | none => m.find? number
      | some f => ((m.find? number).filter fun v => !t.isRedundant f v).map
          (Value.clearDefaults t f) := by
  obtain ⟨known, unknown⟩ := m
  have hlookup := lookup_clearFields t type hm.1.nodup number
  simp only [clearDefaults, ht]
  exact hlookup

namespace Value

/-- What is left in a field of a message less what is redundant. -/
theorem valueOf_left (hreg : t.Regular) {name : String} (ht : t.message? name = some type)
    {number : Nat} (hf : t.fieldNumbered? type number = some f) {m : Message}
    (hm : m.Fits t type) :
    LeftOf t (t.shape f) (t.valueOf f m) (t.valueOf f (m.clearDefaults t name)) := by
  obtain rfl := TypeTable.fieldNumbered?_number hf
  unfold TypeTable.valueOf
  rw [Message.find?_clearDefaults ht hm]
  cases ho : type.fieldNumbered? f.number with
  | none => exact .kept
  | some g =>
    obtain rfl : g = f := Option.some.inj ((TypeTable.fieldNumbered?_own ho).symm.trans hf)
    cases hv : m.find? g.number with
    | none => exact .kept
    | some v =>
      cases hx : t.isRedundant g v with
      | false => simpa [hx, Option.filter_some] using LeftOf.cleared (.inl rfl)
      | true =>
        have hfits : v.Fits t (t.shape g) := Message.stored_fits hm hf hv
        simp only [Option.filter_some, hx, Bool.not_true, Bool.false_eq_true, ↓reduceIte,
          Option.map_none, Option.getD_none, Option.getD_some]
        rcases redundant_cases hreg hfits hx with hd | hd
        · rw [hd]
          exact .kept
        · exact .equal hd

/-- One step down from what is left of a value there is what is left of what was there. -/
theorem LeftOf.step {step : Step} (hreg : t.Regular) (hv : v.Fits t shape)
    (h : step? t (shape, v) step = some (shape', v')) (hw : LeftOf t shape v w) :
    ∃ w', step? t (shape, w) step = some (shape', w') ∧ LeftOf t shape' v' w' := by
  cases hw with
  | kept => exact ⟨v', h, .kept⟩
  | equal hsingle =>
    cases stepsTo_of_step? h with
    | item | entry | field => cases hsingle
  | @cleared f hu =>
    cases stepsTo_of_step? h with
    | item hi =>
      obtain rfl := hu.kind (.inr rfl)
      refine ⟨v'.clearDefaults t f, ?_, .cleared (.inr rfl)⟩
      simp [step?, clearDefaults, getElem?_clearItems, hi]
    | entry hk =>
      obtain ⟨entry, key, g, -, hentry, hisEntry, hshape, -⟩ := hu.map hreg hv
      cases hshape
      refine ⟨v'.clearDefaults t g, ?_, .cleared (.inr rfl)⟩
      simp [step?, clearDefaults, hentry, hisEntry.value, lookup_clearEntries, hk]
    | @field name held type m number g ht hg =>
      obtain ⟨rfl, hm⟩ := Message.fits_of_value ht hv
      refine ⟨t.valueOf g (m.clearDefaults t name), ?_, valueOf_left hreg ht hg hm⟩
      simp [step?, clearDefaults, ht, hg]

/-- At a place in what is left of a value there is what is left of what was there. -/
theorem LeftOf.at (hs : t.Sound) (hreg : t.Regular) (place : List Step) :
    ∀ {shape : Shape} {v w : Value}, v.Fits t shape → LeftOf t shape v w →
      at? t place (shape, v) = some (shape', v') →
        ∃ w', at? t place (shape, w) = some (shape', w') ∧ LeftOf t shape' v' w' := by
  induction place with
  | nil =>
    intro shape v w _ hw h
    cases h
    exact ⟨w, rfl, hw⟩
  | cons step place ih =>
    intro shape v w hv hw h
    rw [at?_cons] at h
    obtain ⟨⟨shape₁, v₁⟩, hstep, h⟩ := Option.bind_eq_some_iff.mp h
    obtain ⟨w₁, hstep', hw₁⟩ := hw.step hreg hv hstep
    obtain ⟨w', hat, hw'⟩ := ih (step?_fits hs hreg hv hstep) hw₁ h
    refine ⟨w', ?_, hw'⟩
    rw [at?_cons, hstep']
    exact hat

theorem eq_of_isSingle_int {r : IntRange} {n : Int} (h : v.isSingle (.int r n) = true) :
    v = .int r n := by
  cases v with
  | int s k =>
    simp only [isSingle, Bool.and_eq_true, beq_iff_eq] at h
    rw [h.1, h.2]
  | _ => cases h

/-- An integer is left as it is. -/
theorem LeftOf.int {r : IntRange} {n : Int} (h : LeftOf t shape (.int r n) w) : w = .int r n := by
  cases h with
  | kept => rfl
  | equal h =>
    rw [isSingle_comm] at h
    exact eq_of_isSingle_int h
  | cleared => simp [clearDefaults]

/-- A map is left with all its keys. -/
theorem LeftOf.map {es : List (MapKey × Value)} (h : LeftOf t shape (.map es) w) :
    ∃ es', w = .map es' ∧ es'.map Prod.fst = es.map Prod.fst := by
  cases h with
  | kept => exact ⟨es, rfl, rfl⟩
  | equal h => cases h
  | @cleared f =>
    unfold clearDefaults
    split
    · exact ⟨_, rfl, keys_clearEntries t _ es⟩
    · exact ⟨es, rfl, rfl⟩

end Value
end RpcConsole

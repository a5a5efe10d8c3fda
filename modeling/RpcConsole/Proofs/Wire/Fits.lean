import RpcConsole.Proofs.Message.Keeping
import RpcConsole.Proofs.Wire.Occurs

namespace RpcConsole.Wire

theorem readKey_number {number : Nat} {wt : WireType} {bs rest : List UInt8}
    (h : readKey bs = .ok ((number, wt), rest)) : IsNumber number := by
  cases hv : readVarint bs with
  | error e => simp [readKey, hv] at h
  | ok r =>
    obtain ⟨n, rest'⟩ := r
    by_cases hle : keyLimit < n
    · simp [readKey, hv, hle] at h
    · cases hc : WireType.ofCode? (n % 8) with
      | none => simp [readKey, hv, hle, hc] at h
      | some wt' =>
        by_cases hz : n / 8 = 0
        · simp [readKey, hv, hle, hc, hz] at h
        · simp only [readKey, hv, hle, hc, hz, ↓reduceIte, beq_iff_eq, Except.ok.injEq,
            Prod.mk.injEq] at h
          have hlimit : keyLimit = 4294967295 := rfl
          obtain ⟨⟨rfl, -⟩, -⟩ := h
          exact ⟨by omega, by omega⟩

theorem readUnknown_fits (fuel : Nat) :
    (∀ depth number wt bs u rest, readUnknown fuel depth number wt bs = .ok (u, rest) → u.Fits) ∧
      ∀ depth number bs fields rest,
        readUnknownGroup fuel depth number bs = .ok (fields, rest) →
        UnknownValue.FieldsFit fields := by
  induction fuel with
  | zero => exact ⟨fun _ _ _ _ _ _ h => (by cases h), fun _ _ _ _ _ h => (by cases h)⟩
  | succ fuel ih =>
    obtain ⟨ihValue, ihGroup⟩ := ih
    constructor
    · intro depth number wt bs u rest h
      cases wt with
      | varint =>
        obtain ⟨n, rest', hr, h⟩ := Reading.bind_eq_ok.mp h
        cases h
        exact (readVarint_lt hr).1
      | fixed64 =>
        obtain ⟨n, rest', hr, h⟩ := Reading.bind_eq_ok.mp h
        cases h
        exact readFixed_lt hr
      | counted =>
        obtain ⟨n, rest', hr, h⟩ := Reading.bind_eq_ok.mp h
        cases h
        trivial
      | fixed32 =>
        obtain ⟨n, rest', hr, h⟩ := Reading.bind_eq_ok.mp h
        cases h
        exact readFixed_lt hr
      | endGroup => cases h
      | startGroup =>
        obtain ⟨inside, rest', -, h⟩ := Reading.bind_eq_ok.mp h
        obtain ⟨fields, rest'', hg, h⟩ := Reading.bind_eq_ok.mp h
        cases h
        exact ihGroup _ _ _ _ _ hg
    · intro depth number bs fields rest h
      obtain ⟨⟨inner, wt⟩, rest', hk, h⟩ := Reading.bind_eq_ok.mp h
      simp only at h
      split at h
      · split at h
        · cases h
          trivial
        · cases h
      · obtain ⟨u, rest₂, hu, h⟩ := Reading.bind_eq_ok.mp h
        obtain ⟨more, rest₃, hm, h⟩ := Reading.bind_eq_ok.mp h
        cases h
        exact ⟨⟨readKey_number hk, ihValue _ _ _ _ _ _ hu⟩, ihGroup _ _ _ _ _ hm⟩

theorem fits_of_takes {t : TypeTable} {kind : Kind} {v : Value} (h : kind.Takes v) :
    v.Fits t (.single kind) := by
  cases v with
  | bool | int | enum | single | double | str | bytes => exact h
  | message | list | map => cases kind <;> simp [Kind.Takes, Scalar.Takes] at h

theorem readPacked_fits {t : TypeTable} {kind : Kind} {stop : Nat}
    (hk : ∀ name, kind ≠ .message name) :
    ∀ (fuel : Nat) (done vs : List Value) (bs rest : List UInt8),
      readPacked kind stop fuel done bs = .ok (vs, rest) → Value.ItemsFit t kind done →
      Value.ItemsFit t kind vs
  | 0, _, _, _, _, h, _ => by cases h
  | fuel + 1, done, vs, bs, rest, h, hd => by
    obtain ⟨e, rest', -, h⟩ := Reading.bind_eq_ok.mp h
    split at h
    · cases h
      exact hd
    · obtain ⟨v, rest'', hv, h⟩ := Reading.bind_eq_ok.mp h
      refine readPacked_fits hk fuel _ vs _ rest h (Value.itemsFit_iff.mpr ?_)
      intro w hw
      rcases List.mem_append.mp hw with hw | hw
      · exact Value.itemsFit_iff.mp hd w hw
      · rw [List.mem_singleton.mp hw]
        exact fits_of_takes (readPlain_takes hk hv)

theorem zero_takes (s : Scalar) : s.Takes s.zero := by
  cases s <;> first | rfl | exact ⟨rfl, by decide⟩

/-- What stands for nothing in a field that holds one value. -/
theorem fieldDefault_fits {t : TypeTable} {f : Field} (hs : t.Sound) (hf : f.Sound t)
    (hr : f.isRepeated = false) : (t.fieldDefault f).Fits t (.single f.kind) := by
  simp only [TypeTable.fieldDefault, hr, Bool.false_eq_true, ↓reduceIte]
  cases hw : f.written with
  | some v => exact fits_of_takes (hf.written v hw)
  | none =>
    simp only [Option.getD_none]
    cases hk : f.kind with
    | scalar s =>
      have hz : (Kind.scalar s).Takes s.zero := zero_takes s
      exact fits_of_takes hz
    | message name =>
      obtain ⟨inner, hi⟩ := Option.isSome_iff_exists.mp (hf.resolves name hk)
      simpa [TypeTable.kindDefault, Value.Fits, Shape.kind?, hi] using Message.empty_fits t inner
    | enum name =>
      suffices hz : (Kind.enum name).Takes (t.kindDefault (.enum name)) from fits_of_takes hz
      cases he : t.enum? name with
      | none => simp [TypeTable.kindDefault, he, Kind.Takes]
      | some e =>
        have hmem : e ∈ t.enums := List.mem_of_find?_eq_some he
        simp only [TypeTable.kindDefault, he, Option.map_some, Option.getD_some]
        cases hv : e.values with
        | nil => simp [EnumType.first, hv, Kind.Takes]
        | cons v vs =>
          simp only [EnumType.first, hv]
          exact hs.enums e hmem v (by simp [hv])

/-- A value of the kind of a key is the value of some key. -/
theorem keyValue_toKey {kind : Kind} {v : Value} (hk : kind.IsKey) (hv : kind.Takes v) :
    keyValue (toKey v) = v := by
  cases kind with
  | message | enum => simp [Kind.IsKey] at hk
  | scalar s =>
    obtain ⟨hdouble, hfloat, hbytes⟩ := hk
    cases v with
    | bool | int | str => rfl
    | single x => exact absurd hv hfloat
    | double x => exact absurd hv hdouble
    | bytes bs => exact absurd hv hbytes
    | enum | message | list | map => simp [Kind.Takes, Scalar.Takes] at hv

/-- The message to which a value under a kind is added, if it is a message. -/
def BeforeFits (t : TypeTable) (kind : Kind) (before : Message) : Prop :=
  ∀ name type, kind = .message name → t.message? name = some type → before.Fits t type

theorem empty_beforeFits (t : TypeTable) (kind : Kind) : BeforeFits t kind .empty :=
  fun _ type _ _ => Message.empty_fits t type

/-- What the readers with some fuel give fits. -/
structure ReadsFit (t : TypeTable) (fuel : Nat) : Prop where
  field : ∀ {depth type number wt m bs m' rest}, type ∈ t.messages → IsNumber number →
    m.Fits t type → readField t fuel depth type number wt m bs = .ok (m', rest) → m'.Fits t type
  value : ∀ {depth f wt before bs v rest}, BeforeFits t f.kind before →
    readValue t fuel depth f wt before bs = .ok (v, rest) → v.Fits t (.single f.kind)
  fields : ∀ {depth type stop m bs m' rest}, type ∈ t.messages → m.Fits t type →
    readFields t fuel depth type stop m bs = .ok (m', rest) → m'.Fits t type
  group : ∀ {depth type number m bs m' rest}, type ∈ t.messages → m.Fits t type →
    readGroup t fuel depth type number m bs = .ok (m', rest) → m'.Fits t type
  entry : ∀ {depth entry k v stop key value bs e rest}, entry ∈ t.messages →
    TypeTable.IsEntry entry k v → (∀ w, key = some w → w.Fits t (.single k.kind)) →
    (∀ w, value = some w → w.Fits t (.single v.kind)) →
    readEntry t fuel depth k v stop key value bs = .ok (e, rest) →
    k.kind.Takes (keyValue e.1) ∧ e.2.Fits t (.single v.kind)

variable {t : TypeTable} {type : MessageType} {f : Field} {m : Message}

theorem held_fits (hm : m.Fits t type) (hf : t.fieldNumbered? type f.number = some f)
    (hs : t.shape f = .single f.kind) : BeforeFits t f.kind (held f m) := by
  intro name inner hk hi
  unfold held
  split
  · rename_i held n hn
    obtain ⟨hkind, hfit⟩ := Message.stored_fits hm hf hn
    rw [hs, hk] at hkind
    obtain rfl := Kind.message.inj (Option.some.inj hkind)
    simpa [hi] using hfit
  · exact Message.empty_fits t inner

theorem heldItems_fit (hm : m.Fits t type) (hf : t.fieldNumbered? type f.number = some f)
    (hs : t.shape f = .list f.kind) : Value.ItemsFit t f.kind (heldItems f m) := by
  unfold heldItems
  split
  · rename_i vs hvs
    have hfit := Message.stored_fits hm hf hvs
    rw [hs] at hfit
    exact hfit
  · trivial

theorem heldEntries_fit {key value : Kind} (hm : m.Fits t type)
    (hf : t.fieldNumbered? type f.number = some f) (hs : t.shape f = .map key value) :
    Value.Sorted (heldEntries f m) ∧ Value.EntriesFit t key value (heldEntries f m) := by
  unfold heldEntries
  split
  · rename_i es hes
    have hfit := Message.stored_fits hm hf hes
    rw [hs] at hfit
    exact hfit
  · exact ⟨.nil, trivial⟩

theorem readsFit_field {fuel : Nat} (hs : t.Sound) (hreg : t.Regular) (ih : ReadsFit t fuel)
    {depth number : Nat} {wt : WireType} {bs rest : List UInt8} {m' : Message}
    (ht : type ∈ t.messages) (hn : IsNumber number) (hm : m.Fits t type)
    (h : readField t (fuel + 1) depth type number wt m bs = .ok (m', rest)) :
    m'.Fits t type := by
  unfold readField at h
  cases hf : t.fieldNumbered? type number with
  | none =>
    simp only [hf] at h
    obtain ⟨u, rest', hu, h⟩ := Reading.bind_eq_ok.mp h
    cases h
    exact Message.addUnknown_fits hn hf ((readUnknown_fits fuel).1 _ _ _ _ _ _ hu) hm
  | some f =>
    have hnum := TypeTable.fieldNumbered?_number hf
    subst hnum
    simp only [hf] at h
    rcases hreg.form f with
      ⟨hrep, hmap, hshape⟩ | ⟨hrep, hmap, hshape⟩ | @⟨entry, k, w, hrep, he, hmap, hk, hshape⟩
    · simp only [hmap, hrep, Bool.false_eq_true, ↓reduceIte] at h
      obtain ⟨v, rest', hv, h⟩ := Reading.bind_eq_ok.mp h
      cases h
      have hfit := ih.value (held_fits hm hf hshape) hv
      exact MessageType.store_fits hs ht hf (by rwa [hshape]) hm
    · have hheld := heldItems_fit hm hf hshape
      simp only [hmap, hrep, ↓reduceIte] at h
      split at h
      · rename_i hp
        simp only [Bool.and_eq_true] at hp
        obtain ⟨stop, rest', -, h⟩ := Reading.bind_eq_ok.mp h
        obtain ⟨left, rest'', -, h⟩ := Reading.bind_eq_ok.mp h
        obtain ⟨vs, rest₃, hvs, h⟩ := Reading.bind_eq_ok.mp h
        cases h
        have hplain : ∀ name, f.kind ≠ .message name := by
          intro name hk
          rw [hk] at hp
          exact Bool.false_ne_true hp.2
        have hfit := readPacked_fits (t := t) hplain _ _ _ _ _ hvs hheld
        exact MessageType.store_fits hs ht hf (by rw [hshape]; exact hfit) hm
      · obtain ⟨v, rest', hv, h⟩ := Reading.bind_eq_ok.mp h
        cases h
        have hfit := ih.value (empty_beforeFits t f.kind) hv
        refine MessageType.store_fits hs ht hf ?_ hm
        rw [hshape]
        refine Value.itemsFit_iff.mpr fun w hw => ?_
        rcases List.mem_append.mp hw with hw | hw
        · exact Value.itemsFit_iff.mp hheld w hw
        · exact List.mem_singleton.mp hw ▸ hfit
    · obtain ⟨hsorted, hheld⟩ := heldEntries_fit hm hf hshape
      simp only [hmap, hk.key, hk.value] at h
      obtain ⟨inside, rest', -, h⟩ := Reading.bind_eq_ok.mp h
      obtain ⟨stop, rest'', -, h⟩ := Reading.bind_eq_ok.mp h
      obtain ⟨e, rest₃, hentry, h⟩ := Reading.bind_eq_ok.mp h
      cases h
      obtain ⟨hkey, hval⟩ := ih.entry he hk (fun _ h => by cases h) (fun _ h => by cases h) hentry
      refine MessageType.store_fits hs ht hf ?_ hm
      rw [hshape]
      exact ⟨Value.insertEntry_keeps_sorted hkey hheld hsorted,
        Value.insertEntry_fits hkey hval hheld⟩

theorem readsFit_value {fuel : Nat} (ih : ReadsFit t fuel) {depth : Nat} {wt : WireType}
    {before : Message} {bs rest : List UInt8} {v : Value} (hb : BeforeFits t f.kind before)
    (h : readValue t (fuel + 1) depth f wt before bs = .ok (v, rest)) :
    v.Fits t (.single f.kind) := by
  unfold readValue at h
  cases hk : f.kind with
  | scalar | enum =>
    simp only [hk] at h
    obtain ⟨-, rest', -, h⟩ := Reading.bind_eq_ok.mp h
    exact fits_of_takes (readPlain_takes (by simp) h)
  | message name =>
    simp only [hk] at h
    cases ht : t.message? name with
    | none =>
      simp only [ht] at h
      cases h
    | some inner =>
      simp only [ht] at h
      have hmem := TypeTable.message?_mem ht
      split at h
      · obtain ⟨-, rest', -, h⟩ := Reading.bind_eq_ok.mp h
        obtain ⟨inside, rest'', -, h⟩ := Reading.bind_eq_ok.mp h
        obtain ⟨m, rest₃, hm, h⟩ := Reading.bind_eq_ok.mp h
        cases h
        simpa [Value.Fits, Shape.kind?, ht] using ih.group hmem (hb name inner hk ht) hm
      · obtain ⟨-, rest', -, h⟩ := Reading.bind_eq_ok.mp h
        obtain ⟨inside, rest'', -, h⟩ := Reading.bind_eq_ok.mp h
        obtain ⟨stop, rest₃, -, h⟩ := Reading.bind_eq_ok.mp h
        obtain ⟨m, rest₄, hm, h⟩ := Reading.bind_eq_ok.mp h
        cases h
        simpa [Value.Fits, Shape.kind?, ht] using ih.fields hmem (hb name inner hk ht) hm

/-- The key of an entry that is complete. -/
theorem toKey_takes {kind : Kind} {v : Value} (hk : kind.IsKey) (hv : v.Fits t (.single kind)) :
    kind.Takes (keyValue (toKey v)) := by
  rcases Value.fits_single hv with ⟨name, -, -, rfl, -⟩ | htakes
  · cases hk
  · rw [keyValue_toKey hk htakes]
    exact htakes

theorem readsFit_entry {fuel : Nat} (hs : t.Sound) (ih : ReadsFit t fuel) {depth : Nat}
    {entry : MessageType} {k v : Field} {stop : Nat} {key value : Option Value}
    {bs rest : List UInt8} {e : MapKey × Value} (he : entry ∈ t.messages)
    (hk : TypeTable.IsEntry entry k v) (hkey : ∀ w, key = some w → w.Fits t (.single k.kind))
    (hvalue : ∀ w, value = some w → w.Fits t (.single v.kind))
    (h : readEntry t (fuel + 1) depth k v stop key value bs = .ok (e, rest)) :
    k.kind.Takes (keyValue e.1) ∧ e.2.Fits t (.single v.kind) := by
  have hkmem : k ∈ entry.fields := List.mem_of_find?_eq_some hk.key
  have hvmem : v ∈ entry.fields := List.mem_of_find?_eq_some hk.value
  unfold readEntry at h
  obtain ⟨done, rest', -, h⟩ := Reading.bind_eq_ok.mp h
  split at h
  · cases h
    constructor
    · refine toKey_takes (t := t) hk.keyKind ?_
      cases key with
      | none => exact fieldDefault_fits hs (hs.field _ he _ hkmem) hk.keySingle
      | some w => exact hkey w rfl
    · cases value with
      | none => exact fieldDefault_fits hs (hs.field _ he _ hvmem) hk.valueSingle
      | some w => exact hvalue w rfl
  · obtain ⟨⟨number, wt⟩, rest'', -, h⟩ := Reading.bind_eq_ok.mp h
    simp only at h
    split at h
    · obtain ⟨w, rest₃, hw, h⟩ := Reading.bind_eq_ok.mp h
      refine ih.entry he hk ?_ hvalue h
      rintro _ ⟨⟩
      exact ih.value (empty_beforeFits t k.kind) hw
    · split at h
      · obtain ⟨w, rest₃, hw, h⟩ := Reading.bind_eq_ok.mp h
        refine ih.entry he hk hkey ?_ h
        rintro _ ⟨⟩
        refine ih.value ?_ hw
        intro name inner hkind hi
        split
        · obtain ⟨hstored, hfit⟩ := hvalue (.message _ _) rfl
          rw [hkind] at hstored
          obtain rfl := Kind.message.inj (Option.some.inj hstored)
          simpa [hi] using hfit
        · exact Message.empty_fits t inner
      · obtain ⟨-, rest₃, -, h⟩ := Reading.bind_eq_ok.mp h
        exact ih.entry he hk hkey hvalue h

theorem readsFit (hs : t.Sound) (hreg : t.Regular) (fuel : Nat) : ReadsFit t fuel := by
  induction fuel with
  | zero =>
    constructor
    all_goals
      intros
      rename_i h
      first
        | (unfold readField at h; cases h)
        | (unfold readValue at h; cases h)
        | (unfold readFields at h; cases h)
        | (unfold readGroup at h; cases h)
        | (unfold readEntry at h; cases h)
  | succ fuel ih =>
    refine ⟨readsFit_field hs hreg ih, readsFit_value ih, ?_, ?_, readsFit_entry hs ih⟩
    · intro depth type stop m bs m' rest ht hm h
      unfold readFields at h
      obtain ⟨done, rest', -, h⟩ := Reading.bind_eq_ok.mp h
      split at h
      · cases h
        exact hm
      · obtain ⟨⟨number, wt⟩, rest'', hk, h⟩ := Reading.bind_eq_ok.mp h
        obtain ⟨m₁, rest₃, hf, h⟩ := Reading.bind_eq_ok.mp h
        exact ih.fields ht (ih.field ht (readKey_number hk) hm hf) h
    · intro depth type number m bs m' rest ht hm h
      unfold readGroup at h
      obtain ⟨⟨inner, wt⟩, rest', hk, h⟩ := Reading.bind_eq_ok.mp h
      simp only at h
      split at h
      · split at h
        · cases h
          exact hm
        · cases h
      · obtain ⟨m₁, rest'', hf, h⟩ := Reading.bind_eq_ok.mp h
        exact ih.group ht (ih.field ht (readKey_number hk) hm hf) h

/-- A message that is read from bytes fits its type. -/
theorem readMessage_fits (hs : t.Sound) (hreg : t.Regular) (ht : type ∈ t.messages)
    {bs : List UInt8} (h : readMessage t type bs = .ok m) : m.Fits t type := by
  unfold readMessage at h
  split at h
  · rename_i m' rest hr
    cases h
    exact (readsFit hs hreg _).fields ht (Message.empty_fits t type) hr
  · cases h

end RpcConsole.Wire

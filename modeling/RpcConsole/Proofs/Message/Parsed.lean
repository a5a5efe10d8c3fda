import RpcConsole.Message.FromJson
import RpcConsole.Proofs.Wire.Fits

namespace RpcConsole.FromJson

variable {t : TypeTable} {type : MessageType}

theorem ofInteger_contains {r : IntRange} {n k : Int} (h : r.ofInteger n = .ok k) :
    r.contains k = true := by
  unfold IntRange.ofInteger at h
  split at h
  · cases h
  · split at h
    · cases h
    · cases h
      rw [IntRange.contains_iff]
      omega

theorem ofBinary64_contains {r : IntRange} {x : Binary64} {k : Int} (hr : r.low ≤ r.high)
    (h : r.ofBinary64 x = .ok k) : r.contains k = true := by
  simp only [IntRange.ofBinary64] at h
  split at h
  · cases h
  · split at h
    · cases h
      rw [IntRange.contains_iff, IntRange.clamp]
      omega
    · cases h

theorem ofText_contains {r : IntRange} {s : String} {k : Int} (hl : r.low ≤ 0) (hu : 0 ≤ r.high)
    (h : r.ofText s = .ok k) : r.contains k = true := by
  unfold IntRange.ofText at h
  split at h
  · rename_i hr
    cases h
    exact IntRange.read_contains hl hu hr
  · cases h

theorem intOf_takes {s : Scalar} {r : IntRange} {j : Json} {v : Value} (hr : s.range? = some r)
    (h : intOf s r j = .ok v) : s.Takes v := by
  obtain ⟨hl, hu⟩ := Scalar.range_bounds hr
  unfold intOf at h
  split at h
  · obtain ⟨n, hn, rfl⟩ := map_ok h
    exact ⟨hr, ofInteger_contains hn⟩
  · obtain ⟨n, hn, rfl⟩ := map_ok h
    exact ⟨hr, ofBinary64_contains (Int.le_trans hl hu) hn⟩
  · obtain ⟨n, hn, rfl⟩ := map_ok h
    exact ⟨hr, ofText_contains hl hu hn⟩
  · cases h

theorem doubleOf_takes {j : Json} {v : Value} (h : doubleOf j = .ok v) :
    Scalar.double.Takes v := by
  unfold doubleOf at h
  split at h
  · cases h
    rfl
  · cases h
    rfl
  · obtain ⟨x, -, rfl⟩ := map_ok h
    rfl
  · cases h

theorem singleOf_takes {j : Json} {v : Value} (h : singleOf j = .ok v) :
    Scalar.float.Takes v := by
  unfold singleOf at h
  split at h
  · cases h
    rfl
  · split at h
    · cases h
    · cases h
      rfl
  · obtain ⟨x, -, rfl⟩ := map_ok h
    rfl
  · cases h

theorem bytesOf_takes {j : Json} {v : Value} (h : bytesOf j = .ok v) :
    Scalar.bytes.Takes v := by
  unfold bytesOf at h
  split at h
  · split at h
    · cases h
      rfl
    · cases h
  · cases h

theorem scalar_takes {s : Scalar} {j : Json} {v : Value} (h : scalar s j = .ok v) :
    s.Takes v := by
  unfold scalar at h
  split at h
  · rename_i hr
    exact intOf_takes hr h
  · exact doubleOf_takes h
  · exact singleOf_takes h
  · exact bytesOf_takes h
  · split at h
    · cases h
      rfl
    · cases h
      rfl
    · cases h

theorem enum_takes (hs : t.Sound) {name : String} {j : Json} {v : Value}
    (h : enum t name j = .ok (some v)) : (Kind.enum name).Takes v := by
  unfold enum at h
  split at h
  · have h := Except.ok.inj h
    obtain ⟨n, hn, rfl⟩ := Option.map_eq_some_iff.mp h
    obtain ⟨e, he, hv⟩ := Option.bind_eq_some_iff.mp hn
    exact hs.enums e (List.mem_of_find?_eq_some he) _ (mem_of_lookup hv)
  · split at h
    · cases h
    · obtain ⟨n, hn, hv⟩ := map_ok h
      cases hv
      exact IntRange.contains_iff.mp (ofInteger_contains hn)
  · split at h
    · cases h
      simp [Kind.Takes]
    · cases h
  · cases h

theorem mapKey_takes {kind : Kind} {key : String} {k : MapKey} (hk : kind.IsKey)
    (h : mapKey kind key = .ok k) : kind.Takes (Wire.keyValue k) := by
  unfold mapKey at h
  split at h
  · split at h
    · cases h
      rfl
    · split at h
      · cases h
        rfl
      · cases h
  · rename_i s _
    split at h
    · rename_i r hr
      obtain ⟨n, hn, rfl⟩ := map_ok h
      obtain ⟨hl, hu⟩ := Scalar.range_bounds hr
      exact ⟨hr, ofText_contains hl hu hn⟩
    · rename_i hr
      cases h
      cases s <;> simp_all [Scalar.range?, Kind.IsKey, Kind.Takes, Scalar.Takes, Wire.keyValue]
  · cases kind <;> simp_all [Kind.IsKey]

theorem settle_fits (hs : t.Sound) (hreg : t.Regular) {name : String} {m m' : Message}
    (ht : t.message? name = some type) (h : settle t name m = .ok m') : m'.Fits t type := by
  unfold settle at h
  split at h
  · rename_i hr
    cases h
    rw [WellKnown.transfer, ht] at hr
    simp only at hr
    split at hr
    · exact Wire.readMessage_fits hs hreg (TypeTable.message?_mem ht) hr
    · cases hr
  · cases h

theorem wellKnown_fits (hs : t.Sound) (hreg : t.Regular) {name : String} {w : WellKnown}
    {j : Json} {m : Message} (ht : t.message? name = some type)
    (h : wellKnown t name w j = .ok m) : m.Fits t type := by
  unfold wellKnown at h
  split at h
  · exact settle_fits hs hreg ht h
  · exact settle_fits hs hreg ht h
  · exact settle_fits hs hreg ht h
  · obtain ⟨v, -, h⟩ := bind_eq_ok.mp h
    exact settle_fits hs hreg ht h
  · split at h
    · cases h
      exact Message.empty_fits t type
    · cases h
  · split at h
    · exact settle_fits hs hreg ht h
    · cases h
  · split at h
    · exact settle_fits hs hreg ht h
    · cases h
  · split at h
    · exact settle_fits hs hreg ht h
    · cases h
  all_goals cases h

/-- A shape that a field of a table of types can have. -/
structure Allowed (t : TypeTable) (shape : Shape) : Prop where
  key : ∀ key value, shape = .map key value → key.IsKey
  resolves : ∀ name, shape.item = .message name → (t.message? name).isSome

theorem allowed_shape (hs : t.Sound) (hreg : t.Regular) {f : Field} (hf : f.Sound t) :
    Allowed t (t.shape f) := by
  rcases hreg.form f with
    ⟨-, -, hshape⟩ | ⟨-, -, hshape⟩ | @⟨entry, k, v, -, he, -, hk, hshape⟩
  · rw [hshape]
    exact ⟨fun _ _ h => (by cases h), hf.resolves⟩
  · rw [hshape]
    exact ⟨fun _ _ h => (by cases h), hf.resolves⟩
  · rw [hshape]
    refine ⟨fun _ _ h => ?_, ?_⟩
    · cases h
      exact hk.keyKind
    · exact (hs.field entry he v (List.mem_of_find?_eq_some hk.value)).resolves

theorem Allowed.single {shape : Shape} (h : Allowed t shape) : Allowed t (.single shape.item) :=
  ⟨fun _ _ h => (by cases h), h.resolves⟩

theorem fits_message {name : String} {m : Message} (ht : t.message? name = some type)
    (hm : m.Fits t type) : (Value.message name m).Fits t (.single (.message name)) := by
  simpa [Value.Fits, Shape.kind?, ht] using hm

/-- A field that a key means can be stored under its number. -/
theorem fieldFor_numbered (hs : t.Sound) (hreg : t.Regular) (ht : type ∈ t.messages) {key : String}
    {f : Field} (h : fieldFor? t type key = some f) :
    t.fieldNumbered? type f.number = some f := by
  have hown : ∀ f ∈ type.fields, t.fieldNumbered? type f.number = some f := fun f hf =>
    TypeTable.fieldNumbered?_own (find?_of_nodup Field.number (hs.numbers type ht) hf)
  rcases Option.or_eq_some_iff.mp h with h | ⟨-, hx⟩
  · rcases Option.or_eq_some_iff.mp h with hj | ⟨-, hn⟩
    · exact hown f (List.mem_of_find?_eq_some hj)
    · exact hown f (List.mem_of_find?_eq_some hn)
  · obtain ⟨x, hfind, rfl⟩ := Option.map_eq_some_iff.mp hx
    have hmem := List.mem_of_find?_eq_some hfind
    have hp := List.find?_some hfind
    simp only [Bool.and_eq_true, beq_iff_eq] at hp
    have hfree := hs.extensionFree x hmem type ht hp.1
    have hnum : t.extensionNumbered? type.name x.field.number = some x := by
      cases hy : t.extensionNumbered? type.name x.field.number with
      | none =>
        have hnone := List.find?_eq_none.mp hy x hmem
        simp [hp.1] at hnone
      | some y =>
        have hymem := List.mem_of_find?_eq_some hy
        have hyp := List.find?_some hy
        simp only [Bool.and_eq_true, beq_iff_eq] at hyp
        rw [hreg.extension_eq hymem hmem (hyp.1.trans hp.1.symm) hyp.2]
    simp [TypeTable.fieldNumbered?, hfree, hnum]

/-- What null stands for can be stored, alone if the field is a list. -/
theorem null_fits (hs : t.Sound) (hreg : t.Regular) {f : Field} (hf : f.Sound t) {v : Value}
    (h : null t f = .ok (some v)) : v.Fits t (t.shape f) := by
  have hlone {kind : Kind} {w : Value} (hk : f.kind = kind) (hnull : kind.holdsNull = true)
      (hw : w.Fits t (.single kind)) : w.Fits t (t.shape f) := by
    rcases hreg.form f with ⟨-, -, hshape⟩ | ⟨-, -, hshape⟩ | @⟨entry, k, u, -, he, hm, -, -⟩
    · rwa [hshape, hk]
    · rw [hshape, hk]
      cases w with
      | list | map => cases hw
      | bool | int | enum | single | double | str | bytes | message =>
        simpa [Value.Fits, Shape.kind?, hnull] using hw
    · obtain ⟨hkind, -, hentry⟩ := TypeTable.mapEntry?_eq_some hm
      rw [← hk, hkind, Kind.holdsNull, beq_iff_eq] at hnull
      have hnone := (hreg.entries entry he hentry).2
      rw [hnull] at hnone
      exact absurd hnone (by decide)
  unfold null at h
  cases hk : f.kind with
  | scalar s =>
    simp only [hk] at h
    cases h
  | enum name =>
    simp only [hk] at h
    split at h
    · rename_i hname
      cases h
      have hzero : (Kind.enum name).Takes (.enum 0) := by simp [Kind.Takes]
      exact hlone hk hname (Wire.fits_of_takes hzero)
    · cases h
  | message name =>
    simp only [hk] at h
    split at h
    · rename_i hname
      obtain ⟨m, hm, h⟩ := bind_eq_ok.mp h
      cases pure_eq_ok.mp h
      obtain ⟨type, ht⟩ := Option.isSome_iff_exists.mp (hf.resolves name hk)
      exact hlone hk hname (fits_message ht (settle_fits hs hreg ht hm))
    · cases h

theorem assign_fits (hs : t.Sound) (hreg : t.Regular) (ht : type ∈ t.messages) {key : String}
    {f : Field} {v : Option Value} {m m' : Message} (hf : fieldFor? t type key = some f)
    (hv : ∀ w, v = some w → w.Fits t (t.shape f)) (hm : m.Fits t type)
    (h : assign t type f v m = .ok m') : m'.Fits t type := by
  unfold assign at h
  split at h
  · cases h
    exact hm
  · cases h
  · cases h
    exact MessageType.store_fits hs ht (fieldFor_numbered hs hreg ht hf) (hv _ rfl) hm

theorem single_fits {kind : Kind} {v : Value} (h : kind.Takes v) : v.Fits t (.single kind) :=
  Wire.fits_of_takes h

/-- A scalar or an enum, whatever JSON value it is read from. -/
theorem plain_fits (hs : t.Sound) {shape : Shape} {j : Json} {v : Value}
    (h : (∃ s, shape = .single (.scalar s) ∧ (scalar s j).map some = .ok (some v)) ∨
      ∃ name, shape = .single (.enum name) ∧ enum t name j = .ok (some v)) :
    v.Fits t shape := by
  rcases h with ⟨s, rfl, h⟩ | ⟨name, rfl, h⟩
  · obtain ⟨w, hw, h⟩ := map_ok h
    cases h
    have hs : (Kind.scalar s).Takes v := scalar_takes hw
    exact single_fits hs
  · exact single_fits (enum_takes hs h)

/-- A message with a text form of its own, whatever JSON value it is read from. -/
theorem special_fits (hs : t.Sound) (hreg : t.Regular) {name : String} {w : WellKnown} {j : Json}
    {v : Value} (ha : Allowed t (.single (.message name)))
    (h : (do return some (.message name (← wellKnown t name w j)) :
      Except TextFault (Option Value)) = .ok (some v)) : v.Fits t (.single (.message name)) := by
  obtain ⟨m, hm, h⟩ := bind_eq_ok.mp h
  cases pure_eq_ok.mp h
  obtain ⟨type, ht⟩ := Option.isSome_iff_exists.mp (ha.resolves name rfl)
  exact fits_message ht (wellKnown_fits hs hreg ht hm)

/-- A message of any type, whatever is inside it. -/
theorem wrapped_fits (hs : t.Sound) (hreg : t.Regular) {name url inner : String} {content : Message}
    {v : Value} (ha : Allowed t (.single (.message name)))
    (h : (do return some (.message name (← wrapAny t name url inner content)) :
      Except TextFault (Option Value)) = .ok (some v)) : v.Fits t (.single (.message name)) := by
  obtain ⟨m, hm, h⟩ := bind_eq_ok.mp h
  cases pure_eq_ok.mp h
  obtain ⟨type, ht⟩ := Option.isSome_iff_exists.mp (ha.resolves name rfl)
  unfold wrapAny at hm
  split at hm
  · exact fits_message ht (settle_fits hs hreg ht hm)
  · cases hm

/-- What is read for a member whose key means a field. -/
def member (t : TypeTable) (f : Field) : Json → Except TextFault (Option Value)
  | .null => null t f
  | j => value t (t.shape f) j

theorem member_eq_value {f : Field} {j : Json} (hj : j ≠ .null) :
    member t f j = value t (t.shape f) j := by
  cases j with
  | null => exact absurd rfl hj
  | bool | int | double | single | str | arr | obj => rfl

theorem members_cons {skip : Option String} {key : String} {j : Json} {ms : List (String × Json)}
    {m : Message} (hk : (skip == some key) = false) :
    members t type skip ((key, j) :: ms) m =
      (match fieldFor? t type key with
      | none => members t type skip ms m
      | some f => (do
        let v ← member t f j
        let m ← assign t type f v m
        members t type skip ms m)) := by
  rw [members, hk]
  cases fieldFor? t type key with
  | none => rfl
  | some f => cases j <;> rfl

/-- What reading one more entry of a map does. -/
theorem entries_cons_ok {key kind : Kind} {name : String} {j : Json} {ms : List (String × Json)}
    {es : List (MapKey × Value)} (h : entries t key kind ((name, j) :: ms) = .ok es) :
    ∃ k v rest, mapKey key name = .ok k ∧ value t (.single kind) j = .ok v ∧
      entries t key kind ms = .ok rest ∧
      (es = rest ∧ (v.isSome = true → (rest.lookup k).isSome = true) ∨
        ∃ w, v = some w ∧ rest.lookup k = none ∧ es = Value.insertEntry k w rest) := by
  obtain ⟨k, hk, h⟩ := bind_eq_ok.mp h
  obtain ⟨v, hv, h⟩ := bind_eq_ok.mp h
  obtain ⟨rest, hrest, h⟩ := bind_eq_ok.mp h
  refine ⟨k, v, rest, hk, hv, hrest, ?_⟩
  cases v with
  | none =>
    cases pure_eq_ok.mp h
    exact .inl ⟨rfl, nofun⟩
  | some w =>
    simp only at h
    split at h
    · rename_i hheld
      cases pure_eq_ok.mp h
      exact .inl ⟨rfl, fun _ => hheld⟩
    · rename_i hfree
      cases pure_eq_ok.mp h
      exact .inr ⟨w, rfl, Option.not_isSome_iff_eq_none.mp hfree, rfl⟩

mutual

theorem value_fits (hs : t.Sound) (hreg : t.Regular) (shape : Shape) (ha : Allowed t shape) :
    ∀ (j : Json) (v : Value), value t shape j = .ok (some v) → v.Fits t shape
  | .obj ms, v, h => by
    unfold value at h
    cases shape with
    | map key kind =>
      obtain ⟨es, hes, h⟩ := bind_eq_ok.mp h
      cases pure_eq_ok.mp h
      exact entries_fit hs hreg key kind (ha.key key kind rfl) ha.single ms es hes
    | list | torn => cases h
    | single kind =>
      cases kind with
      | scalar s => exact plain_fits hs (.inl ⟨s, rfl, h⟩)
      | enum name => exact plain_fits hs (.inr ⟨name, rfl, h⟩)
      | message name =>
        simp only at h
        split at h
        · obtain ⟨⟨url, inner⟩, -, h⟩ := bind_eq_ok.mp h
          simp only at h
          split at h
          · obtain ⟨content, -, h⟩ := bind_eq_ok.mp h
            exact wrapped_fits hs hreg ha h
          · obtain ⟨content, -, h⟩ := bind_eq_ok.mp h
            exact wrapped_fits hs hreg ha h
        · exact special_fits hs hreg ha h
        · cases ht : t.message? name with
          | none =>
            simp only [ht] at h
            cases h
          | some type =>
            simp only [ht] at h
            obtain ⟨m, hm, h⟩ := bind_eq_ok.mp h
            cases pure_eq_ok.mp h
            exact fits_message ht (members_fit hs hreg type (TypeTable.message?_mem ht) none ms
              .empty m (Message.empty_fits t type) hm)
  | .arr vs, v, h => by
    unfold value at h
    cases shape with
    | map | torn => cases h
    | list kind =>
      obtain ⟨items, hitems, h⟩ := bind_eq_ok.mp h
      cases pure_eq_ok.mp h
      exact items_fit hs hreg kind ha.single vs items hitems
    | single kind =>
      cases kind with
      | scalar s => exact plain_fits hs (.inl ⟨s, rfl, h⟩)
      | enum name => exact plain_fits hs (.inr ⟨name, rfl, h⟩)
      | message name =>
        simp only at h
        split at h
        · exact special_fits hs hreg ha h
        · cases h
  | .null, v, h | .bool _, v, h | .int _, v, h | .double _, v, h | .single _, v, h
  | .str _, v, h => by
    unfold value at h
    cases shape with
    | map | torn | list => cases h
    | single kind =>
      cases kind with
      | scalar s => exact plain_fits hs (.inl ⟨s, rfl, h⟩)
      | enum name => exact plain_fits hs (.inr ⟨name, rfl, h⟩)
      | message name =>
        simp only at h
        split at h
        · exact special_fits hs hreg ha h
        · cases h

theorem items_fit (hs : t.Sound) (hreg : t.Regular) (kind : Kind)
    (ha : Allowed t (.single kind)) : ∀ (js : List Json) (vs : List Value),
      items t kind js = .ok vs → Value.ItemsFit t kind vs
  | [], vs, h => by
    cases h
    trivial
  | j :: js, vs, h => by
    obtain ⟨v, hv, h⟩ := bind_eq_ok.mp h
    obtain ⟨rest, hrest, h⟩ := bind_eq_ok.mp h
    cases pure_eq_ok.mp h
    have hfit := items_fit hs hreg kind ha js rest hrest
    cases v with
    | none => exact hfit
    | some w => exact ⟨value_fits hs hreg (.single kind) ha j w hv, hfit⟩

theorem entries_fit (hs : t.Sound) (hreg : t.Regular) (key kind : Kind) (hk : key.IsKey)
    (ha : Allowed t (.single kind)) : ∀ (ms : List (String × Json)) (es : List (MapKey × Value)),
      entries t key kind ms = .ok es → Value.Sorted es ∧ Value.EntriesFit t key kind es
  | [], es, h => by
    cases h
    exact ⟨.nil, trivial⟩
  | (name, j) :: ms, es, h => by
    obtain ⟨k, v, rest, hkey, hv, hrest, hstored⟩ := entries_cons_ok h
    obtain ⟨hsorted, hfit⟩ := entries_fit hs hreg key kind hk ha ms rest hrest
    rcases hstored with ⟨rfl, -⟩ | ⟨w, rfl, -, rfl⟩
    · exact ⟨hsorted, hfit⟩
    · have htakes := mapKey_takes hk hkey
      have hw := value_fits hs hreg (.single kind) ha j w hv
      exact ⟨Value.insertEntry_keeps_sorted htakes hfit hsorted,
        Value.insertEntry_fits htakes hw hfit⟩

theorem members_fit (hs : t.Sound) (hreg : t.Regular) (type : MessageType)
    (ht : type ∈ t.messages) (skip : Option String) :
    ∀ (ms : List (String × Json)) (m m' : Message), m.Fits t type →
      members t type skip ms m = .ok m' → m'.Fits t type
  | [], m, m', hm, h => by
    cases h
    exact hm
  | (name, j) :: ms, m, m', hm, h => by
    cases hskip : skip == some name with
    | true =>
      rw [members, hskip] at h
      exact members_fit hs hreg type ht skip ms m m' hm h
    | false =>
      rw [members_cons hskip] at h
      cases hf : fieldFor? t type name with
      | none =>
        simp only [hf] at h
        exact members_fit hs hreg type ht skip ms m m' hm h
      | some f =>
        simp only [hf] at h
        obtain ⟨v, hv, h⟩ := bind_eq_ok.mp h
        obtain ⟨m₁, hm₁, h⟩ := bind_eq_ok.mp h
        have hsound := hs.numbered ht (fieldFor_numbered hs hreg ht hf)
        have hfit : ∀ w, v = some w → w.Fits t (t.shape f) := by
          rintro w rfl
          cases j with
          | null => exact null_fits hs hreg hsound hv
          | bool | int | double | single | str | arr | obj =>
            exact value_fits hs hreg (t.shape f) (allowed_shape hs hreg hsound) _ w hv
        exact members_fit hs hreg type ht skip ms m₁ m'
          (assign_fits hs hreg ht hf hfit hm hm₁) h

end

/-- A message that is read for a type is of this type and fits it. -/
theorem value_message (hs : t.Sound) (hreg : t.Regular) {name held : String} {j : Json}
    {m : Message} (ht : t.message? name = some type)
    (h : value t (.single (.message name)) j = .ok (some (.message held m))) :
    held = name ∧ m.Fits t type := by
  obtain ⟨hkind, hfit⟩ := value_fits hs hreg (.single (.message name))
    ⟨fun _ _ h => (by cases h), by rintro _ ⟨⟩; simp [ht]⟩ j _ h
  obtain rfl := Kind.message.inj (Option.some.inj hkind)
  exact ⟨rfl, by simpa [ht] using hfit⟩

theorem message_fits (hs : t.Sound) (hreg : t.Regular) {name : String} {j : Json} {m : Message}
    (ht : t.message? name = some type) (h : message t name j = .ok m) : m.Fits t type := by
  obtain ⟨v, hv, h⟩ := bind_eq_ok.mp h
  split at h
  · cases pure_eq_ok.mp h
    exact (value_message hs hreg ht hv).2
  · cases h

end RpcConsole.FromJson

import RpcConsole.Message.ToJson
import RpcConsole.Proofs.Json.RoundTrip
import RpcConsole.Proofs.Json.Sorted
import RpcConsole.Proofs.Message.Legible
import RpcConsole.Proofs.Message.Parsed
import RpcConsole.Proofs.Text.Base64

namespace RpcConsole

/-- What is shown under a shape, read as a value. Enum names in it have their spelling. -/
structure Told (t : TypeTable) (shape : Shape) (j : Json) (v : Value) : Prop where
  plain : j.IsPlain
  spelled : j.asRead.spelled t shape = j.asRead
  read : FromJson.value t shape j.asRead = .ok (some v)
  full : j.asRead ≠ .null

variable {t : TypeTable} {type : MessageType} {shape : Shape} {kind : Kind} {f : Field} {v : Value}

/-- A floating-point number is zero. -/
def Value.IsZero : Value → Prop
  | .single x => x.IsZero
  | .double x => x.IsZero
  | _ => True

theorem EnumType.number?_nameOf? {e : EnumType} {n : Int} {word : String}
    (hd : (e.values.map Prod.fst).Nodup) (h : e.nameOf? n = some word) :
    e.number? word = some n := by
  obtain ⟨⟨w, k⟩, hf, rfl⟩ := Option.map_eq_some_iff.mp h
  have hk : k = n := by simpa using List.find?_some hf
  subst hk
  exact lookup_of_nodup hd (List.mem_of_find?_eq_some hf)

theorem IntRange.ofInteger_eq_ok {r : IntRange} {n : Int} (hl : r.low ≤ n) (hu : n ≤ r.high) :
    r.ofInteger n = .ok n := by
  rw [ofInteger, if_neg (by omega), if_neg (by omega)]

theorem enum_told (hn : t.Named) {name : String} {n : Int}
    (h : -2147483648 ≤ n ∧ n ≤ 2147483647) (hnull : name ≠ WellKnown.nullValue) :
    Told t (.single (.enum name)) (ToJson.enumJson t name n) (.enum n) := by
  have hne : (name == WellKnown.nullValue) = false := beq_eq_false_iff_ne.mpr hnull
  unfold ToJson.enumJson
  rw [hne]
  simp only [Bool.false_eq_true, ↓reduceIte]
  cases hw : (t.enum? name).bind (fun e => e.nameOf? n) with
  | none =>
    have hr : IntRange.signed32.ofInteger n = .ok n := IntRange.ofInteger_eq_ok h.1 h.2
    refine ⟨by simp only [Json.IsPlain]; omega, by simp [Json.asRead, Json.spelled], ?_,
      by simp [Json.asRead]⟩
    simp [Json.asRead, FromJson.value, FromJson.enum, hne, hr, Except.map]
  | some word =>
    obtain ⟨e, he, hword⟩ := Option.bind_eq_some_iff.mp hw
    have hnumber := EnumType.number?_nameOf? (hn.values e (List.mem_of_find?_eq_some he)) hword
    have hs : e.spelling word = word := EnumType.spelling_declared (by simp [hnumber])
    refine ⟨trivial, by simp [Json.asRead, Json.spelled, he, hs], ?_, by simp [Json.asRead]⟩
    simp [Json.asRead, FromJson.value, FromJson.enum, he, hnumber]

theorem spelled_scalar (t : TypeTable) (s : Scalar) (j : Json) :
    j.spelled t (.single (.scalar s)) = j := by
  cases j <;> simp [Json.spelled]

theorem value_scalar (t : TypeTable) (s : Scalar) (j : Json) :
    FromJson.value t (.single (.scalar s)) j = (FromJson.scalar s j).map some := by
  cases j <;> simp [FromJson.value]

theorem scalar_told {s : Scalar} {j : Json} (hp : j.IsPlain) (hj : j.asRead ≠ .null)
    (h : FromJson.scalar s j.asRead = .ok v) : Told t (.single (.scalar s)) j v where
  plain := hp
  spelled := spelled_scalar t s j.asRead
  read := by
    rw [value_scalar, h]
    rfl
  full := hj

theorem int_told {s : Scalar} {r : IntRange} {n : Int} (hr : s.range? = some r)
    (hn : r.contains n = true) : Told t (.single (.scalar s)) (.int n) (.int r n) := by
  obtain ⟨hl, hu⟩ := IntRange.contains_iff.mp hn
  have hplain : (Json.int n).IsPlain := by
    simp only [Json.IsPlain]
    cases s <;> cases hr <;> simp only [IntRange.signed32, IntRange.signed64,
      IntRange.unsigned32, IntRange.unsigned64] at hl hu <;> omega
  refine scalar_told hplain (by simp [Json.asRead]) ?_
  unfold FromJson.scalar
  simp [hr, Json.asRead, FromJson.intOf, IntRange.ofInteger_eq_ok hl hu, Except.map]

/-- A zero is shown as such, and is read at either width. -/
theorem single_told {x : Binary32} (hx : x.IsZero) :
    Told t (.single (.scalar .float)) (.single x) (.single x) := by
  have hrange : ((x.toBinary64).meaning.isAbove Binary32.greatest ||
      (x.toBinary64).meaning.isBelow (-Binary32.greatest)) = false := by
    rcases hx with rfl | rfl <;> decide +kernel
  have hzero : Binary32.ofBinary64 x.toBinary64 = x := by
    rcases hx with rfl | rfl <;> decide +kernel
  refine scalar_told hx (by simp [Json.asRead]) ?_
  simp only [Json.asRead, FromJson.scalar, Scalar.range?, FromJson.singleOf, hrange,
    Bool.false_eq_true, ↓reduceIte, hzero]

/-- A single value that holds no message. -/
theorem plain_told (hn : t.Named) (h : kind.Takes v) (hnull : kind ≠ .enum WellKnown.nullValue)
    (hz : v.IsZero) : Told t (.single kind) (ToJson.plain t kind v) v := by
  cases kind with
  | message name => exact absurd h (by simp [Kind.Takes])
  | enum name =>
    cases v with
    | enum n => exact enum_told hn h fun he => hnull (congrArg Kind.enum he)
    | bool | int | single | double | str | bytes | message | list | map =>
      exact absurd h (by simp [Kind.Takes])
  | scalar s =>
    cases v with
    | enum | message | list | map => exact absurd h (by simp [Kind.Takes, Scalar.Takes])
    | int r n =>
      obtain ⟨hr, hc⟩ := h
      exact int_told hr hc
    | bool b =>
      obtain rfl : s = .bool := h
      exact scalar_told trivial (by simp [ToJson.plain, Json.asRead]) rfl
    | str text =>
      obtain rfl : s = .string := h
      exact scalar_told trivial (by simp [ToJson.plain, Json.asRead]) rfl
    | bytes bs =>
      obtain rfl : s = .bytes := h
      refine scalar_told trivial (by simp [ToJson.plain, Json.asRead]) ?_
      simp [ToJson.plain, Json.asRead, FromJson.scalar, Scalar.range?, FromJson.bytesOf,
        Base64.decode_encode]
    | single x =>
      obtain rfl : s = .float := h
      have hx : x.IsZero := hz
      have hw : ToJson.wordOf? x.meaning = none := by rcases hx with rfl | rfl <;> decide +kernel
      have hshow : ToJson.plain t (.scalar .float) (.single x) = .single x := by
        simp [ToJson.plain, hw]
      rw [hshow]
      exact single_told hx
    | double x =>
      obtain rfl : s = .double := h
      have hx : x.IsZero := hz
      have hw : ToJson.wordOf? x.meaning = none := by rcases hx with rfl | rfl <;> decide +kernel
      have hshow : ToJson.plain t (.scalar .double) (.double x) = .double x := by
        simp [ToJson.plain, hw]
      rw [hshow]
      exact scalar_told hx (by simp [Json.asRead]) rfl

theorem empty_list_told (t : TypeTable) (kind : Kind) :
    Told t (.list kind) (.arr []) (.list []) where
  plain := trivial
  spelled := by simp [Json.asRead, Json.asReadItems, Json.spelled, Json.spelledItems]
  read := by
    simp only [Json.asRead, Json.asReadItems, FromJson.value, FromJson.items]
    rfl
  full := by simp [Json.asRead]

theorem empty_map_told (t : TypeTable) (key kind : Kind) :
    Told t (.map key kind) (.obj []) (.map []) where
  plain := trivial
  spelled := by
    simp [Json.asRead, Json.asReadMembers, Json.sorted, Json.spelled, Json.spelledEntries]
  read := by
    simp only [Json.asRead, Json.asReadMembers, Json.sorted, List.foldl_nil, FromJson.value,
      FromJson.entries]
    rfl
  full := by simp [Json.asRead]

/-- What is shown for a field for which nothing is stored. -/
theorem default_told (hs : t.Sound) (he : t.HasEntries f) (hn : t.Named) (ht : type ∈ t.messages)
    (hf : f ∈ type.fields) (hp : f.hasPresence = false)
    (hnull : f.kind ≠ .enum WellKnown.nullValue) :
    Told t (t.shape f) (ToJson.default t f) (t.fieldDefault f) := by
  rcases he.shapes with ⟨hr, hshape⟩ | ⟨hr, hm, hshape⟩ | ⟨hr, hm, key, value, hshape⟩
  · have hfield := hs.field type ht f hf
    obtain ⟨hw, hk⟩ := hfield.bare hp hr
    have htakes : f.kind.Takes (t.fieldDefault f) := by
      rcases Value.fits_single (Wire.fieldDefault_fits hs hfield hr) with ⟨name, -, -, hm, -⟩ | h
      · exact absurd hm (hk name)
      · exact h
    have hzero : (t.fieldDefault f).IsZero := by
      simp only [TypeTable.fieldDefault, hr, Bool.false_eq_true, ↓reduceIte, hw, Option.getD_none]
      cases f.kind with
      | scalar s =>
        cases s with
        | double => exact Binary64.isZero_zero
        | float => exact Binary32.isZero_zero
        | _ => trivial
      | message | enum => trivial
    rw [ToJson.default, hshape]
    exact plain_told hn htakes hnull hzero
  · have hd : t.fieldDefault f = .list [] := by simp [TypeTable.fieldDefault, hr, hm]
    rw [ToJson.default, hshape, hd]
    exact empty_list_told t f.kind
  · have hd : t.fieldDefault f = .map [] := by simp [TypeTable.fieldDefault, hr, hm]
    rw [ToJson.default, hshape, hd]
    exact empty_map_told t _ _

/-- The forms of what is redundant: an empty list or map, or a single value that is its default. -/
theorem redundant_forms (hf : f.Sound t) (hv : v.Fits t (t.shape f))
    (hx : t.isRedundant f v = true) :
    (∃ kind, v = .list [] ∧ t.shape f = .list kind) ∨
      (∃ key kind, v = .map [] ∧ t.shape f = .map key kind) ∨
        t.shape f = .single f.kind ∧ f.kind.Takes v ∧ v.isSingle (t.kindDefault f.kind) = true := by
  simp only [TypeTable.isRedundant, Bool.and_eq_true, Bool.or_eq_true, Bool.not_eq_true'] at hx
  obtain ⟨hp, hempty | ⟨hr, hsingle⟩⟩ := hx
  · unfold Value.isEmpty at hempty
    split at hempty
    · cases hshape : t.shape f with
      | list kind => exact .inl ⟨kind, rfl, rfl⟩
      | single | map | torn => simp [hshape, Value.Fits] at hv
    · cases hshape : t.shape f with
      | map key kind => exact .inr (.inl ⟨key, kind, rfl, rfl⟩)
      | single | list | torn => simp [hshape, Value.Fits] at hv
    · cases hempty
  · have hshape : t.shape f = .single f.kind := by simp [TypeTable.shape, hr]
    have hd : t.fieldDefault f = t.kindDefault f.kind := by
      simp [TypeTable.fieldDefault, hr, (hf.bare hp hr).1]
    rw [hshape] at hv
    rw [hd] at hsingle
    rcases Value.fits_single hv with ⟨_, _, m, -, rfl, -⟩ | htakes
    · cases hsingle
    · exact .inr (.inr ⟨hshape, htakes, hsingle⟩)

theorem isZero_of_default {kind : Kind} (h : v.isSingle (t.kindDefault kind) = true) :
    v.IsZero := by
  cases v with
  | single x =>
    cases kind with
    | scalar s =>
      cases s with
      | float => exact Binary32.isZero_of_numEq h
      | _ => cases h
    | message | enum => cases h
  | double x =>
    cases kind with
    | scalar s =>
      cases s with
      | double => exact Binary64.isZero_of_numEq h
      | _ => cases h
    | message | enum => cases h
  | _ => trivial

/-- A value of a kind that holds no message is shown on its own. -/
theorem ToJson.value_takes {f : Field} {v : Value} (inner : ToJson.Inner) (h : f.kind.Takes v) :
    ToJson.value inner t f v = .ok (ToJson.plain t f.kind v) := by
  cases hk : f.kind with
  | message => simp [hk, Kind.Takes] at h
  | enum name =>
    cases v with
    | enum n => simp [ToJson.value, ToJson.plain, hk]
    | _ => simp [hk, Kind.Takes] at h
  | scalar s =>
    cases v with
    | enum | message | list | map => simp [hk, Kind.Takes, Scalar.Takes] at h
    | _ => rfl

/-- What is redundant is shown as it is stored. -/
theorem redundant_told (hn : t.Named) (hf : f.Sound t) (hnull : f.kind ≠ .enum WellKnown.nullValue)
    (inner : ToJson.Inner) (hv : v.Fits t (t.shape f)) (hx : t.isRedundant f v = true) :
    ∃ j, ToJson.value inner t f v = .ok j ∧ Told t (t.shape f) j v := by
  rcases redundant_forms hf hv hx with ⟨kind, rfl, hshape⟩ | ⟨key, kind, rfl, hshape⟩ |
    ⟨hshape, htakes, hsingle⟩
  · exact ⟨.arr [], rfl, hshape ▸ empty_list_told t kind⟩
  · refine ⟨.obj [], ?_, hshape ▸ empty_map_told t key kind⟩
    obtain ⟨v, hw, -⟩ := TypeTable.shape_map hshape
    simp only [ToJson.value, hw]
    rfl
  · refine ⟨ToJson.plain t f.kind v, ToJson.value_takes inner htakes, ?_⟩
    rw [hshape]
    exact plain_told hn htakes hnull (isZero_of_default hsingle)

/-- The text of a key is read as the key. -/
theorem FromJson.mapKey_text {k : MapKey} (hk : kind.IsKey) (h : kind.Takes (Wire.keyValue k)) :
    mapKey kind k.text = .ok k := by
  cases kind with
  | message | enum => exact absurd hk (by simp [Kind.IsKey])
  | scalar s =>
    cases k with
    | bool b =>
      obtain rfl : s = .bool := h
      cases b <;> simp [mapKey, MapKey.text]
    | str text =>
      obtain rfl : s = .string := h
      rfl
    | int r n =>
      obtain ⟨hr, hc⟩ := h
      have hread : r.ofText (toString n) = .ok n := by
        rw [IntRange.ofText, IntRange.read_toString hc]
      cases s <;> cases hr <;> simp only [mapKey, Scalar.range?, MapKey.text, hread, Except.map]

/-- An entry in front of those of later keys. -/
theorem FromJson.entries_cons {key : Kind} {k : MapKey} {j : Json} {ms : List (String × Json)}
    {es : List (MapKey × Value)} (hk : mapKey key k.text = .ok k)
    (hj : value t (.single kind) j = .ok (some v)) (hms : entries t key kind ms = .ok es)
    (hlt : ∀ e ∈ es, k.text < e.1.text) :
    entries t key kind ((k.text, j) :: ms) = .ok ((k, v) :: es) := by
  have hnone : es.lookup k = none := by
    rw [List.lookup_eq_none_iff]
    intro e he
    rw [bne_iff_ne]
    rintro rfl
    exact lt_irrefl _ (hlt e he)
  have hfront : Value.insertEntry k v es = (k, v) :: es := by
    cases es with
    | nil => rfl
    | cons e es => simp [Value.insertEntry, hlt e (by simp)]
  simp [entries, hk, hj, hms, hnone, hfront, bind, Except.bind, pure, Except.pure]

end RpcConsole

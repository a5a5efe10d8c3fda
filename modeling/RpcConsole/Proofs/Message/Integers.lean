import RpcConsole.Proofs.Json.Integers
import RpcConsole.Proofs.Message.ClearedPlaces
import RpcConsole.Proofs.Message.LostNames
import RpcConsole.Proofs.Message.Whole

namespace RpcConsole

/-- A JSON value is what is read where a text has the characters of an integer: a string of them, or
what the reader makes of them as a number, whatever stands behind them. -/
inductive Json.Writes : Json → Int → Prop where
  | text {s : String} {n : Int} (hs : WritesInteger s.toList n) : Writes (.str s) n
  | number {cs rest rest' : List Char} {depth : Nat} {j : Json} {n : Int}
      (hcs : WritesInteger cs n) (hrest : Closes rest)
      (h : value (depth + 1) (cs ++ rest) = .ok (j, rest')) : Writes j n

/-- An integer of 64 bits is what is read for its text. -/
theorem Json.Writes.int {n : Int} (hn : IsPlain (.int n)) : Writes (.int n) n := by
  have hread : value 1 ((toString n).toList ++ []) = .ok (.int n, []) := value_int hn 0 nofun
  have hend : Closes [] := trivial
  exact .number (.toString n) hend hread

/-- What an integer of a text is taken for: itself, if it is in range, or the end of a range of 64
bits that it is near to, if it has become a floating-point number. -/
inductive IntRange.TakesFor (r : IntRange) (j : Json) (n : Int) : Int → Prop where
  | exact (h : r.contains n = true) : TakesFor r j n n
  | near {x : Binary64} (hj : j = .double x) (h : r.IsNear n) : TakesFor r j n (r.clamp n)

theorem toLower_eq_self {d : Char} (hd : d.toNat ≤ 57) : d.toLower = d := by
  unfold Char.toLower
  split
  · rename_i hupper
    have hlow : 65 ≤ d.toNat := UInt32.le_iff_toNat_le.mp hupper.1
    omega
  · rfl

/-- A digit or a minus sign is the small letter of nothing else. -/
theorem eq_of_toLower {c d : Char} (hd : d.toNat ≤ 57) (h : c.toLower = d) : c = d := by
  unfold Char.toLower at h
  split at h
  · rename_i hupper
    have hlow : 65 ≤ c.toNat := UInt32.le_iff_toNat_le.mp hupper.1
    have hhigh : c.toNat ≤ 90 := UInt32.le_iff_toNat_le.mp hupper.2
    have hsum : d.toNat = (c.toNat + 32) % 2 ^ 32 := by
      rw [← h]
      exact UInt32.toNat_add _ _
    omega
  · exact h

theorem eq_of_map_toLower {cs ds : List Char} (hd : ∀ d ∈ ds, d.toNat ≤ 57)
    (h : cs.map Char.toLower = ds.map Char.toLower) : cs = ds := by
  induction ds generalizing cs with
  | nil => exact List.map_eq_nil_iff.mp h
  | cons d ds ih =>
    obtain ⟨hle, hds⟩ := List.forall_mem_cons.mp hd
    obtain ⟨c, cs', rfl, hc, hcs⟩ := List.map_eq_cons_iff.mp h
    rw [eq_of_toLower hle (hc.trans (toLower_eq_self hle)), ih hds hcs]

namespace WritesInteger

theorem toNat_le {cs : List Char} {n : Int} (h : WritesInteger cs n) :
    ∀ c ∈ cs, c.toNat ≤ 57 := by
  have hdigits {ds : List Char} (hd : ∀ d ∈ ds, d.isDigit = true) : ∀ d ∈ ds, d.toNat ≤ 57 :=
    fun d hmem => (Char.isDigit_iff_toNat.mp (hd d hmem)).2
  cases h with
  | natural hne hd => exact hdigits hd
  | negative hne hd => exact List.forall_mem_cons.mpr ⟨by decide, hdigits hd⟩

/-- What writes an integer is no name in another case. -/
theorem sameName {s s' : String} {n : Int} (h : WritesInteger s.toList n)
    (hs : EnumType.sameName s' s = true) : s' = s :=
  String.toList_injective (eq_of_map_toLower h.toNat_le (beq_iff_eq.mp hs))

end WritesInteger

theorem Json.Writes.spelledAt {j : Json} {n : Int} (h : j.Writes n) (t : TypeTable)
    (place : Option Shape) : j.spelledAt t place = j := by
  cases h with
  | @text s n hs =>
    obtain ⟨s', hs', hsame, -⟩ := Json.spelledAt_str t place s
    rw [hs', hs.sameName hsame]
  | number hcs hrest h =>
    cases place with
    | none => rfl
    | some shape =>
      rcases value_reads hcs hrest h with ⟨rfl, -⟩ | ⟨x, rfl, -⟩
      · simp [Json.spelledAt, Json.spelled]
      · simp [Json.spelledAt, Json.spelled]

theorem Json.Writes.ne_null {j : Json} {n : Int} (h : j.Writes n) : j ≠ .null := by
  rintro rfl
  cases h with
  | number hcs hrest h =>
    rcases value_reads hcs hrest h with ⟨he, -⟩ | ⟨x, he, -⟩
    · cases he
    · cases he

/-- The spelling makes no string of anything else. -/
theorem Json.spelledAt_eq_str {t : TypeTable} {place : Option Shape} {j : Json} {s : String}
    (h : j.spelledAt t place = .str s) : ∃ s', j = .str s' := by
  cases j with
  | str s' => exact ⟨s', rfl⟩
  | arr vs =>
    rw [spelledAt_arr] at h
    cases h
  | obj ms =>
    rw [spelledAt_obj] at h
    cases h
  | null | bool | int | double | single =>
    cases place with
    | none => cases h
    | some shape => simp [spelledAt, spelled] at h

namespace FromJson

theorem scalar_range {s : Scalar} {r : IntRange} (hr : s.range? = some r) (j : Json) :
    scalar s j = intOf s r j := by
  cases s <;> cases hr <;> rfl

/-- Only the integers of 64 bits without a sign go as far as these do. -/
theorem nearHigh_cases {s : Scalar} {r : IntRange} (h : s.range? = some r) :
    r = .unsigned64 ∧ r.nearHigh = IntRange.unsigned64.high + 1 ∨
      r.nearHigh ≤ IntRange.unsigned64.high := by
  cases s <;> cases h <;> decide +kernel

/-- Only the integers of 64 bits with a sign go as far below zero as these do. -/
theorem low_cases {s : Scalar} {r : IntRange} (h : s.range? = some r) :
    r = .signed64 ∨ IntRange.signed64.low < r.low := by
  cases s <;> cases h <;> decide

/-- A floating-point number that stands for an integer of more than 64 bits is taken for an end of a
range, if it is taken for anything. -/
theorem ofBinary64_beyond {s : Scalar} {r : IntRange} {x : Binary64} {n k : Int}
    (hr : s.range? = some r) (hx : ∀ k, x.meaning.toInt? = some k → Json.Beyond n k)
    (h : r.ofBinary64 x = .ok k) : r.TakesFor (.double x) n k := by
  obtain ⟨k', hk', hlow, hhigh, rfl⟩ := IntRange.ofBinary64_ok h
  cases hx k' hk' with
  | zero hn hk =>
    obtain ⟨hl, hu⟩ := Scalar.range_bounds hr
    have hclamp : r.clamp k' = n := by
      unfold IntRange.clamp
      omega
    rw [hclamp]
    refine .exact (IntRange.contains_iff.mpr ?_)
    omega
  | above hn hk hfar =>
    rcases nearHigh_cases hr with ⟨rfl, hnear⟩ | hnear
    · have hlast : n ≤ IntRange.lastAbove := by omega
      have hclamp : IntRange.unsigned64.clamp k' = IntRange.unsigned64.clamp n := by
        unfold IntRange.clamp
        omega
      rw [hclamp]
      exact .near rfl (.inl ⟨rfl, hn, hlast⟩)
    · omega
  | below hn hk hfar =>
    rcases low_cases hr with rfl | hfirst
    · have hlast : IntRange.lastBelow ≤ n := by omega
      have hclamp : IntRange.signed64.clamp k' = IntRange.signed64.clamp n := by
        unfold IntRange.clamp
        omega
      rw [hclamp]
      exact .near rfl (.inr ⟨rfl, hlast, hn⟩)
    · omega

/-- An integer is taken for itself, or for the end of a range of 64 bits that it is near to. -/
theorem intOf_writes {s : Scalar} {r : IntRange} {j : Json} {n : Int} {v : Value}
    (hr : s.range? = some r) (hj : j.Writes n) (h : intOf s r j = .ok v) :
    ∃ k, v = .int r k ∧ r.TakesFor j n k := by
  obtain ⟨hl, hu⟩ := Scalar.range_bounds hr
  cases hj with
  | @text s n hs =>
    obtain ⟨k, hk, rfl⟩ := map_ok h
    have hin := ofText_contains hl hu hk
    unfold IntRange.ofText at hk
    split at hk
    · rename_i k' hread
      obtain rfl := IntRange.read_eq hs hread
      cases hk
      exact ⟨_, rfl, .exact hin⟩
    · cases hk
  | number hcs hrest hvalue =>
    rcases Json.value_reads hcs hrest hvalue with ⟨rfl, -⟩ | ⟨x, rfl, hx⟩
    · obtain ⟨k, hk, rfl⟩ := map_ok h
      have hin := ofInteger_contains hk
      unfold IntRange.ofInteger at hk
      split at hk
      · cases hk
      · split at hk
        · cases hk
        · cases hk
          exact ⟨_, rfl, .exact hin⟩
    · obtain ⟨k, hk, rfl⟩ := map_ok h
      exact ⟨k, rfl, ofBinary64_beyond hr hx hk⟩

variable {t : TypeTable} {kind : Kind} {place : Option Shape}

theorem mapKey_range {s : Scalar} {r : IntRange} (hr : s.range? = some r) (text : String) :
    mapKey (.scalar s) text = (r.ofText text).map (MapKey.int r) := by
  cases s <;> cases hr <;> rfl

/-- What writes an integer is a key only if the integer is in range, and it is the integer then. -/
theorem mapKey_writes {s : Scalar} {r : IntRange} {text : String} {n : Int} {k : MapKey}
    (hr : s.range? = some r) (hs : WritesInteger text.toList n)
    (h : mapKey (.scalar s) text = .ok k) : k = .int r n ∧ r.contains n = true := by
  rw [mapKey_range hr] at h
  obtain ⟨i, hi, rfl⟩ := map_ok h
  have hvalue : intOf s r (.str text) = .ok (.int r i) := by
    simp only [intOf, hi]
    rfl
  obtain ⟨k, he, htakes⟩ := intOf_writes hr (.text hs) hvalue
  cases he
  cases htakes with
  | exact hin => exact ⟨rfl, hin⟩
  | near hj => cases hj

/-- What is no string is no name of an enum value. -/
theorem enum_some {name : String} {j : Json} {v : Option Value} (hj : ∀ s, j ≠ .str s)
    (h : enum t name j = .ok v) : ∃ w, v = some w := by
  unfold enum at h
  split at h
  · exact absurd rfl (hj _)
  · split at h
    · cases h
    · obtain ⟨n, -, rfl⟩ := map_ok h
      exact ⟨_, rfl⟩
  · split at h
    · exact ⟨_, (Except.ok.inj h).symm⟩
    · cases h
  · cases h

/-- A value is read for what is no name of an enum value. -/
theorem item_some {j : Json} {v : Option Value}
    (hj : ∀ enum word, kind = .enum enum → j ≠ .str word)
    (h : value t (.single kind) (j.spelledAt t place) = .ok v) : ∃ w, v = some w := by
  by_cases hkind : ∃ name, kind = .enum name
  · obtain ⟨name, rfl⟩ := hkind
    rw [value_enum] at h
    refine enum_some (fun s hs => ?_) h
    obtain ⟨word, rfl⟩ := Json.spelledAt_eq_str hs
    exact hj name word rfl rfl
  · refine value_some h fun name he => hkind ⟨name, ?_⟩
    exact Shape.single.inj he

end FromJson

namespace Message

variable {t : TypeTable} {type : MessageType} {name text : String} {j j' : Json} {m : Message}
  {shape : Shape} {place : List Step}

/-- A message that is read from text has at each place what is read for what the text has there,
less what is redundant. -/
theorem fromText_at (hs : t.Sound) (hreg : t.Regular) (ht : t.message? name = some type)
    (hj : Json.read text = .ok j) (hm : fromText t name text = .ok m)
    (hat : Json.at? t place (.single (.message name), j) = some (shape, j')) (hnull : j' ≠ .null)
    (henum : ∀ name, shape ≠ .single (.enum name)) :
    ∃ v w place', FromJson.value t shape (j'.spelledAt t place') = .ok (some v) ∧
      Value.at? t place (.single (.message name), .message name m) = some (shape, w) ∧
        Value.LeftOf t shape v w := by
  simp only [fromText, hj, Json.stops_regular hreg, Bool.false_eq_true, ↓reduceIte] at hm
  split at hm
  · cases hm
  · rename_i m₀ hread
    cases hm
    have hfits := FromJson.fits_message ht (FromJson.message_fits hs hreg ht hread)
    obtain ⟨o, hv, h⟩ := bind_eq_ok.mp hread
    split at h
    · rename_i held m₁
      cases pure_eq_ok.mp h
      obtain rfl := (FromJson.value_message hs hreg ht hv).1.symm
      have hv : FromJson.value t (.single (.message name))
          (j.spelledAt t (some (.single (.message name)))) = .ok (some (.message name m₀)) := hv
      obtain ⟨v, place', hat', hvalue⟩ := FromJson.at_read hs hreg hnull henum place hv hat
      -- the message itself is cleared like what a field of its type holds
      let f : Field := { (default : Field) with kind := .message name }
      have hroot : Value.LeftOf t (.single (.message name)) (.message name m₀)
          (.message name (m₀.clearDefaults t name)) := by
        simpa [Value.clearDefaults, f] using
          Value.LeftOf.cleared (t := t) (v := .message name m₀) (f := f) (.inr rfl)
      obtain ⟨w, hw, hleft⟩ := hroot.at hs hreg place hfits hat'
      exact ⟨v, w, place', hvalue, hw, hleft⟩
    · cases h

/-- Where a text writes an integer for a field that takes integers, or for an item or an entry of
one, the message has this integer. The field takes it only if it is in range, but the end of a range
of 64 bits stands for integers beyond it that are not in a string. -/
theorem fromText_integer (hs : t.Sound) (hreg : t.Regular) (ht : t.message? name = some type)
    (hj : Json.read text = .ok j) (hm : fromText t name text = .ok m) {s : Scalar} {r : IntRange}
    (hr : s.range? = some r) {n : Int} (hn : j'.Writes n)
    (hat : Json.at? t place (.single (.message name), j) = some (.single (.scalar s), j')) :
    ∃ k, Value.at? t place (.single (.message name), .message name m) =
      some (.single (.scalar s), .int r k) ∧ r.TakesFor j' n k := by
  obtain ⟨v, w, place', hv, hw, hleft⟩ := fromText_at hs hreg ht hj hm hat hn.ne_null nofun
  rw [hn.spelledAt] at hv
  cases FromJson.reads_of_value (fun _ he => by cases he) hv with
  | scalar hv =>
    rw [FromJson.scalar_range hr] at hv
    obtain ⟨k, rfl, htakes⟩ := FromJson.intOf_writes hr hn hv
    obtain rfl := hleft.int
    exact ⟨k, hw, htakes⟩

/-- Where a text writes integers for the keys of a map, the map has these integers as its keys. It
takes them only if they are in range. The name of an enum value is left out with its key if it is
not declared. -/
theorem fromText_keys (hs : t.Sound) (hreg : t.Regular) (ht : t.message? name = some type)
    (hj : Json.read text = .ok j) (hm : fromText t name text = .ok m) {s : Scalar} {r : IntRange}
    (hr : s.range? = some r) {kind : Kind} {ms : List (String × Json)}
    (hat : Json.at? t place (.single (.message name), j) =
      some (.map (.scalar s) kind, .obj ms)) :
    ∃ es, Value.at? t place (.single (.message name), .message name m) =
        some (.map (.scalar s) kind, .map es) ∧
      (∀ k ∈ es.map Prod.fst, ∃ p ∈ ms, FromJson.mapKey (.scalar s) p.1 = .ok k) ∧
      ∀ p ∈ ms, ∀ n, WritesInteger p.1.toList n → r.contains n = true ∧
        ((∀ enum word, kind = .enum enum → p.2 ≠ .str word) →
          .int r n ∈ es.map Prod.fst) := by
  obtain ⟨v, w, place', hv, hw, hleft⟩ := fromText_at hs hreg ht hj hm hat nofun nofun
  rw [Json.spelledAt_obj] at hv
  obtain ⟨es, hes, he⟩ := bind_eq_ok.mp hv
  cases pure_eq_ok.mp he
  obtain ⟨es', rfl, hkeys⟩ := hleft.map
  obtain ⟨hsound, hcomplete⟩ := FromJson.entries_keys hes
  refine ⟨es', hw, fun k hk => ?_, fun p hp n hn => ?_⟩
  · rw [hkeys] at hk
    obtain ⟨p', hp', hpk⟩ := hsound k hk
    obtain ⟨p, hp, rfl⟩ := List.mem_map.mp hp'
    exact ⟨p, hp, hpk⟩
  · obtain ⟨k, o, hk, ho, hheld⟩ := hcomplete _ (List.mem_map_of_mem hp)
    obtain ⟨rfl, hin⟩ := FromJson.mapKey_writes hr hn hk
    refine ⟨hin, fun hword => ?_⟩
    obtain ⟨v, rfl⟩ := FromJson.item_some hword ho
    obtain ⟨v, hv⟩ := Option.isSome_iff_exists.mp (hheld rfl)
    rw [hkeys]
    exact List.mem_map_of_mem (mem_of_lookup hv)

/-- Integers of any number of digits that a text writes for fields that take integers, wherever
these stand: the message has the same integers, and no text is read in which one of them is out of
range. That is not so for a number just beyond 64 bits, in whose place the end of the range may
stand. -/
theorem fromText_integers {d : Disk} {root : String} {importPath : ImportPath} {schema : Schema}
    (hload : Schema.load d root importPath = .ok schema) (hreg : schema.types.Regular)
    (htype : (schema.types.message? name).isSome) (hj : Json.read text = .ok j)
    (hm : fromText schema.types name text = .ok m) {place : List Step} {s : Scalar} {r : IntRange}
    (hr : s.range? = some r) :
    (∀ leaf n, Json.at? schema.types place (.single (.message name), j) =
        some (.single (.scalar s), leaf) → leaf.Writes n →
      ∃ k, Value.at? schema.types place (.single (.message name), .message name m) =
        some (.single (.scalar s), .int r k) ∧ r.TakesFor leaf n k) ∧
    (∀ kind ms, Json.at? schema.types place (.single (.message name), j) =
        some (.map (.scalar s) kind, .obj ms) →
      ∃ es, Value.at? schema.types place (.single (.message name), .message name m) =
          some (.map (.scalar s) kind, .map es) ∧
        (∀ k ∈ es.map Prod.fst, ∃ p ∈ ms, FromJson.mapKey (.scalar s) p.1 = .ok k) ∧
        ∀ p ∈ ms, ∀ n, WritesInteger p.1.toList n → r.contains n = true ∧
          ((∀ enum word, kind = .enum enum → p.2 ≠ .str word) →
            .int r n ∈ es.map Prod.fst)) := by
  have hs := Schema.load_sound hload
  obtain ⟨type, ht⟩ := Option.isSome_iff_exists.mp htype
  exact ⟨fun leaf n hat hn => fromText_integer hs hreg ht hj hm hr hn hat,
    fun kind ms hat => fromText_keys hs hreg ht hj hm hr hat⟩

/-- Integers of 64 bits, also in messages in a map. -/
def integerSource : String :=
  "message M{optional uint64 u=1;optional int64 i=2;map<int32,M> m=3;}"

/-- A message with the greatest integer of all. -/
def greatestJson : Json :=
  .obj [("u", .int 18446744073709551615)]

/-- The same message in a map. -/
def integerJson : Json :=
  .obj [("m", .obj [("-7", greatestJson)])]

theorem read_integerJson : Json.read integerJson.pretty = .ok integerJson := by
  refine Json.read_pretty ?_ ?_
  · simp [integerJson, greatestJson, Json.IsPlain, Json.ArePlainMembers]
  · simp [integerJson, greatestJson, Json.levels, Json.levelsOfMembers, Json.depthLimit]

theorem fromText_integers_greatest :
    ∃ s m es, Schema.load (.ofFile "a.proto" integerSource) "/a.proto" [] = .ok s ∧
      fromText s.types "M" integerJson.pretty = .ok m ∧
      Value.at? s.types [.field 3] (.single (.message "M"), .message "M" m) =
        some (.map (.scalar .int32) (.message "M"), .map es) ∧
      .int .signed32 (-7) ∈ es.map Prod.fst ∧
      Value.at? s.types [.field 3, .entry (.int .signed32 (-7)), .field 1]
          (.single (.message "M"), .message "M" m) =
        some (.single (.scalar .uint64), .int .unsigned64 18446744073709551615) := by
  have h : ∃ s ∈ (Schema.load (.ofFile "a.proto" integerSource) "/a.proto" []).toOption,
      s.types.Regular ∧
      (∃ m ∈ (ofJson s.types "M"
        (integerJson.spelled s.types (.single (.message "M")))).toOption, True) ∧
      ∃ type ∈ s.types.message? "M",
        (∃ f ∈ FromJson.fieldFor? s.types type "m", f.number = 3 ∧
          s.types.shape f = .map (.scalar .int32) (.message "M")) ∧
        ∃ f ∈ FromJson.fieldFor? s.types type "u", f.number = 1 ∧
          s.types.shape f = .single (.scalar .uint64) := by
    decide +kernel
  obtain ⟨s, hs, hreg, ⟨m, hm, -⟩, type, ht, ⟨f, hf, hfn, hfs⟩, g, hg, hgn, hgs⟩ := h
  have htype : (s.types.message? "M").isSome := Option.isSome_of_mem ht
  have htext : fromText s.types "M" integerJson.pretty = .ok (m.clearDefaults s.types "M") := by
    simp only [fromText, read_integerJson, Json.stops_regular hreg, Bool.false_eq_true, ↓reduceIte,
      ok_of_mem hm]
  have hform : WellKnown.ofName? "M" = none := by decide
  have hkey : (FromJson.mapKey (.scalar .int32) "-7").toOption = some (.int .signed32 (-7)) := by
    decide
  have hfield : Json.step? s.types (.single (.message "M"), integerJson) (.field 3) =
      some (.map (.scalar .int32) (.message "M"), .obj [("-7", greatestJson)]) := by
    simp [Json.step?, integerJson, Json.memberAt?, Json.isNothing, hform, Option.mem_def.mp ht,
      Option.mem_def.mp hf, hfn, hfs]
  have hentry : Json.step? s.types
      (.map (.scalar .int32) (.message "M"), .obj [("-7", greatestJson)])
      (.entry (.int .signed32 (-7))) = some (.single (.message "M"), greatestJson) := by
    simp [Json.step?, Json.entryAt?, hkey]
  have hlast : Json.step? s.types (.single (.message "M"), greatestJson) (.field 1) =
      some (.single (.scalar .uint64), .int 18446744073709551615) := by
    simp [Json.step?, greatestJson, Json.memberAt?, Json.isNothing, hform, Option.mem_def.mp ht,
      Option.mem_def.mp hg, hgn, hgs]
  have hmap : Json.at? s.types [.field 3] (.single (.message "M"), integerJson) =
      some (.map (.scalar .int32) (.message "M"), .obj [("-7", greatestJson)]) := by
    simp [Json.at?_cons, Json.at?_nil, hfield]
  have hleaf : Json.at? s.types [.field 3, .entry (.int .signed32 (-7)), .field 1]
      (.single (.message "M"), integerJson) =
      some (.single (.scalar .uint64), .int 18446744073709551615) := by
    simp [Json.at?_cons, Json.at?_nil, hfield, hentry, hlast]
  have hminus : WritesInteger (toString (-7 : Int)).toList (-7) := .toString (-7)
  have hgreatest : Json.Writes (.int 18446744073709551615) 18446744073709551615 :=
    .int (by simp [Json.IsPlain])
  obtain ⟨es, hes, -, hkeys⟩ := (fromText_integers (ok_of_mem hs) hreg htype read_integerJson htext
    (s := .int32) rfl).2 _ _ hmap
  obtain ⟨k, hk, htakes⟩ := (fromText_integers (ok_of_mem hs) hreg htype read_integerJson htext
    (s := .uint64) rfl).1 _ _ hleaf hgreatest
  have hheld := (hkeys ("-7", greatestJson) (List.mem_singleton.mpr rfl) (-7) hminus).2
  cases htakes with
  | exact =>
    refine ⟨s, _, es, ok_of_mem hs, htext, hes, hheld fun _ _ hkind => ?_, hk⟩
    cases hkind
  | near hj => cases hj

/-- Numbers just beyond their range. -/
def beyondText : String :=
  "\x7b\"u\":18446744073709551616,\"i\":-9223372036854775809\x7d"

/-- They become the end of it. -/
theorem integers_clamped :
    ∃ s m, Schema.load (.ofFile "a.proto" integerSource) "/a.proto" [] = .ok s ∧
      fromText s.types "M" beyondText = .ok m ∧
      m.find? 1 = some (.int .unsigned64 18446744073709551615) ∧
      m.find? 2 = some (.int .signed64 (-9223372036854775808)) := by
  have h : ∃ s ∈ (Schema.load (.ofFile "a.proto" integerSource) "/a.proto" []).toOption,
      ∃ m ∈ (fromText s.types "M" beyondText).toOption,
        (∃ v ∈ m.find? 1, v.isSingle (.int .unsigned64 18446744073709551615) = true) ∧
          ∃ v ∈ m.find? 2, v.isSingle (.int .signed64 (-9223372036854775808)) = true := by
    decide +kernel
  obtain ⟨s, hs, m, hm, ⟨v, hv, hgreatest⟩, w, hw, hleast⟩ := h
  obtain rfl := Value.eq_of_isSingle_int hgreatest
  obtain rfl := Value.eq_of_isSingle_int hleast
  exact ⟨s, m, ok_of_mem hs, ok_of_mem hm, hv, hw⟩

end Message
end RpcConsole

import RpcConsole.Console.Run
import RpcConsole.Proofs.Message.Members
import RpcConsole.Proofs.Pool.Enums

namespace RpcConsole

open WellKnown (nullValue)

/-- How the default of a field without presence is shown. -/
inductive Field.ShowsDefault (t : TypeTable) (f : Field) : Json → Prop where
  | list (hr : f.isRepeated = true) (hm : t.mapEntry? f = none) : ShowsDefault t f (.arr [])
  | map (hr : f.isRepeated = true) (hm : (t.mapEntry? f).isSome = true) : ShowsDefault t f (.obj [])
  | integer {s : Scalar} (hr : f.isRepeated = false) (hk : f.kind = .scalar s)
      (hs : s.range?.isSome = true) : ShowsDefault t f (.int 0)
  | double (hr : f.isRepeated = false) (hk : f.kind = .scalar .double) :
      ShowsDefault t f (.double .zero)
  | float (hr : f.isRepeated = false) (hk : f.kind = .scalar .float) :
      ShowsDefault t f (.single .zero)
  | bool (hr : f.isRepeated = false) (hk : f.kind = .scalar .bool) : ShowsDefault t f (.bool false)
  | text {s : Scalar} (hr : f.isRepeated = false) (hk : f.kind = .scalar s)
      (hs : s = .string ∨ s = .bytes) : ShowsDefault t f (.str "")
  | null (hr : f.isRepeated = false) (hk : f.kind = .enum nullValue) : ShowsDefault t f .null
  | enum {name word : String} {e : EnumType} {n : Int} {rest : List (String × Int)}
      (hr : f.isRepeated = false) (hk : f.kind = .enum name) (hn : name ≠ nullValue)
      (he : t.enum? name = some e) (hv : e.values = (word, n) :: rest) :
      ShowsDefault t f (.str word)

variable {t : TypeTable} {type : MessageType} {f g : Field} {j : Json} {shape : Shape}

theorem default_shows (hs : t.Sound) (he : t.Enumerated) (hentries : t.HasEntries f)
    (ht : type ∈ t.messages) (hf : f ∈ type.fields) (hp : f.hasPresence = false) :
    f.ShowsDefault t (ToJson.default t f) := by
  unfold ToJson.default
  rcases hentries.shapes with ⟨hr, hshape⟩ | ⟨hr, hm, hshape⟩ | ⟨hr, hm, key, value, hshape⟩
  · rw [hshape]
    obtain ⟨hw, hmessage⟩ := (hs.field type ht f hf).bare hp hr
    have hd : t.fieldDefault f = t.kindDefault f.kind := by
      simp [TypeTable.fieldDefault, hr, hw]
    cases hk : f.kind with
    | message name => exact absurd hk (hmessage name)
    | scalar s =>
      have hdouble : ToJson.wordOf? Binary64.zero.meaning = none := by decide +kernel
      have hsingle : ToJson.wordOf? Binary32.zero.meaning = none := by decide +kernel
      rw [hd, hk]
      cases s
      case double =>
        simpa [ToJson.plain, TypeTable.kindDefault, Scalar.zero, hdouble] using .double hr hk
      case float =>
        simpa [ToJson.plain, TypeTable.kindDefault, Scalar.zero, hsingle] using .float hr hk
      case bool => exact .bool hr hk
      case string => exact .text hr hk (.inl rfl)
      case bytes => exact .text hr hk (.inr rfl)
      all_goals exact .integer hr hk rfl
    | enum name =>
      obtain ⟨e, hfound⟩ := Option.isSome_iff_exists.mp (he.field type ht f hf name hk)
      obtain ⟨⟨word, n⟩, rest, hv⟩ := List.exists_cons_of_ne_nil
        (he.values e (List.mem_of_find?_eq_some hfound)).1
      rw [hd, hk]
      by_cases hnull : name = nullValue
      · subst hnull
        simpa [ToJson.plain, TypeTable.kindDefault, ToJson.enumJson] using .null hr hk
      · simpa [ToJson.plain, TypeTable.kindDefault, ToJson.enumJson, hnull, hfound,
          EnumType.first, EnumType.nameOf?, hv] using .enum hr hk hnull hfound hv
  · rw [hshape]
    exact .list hr hm
  · rw [hshape]
    exact .map hr hm

namespace Field.ShowsDefault

theorem levels (h : f.ShowsDefault t j) : j.levels ≤ 1 := by
  cases h <;> simp [Json.levels, Json.levelsOf, Json.levelsOfMembers]

theorem plain (h : f.ShowsDefault t j) : j.IsPlain := by
  cases h <;> simp [Json.IsPlain, Json.ArePlain, Json.ArePlainMembers]

/-- The spelling can only change a name, where it takes its key for that of an enum. -/
theorem spelled (h : f.ShowsDefault t j)
    (hword : ∀ word name e, j = .str word → shape = .single (.enum name) → t.enum? name = some e →
      e.spelling word = word) : j.asRead.spelled t shape = j.asRead := by
  have hstr {word : String} (hj : j = .str word) :
      (Json.str word).spelled t shape = .str word := by
    unfold Json.spelled
    split
    · rename_i name
      cases he : t.enum? name with
      | none => rfl
      | some e => simp [hword word name e hj rfl he]
    · rfl
  cases h with
  | text | enum => exact hstr rfl
  | integer | double | float | bool | null => simp [Json.asRead, Json.spelled]
  | list =>
    rw [Json.asRead, Json.asReadItems]
    unfold Json.spelled
    split <;> simp [Json.spelledItems]
  | map =>
    rw [Json.asRead, Json.asReadMembers, show Json.sorted [] = [] from rfl]
    unfold Json.spelled
    split
    · simp [Json.spelledEntries]
    · simp [Json.spelledEntries]
    · split <;> simp [Json.spelledMembers]
    · rfl

/-- The program does not stop over what is shown, under whatever key it is read. -/
theorem stops (h : f.ShowsDefault t j) : j.asRead.stops t shape = false := by
  cases h with
  | text | enum | integer | double | float | bool | null => simp [Json.asRead, Json.stops]
  | list =>
    rw [Json.asRead, Json.asReadItems]
    unfold Json.stops
    split <;> simp [Json.stopsItems]
  | map =>
    rw [Json.asRead, Json.asReadMembers, show Json.sorted [] = [] from rfl]
    unfold Json.stops
    split
    · simp [Json.stopsEntries]
    · simp [Json.stopsEntries]
    · split <;> simp [Json.stopsMembers]
    · rfl

end Field.ShowsDefault

namespace Message

variable {known : List (Nat × Value)}

/-- Nothing is left of a message if all its values are redundant. -/
theorem clearFields_nil : clearFields t type known = [] ↔
    ∀ e ∈ known, ∃ f, type.fieldNumbered? e.1 = some f ∧ t.isRedundant f e.2 = true := by
  induction known with
  | nil => simp [clearFields]
  | cons e known ih =>
    rw [List.forall_mem_cons, ← ih]
    cases hf : type.fieldNumbered? e.1 with
    | none => simp [clearFields, hf]
    | some f => cases hr : t.isRedundant f e.2 <;> simp [clearFields, hf, hr]

end Message

namespace FromJson

/-- What is shown for a field without presence is read as its default. -/
theorem member_default (hs : t.Sound) (hn : t.Named) (hentries : t.HasEntries f)
    (ht : type ∈ t.messages) (hf : f ∈ type.fields) (hp : f.hasPresence = false)
    (hzero : f.kind = .enum nullValue → ∀ e, t.enum? nullValue = some e → e.first = 0) :
    member t f (ToJson.default t f).asRead = .ok (some (t.fieldDefault f)) := by
  by_cases hnull : f.kind = .enum nullValue
  · rcases hentries.shapes with ⟨hr, hshape⟩ | ⟨hr, hm, hshape⟩ | ⟨-, hm, -⟩
    · have hw := ((hs.field type ht f hf).bare hp hr).1
      have hfirst : ((t.enum? nullValue).map EnumType.first).getD 0 = 0 := by
        cases he : t.enum? nullValue with
        | none => rfl
        | some e => exact hzero hnull e he
      have hd : t.fieldDefault f = .enum 0 := by
        simp [TypeTable.fieldDefault, hr, hw, hnull, TypeTable.kindDefault, hfirst]
      simp [ToJson.default, hshape, hnull, hd, ToJson.plain, ToJson.enumJson, Json.asRead, member,
        null]
    · have hd : t.fieldDefault f = .list [] := by simp [TypeTable.fieldDefault, hr, hm]
      have htold := empty_list_told t f.kind
      rw [ToJson.default, hshape, hd, member_eq_value htold.full, hshape, htold.read]
    · obtain ⟨entry, hm⟩ := Option.isSome_iff_exists.mp hm
      obtain ⟨hk, -⟩ := TypeTable.mapEntry?_eq_some hm
      rw [hnull] at hk
      cases hk
  · have htold := default_told hs hentries hn ht hf hp hnull
    rw [member_eq_value htold.full, htold.read]

/-- Storing a value in a field outside of oneofs. -/
theorem assign_alone (ho : f.oneof = none) (v : Value) (m : Message) :
    assign t type f (some v) m = .ok (m.set f.number v) := by
  simp [assign, takenOneof?, MessageType.store, MessageType.rivals, ho]

/-- What is stored by members that show defaults can all be cleared. -/
theorem members_defaults (hs : t.Sound) (ht : type ∈ t.messages) :
    ∀ (ms : List (String × Json)) (m : Message),
      (∀ p ∈ ms, ∃ f ∈ type.fields, f.hasPresence = false ∧ fieldFor? t type p.1 = some f ∧
        member t f p.2 = .ok (some (t.fieldDefault f))) →
      Message.clearFields t type m.known = [] →
      ∃ m', members t type none ms m = .ok m' ∧ Message.clearFields t type m'.known = [] ∧
        m'.unknown = m.unknown
  | [], m, _, hm => ⟨m, by rw [members], hm, rfl⟩
  | (k, j) :: ms, m, hms, hm => by
    obtain ⟨⟨f, hf, hp, hkey, hread⟩, hrest⟩ := List.forall_mem_cons.mp hms
    have hsound := hs.field type ht f hf
    have hown : type.fieldNumbered? f.number = some f :=
      find?_of_nodup Field.number (hs.numbers type ht) hf
    have ho : f.oneof = none := by
      cases ho : f.oneof with
      | none => rfl
      | some i =>
        have hpresence := hsound.oneof (by simp [ho])
        rw [hp] at hpresence
        cases hpresence
    have hset : Message.clearFields t type (m.set f.number (t.fieldDefault f)).known = [] := by
      refine Message.clearFields_nil.mpr fun e he => ?_
      rcases Message.mem_insertField he with rfl | he
      · exact ⟨f, hown, TypeTable.isRedundant_default hsound hp⟩
      · exact Message.clearFields_nil.mp hm e he
    obtain ⟨m', hm', hclear, hunknown⟩ := members_defaults hs ht ms _ hrest hset
    refine ⟨m', ?_, hclear, hunknown⟩
    rw [members_cons (by rfl), hkey]
    simp only [hread, assign_alone ho, bind, Except.bind]
    exact hm'

end FromJson

namespace ToJson

/-- The members of the template of a type, by number. -/
theorem assemble_nil (t : TypeTable) (type : MessageType) :
    assemble t type [] =
      ((type.fields.mergeSort fun f g => f.number ≤ g.number).filter fun f => !f.hasPresence).map
        fun f => (f.jsonName, default t f) := by
  have hmembers (fs : List Field) : fs.flatMap (fieldMember t []) =
      (fs.filter fun f => !f.hasPresence).map fun f => (f.jsonName, default t f) := by
    induction fs with
    | nil => rfl
    | cons f fs ih =>
      rw [List.flatMap_cons, ih]
      cases hp : f.hasPresence <;> simp [fieldMember, hp]
  simp [assemble, hmembers]

theorem mem_assemble_nil {m : String × Json} : m ∈ assemble t type [] ↔
    ∃ f ∈ type.fields, f.hasPresence = false ∧ m = (f.jsonName, default t f) := by
  rw [assemble_nil, List.mem_map]
  constructor
  · rintro ⟨f, hf, rfl⟩
    obtain ⟨hf, hp⟩ := List.mem_filter.mp hf
    exact ⟨f, List.mem_mergeSort.mp hf, by simpa using hp, rfl⟩
  · rintro ⟨f, hf, hp, rfl⟩
    exact ⟨f, List.mem_filter.mpr ⟨List.mem_mergeSort.mpr hf, by simp [hp]⟩, rfl⟩

/-- The members of the template of a type whose fields are declared by number. -/
theorem assemble_nil_of_sorted (h : type.fields.Pairwise fun f g => f.number ≤ g.number) :
    assemble t type [] =
      (type.fields.filter fun f => !f.hasPresence).map fun f => (f.jsonName, default t f) := by
  rw [assemble_nil, List.mergeSort_of_pairwise (h.imp fun hle => by simpa using hle)]

theorem keys_assemble_nil (t : TypeTable) (type : MessageType) :
    (Json.keys (assemble t type [])).Perm
      ((type.fields.filter fun f => !f.hasPresence).map Field.jsonName) := by
  rw [assemble_nil, Json.keys, List.map_map]
  exact ((List.mergeSort_perm type.fields _).filter _).map _

end ToJson

/-- Members are the template of a type: one under the JSON name of each field without presence,
which shows its default, and no other. -/
structure MessageType.ShowsDefaults (t : TypeTable) (type : MessageType)
    (ms : List (String × Json)) : Prop where
  keys : (Json.keys ms).Perm ((type.fields.filter fun f => !f.hasPresence).map Field.jsonName)
  once : (Json.keys ms).Nodup
  defaults : ∀ f ∈ type.fields, f.hasPresence = false →
    ∃ j, ms.lookup f.jsonName = some j ∧ f.ShowsDefault t j

/-- A single value of a field is shown as the name of an enum value. -/
def Field.isWord (f : Field) : Bool :=
  match f.kind with
  | .enum _ => !f.isRepeated
  | _ => false

/-- The template of a type says nothing: what its maps hold has a key and a value, null stands for
the first value of its enum, and no enum field is declared under the JSON name of another one
without presence. -/
structure MessageType.Blank (t : TypeTable) (type : MessageType) : Prop where
  entries : ∀ f ∈ type.fields, t.HasEntries f
  nulls : ∀ f ∈ type.fields, f.hasPresence = false → f.kind = .enum nullValue →
    ∀ e ∈ t.enum? nullValue, e.first = 0
  words : ∀ f ∈ type.fields, f.hasPresence = false → f.isWord = true →
    ∀ g ∈ type.fields, g.isWord = true → g.name = f.jsonName → g.number = f.number

instance (t : TypeTable) : DecidablePred (MessageType.Blank t) := fun type =>
  decidable_of_iff ((∀ f ∈ type.fields, t.HasEntries f) ∧
      (∀ f ∈ type.fields, f.hasPresence = false → f.kind = .enum nullValue →
        ∀ e ∈ t.enum? nullValue, e.first = 0) ∧
      ∀ f ∈ type.fields, f.hasPresence = false → f.isWord = true →
        ∀ g ∈ type.fields, g.isWord = true → g.name = f.jsonName → g.number = f.number)
    ⟨fun h => ⟨h.1, h.2.1, h.2.2⟩, fun h => ⟨h.entries, h.nulls, h.words⟩⟩

namespace MessageType.Blank

/-- A field that the spelling takes for an enum field without presence, and that has enum names
itself, is that field. -/
theorem taken (h : type.Blank t) (hs : t.Sound) (hn : t.Named) (ht : type ∈ t.messages)
    (hf : f ∈ type.fields) (hp : f.hasPresence = false) (hw : f.isWord = true)
    (hg : type.fieldForSpelling? f.jsonName = some g) (hgw : g.isWord = true) : g = f := by
  rcases Option.or_eq_some_iff.mp hg with hg | ⟨-, hg⟩
  · have hgm := List.mem_of_find?_eq_some hg
    have hname : g.name = f.jsonName := by simpa using List.find?_some hg
    exact List.inj_on_of_nodup_map (hs.numbers type ht) hgm hf
      (h.words f hf hp hw g hgm hgw hname)
  · rw [MessageType.fieldWithJsonName?,
      find?_of_nodup Field.jsonName (hn.jsonNames type ht) hf, Option.some.injEq] at hg
    exact hg.symm

/-- What is shown for a field without presence keeps its spelling under its key. -/
theorem default_spelled (h : type.Blank t) (hs : t.Sound) (hn : t.Named) (he : t.Enumerated)
    (ht : type ∈ t.messages) (hf : f ∈ type.fields) (hp : f.hasPresence = false)
    (hg : type.fieldForSpelling? f.jsonName = some g) :
    (ToJson.default t f).asRead.spelled t (t.shape g) = (ToJson.default t f).asRead := by
  have hshows := default_shows hs he (h.entries f hf) ht hf hp
  refine hshows.spelled fun word name e hj hshape henum => ?_
  rw [hj] at hshows
  cases hshows with
  | text =>
    -- no name of an enum is empty
    refine (EnumType.spelling_unknown fun v hv => ?_).1
    have hne := (he.values e (List.mem_of_find?_eq_some henum)).2 v hv
    rw [Bool.eq_false_iff]
    intro hsame
    rw [EnumType.sameName_iff] at hsame
    exact hne (by simpa [EnumType.folded] using hsame)
  | enum hr hk _ henum' hv =>
    have hgw : g.isWord = true := by
      obtain ⟨hkind, hgr⟩ := TypeTable.shape_single hshape
      simp [Field.isWord, hkind, hgr]
    obtain rfl := h.taken hs hn ht hf hp (by simp [Field.isWord, hk, hr]) hg hgw
    obtain ⟨hkind, -⟩ := TypeTable.shape_single hshape
    rw [hk, Kind.enum.injEq] at hkind
    obtain rfl := hkind
    rw [henum', Option.some.injEq] at henum
    obtain rfl := henum
    exact EnumType.spelling_declared (by simp [EnumType.number?, hv])

/-- The program does not stop over members that show defaults. -/
theorem stopsMembers (h : type.Blank t) (hs : t.Sound) (he : t.Enumerated)
    (ht : type ∈ t.messages) {ms : List (String × Json)}
    (hms : ∀ m ∈ ms, ∃ f ∈ type.fields, f.hasPresence = false ∧
      m = (f.jsonName, (ToJson.default t f).asRead)) : Json.stopsMembers t type ms = false := by
  induction ms with
  | nil => rfl
  | cons m ms ih =>
    obtain ⟨⟨f, hf, hp, rfl⟩, hrest⟩ := List.forall_mem_cons.mp hms
    have hstops {shape : Shape} : (ToJson.default t f).asRead.stops t shape = false :=
      (default_shows hs he (h.entries f hf) ht hf hp).stops
    rw [Json.stopsMembers, ih hrest, Bool.or_false]
    cases hg : type.fieldForSpelling? f.jsonName with
    | none => rfl
    | some g =>
      have hgm := (MessageType.means_of_fieldForSpelling? hg).mem
      simp [hstops, (h.entries g hgm).lacksValue]

/-- The template of a type is one. -/
theorem showsDefaults (h : type.Blank t) (hs : t.Sound) (hn : t.Named) (he : t.Enumerated)
    (ht : type ∈ t.messages) : type.ShowsDefaults t (ToJson.assemble t type []) := by
  have hkeys := ToJson.keys_assemble_nil t type
  have honce : (Json.keys (ToJson.assemble t type [])).Nodup :=
    hkeys.nodup_iff.mpr ((hn.jsonNames type ht).sublist (List.filter_sublist.map _))
  refine ⟨hkeys, honce, fun f hf hp => ⟨ToJson.default t f, lookup_of_nodup honce ?_, ?_⟩⟩
  · exact ToJson.mem_assemble_nil.mpr ⟨f, hf, hp, rfl⟩
  · exact default_shows hs he (h.entries f hf) ht hf hp

end MessageType.Blank

theorem Json.levelsOfMembers_le {n : Nat} {ms : List (String × Json)}
    (h : ∀ m ∈ ms, m.2.levels ≤ n) : Json.levelsOfMembers ms ≤ n := by
  induction ms with
  | nil => exact Nat.zero_le n
  | cons m ms ih =>
    obtain ⟨hm, hms⟩ := List.forall_mem_cons.mp h
    exact Nat.max_le.mpr ⟨hm, ih hms⟩

namespace Message

variable {name : String}

/-- The template of a type is read as a message of which nothing is left once the redundant is
cleared. -/
theorem ofJson_template (hs : t.Sound) (hn : t.Named) (he : t.Enumerated)
    (ht : t.message? name = some type) (hordinary : WellKnown.ofName? name = none)
    (hb : type.Blank t) :
    (Json.obj (ToJson.assemble t type [])).asRead.stops t (.single (.message name)) = false ∧
      ∃ m, ofJson t name ((Json.obj (ToJson.assemble t type [])).asRead.spelled t
        (.single (.message name))) = .ok m ∧ m.clearDefaults t name = instantiate := by
  have htype := TypeTable.message?_mem ht
  generalize hks : Json.sorted (Json.asReadMembers (ToJson.assemble t type [])) = ks
  have hmem : ∀ m ∈ ks, ∃ f ∈ type.fields, f.hasPresence = false ∧
      m = (f.jsonName, (ToJson.default t f).asRead) := by
    intro m hm
    have hm := Json.mem_sorted (hks ▸ hm)
    rw [Json.asReadMembers_eq] at hm
    obtain ⟨d, hd, rfl⟩ := List.mem_map.mp hm
    obtain ⟨f, hf, hp, rfl⟩ := ToJson.mem_assemble_nil.mp hd
    exact ⟨f, hf, hp, rfl⟩
  have hspelled : Json.spelledMembers t type ks = ks := by
    refine Json.spelledMembers_self fun m hm g hg => ?_
    obtain ⟨f, hf, hp, rfl⟩ := hmem m hm
    exact hb.default_spelled hs hn he htype hf hp hg
  obtain ⟨m, hm, hclear, hunknown⟩ := FromJson.members_defaults hs htype ks .empty
    (fun p hp => by
      obtain ⟨f, hf, hpresence, rfl⟩ := hmem p hp
      refine ⟨f, hf, hpresence, ?_, ?_⟩
      · have hfind : type.fieldWithJsonName? f.jsonName = some f :=
          find?_of_nodup Field.jsonName (hn.jsonNames type htype) hf
        simp [FromJson.fieldFor?, hfind]
      · exact FromJson.member_default hs hn (hb.entries f hf) htype hf hpresence
          fun hk e he => hb.nulls f hf hpresence hk e he) rfl
  refine ⟨?_, m, ?_, ?_⟩
  · simp only [Json.asRead, hks, Json.stops, ht]
    exact hb.stopsMembers hs he htype hmem
  · simp only [Json.asRead, hks, Json.spelled, ht, hspelled, ofJson, FromJson.message,
      FromJson.value, hordinary, hm]
    rfl
  · obtain ⟨known, unknown⟩ := m
    have hunknown : unknown = [] := hunknown
    have hclear : clearFields t type known = [] := hclear
    simp only [clearDefaults, ht, hclear, hunknown]
    rfl

theorem toText_instantiate (ht : t.message? name = some type)
    (hordinary : WellKnown.ofName? name = none) (htorn : t.hasTorn type = false) :
    instantiate.toText t name = .ok (Json.obj (ToJson.assemble t type [])).pretty := by
  have hrender : ToJson.render t name instantiate = .ok (.obj (ToJson.assemble t type [])) := by
    simp only [ToJson.render, ToJson.nested, instantiate, Message.empty, ToJson.message, hordinary,
      ht, htorn, ToJson.fields]
    rfl
  simp only [toText, hrender]

theorem toWire_instantiate (t : TypeTable) (name : String) :
    instantiate.toWire t name = some [] := by
  cases ht : t.message? name <;>
    simp [toWire, Wire.message?, instantiate, Message.empty, Wire.messageHolds, Wire.message, ht,
      Wire.fieldsHold, Wire.fields, Wire.mergeChunks, Wire.joined]

/-- An object without members is read as the message without fields. -/
theorem fromText_braces (ht : t.message? name = some type)
    (hordinary : WellKnown.ofName? name = none) :
    fromText t name "\x7b\x7d" = .ok instantiate := by
  have hread : Json.read (Json.obj []).pretty = .ok (Json.obj []).asRead :=
    Json.read_pretty trivial (by decide)
  rw [show (Json.obj []).pretty = "\x7b\x7d" from rfl,
    show (Json.obj []).asRead = .obj [] from rfl] at hread
  have hm : ofJson t name ((Json.obj []).spelled t (.single (.message name))) = .ok .empty := by
    simp only [Json.spelled, ht, Json.spelledMembers, ofJson, FromJson.message, FromJson.value,
      hordinary, FromJson.members]
    rfl
  have hstops : (Json.obj []).stops t (.single (.message name)) = false := by
    simp [Json.stops, ht, Json.stopsMembers]
  simp only [fromText, hread, hstops, Bool.false_eq_true, ↓reduceIte, hm, Message.empty,
    clearDefaults, ht]
  rfl

/-- The template of a type is read as the message without fields, also with its line ended. -/
theorem fromText_template (hs : t.Sound) (hn : t.Named) (he : t.Enumerated)
    (ht : t.message? name = some type) (hordinary : WellKnown.ofName? name = none)
    (hb : type.Blank t) {text : String}
    (htext : text = (Json.obj (ToJson.assemble t type [])).pretty ∨
      text = (Json.obj (ToJson.assemble t type [])).pretty ++ "\n") :
    fromText t name text = .ok instantiate := by
  have hmem : ∀ m ∈ ToJson.assemble t type [], ∃ f : Field, f.ShowsDefault t m.2 := by
    intro m hm
    obtain ⟨f, hf, hp, rfl⟩ := ToJson.mem_assemble_nil.mp hm
    exact ⟨f, default_shows hs he (hb.entries f hf) (TypeTable.message?_mem ht) hf hp⟩
  have hplain : (Json.obj (ToJson.assemble t type [])).IsPlain :=
    Json.arePlainMembers_iff.mpr fun m hm => (hmem m hm).choose_spec.plain
  have hmembers := Json.levelsOfMembers_le fun m hm => (hmem m hm).choose_spec.levels
  have hlevels : (Json.obj (ToJson.assemble t type [])).levels < Json.depthLimit := by
    simp only [Json.levels, Json.depthLimit]
    omega
  have hread : Json.read text = .ok (Json.obj (ToJson.assemble t type [])).asRead := by
    rcases htext with rfl | rfl
    · exact Json.read_pretty hplain hlevels
    · exact Json.read_pretty_newline hplain hlevels
  obtain ⟨hstops, m, hm, hclear⟩ := ofJson_template hs hn he ht hordinary hb
  simp only [fromText, hread, hstops, Bool.false_eq_true, ↓reduceIte, hm, hclear]

end Message

open Message

/-- A call sends what its text is read as. -/
theorem Method.invoke_of_fromText {μ : Type → Type} [Monad μ] {send : Transport μ} {m : Method}
    {request : Message} {bytes : List UInt8} {text address : String}
    (hstream : m.streaming? = none) (h : fromText t m.input text = .ok request)
    (hbytes : request.toWire t m.input = some bytes) :
    m.invoke t send text address = do
      let reply ← send ⟨address, m.path, bytes⟩
      return m.outcome? t reply := by
  have hrequest : m.request t text = .ok request := by
    simp only [Method.request, hstream, h]
  simp only [Method.invoke, hrequest, hbytes]

/-- The template of a type without a form of text of its own is the message without fields: it shows
each field without presence once, with its default, and a call with it, with the line that is
printed for it or with an object without members sends no bytes. -/
theorem Schema.template_blank {d : Disk} {root name : String} {importPath : ImportPath} {s : Schema}
    (hload : Schema.load d root importPath = .ok s) (ht : s.types.message? name = some type)
    (hordinary : WellKnown.ofName? name = none) (hb : type.Blank s.types) :
    ∃ (ms : List (String × Json)) (text : String),
      text = (Json.obj ms).pretty ∧ type.ShowsDefaults s.types ms ∧
      instantiate.toText s.types name = .ok text ∧ instantiate.toWire s.types name = some [] ∧
      (∀ given ∈ [text, text ++ "\n", "\x7b\x7d"],
        fromText s.types name given = .ok instantiate) ∧
      ∀ m : Method, m.input = name →
        (∀ setting : Console.Setting, setting.bodyText s.types m .template = .ok text) ∧
        (∀ (setting : Console.Setting) (dirs : List String) (proto : String) (e : Endpoint),
          setting.schema dirs proto = .ok s → setting.method s e = .ok m →
            setting.template dirs proto e = { out := text ++ "\n" }) ∧
        (m.streaming? = none →
          ∀ (μ : Type → Type) [Monad μ] (send : Transport μ) (address : String),
            ∀ given ∈ [text, text ++ "\n", "\x7b\x7d"],
              m.invoke s.types send given address = do
                let reply ← send ⟨address, m.path, []⟩
                return m.outcome? s.types reply) := by
  have hs := Schema.load_sound hload
  have hn := Schema.load_named hload
  have he := Schema.load_enumerated hload
  have htext := toText_instantiate ht hordinary (TypeTable.hasTorn_eq_false hb.entries)
  have hread : ∀ given ∈ [(Json.obj (ToJson.assemble s.types type [])).pretty,
      (Json.obj (ToJson.assemble s.types type [])).pretty ++ "\n", "\x7b\x7d"],
      fromText s.types name given = .ok instantiate := by
    intro given hgiven
    simp only [List.mem_cons, List.not_mem_nil, or_false] at hgiven
    rcases hgiven with h | h | rfl
    · exact fromText_template hs hn he ht hordinary hb (.inl h)
    · exact fromText_template hs hn he ht hordinary hb (.inr h)
    · exact fromText_braces ht hordinary
  refine ⟨ToJson.assemble s.types type [], _, rfl,
    hb.showsDefaults hs hn he (TypeTable.message?_mem ht), htext, toWire_instantiate _ _, hread, ?_⟩
  rintro m rfl
  have htemplate : m.template s.types = .ok _ := htext
  refine ⟨fun setting => ?_, fun setting dirs proto e hschema hmethod => ?_,
    fun hstream μ _ send address given hgiven => ?_⟩
  · simp only [Console.Setting.bodyText, htemplate]
  · simp only [Console.Setting.template, hschema, hmethod, htemplate]
  · exact Method.invoke_of_fromText hstream (hread given hgiven) (toWire_instantiate _ _)

namespace Schema

/-- A message with an enum value, a list, a map and a field with presence. -/
def blankSource : String :=
  "syntax=\"proto3\";enum E{A=0;}message M{M o=1;E e=2;repeated M m=3;map<int32,E> n=4;}"

theorem template_blank_enums :
    ∃ s text, load (.ofFile "a.proto" blankSource) "/a.proto" [] = .ok s ∧
      instantiate.toText s.types "M" = .ok text ∧
      fromText s.types "M" (text ++ "\n") = .ok instantiate := by
  have h : ∃ s ∈ (load (.ofFile "a.proto" blankSource) "/a.proto" []).toOption,
      ∃ type ∈ s.types.message? "M", type.Blank s.types := by
    decide +kernel
  obtain ⟨s, hs, type, ht, hb⟩ := h
  obtain ⟨ms, text, -, -, htext, -, hread, -⟩ :=
    template_blank (ok_of_mem hs) ht (by decide) hb
  exact ⟨s, text, ok_of_mem hs, htext, hread _ (by simp)⟩

/-- The template of a type without a form of text of its own is read as a message with something in
it. -/
def TemplateTells (source name : String) : Prop :=
  ∃ s type text m, load (.ofFile "a.proto" source) "/a.proto" [] = .ok s ∧
    s.types.message? name = some type ∧ WellKnown.ofName? name = none ∧
    instantiate.toText s.types name = .ok text ∧ fromText s.types name text = .ok m ∧
    ∃ bytes, m.toWire s.types name = some bytes ∧ bytes ≠ []

theorem TemplateTells.of_runs {source name : String} (hordinary : WellKnown.ofName? name = none)
    (h : ∃ s ∈ (load (.ofFile "a.proto" source) "/a.proto" []).toOption,
      ∃ type ∈ s.types.message? name,
        type.fields.Pairwise (fun f g => f.number ≤ g.number) ∧ s.types.hasTorn type = false ∧
        ∃ m ∈ (fromText s.types name (Json.obj ((type.fields.filter fun f => !f.hasPresence).map
          fun f => (f.jsonName, ToJson.default s.types f))).pretty).toOption,
          ∃ bytes ∈ m.toWire s.types name, bytes ≠ []) :
    TemplateTells source name := by
  obtain ⟨s, hs, type, ht, hsorted, htorn, m, hm, bytes, hbytes, hne⟩ := h
  rw [← ToJson.assemble_nil_of_sorted hsorted] at hm
  exact ⟨s, type, _, m, ok_of_mem hs, ht, hordinary, toText_instantiate ht hordinary htorn,
    ok_of_mem hm, bytes, hbytes, hne⟩

/-- Two enum fields, each with the name of the other one as its JSON name. The first name of one
enum is the second name of the other one in another case. -/
def crossedSource : String :=
  "syntax=\"proto3\";message M\x7benum E{A=0;a=1;}message N\x7benum F{a=0;}\x7d" ++
    "E x=1[json_name=\"y\"];N.F y=2[json_name=\"x\"];\x7d"

/-- A name in a template is taken for one of another enum. -/
theorem template_crossed : TemplateTells crossedSource "M" :=
  .of_runs (by decide) (by decide +kernel)

end Schema

end RpcConsole

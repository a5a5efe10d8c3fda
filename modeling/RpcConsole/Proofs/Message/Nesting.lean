import RpcConsole.Proofs.Message.FormFree
import RpcConsole.Proofs.Message.Omitted
import RpcConsole.Proofs.Message.Whole
import RpcConsole.Proofs.Message.WireRoundTrip
import RpcConsole.Proofs.Wire.Depth

namespace RpcConsole

namespace Json

variable (t : TypeTable)

mutual

/-- The spelling of enum names keeps the nesting of a value. -/
theorem levels_spelledAt (place : Option Shape) :
    ∀ j : Json, (j.spelledAt t place).levels = j.levels
  | .arr vs => by
    rw [spelledAt_arr, levels, levels, levelsOf_spelledAt (Shape.itemPlace place) vs]
  | .obj ms => by
    rw [spelledAt_obj, levels, levels, levelsOfMembers_spelledAt place ms]
  | .str s => by
    unfold spelledAt spelled
    repeat' split
    all_goals simp_all [levels]
  | .null | .bool _ | .int _ | .double _ | .single _ => by
    cases place <;> simp [spelledAt, spelled]

theorem levelsOf_spelledAt (place : Option Shape) :
    ∀ vs : List Json, levelsOf (vs.map (spelledAt t place)) = levelsOf vs
  | [] => rfl
  | v :: vs => by
    rw [List.map_cons, levelsOf, levelsOf, levels_spelledAt place v, levelsOf_spelledAt place vs]

theorem levelsOfMembers_spelledAt (place : Option Shape) :
    ∀ ms : List (String × Json), levelsOfMembers (spelledMembersAt t place ms) = levelsOfMembers ms
  | [] => rfl
  | (key, v) :: ms => by
    rw [spelledMembersAt_cons, levelsOfMembers, levelsOfMembers,
      levels_spelledAt (t.memberPlace place key) v, levelsOfMembers_spelledAt place ms]

end

end Json

section

variable {t : TypeTable} {type : MessageType} {f : Field} {v : Value} {d : Nat}

theorem Message.fieldsDepth_le {known : List (Nat × Value)} :
    fieldsDepth known ≤ d ↔ ∀ e ∈ known, e.2.depth ≤ d := by
  induction known with
  | nil => simp [fieldsDepth]
  | cons e rest ih => simp [fieldsDepth, ih]

theorem Value.entriesDepth_le {es : List (MapKey × Value)} :
    entriesDepth es ≤ d ↔ ∀ e ∈ es, e.2.depth < d := by
  induction es with
  | nil => simp [entriesDepth]
  | cons e rest ih =>
    rw [List.forall_mem_cons, ← ih, entriesDepth, Nat.max_le, Nat.lt_iff_add_one_le]

/-- A stored value makes a message as deep as the value at most. -/
theorem MessageType.store_depth {m : Message} (hm : m.depth ≤ d) (hv : v.depth ≤ d) :
    (type.store f v m).depth ≤ d := by
  obtain ⟨known, unknown⟩ := m
  rw [store_eq]
  rw [Message.depth, Nat.max_le, Message.fieldsDepth_le] at hm ⊢
  refine ⟨fun e he => ?_, hm.2⟩
  rcases Message.mem_insertField he with rfl | he
  · exact hv
  · exact hm.1 e (List.mem_filter.mp he).1

end

mutual

/-- Clearing makes no message deeper. -/
theorem Message.clearDefaults_depth (t : TypeTable) (name : String) :
    ∀ m : Message, (m.clearDefaults t name).depth ≤ m.depth
  | ⟨known, unknown⟩ => by
    cases ht : t.message? name with
    | none => simp [Message.clearDefaults, ht]
    | some type =>
      have hfields := Message.clearFields_depth t type known
      simp only [Message.clearDefaults, ht, Message.depth]
      omega

theorem Message.clearFields_depth (t : TypeTable) (type : MessageType) :
    ∀ known : List (Nat × Value),
      Message.fieldsDepth (Message.clearFields t type known) ≤ Message.fieldsDepth known
  | [] => by simp [Message.clearFields]
  | (number, v) :: rest => by
    have hrest := Message.clearFields_depth t type rest
    cases ho : type.fieldNumbered? number with
    | none =>
      simp only [Message.clearFields, ho, Message.fieldsDepth]
      omega
    | some f =>
      have hv := Value.clearDefaults_depth t f v
      cases hx : t.isRedundant f v with
      | true =>
        simp only [Message.clearFields, ho, hx, ↓reduceIte, Message.fieldsDepth]
        omega
      | false =>
        simp only [Message.clearFields, ho, hx, Bool.false_eq_true, ↓reduceIte,
          Message.fieldsDepth]
        omega

theorem Value.clearDefaults_depth (t : TypeTable) (f : Field) :
    ∀ v : Value, (v.clearDefaults t f).depth ≤ v.depth
  | .bool _ | .int _ _ | .enum _ | .single _ | .double _ | .str _ | .bytes _ => by
    simp [Value.clearDefaults]
  | .message name m => by
    simpa [Value.clearDefaults, Value.depth] using Message.clearDefaults_depth t name m
  | .list items => by
    simpa [Value.clearDefaults, Value.depth] using Value.clearItems_depth t f items
  | .map entries => by
    cases hv : (t.mapEntry? f).bind (fun e => e.fieldNumbered? 2) with
    | none => simp [Value.clearDefaults, hv]
    | some v =>
      simpa [Value.clearDefaults, hv, Value.depth] using Value.clearEntries_depth t v entries

theorem Value.clearItems_depth (t : TypeTable) (f : Field) :
    ∀ items : List Value,
      Value.itemsDepth (Value.clearItems t f items) ≤ Value.itemsDepth items
  | [] => by simp [Value.clearItems]
  | v :: vs => by
    have hv := Value.clearDefaults_depth t f v
    have hvs := Value.clearItems_depth t f vs
    simp only [Value.clearItems, Value.itemsDepth]
    omega

theorem Value.clearEntries_depth (t : TypeTable) (f : Field) :
    ∀ entries : List (MapKey × Value),
      Value.entriesDepth (Value.clearEntries t f entries) ≤ Value.entriesDepth entries
  | [] => by simp [Value.clearEntries]
  | (k, v) :: rest => by
    have hv := Value.clearDefaults_depth t f v
    have hrest := Value.clearEntries_depth t f rest
    simp only [Value.clearEntries, Value.entriesDepth]
    omega

end

namespace FromJson

variable {t : TypeTable} {type : MessageType} {f : Field}

theorem takes_depth {kind : Kind} {v : Value} (h : kind.Takes v) : v.depth = 0 := by
  cases v with
  | bool | int | enum | single | double | str | bytes => simp [Value.depth]
  | message | list | map => cases kind <;> simp [Kind.Takes, Scalar.Takes] at h

theorem scalar_depth {s : Scalar} {j : Json} {v : Value} (h : scalar s j = .ok v) :
    v.depth = 0 := by
  have htakes : (Kind.scalar s).Takes v := scalar_takes h
  exact takes_depth htakes

theorem enum_depth (hs : t.Sound) {name : String} {j : Json} {v : Value}
    (h : enum t name j = .ok (some v)) : v.depth = 0 :=
  takes_depth (enum_takes hs h)

/-- What is read for null is no message, if the field leads to no form of text of its own. -/
theorem null_depth {v : Value} (hfree : t.FormFreeKind f.kind)
    (h : null t f = .ok (some v)) : v.depth = 0 := by
  unfold null at h
  split at h
  · rename_i name hk
    split at h
    · rename_i hname
      have hnone := hfree name hk name .refl
      rw [beq_iff_eq.mp hname] at hnone
      exact absurd hnone (by decide)
    · cases h
  · split at h
    · cases h
      simp [Value.depth]
    · cases h
  · cases h

theorem assign_depth {v : Option Value} {m m' : Message} {d : Nat} (hm : m.depth ≤ d)
    (hv : ∀ w, v = some w → w.depth ≤ d) (h : assign t type f v m = .ok m') : m'.depth ≤ d := by
  unfold assign at h
  split at h
  · cases h
    exact hm
  · cases h
  · cases h
    exact MessageType.store_depth hm (hv _ rfl)

mutual

/-- A value that is read is nested as deep as its JSON value at most. -/
theorem value_depth (hs : t.Sound) (shape : Shape) (hfree : t.FormFreeKind shape.item) :
    ∀ (j : Json) (v : Value), value t shape j = .ok (some v) → v.depth ≤ j.levels
  | .obj ms, v, h => by
    cases reads_of_formFree hfree h with
    | @message name _ _ m ht hm =>
      have hm := members_depth hs (hfree name rfl) ht ms .empty m (Nat.le_refl _)
        (Nat.zero_le _) hm
      simpa [Value.depth, Json.levels] using hm
    | @map key kind _ es hes =>
      have hes := entries_depth hs kind hfree ms es hes
      simpa [Value.depth, Json.levels] using hes
    | scalar hv => exact (scalar_depth hv).trans_le (Nat.zero_le _)
    | enum hv => exact (enum_depth hs hv).trans_le (Nat.zero_le _)
  | .arr js, v, h => by
    cases reads_of_formFree hfree h with
    | @list kind _ vs hvs =>
      have hvs := items_depth hs kind hfree js vs hvs
      simp only [Value.depth, Json.levels]
      omega
    | scalar hv => exact (scalar_depth hv).trans_le (Nat.zero_le _)
    | enum hv => exact (enum_depth hs hv).trans_le (Nat.zero_le _)
  | .null, v, h | .bool _, v, h | .int _, v, h | .double _, v, h | .single _, v, h
  | .str _, v, h => by
    cases reads_of_formFree hfree h with
    | scalar hv => exact (scalar_depth hv).trans_le (Nat.zero_le _)
    | enum hv => exact (enum_depth hs hv).trans_le (Nat.zero_le _)

theorem items_depth (hs : t.Sound) (kind : Kind) (hfree : t.FormFreeKind kind) :
    ∀ (js : List Json) (vs : List Value), items t kind js = .ok vs →
      Value.itemsDepth vs ≤ Json.levelsOf js
  | [], vs, h => by
    cases h
    exact Nat.le_refl _
  | j :: js, vs, h => by
    obtain ⟨v, hv, h⟩ := bind_eq_ok.mp h
    obtain ⟨rest, hrest, h⟩ := bind_eq_ok.mp h
    cases pure_eq_ok.mp h
    have hdepth := items_depth hs kind hfree js rest hrest
    rw [Json.levelsOf]
    cases v with
    | none => exact Nat.le_trans hdepth (Nat.le_max_right _ _)
    | some w =>
      have hw := value_depth hs (.single kind) hfree j w hv
      simp only [Option.toList_some, List.singleton_append, Value.itemsDepth]
      omega

theorem entries_depth (hs : t.Sound) {key : Kind} (kind : Kind) (hfree : t.FormFreeKind kind) :
    ∀ (ms : List (String × Json)) (es : List (MapKey × Value)), entries t key kind ms = .ok es →
      Value.entriesDepth es ≤ Json.levelsOfMembers ms + 1
  | [], es, h => by
    cases h
    exact Nat.zero_le _
  | (name, j) :: ms, es, h => by
    obtain ⟨k, v, rest, -, hv, hrest, hstored⟩ := entries_cons_ok h
    have hdepth := entries_depth hs kind hfree ms rest hrest
    have hle : Value.entriesDepth rest ≤ Json.levelsOfMembers ((name, j) :: ms) + 1 := by
      rw [Json.levelsOfMembers]
      omega
    rcases hstored with ⟨rfl, -⟩ | ⟨w, rfl, -, rfl⟩
    · exact hle
    · have hw := value_depth hs (.single kind) hfree j w hv
      rw [Value.entriesDepth_le] at hle ⊢
      intro e he
      rcases Value.mem_insertEntry he with rfl | he
      · rw [Json.levelsOfMembers]
        exact Nat.lt_succ_of_le (Nat.le_trans hw (Nat.le_max_left _ _))
      · exact hle e he

theorem members_depth (hs : t.Sound) {name : String} {type : MessageType}
    (hfree : t.FormFree name) (ht : t.message? name = some type) {d : Nat} :
    ∀ (ms : List (String × Json)) (m m' : Message), Json.levelsOfMembers ms ≤ d → m.depth ≤ d →
      members t type none ms m = .ok m' → m'.depth ≤ d
  | [], m, m', _, hm, h => by
    cases h
    exact hm
  | (key, j) :: ms, m, m', hd, hm, h => by
    rw [Json.levelsOfMembers, Nat.max_le] at hd
    have hrest := members_depth hs hfree ht (d := d) ms
    rw [members_cons rfl] at h
    cases hf : fieldFor? t type key with
    | none =>
      simp only [hf] at h
      exact hrest m m' hd.2 hm h
    | some f =>
      simp only [hf] at h
      obtain ⟨v, hv, h⟩ := bind_eq_ok.mp h
      obtain ⟨m₁, hm₁, h⟩ := bind_eq_ok.mp h
      have hmem := TypeTable.fieldFor?_mem hf
      have hdepth : ∀ w, v = some w → w.depth ≤ d := by
        rintro w rfl
        by_cases hj : j = .null
        · subst hj
          exact (null_depth (hfree.field ht hmem) hv).trans_le (Nat.zero_le d)
        · rw [member_eq_value hj] at hv
          exact Nat.le_trans (value_depth hs (t.shape f) (hfree.item ht hmem) j w hv) hd.1
      exact hrest m₁ m' hd.2 (assign_depth hm hdepth hm₁) h

end

end FromJson

namespace Message

variable {t : TypeTable} {name text : String} {j : Json} {m : Message}

/-- A message that is read from text nests less deep than the text. -/
theorem depth_lt_levels (hs : t.Sound) (hfree : t.FormFree name) (hj : Json.read text = .ok j)
    (hm : fromText t name text = .ok m) : m.depth < j.levels := by
  unfold fromText at hm
  simp only [hj] at hm
  split at hm
  · cases hm
  split at hm
  · cases hm
  · rename_i m₀ h
    cases hm
    obtain ⟨v, hv, h⟩ := bind_eq_ok.mp h
    have hkind : t.FormFreeKind (.message name) := by
      rintro _ ⟨⟩
      exact hfree
    split at h
    · cases pure_eq_ok.mp h
      have hdepth := FromJson.value_depth hs (.single (.message name)) hkind _ _ hv
      have hlevels := Json.levels_spelledAt t (some (.single (.message name))) j
      have hclear := clearDefaults_depth t name m₀
      simp only [Json.spelledAt, Value.depth] at hlevels hdepth
      omega
    · cases h

/-- A message that is read from text is read back from its bytes, less what is redundant, or it
nests too deep for that. -/
theorem fromText_decodes_or (hs : t.Sound) (hreg : t.Regular) (htype : (t.message? name).isSome)
    (hm : fromText t name text = .ok m) :
    ∃ bs, m.toWire t name = some bs ∧ (bs.length < Wire.wordLimit →
      fromWire t name bs = .ok (m.stripped t name) ∨
        Wire.depthLimit < m.depth ∧ fromWire t name bs = .error (.decode .recursionLimit)) := by
  obtain ⟨type, ht⟩ := Option.isSome_iff_exists.mp htype
  have hfits := (Made.text hm).fits hs hreg ht
  refine ⟨_, toWire_of_fits ht hfits, fun hlength => ?_⟩
  rcases Wire.readMessage_message_or hs hreg ht hfits hlength with hr | ⟨hdeep, hr⟩
  · left
    simp only [fromWire, ht, hr, clearDefaults_stripped t name m]
  · right
    exact ⟨hdeep, by simp only [fromWire, ht, hr, MessageError.ofWire]⟩

/-- Only what nests too deep is not read back from its bytes. That is not so for a text with at most
one level more than messages can nest, if no message in it has a form of text of its own. -/
theorem fromText_decodes {d : Disk} {root : String} {importPath : ImportPath} {s : Schema}
    (hload : Schema.load d root importPath = .ok s) (hreg : s.types.Regular)
    (htype : (s.types.message? name).isSome) (hm : fromText s.types name text = .ok m) :
    ∃ bs, m.toWire s.types name = some bs ∧ (bs.length < Wire.wordLimit →
      (fromWire s.types name bs = .ok (m.stripped s.types name) ∨
        Wire.depthLimit < m.depth ∧
          fromWire s.types name bs = .error (.decode .recursionLimit)) ∧
      (s.types.FormFree name → ∀ j, Json.read text = .ok j → j.levels ≤ Wire.depthLimit + 1 →
        fromWire s.types name bs = .ok (m.stripped s.types name))) := by
  have hs := Schema.load_sound hload
  obtain ⟨bs, hbs, hback⟩ := fromText_decodes_or hs hreg htype hm
  refine ⟨bs, hbs, fun hlength => ?_⟩
  have hor := hback hlength
  refine ⟨hor, fun hfree j hj hlevels => ?_⟩
  have hdepth := depth_lt_levels hs hfree hj hm
  rcases hor with hok | ⟨hdeep, -⟩
  · exact hok
  · omega

/-- A type of messages that hold one of their own type. -/
def nestSource : String :=
  "syntax=\"proto3\";message M{M m=1;}"

/-- So many messages in each other, inside a message. -/
def nestJson : Nat → Json
  | 0 => .obj []
  | n + 1 => .obj [("m", nestJson n)]

theorem nestJson_levels (n : Nat) : (nestJson n).levels = n + 1 := by
  induction n with
  | zero => rfl
  | succ n ih => simp [nestJson, Json.levels, Json.levelsOfMembers, ih]

theorem read_nestJson {n : Nat} (hn : n + 1 < Json.depthLimit) :
    Json.read (nestJson n).pretty = .ok (nestJson n) := by
  obtain ⟨hplain, hself⟩ : (nestJson n).IsPlain ∧ (nestJson n).asRead = nestJson n := by
    clear hn
    induction n with
    | zero => exact ⟨trivial, rfl⟩
    | succ n ih => simpa [nestJson, Json.IsPlain, Json.ArePlainMembers, Json.asRead,
        Json.asReadMembers, Json.sorted, Json.put] using ih
  have hread := Json.read_pretty hplain (by rwa [nestJson_levels])
  rwa [hself] at hread

/-- The text with messages in each other is read as a message. -/
theorem fromText_nestJson (hreg : t.Regular) {n : Nat} (hn : n + 1 < Json.depthLimit)
    (hm : m ∈ (ofJson t "M" ((nestJson n).spelled t (.single (.message "M")))).toOption) :
    fromText t "M" (nestJson n).pretty = .ok (m.clearDefaults t "M") := by
  simp [fromText, read_nestJson hn, Json.stops_regular hreg, ok_of_mem hm]

theorem fromText_decodes_nested :
    ∃ s m, Schema.load (.ofFile "a.proto" nestSource) "/a.proto" [] = .ok s ∧
      fromText s.types "M" (nestJson 100).pretty = .ok m ∧
      ∃ bs, m.toWire s.types "M" = some bs ∧
        fromWire s.types "M" bs = .ok (m.stripped s.types "M") := by
  have h : ∃ s ∈ (Schema.load (.ofFile "a.proto" nestSource) "/a.proto" []).toOption,
      ∃ m ∈ (ofJson s.types "M"
          ((nestJson 100).spelled s.types (.single (.message "M")))).toOption,
        s.types.Regular ∧ (s.types.message? "M").isSome ∧
          (∀ bs ∈ (m.clearDefaults s.types "M").toWire s.types "M",
            bs.length < Wire.wordLimit) ∧
          ∀ type ∈ s.types.messages, ∀ f ∈ s.types.fieldsOf type, f.kind.form?.isNone := by
    decide +kernel
  obtain ⟨s, hs, m, hm, hreg, htype, hlength, hforms⟩ := h
  have htext := fromText_nestJson hreg (by decide) hm
  obtain ⟨bs, hbs, hback⟩ := fromText_decodes (ok_of_mem hs) hreg htype htext
  refine ⟨s, _, ok_of_mem hs, htext, bs, hbs, ?_⟩
  exact (hback (hlength bs hbs)).2 (.all (by decide) hforms) _ (read_nestJson (by decide))
    (Nat.le_of_eq (nestJson_levels 100))

/-- One message more, and the text is still read, but its bytes are not. -/
theorem nested_not_decoded :
    ∃ s m, Schema.load (.ofFile "a.proto" nestSource) "/a.proto" [] = .ok s ∧
      fromText s.types "M" (nestJson 101).pretty = .ok m ∧
      ∃ bs, m.toWire s.types "M" = some bs ∧
        fromWire s.types "M" bs = .error (.decode .recursionLimit) := by
  have h : ∃ s ∈ (Schema.load (.ofFile "a.proto" nestSource) "/a.proto" []).toOption,
      ∃ m ∈ (ofJson s.types "M"
          ((nestJson 101).spelled s.types (.single (.message "M")))).toOption,
        s.types.Regular ∧ (s.types.message? "M").isSome ∧
          ∀ bs ∈ (m.clearDefaults s.types "M").toWire s.types "M",
            bs.length < Wire.wordLimit ∧ (fromWire s.types "M" bs).toOption.isNone := by
    decide +kernel
  obtain ⟨s, hs, m, hm, hreg, htype, hbytes⟩ := h
  have hs := ok_of_mem hs
  have htext := fromText_nestJson hreg (by decide) hm
  obtain ⟨bs, hbs, hback⟩ := fromText_decodes_or (Schema.load_sound hs) hreg htype htext
  obtain ⟨hlength, hno⟩ := hbytes bs hbs
  refine ⟨s, _, hs, htext, bs, hbs, ?_⟩
  rcases hback hlength with hok | ⟨-, herr⟩
  · simp [hok, Except.toOption] at hno
  · exact herr

end Message
end RpcConsole

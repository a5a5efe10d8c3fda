import RpcConsole.Proofs.Load.Types
import RpcConsole.Proofs.Message.Explicit
import RpcConsole.Proofs.Message.Made
import RpcConsole.Proofs.Message.Members
import RpcConsole.Proofs.Message.Whole

namespace RpcConsole

/-- What is shown for the items of a list. -/
structure ToldItems (t : TypeTable) (kind : Kind) (js : List Json) (vs : List Value) : Prop where
  plain : Json.ArePlain js
  spelled : Json.spelledItems t kind (Json.asReadItems js) = Json.asReadItems js
  read : FromJson.items t kind (Json.asReadItems js) = .ok vs

/-- What is shown for the entries of a map. -/
structure ToldEntries (t : TypeTable) (key kind : Kind) (ms : List (String × Json))
    (es : List (MapKey × Value)) : Prop where
  keys : Json.keys ms = es.map fun e => e.1.text
  plain : Json.ArePlainMembers ms
  spelled : Json.spelledEntries t kind (Json.asReadMembers ms) = Json.asReadMembers ms
  read : FromJson.entries t key kind (Json.asReadMembers ms) = .ok es

variable {t : TypeTable} {kind : Kind}

theorem ToldItems.cons {j : Json} {v : Value} {js : List Json} {vs : List Value}
    (hj : Told t (.single kind) j v) (hjs : ToldItems t kind js vs) :
    ToldItems t kind (j :: js) (v :: vs) where
  plain := ⟨hj.plain, hjs.plain⟩
  spelled := by simp [Json.asReadItems, Json.spelledItems, hj.spelled, hjs.spelled]
  read := by simp [Json.asReadItems, FromJson.items, hj.read, hjs.read, bind, Except.bind, pure,
    Except.pure]

theorem ToldItems.list {js : List Json} {vs : List Value} (h : ToldItems t kind js vs) :
    Told t (.list kind) (.arr js) (.list vs) where
  plain := h.plain
  spelled := by simp [Json.asRead, Json.spelled, h.spelled]
  read := by simp [Json.asRead, FromJson.value, h.read, bind, Except.bind, pure, Except.pure]
  full := by simp [Json.asRead]

theorem ToldEntries.cons {key : Kind} {k : MapKey} {j : Json} {v : Value}
    {ms : List (String × Json)} {es : List (MapKey × Value)} (hk : key.IsKey)
    (htakes : key.Takes (Wire.keyValue k)) (hj : Told t (.single kind) j v)
    (hms : ToldEntries t key kind ms es) (hlt : ∀ e ∈ es, k.text < e.1.text) :
    ToldEntries t key kind ((k.text, j) :: ms) ((k, v) :: es) where
  keys := by simpa [Json.keys] using hms.keys
  plain := ⟨hj.plain, hms.plain⟩
  spelled := by simp [Json.asReadMembers, Json.spelledEntries, hj.spelled, hms.spelled]
  read := by
    rw [Json.asReadMembers]
    exact FromJson.entries_cons (FromJson.mapKey_text hk htakes) hj.read hms.read hlt

theorem ToldEntries.map {key : Kind} {ms : List (String × Json)} {es : List (MapKey × Value)}
    (h : ToldEntries t key kind ms es) (hsorted : Value.Sorted es) :
    Told t (.map key kind) (.obj ms) (.map es) := by
  have horder : Json.InOrder (Json.asReadMembers ms) := by
    have hkeys : Json.keys (Json.asReadMembers ms) = es.map fun e => e.1.text := by
      rw [← h.keys, Json.asReadMembers_eq]
      simp [Json.keys, Function.comp_def]
    rw [Json.InOrder, hkeys]
    exact List.pairwise_map.mpr hsorted
  constructor
  case plain => exact h.plain
  case spelled => simp [Json.asRead, Json.sorted_of_inOrder horder, Json.spelled, h.spelled]
  case read =>
    simp [Json.asRead, Json.sorted_of_inOrder horder, FromJson.value, h.read, bind, Except.bind,
      pure, Except.pure]
  case full => simp [Json.asRead]

theorem Shown.nil (t : TypeTable) (type : MessageType) : Shown t type [] [] :=
  ⟨by simp, by simp⟩

theorem Shown.skip {type : MessageType} {number : Nat} {f : Field} {v : Value}
    {known : List (Nat × Value)} {shown : List (Nat × Json)} (h : Shown t type known shown)
    (hf : t.fieldNumbered? type number = some f) (ho : type.fieldNumbered? number = none)
    (hx : t.isRedundant f v = true) : Shown t type ((number, v) :: known) shown where
  told s hs := by
    obtain ⟨g, w, hg, htold, hw⟩ := h.told s hs
    exact ⟨g, w, hg, htold, by simpa [Message.retoldFields, hf, ho, hx] using hw⟩
  covers e he g hg hr := by
    rcases List.mem_cons.mp he with rfl | he
    · rw [hf, Option.some.injEq] at hg
      have hown := hr (hg ▸ hx)
      rw [ho] at hown
      cases hown
    · exact h.covers e he g hg hr

theorem Shown.cons {type : MessageType} {number : Nat} {f : Field} {v : Value} {j : Json}
    {known : List (Nat × Value)} {shown : List (Nat × Json)} (h : Shown t type known shown)
    (hf : t.fieldNumbered? type number = some f)
    (hx : t.isRedundant f v = true → type.fieldNumbered? number = some f)
    (hj : Told t (t.shape f) j (v.retold t true f)) :
    Shown t type ((number, v) :: known) ((number, j) :: shown) where
  told s hs := by
    have hkept : (t.isRedundant f v && !(type.fieldNumbered? number).isSome) = false := by
      cases hr : t.isRedundant f v with
      | false => rfl
      | true => simp [hx hr]
    simp only [Message.retoldFields, hf, Bool.true_and, hkept, Bool.false_eq_true, ↓reduceIte,
      Bool.true_or]
    rcases List.mem_cons.mp hs with rfl | hs
    · exact ⟨f, _, hf, hj, by simp⟩
    · obtain ⟨g, w, hg, htold, hw⟩ := h.told s hs
      exact ⟨g, w, hg, htold, List.mem_cons_of_mem _ hw⟩
  covers e he g hg hr := by
    rcases List.mem_cons.mp he with rfl | he
    · simp
    · exact List.mem_cons_of_mem _ (h.covers e he g hg hr)

/-- A single value that is shown under a field. -/
theorem single_shown (hn : t.Named) (hreg : t.Regular) {f : Field} (hf : t.Tells f) {shape : Shape}
    (hu : UnderField t f shape) {v : Value} (hv : v.Fits t shape) (hc : v.isCollection = false)
    (hm : ∀ name m, v ≠ .message name m) (hfloat : v.hasFloat t f = false)
    (inner : ToJson.Inner) : ∃ j, ToJson.value inner t f v = .ok j ∧ Told t shape j v := by
  obtain rfl := hf.shape hreg hu hv hc
  rcases Value.fits_single hv with ⟨name, _, m, -, hvm, -⟩ | htakes
  · exact absurd hvm (hm name m)
  · refine ⟨_, ToJson.value_takes inner htakes, plain_told hn htakes hf.nulls ?_⟩
    cases v with
    | single | double => simp [Value.hasFloat] at hfloat
    | bool | int | enum | str | bytes | message | list | map => trivial

section

-- the linter looks at each theorem of a mutual block alone
set_option linter.unusedSectionVars false

variable (hs : t.Sound) (hreg : t.Regular) (hn : t.Named) (inner : ToJson.Inner)

include hs hreg hn

mutual

/-- A message of a legible type is shown, and what is shown for it is read as the message with its
defaults. -/
theorem Message.shown (name : String) (type : MessageType) (ht : t.message? name = some type)
    (hl : t.Legible name) : ∀ m : Message, m.Fits t type → m.hasFloat t name = false →
      ∃ j, ToJson.message inner t name m = .ok j ∧
        Told t (.single (.message name)) j (.message name (m.retold t true name))
  | ⟨known, unknown⟩, hfit, hfloat => by
    simp only [Message.hasFloat, ht] at hfloat
    obtain ⟨shown, hshow, hshown⟩ :=
      Message.fieldsShown type (TypeTable.message?_mem ht) (fun f hf => hl.tells ht hf) known hfit.2
        hfloat
    have hordinary : WellKnown.ofName? name = none :=
      TypeTable.message?_name ht ▸ (hl.own ht).ordinary
    refine ⟨.obj (ToJson.assemble t type shown), ?_, ?_⟩
    · have htorn := TypeTable.hasTorn_eq_false fun f (_ : f ∈ type.fields) => hreg.hasEntries f
      simp only [ToJson.message, hordinary, ht, hshow, htorn]
      rfl
    · simpa [Message.retold, ht, Message.told] using
        hshown.object_told hs hreg hn (hl.own ht) ht hfit.1

theorem Message.fieldsShown (type : MessageType) (ht : type ∈ t.messages)
    (hl : ∀ f ∈ t.fieldsOf type, t.Tells f) : ∀ known : List (Nat × Value),
      Message.FieldsFit t type known → Message.fieldsHaveFloat t type known = false →
      ∃ shown, ToJson.fields inner t type known = .ok shown ∧ Shown t type known shown
  | [], _, _ => ⟨[], rfl, .nil t type⟩
  | (number, v) :: rest, hfit, hfloat => by
    obtain ⟨hv, hrest⟩ := hfit
    cases hf : t.fieldNumbered? type number with
    | none => simp [hf] at hv
    | some f =>
      simp only [hf] at hv
      simp only [Message.fieldsHaveFloat, hf, Bool.or_eq_false_iff] at hfloat
      obtain ⟨shown, hshow, hshown⟩ := Message.fieldsShown type ht hl rest hrest hfloat.2
      have htells := hl f (TypeTable.fieldNumbered?_mem hf)
      cases hx : t.isRedundant f v with
      | true =>
        cases ho : type.fieldNumbered? number with
        | none =>
          refine ⟨shown, ?_, hshown.skip hf ho hx⟩
          simp only [ToJson.fields, hf, ho, hx, Option.isNone_none, Bool.and_self, ↓reduceIte,
            hshow]
        | some g =>
          obtain rfl := Shown.own ho hf
          have hfield := hs.field type ht f (List.mem_of_find?_eq_some ho)
          obtain ⟨j, hj, htold⟩ := redundant_told hn hfield htells.nulls inner hv hx
          rw [← (Value.retold_redundant hx true).1] at htold
          refine ⟨(number, j) :: shown, ?_, hshown.cons hf (fun _ => ho) htold⟩
          simp only [ToJson.fields, hf, ho, Option.isNone_some, Bool.false_and,
            Bool.false_eq_true, ↓reduceIte, hj, hshow]
          rfl
      | false =>
        obtain ⟨j, hj, htold⟩ := Value.shown f htells v (t.shape f) (.inl rfl) hv
          (by simpa [hx] using hfloat.1)
        refine ⟨(number, j) :: shown, ?_, hshown.cons hf (by simp [hx]) htold⟩
        simp only [ToJson.fields, hf, hx, Bool.and_false, Bool.false_eq_true, ↓reduceIte, hj, hshow]
        rfl

theorem Value.shown (f : Field) (hl : t.Tells f) :
    ∀ (v : Value) (shape : Shape), UnderField t f shape → v.Fits t shape →
      v.hasFloat t f = false →
      ∃ j, ToJson.value inner t f v = .ok j ∧ Told t shape j (v.retold t true f)
  | .bool _, _, hu, hfit, hfloat | .int _ _, _, hu, hfit, hfloat | .enum _, _, hu, hfit, hfloat
  | .single _, _, hu, hfit, hfloat | .double _, _, hu, hfit, hfloat
  | .str _, _, hu, hfit, hfloat | .bytes _, _, hu, hfit, hfloat => by
    simpa [Value.retold] using single_shown hn hreg hl hu hfit rfl (by simp) hfloat inner
  | .message name m, shape, hu, hfit, hfloat => by
    obtain rfl := hl.shape hreg hu hfit rfl
    obtain ⟨hk, -, type, ht, hm⟩ := hu.message hfit
    simp only [Value.hasFloat] at hfloat
    obtain ⟨j, hj, htold⟩ := Message.shown name type ht (hl.legible name hk) m hm hfloat
    refine ⟨j, by simpa [ToJson.value] using hj, ?_⟩
    simpa [Value.retold, hk] using htold
  | .list items, shape, hu, hfit, hfloat => by
    obtain ⟨rfl, hitems⟩ := hu.list hfit
    obtain ⟨js, hjs, htold⟩ := Value.itemsShown f hl items hitems hfloat
    refine ⟨.arr js, ?_, by simpa [Value.retold] using htold.list⟩
    simp only [ToJson.value, hjs]
    rfl
  | .map entries, shape, hu, hfit, hfloat => by
    obtain ⟨entry, k, w, -, hm, hk, rfl, hsorted, hentries⟩ := hu.map hreg hfit
    obtain ⟨hkind, hfind, -⟩ := TypeTable.mapEntry?_eq_some hm
    have hw : (t.mapEntry? f).bind (fun e => e.fieldNumbered? 2) = some w := by
      simp [hm, hk.value]
    have htells := (hl.legible entry.name hkind).tells hfind
      (List.mem_append_left _ (List.mem_of_find?_eq_some hk.value))
    simp only [Value.hasFloat, hw] at hfloat
    obtain ⟨ms, hms, htold⟩ :=
      Value.entriesShown w htells k.kind hk.keyKind entries hsorted hentries hfloat
    refine ⟨.obj ms, ?_, ?_⟩
    · simp only [ToJson.value, hw, hms]
      rfl
    · simpa [Value.retold, hw] using htold.map (Value.retoldEntries_sorted t true w hsorted)

theorem Value.itemsShown (f : Field) (hl : t.Tells f) :
    ∀ items : List Value, Value.ItemsFit t f.kind items → Value.itemsHaveFloat t f items = false →
      ∃ js, ToJson.items inner t f items = .ok js ∧
        ToldItems t f.kind js (Value.retoldItems t true f items)
  | [], _, _ => ⟨[], rfl, ⟨trivial, rfl, rfl⟩⟩
  | v :: vs, hfit, hfloat => by
    simp only [Value.itemsHaveFloat, Bool.or_eq_false_iff] at hfloat
    obtain ⟨j, hj, htold⟩ := Value.shown f hl v (.single f.kind) (.inr rfl) hfit.1 hfloat.1
    obtain ⟨js, hjs, htolds⟩ := Value.itemsShown f hl vs hfit.2 hfloat.2
    refine ⟨j :: js, ?_, by simpa [Value.retoldItems] using ToldItems.cons htold htolds⟩
    simp only [ToJson.items, hj, hjs]
    rfl

theorem Value.entriesShown (f : Field) (hl : t.Tells f) (key : Kind) (hk : key.IsKey) :
    ∀ entries : List (MapKey × Value), Value.Sorted entries →
      Value.EntriesFit t key f.kind entries → Value.entriesHaveFloat t f entries = false →
      ∃ ms, ToJson.entries inner t f entries = .ok ms ∧
        ToldEntries t key f.kind ms (Value.retoldEntries t true f entries)
  | [], _, _, _ => ⟨[], rfl, ⟨rfl, trivial, rfl, rfl⟩⟩
  | (k, v) :: rest, hsorted, hfit, hfloat => by
    obtain ⟨hlt, hrestSorted⟩ := List.pairwise_cons.mp hsorted
    simp only [Value.entriesHaveFloat, Bool.or_eq_false_iff] at hfloat
    obtain ⟨j, hj, htold⟩ := Value.shown f hl v (.single f.kind) (.inr rfl) hfit.1.2 hfloat.1
    obtain ⟨ms, hms, htolds⟩ := Value.entriesShown f hl key hk rest hrestSorted hfit.2 hfloat.2
    refine ⟨(k.text, j) :: ms, ?_, ?_⟩
    · simp only [ToJson.entries, hj, hms]
      rfl
    · refine htolds.cons hk hfit.1.1 htold fun e he => ?_
      obtain ⟨d, hd, hde⟩ := Value.mem_retoldEntries he
      exact hde ▸ hlt d hd

end

end

namespace Message

variable {type : MessageType} {name : String} {m : Message}

/-- A message of a legible type has a text, from which it is read with its extensions filled up by
defaults. -/
theorem fromText_pretty (hs : t.Sound) (hreg : t.Regular) (hn : t.Named)
    (ht : t.message? name = some type) (hl : t.Legible name) (hm : m.Fits t type)
    (hfloat : m.hasFloat t name = false) :
    ∃ j, ToJson.render t name m = .ok j ∧
      (j.levels < Json.depthLimit → fromText t name j.pretty = .ok (m.retold t false name)) := by
  obtain ⟨j, hj, htold⟩ := Message.shown hs hreg hn (ToJson.nested t (Wire.message t name m).length)
    name type ht hl m hm hfloat
  refine ⟨j, hj, fun hlevels => ?_⟩
  have hread := Json.read_pretty htold.plain hlevels
  have hmessage : ofJson t name j.asRead = .ok (m.retold t true name) := by
    simp [ofJson, FromJson.message, htold.read, bind, Except.bind, pure, Except.pure]
  simp only [fromText, hread, Json.stops_regular hreg, Bool.false_eq_true, ↓reduceIte,
    htold.spelled, hmessage, clearDefaults_retold hs name m]

/-- A message of a loaded schema whose type is legible has a text, and is read back from it as an
equal one. -/
theorem text_round_trip {d : Disk} {root : String} {importPath : ImportPath} {s : Schema}
    (hload : Schema.load d root importPath = .ok s) (hreg : s.types.Regular)
    (htype : (s.types.message? name).isSome) (hlegible : s.types.Legible name)
    (hmade : m.Made s.types name) (hunknown : m.hasUnknown = false)
    (hfloat : m.hasFloat s.types name = false)
    (hempty : m.hasNoEmptyExtension s.types name = true)
    (hexplicit : m.isExplicit s.types false name = true) :
    ∃ j, ToJson.render s.types name m = .ok j ∧ m.toText s.types name = .ok j.pretty ∧
      (j.levels < Json.depthLimit →
        ∃ m', fromText s.types name j.pretty = .ok m' ∧ m'.same m = true) := by
  have hs := Schema.load_sound hload
  obtain ⟨type, ht⟩ := Option.isSome_iff_exists.mp htype
  have hm := hmade.fits hs hreg ht
  have hclear := hmade.clear hs hreg ht
  have hshown : m.all s.types s.types.isShown name = true :=
    all_of (fun x f v hx hp _ => isRedundant_extension hs hx hp) name m hempty hempty
  obtain ⟨j, hj, hback⟩ := fromText_pretty hs hreg (Schema.load_named hload) ht hlegible hm hfloat
  refine ⟨j, hj, by simp [toText, hj], fun hlevels => ⟨_, hback hlevels, ?_⟩⟩
  rw [retold_same hreg false name type ht m hm (fun _ => hclear) hshown hfloat hunknown]
  exact hexplicit

/-- A map of messages by numbers, a message as an extension, and a list of enum values as one. -/
def toldSource : String :=
  "enum E{A=0;}message M{extensions 8,9;map<int64,M> m=1;}extend M{optional M x=8;repeated E e=9;}"

/-- A message with something of each. The message in the extension has a map, without entries. -/
def toldText : String :=
  "\x7b\"m\":\x7b\"-9223372036854775808\":\x7b\x7d\x7d," ++
    "\"[x]\":\x7b\"m\":\x7b\x7d\x7d,\"[e]\":[\"A\",7]\x7d"

theorem text_round_trip_told :
    ∃ s m, Schema.load (.ofFile "a.proto" toldSource) "/a.proto" [] = .ok s ∧
      fromText s.types "M" toldText = .ok m ∧
      ∃ j : Json, m.toText s.types "M" = .ok j.pretty ∧
        ∃ m', fromText s.types "M" j.pretty = .ok m' ∧ m'.same m = true := by
  have h : ∃ s ∈ (Schema.load (.ofFile "a.proto" toldSource) "/a.proto" []).toOption,
      ∃ m ∈ (fromText s.types "M" toldText).toOption,
        s.types.Regular ∧ (s.types.message? "M").isSome ∧
          (∀ type ∈ s.types.messages, type.Legible s.types) ∧ m.hasUnknown = false ∧
          m.hasFloat s.types "M" = false ∧ m.hasNoEmptyExtension s.types "M" = true ∧
          m.isExplicit s.types false "M" = true ∧
          ∀ j ∈ (ToJson.render s.types "M" m).toOption, j.levels < Json.depthLimit := by
    decide +kernel
  obtain ⟨s, hs, m, hm, hreg, ht, hl, hu, hf, he, hx, hlevels⟩ := h
  have hs := ok_of_mem hs
  have hm := ok_of_mem hm
  obtain ⟨j, hj, htext, hback⟩ := text_round_trip hs hreg ht (.all hl) (.text hm) hu hf he hx
  exact ⟨s, m, hs, hm, j, htext, hback (hlevels j (by simp [hj, Except.toOption]))⟩

/-- No extension is set to a list without items. -/
def hasNoEmptyList (t : TypeTable) (name : String) (m : Message) : Bool :=
  m.all t (fun x _ v => !(x && v.same (.list []))) name

/-- A message of ordinary types is not read back from its text as an equal one. -/
def Garbled (source name : String) (make : TypeTable → Except MessageError Message) : Prop :=
  ∃ s m, Schema.load (.ofFile "a.proto" source) "/a.proto" [] = .ok s ∧
    (∀ type ∈ s.types.messages, type.Ordinary s.types) ∧
    make s.types = .ok m ∧ m.Made s.types name ∧ m.hasUnknown = false ∧
    m.hasFloat s.types name = false ∧ m.hasNoEmptyList s.types name = true ∧
    ∃ j : Json, m.toText s.types name = .ok j.pretty ∧ j.levels < Json.depthLimit ∧
      ¬ ∃ m', fromText s.types name j.pretty = .ok m' ∧ m'.same m = true

theorem Garbled.of_runs {source name : String} {make : TypeTable → Except MessageError Message}
    (hmake : ∀ t m, make t = .ok m → m.Made t name)
    (h : ∃ s ∈ (Schema.load (.ofFile "a.proto" source) "/a.proto" []).toOption,
      (∀ type ∈ s.types.messages, type.Ordinary s.types) ∧
        ∃ m ∈ (make s.types).toOption, m.hasUnknown = false ∧ m.hasFloat s.types name = false ∧
          m.hasNoEmptyList s.types name = true ∧
          ∃ j ∈ (ToJson.render s.types name m).toOption, j.levels < Json.depthLimit ∧
            ∀ m' ∈ (fromText s.types name j.pretty).toOption, m'.same m = false) :
    Garbled source name make := by
  obtain ⟨s, hs, ho, m, hm, hu, hf, he, j, hj, hlevels, hno⟩ := h
  have hm := ok_of_mem hm
  refine ⟨s, m, ok_of_mem hs, ho, hm, hmake s.types m hm, hu, hf, he, j, ?_, hlevels, ?_⟩
  · simp [toText, ok_of_mem hj]
  · rintro ⟨m', hm', hsame⟩
    rw [hno m' (by simp [hm', Except.toOption])] at hsame
    cases hsame

/-- What does not come back: an extension that leaves out a field without presence, an extension
that is an empty map, and an extension whose member name is the JSON name of a field. -/
theorem garbled_not_round_trip :
    Garbled "message M{extensions 2;repeated M m=1;}extend M{optional M x=2;}" "M"
      (fun t => fromText t "M" "\x7b\"[x]\":\x7b\x7d\x7d") ∧
    Garbled "message M{extensions 2;map<int32,int32> m=1;}extend M{repeated M.MEntry x=2;}" "M"
      (fun t => fromText t "M" "\x7b\"[x]\":\x7b\x7d\x7d") ∧
    Garbled ("message M\x7bextensions 2;optional int32 m=1[json_name=\"[x]\"];\x7d" ++
      "extend M{optional string x=2;}") "M" (fun t => fromWire t "M" [18, 2, 97, 97]) :=
  ⟨.of_runs (fun _ _ => .text) (by decide +kernel), .of_runs (fun _ _ => .text) (by decide +kernel),
    .of_runs (fun _ _ => .wire) (by decide +kernel)⟩

end Message
end RpcConsole

import RpcConsole.Proofs.Load.Types
import RpcConsole.Proofs.Message.Made
import RpcConsole.Proofs.Wire.Holds
import RpcConsole.Proofs.Wire.RoundTrip

namespace RpcConsole.Message

variable {t : TypeTable} {type : MessageType} {name : String} {m : Message}

theorem isStable_of (hs : t.Sound) {x : Bool} {f : Field} {v : Value}
    (hx : x = true → ∃ e ∈ t.extensions, e.field = f) (hempty : (!(x && v.isEmpty)) = true)
    (hlone : (!v.isLone f) = true) (hsettled : (!x || v.isSettled t f) = true) :
    t.isStable x f v = true := by
  have hr := isRedundant_extension hs hx hempty
  cases x with
  | false => simpa [TypeTable.isStable] using hlone
  | true =>
    simp only [Bool.true_and, Bool.not_eq_true'] at hr
    simp only [Bool.not_true, Bool.false_or] at hsettled
    simpa [TypeTable.isStable, hr, hsettled] using hlone

theorem Made.settled (hs : t.Sound) (hreg : t.Regular) (ht : t.message? name = some type)
    (h : m.Made t name) (hempty : m.hasNoEmptyExtension t name = true)
    (hlone : m.hasNoLone t name = true) (hbelow : m.extensionsSettled t name = true) :
    m.isSettled t name = true := by
  obtain ⟨m₀, -, rfl⟩ := h.cleared hs hreg ht
  refine settled_of_stable t name m₀ ?_
  have hboth := all_of (r := fun x f v => !(x && v.isEmpty) && !v.isLone f)
    (fun x f v _ hp hq => by simp [hp, hq]) name _ hempty hlone
  refine all_of (fun x f v hx hp hq => ?_) name _ hboth hbelow
  obtain ⟨hp, hl⟩ := Bool.and_eq_true_iff.mp hp
  exact isStable_of hs hx hp hl hq

/-- Reading the bytes of a message gives the message, less what is redundant. -/
theorem fromWire_message (hs : t.Sound) (hreg : t.Regular) (ht : t.message? name = some type)
    (hm : m.Fits t type) (hd : m.depth ≤ Wire.depthLimit)
    (hl : (Wire.message t name m).length < Wire.wordLimit) :
    fromWire t name (Wire.message t name m) = .ok (m.stripped t name) := by
  have hr := Wire.readMessage_message hs hreg ht hm hd hl
  simp only [fromWire, ht, hr, clearDefaults_stripped t name m]

/-- A message of a loaded schema is written, and is read back from its bytes as an equal one, with
the same text unless a map holds a zero with a sign that the bytes leave out. -/
theorem wire_round_trip {d : Disk} {root : String} {importPath : ImportPath} {s : Schema}
    (hload : Schema.load d root importPath = .ok s) (hreg : s.types.Regular)
    (htype : (s.types.message? name).isSome) (hmade : m.Made s.types name)
    (hnan : m.hasNaN = false) (hdepth : m.depth ≤ Wire.depthLimit)
    (hempty : m.hasNoEmptyExtension s.types name = true)
    (hlone : m.hasNoLone s.types name = true)
    (hbelow : m.extensionsSettled s.types name = true) :
    ∃ bs, m.toWire s.types name = some bs ∧ (bs.length < Wire.wordLimit →
      ∃ m', fromWire s.types name bs = .ok m' ∧ m'.same m = true ∧
        (m.hasSignedZero s.types name = false →
          m'.toText s.types name = m.toText s.types name)) := by
  have hs := Schema.load_sound hload
  obtain ⟨type, ht⟩ := Option.isSome_iff_exists.mp htype
  have hfits := hmade.fits hs hreg ht
  have hsettled := hmade.settled hs hreg ht hempty hlone hbelow
  refine ⟨_, toWire_of_fits ht hfits, fun hlength => ?_⟩
  have hr := fromWire_message hs hreg ht hfits hdepth hlength
  refine ⟨m.stripped s.types name, hr, ?_, fun hz => ?_⟩
  · rw [stripped_same s.types name m hnan]
    exact hsettled
  · rw [stripped_eq s.types name m hsettled hz]

/-- A schema with an extension, a list and a map, and a message of it. -/
def sampleSource : String :=
  "message M{extensions 2;repeated M m=1;map<string,int32> e=3;}extend M{optional M x=2;}"

def sampleText : String :=
  "\x7b\"[x]\":\x7b\"m\":[\x7b\x7d]\x7d,\"e\":\x7b\"a\":5\x7d\x7d"

theorem wire_round_trip_sample :
    ∃ s m, Schema.load (.ofFile "a.proto" sampleSource) "/a.proto" [] = .ok s ∧
      fromText s.types "M" sampleText = .ok m ∧
      ∃ bs m', m.toWire s.types "M" = some bs ∧ fromWire s.types "M" bs = .ok m' ∧
        m'.same m = true ∧ m'.toText s.types "M" = m.toText s.types "M" := by
  have h : ∃ s ∈ (Schema.load (.ofFile "a.proto" sampleSource) "/a.proto" []).toOption,
      ∃ m ∈ (fromText s.types "M" sampleText).toOption,
        s.types.Regular ∧ (s.types.message? "M").isSome ∧ m.hasNaN = false ∧
          m.depth ≤ Wire.depthLimit ∧
          (∀ bs ∈ m.toWire s.types "M", bs.length < Wire.wordLimit) ∧
          m.hasNoEmptyExtension s.types "M" = true ∧ m.hasNoLone s.types "M" = true ∧
          m.extensionsSettled s.types "M" = true ∧ m.hasSignedZero s.types "M" = false := by
    decide +kernel
  obtain ⟨s, hs, m, hm, hreg, ht, hnan, hd, hl, he, hlone, hb, hz⟩ := h
  have hs := ok_of_mem hs
  have hm := ok_of_mem hm
  obtain ⟨bs, hbs, hback⟩ := wire_round_trip hs hreg ht (.text hm) hnan hd he hlone hb
  obtain ⟨m', hw, hsame, htext⟩ := hback (hl bs hbs)
  exact ⟨s, m, hs, hm, bs, m', hbs, hw, hsame, htext hz⟩

/-- The bytes of a message that is read from text do not give an equal message of the same text. -/
def Lost (source name text : String) : Prop :=
  ∃ s m, Schema.load (.ofFile "a.proto" source) "/a.proto" [] = .ok s ∧
    fromText s.types name text = .ok m ∧ m.hasNaN = false ∧
    m.hasNoEmptyExtension s.types name = true ∧ m.depth ≤ Wire.depthLimit ∧
    ∃ bs, m.toWire s.types name = some bs ∧
      ¬ ∃ m', fromWire s.types name bs = .ok m' ∧ m'.same m = true ∧
        m'.toText s.types name = m.toText s.types name

theorem Lost.of_runs {source name text : String}
    (h : ∃ s ∈ (Schema.load (.ofFile "a.proto" source) "/a.proto" []).toOption,
      ∃ m ∈ (fromText s.types name text).toOption, m.hasNaN = false ∧
        m.hasNoEmptyExtension s.types name = true ∧ m.depth ≤ Wire.depthLimit ∧
        ∃ bs ∈ m.toWire s.types name,
          ∀ m' ∈ (fromWire s.types name bs).toOption, m'.same m = true →
            (m'.toText s.types name).toOption ≠ (m.toText s.types name).toOption) :
    Lost source name text := by
  obtain ⟨s, hs, m, hm, hnan, he, hd, bs, hbs, hno⟩ := h
  refine ⟨s, m, ok_of_mem hs, ok_of_mem hm, hnan, he, hd, bs, hbs, ?_⟩
  rintro ⟨m', hw, hsame, htext⟩
  exact hno m' (by simp [hw, Except.toOption]) hsame (by rw [htext])

/-- What does not come back: something redundant below an extension, null in place of a list, and a
zero with a sign in a map. -/
theorem lossy_not_round_trip :
    Lost "message M{extensions 2;repeated M m=1;}extend M{optional M x=2;}" "M"
      "\x7b\"[x]\":\x7b\"m\":[]\x7d\x7d" ∧
    Lost "package google.protobuf;enum NullValue{N=0;}message M{repeated NullValue l=1;}"
      "google.protobuf.M" "\x7b\"l\":null\x7d" ∧
    Lost "syntax=\"proto3\";message M{map<bool,double> d=1;}" "M"
      "\x7b\"d\":\x7b\"true\":-0.0\x7d\x7d" :=
  ⟨.of_runs (by decide +kernel), .of_runs (by decide +kernel), .of_runs (by decide +kernel)⟩

end RpcConsole.Message

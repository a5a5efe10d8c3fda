import RpcConsole.Console.Listing
import RpcConsole.Proofs.Call.Shapes
import RpcConsole.Proofs.Service.Addressing
import RpcConsole.Proofs.Service.Selection
import RpcConsole.Proofs.Text.Pieces

namespace RpcConsole

/-- None of some characters is in a text. -/
def Text.Lacks (cs : List Char) (text : String) : Prop :=
  ∀ c ∈ cs, c ∉ text.toList

namespace Text.Lacks

variable {cs : List Char} {a b : String}

-- only the characters of the list are looked at
instance : Decidable (Lacks cs a) :=
  List.decidableBAll (fun c => c ∉ a.toList) cs

theorem append (ha : Lacks cs a) (hb : Lacks cs b) : Lacks cs (a ++ b) := by
  intro c hc
  rw [String.toList_append, List.mem_append, not_or]
  exact ⟨ha c hc, hb c hc⟩

theorem of_dotted (h : Name.IsDotted a) : Lacks ['\n', '/'] a := by
  intro c hc
  simp only [List.mem_cons, List.not_mem_nil, or_false] at hc
  rcases hc with rfl | rfl
  · exact h.not_mem.1
  · exact h.not_mem.2

theorem newline (h : Lacks ['\n', '/'] a) : Lacks ['\n'] a := by
  intro c hc
  exact h c (List.mem_cons.mpr (.inl (List.mem_singleton.mp hc)))

theorem paint {colored : Bool} {inks : List Console.Ink} (h : Lacks cs a)
    (hset : Lacks cs (Console.setInks inks)) (hreset : Lacks cs Console.resetInks) :
    Lacks cs (Console.paint colored inks a) := by
  unfold Console.paint
  split
  · exact (hset.append h).append hreset
  · exact h

end Text.Lacks

open Text (Lacks)

/-- One text stands inside another one. -/
def Text.Shows (text inner : String) : Prop :=
  inner.toList <:+: text.toList

namespace Text.Shows

variable {a b inner : String}

theorem left (h : Shows a inner) (b : String) : Shows (a ++ b) inner := by
  unfold Shows
  rw [String.toList_append]
  exact h.trans (List.prefix_append _ _).isInfix

theorem right (a : String) (h : Shows b inner) : Shows (a ++ b) inner := by
  unfold Shows
  rw [String.toList_append]
  exact h.trans (List.suffix_append _ _).isInfix

theorem paint (colored : Bool) (inks : List Console.Ink) (text : String) :
    Shows (Console.paint colored inks text) text := by
  unfold Console.paint
  split
  · exact (right _ List.infix_rfl).left _
  · exact List.infix_rfl

end Text.Shows

open Text (Shows)

namespace Method

/-- What makes a line of a method readable: its names have neither slashes nor line breaks. -/
structure Dotted (m : Method) : Prop where
  name : Name.IsDotted m.name
  input : Name.IsDotted m.input
  output : Name.IsDotted m.output

/-- A method on its line, without the mark. -/
def signature (colored : Bool) (m : Method) : String :=
  let rpc := Console.paint colored [.cyan] "rpc"
  let name := Console.paint colored [.green] m.name
  let returns := Console.paint colored [.cyan] "returns"
  let takes := streamWord colored m.clientStreaming ++ m.input
  let gives := streamWord colored m.serverStreaming ++ m.output
  s!"{rpc} {name}({takes}) {returns} ({gives});"

/-- The mark of a method that cannot be called. -/
def mark : String := "// not callable"

variable {m : Method} {colored : Bool}

theorem line_eq (colored : Bool) (m : Method) :
    m.line colored = if m.isStreaming then
      m.signature colored ++ " " ++ Console.paint colored [.dim] mark else m.signature colored :=
  rfl

theorem streamWord_lacks (colored stream : Bool) :
    Lacks ['\n', '/'] (streamWord colored stream) := by
  cases colored <;> cases stream <;> decide +kernel

theorem signature_lacks (hm : m.Dotted) : Lacks ['\n', '/'] (m.signature colored) := by
  have hword (text : String) (h : Lacks ['\n', '/'] text) :
      Lacks ['\n', '/'] (Console.paint colored [.cyan] text) :=
    h.paint (by decide +kernel) (by decide +kernel)
  have hname : Lacks ['\n', '/'] (Console.paint colored [.green] m.name) :=
    (Lacks.of_dotted hm.name).paint (by decide +kernel) (by decide +kernel)
  have htakes := (streamWord_lacks colored m.clientStreaming).append (.of_dotted hm.input)
  have hgives := (streamWord_lacks colored m.serverStreaming).append (.of_dotted hm.output)
  have hlit : Lacks ['\n', '/'] " " ∧ Lacks ['\n', '/'] "(" ∧ Lacks ['\n', '/'] ") " ∧
      Lacks ['\n', '/'] " (" ∧ Lacks ['\n', '/'] ");" ∧ Lacks ['\n', '/'] "rpc" ∧
      Lacks ['\n', '/'] "returns" := by
    decide +kernel
  obtain ⟨hspace, hopen, hclose, hnext, hlast, hrpc, hreturns⟩ := hlit
  exact ((((((((hword _ hrpc).append hspace).append hname).append hopen).append htakes).append
    hclose).append (hword _ hreturns)).append hnext).append hgives |>.append hlast

/-- A line of a method stays one line. -/
theorem line_lacks (hm : m.Dotted) : Lacks ['\n'] (m.line colored) := by
  have hs : Lacks ['\n'] (m.signature colored) := (signature_lacks hm).newline
  have hmark : Lacks ['\n'] (Console.paint colored [.dim] mark) := by
    cases colored <;> decide +kernel
  rw [line_eq]
  split
  · exact (hs.append (by decide)).append hmark
  · exact hs

theorem signature_shows (colored : Bool) (m : Method) : Shows (m.signature colored) m.name :=
  ((((((((Shows.paint colored [.green] m.name).right _).left _).left _).left _).left _).left
    _).left _).left _

theorem line_shows (colored : Bool) (m : Method) : Shows (m.line colored) m.name := by
  rw [line_eq]
  split
  · exact ((signature_shows colored m).left _).left _
  · exact signature_shows colored m

/-- The mark is on the lines of the methods that are streams. -/
theorem line_shows_mark (hm : m.Dotted) :
    Shows ("  " ++ m.line colored) mark ↔ m.isStreaming = true := by
  rw [line_eq]
  split
  · rename_i hs
    exact ⟨fun _ => hs, fun _ => ((Shows.paint colored [.dim] mark).right _).right _⟩
  · rename_i hs
    refine ⟨fun hi => ?_, fun h => absurd h hs⟩
    have hslash : '/' ∈ mark.toList := by decide
    have hline : Lacks ['\n', '/'] ("  " ++ m.signature colored) :=
      Lacks.append (by decide) (signature_lacks hm)
    exact absurd (hi.subset hslash) (hline '/' (by simp))

end Method

/-- A line of a listing, with the handle of what it shows. -/
abbrev ListingRow := Option Handle × String

namespace Service

/-- The first line of a service. -/
def header (colored : Bool) (s : Service) : String :=
  let service := Console.paint colored [.cyan] "service"
  let name := Console.paint colored [.green] s.fullName
  s!"{service} {name} \x7b"

/-- The lines of a service at an index. -/
def rows (colored : Bool) (s : Service) (index : Nat) : List ListingRow :=
  (some (.service index), s.header colored) ::
    (s.methods.zipIdx.map (fun p => (some (.method index p.2), "  " ++ p.1.line colored)) ++
      [(none, "\x7d")])

end Service

namespace ServiceTree

/-- The lines of services from an index on, with an empty line between them. -/
def rowsFrom (colored : Bool) : Nat → List Service → List ListingRow
  | _, [] => []
  | index, [s] => s.rows colored index
  | index, s :: s' :: ss =>
    s.rows colored index ++ (none, "") :: rowsFrom colored (index + 1) (s' :: ss)

/-- The lines of a listing. -/
def rows (colored : Bool) (t : ServiceTree) : List ListingRow :=
  if t.isEmpty then [(none, Console.paint colored [.yellow] "No services found.")]
  else rowsFrom colored 0 t.services

end ServiceTree

/-- Lines that end in line breaks, and a last one that does not. -/
theorem Text.join_ended (lines : List String) (last : String) :
    String.join (lines.map (· ++ "\n")) ++ last = "\n".intercalate (lines ++ [last]) := by
  induction lines with
  | nil => simp
  | cons l lines ih =>
    rw [List.cons_append, String.intercalate_cons_of_ne_nil (by simp), ← ih, List.map_cons,
      String.join_cons]
    simp only [String.append_assoc]

namespace Service

variable {s : Service} {colored : Bool} {index : Nat}

theorem rows_snd (colored : Bool) (s : Service) (index : Nat) :
    (s.rows colored index).map Prod.snd =
      s.header colored :: (s.methods.map (fun m => "  " ++ m.line colored) ++ ["\x7d"]) := by
  have hmethods : (s.methods.zipIdx.map fun p => "  " ++ p.1.line colored) =
      s.methods.map fun m => "  " ++ m.line colored := by
    conv_rhs => rw [← List.zipIdx_map_fst 0 s.methods, List.map_map]
    rfl
  simp [rows, Function.comp_def, hmethods]

theorem block_eq (colored : Bool) (s : Service) (index : Nat) :
    s.block colored = "\n".intercalate ((s.rows colored index).map Prod.snd) := by
  have hopen : (" \x7b\n" : String) = " \x7b" ++ "\n" := by decide
  have hmethods : (s.methods.map fun m => "  " ++ m.line colored ++ "\n") =
      (s.methods.map fun m => "  " ++ m.line colored).map (· ++ "\n") := by
    simp [Function.comp_def]
  rw [rows_snd, String.intercalate_cons_of_ne_nil (by simp), ← Text.join_ended, ← hmethods]
  simp only [block, header, toString, hopen, String.append_assoc]

theorem rows_fst (colored : Bool) (s : Service) (index : Nat) :
    (s.rows colored index).filterMap Prod.fst = ServiceTree.serviceHandles s index := by
  have hindices : s.methods.zipIdx.map Prod.snd = List.range s.methods.length := by
    rw [List.zipIdx_map_snd, List.range_eq_range']
  have hmethods : (s.methods.zipIdx.map fun p => Handle.method index p.2) =
      (List.range s.methods.length).map (Handle.method index) := by
    rw [← hindices, List.map_map]
    rfl
  simp [rows, ServiceTree.serviceHandles, hmethods]

/-- What makes the lines of a service readable. -/
structure Dotted (s : Service) : Prop where
  fullName : Name.IsDotted s.fullName
  methods : ∀ m ∈ s.methods, m.Dotted

theorem header_lacks (hs : s.Dotted) : Lacks ['\n'] (s.header colored) := by
  have hword : Lacks ['\n'] (Console.paint colored [.cyan] "service") := by
    cases colored <;> decide +kernel
  have hname : Lacks ['\n'] (Console.paint colored [.green] s.fullName) :=
    (Lacks.of_dotted hs.fullName).newline.paint (by decide +kernel) (by decide +kernel)
  exact ((hword.append (by decide)).append hname).append (by decide)

theorem header_shows (colored : Bool) (s : Service) : Shows (s.header colored) s.fullName :=
  ((Shows.paint colored [.green] s.fullName).right _).left _

theorem rows_lacks (hs : s.Dotted) : ∀ row ∈ s.rows colored index, Lacks ['\n'] row.2 := by
  refine List.forall_mem_cons.mpr ⟨header_lacks hs, List.forall_mem_append.mpr ⟨?_, by decide⟩⟩
  intro row hrow
  obtain ⟨⟨m, j⟩, hm, rfl⟩ := List.mem_map.mp hrow
  have hm := List.mem_of_getElem? (List.mem_zipIdx_iff_getElem?.mp hm)
  exact Lacks.append (by decide) (Method.line_lacks (hs.methods m hm))

end Service

namespace ServiceTree

variable {t : ServiceTree} {colored : Bool}

theorem rowsFrom_ne_nil {index : Nat} {s : Service} {ss : List Service} :
    rowsFrom colored index (s :: ss) ≠ [] := by
  cases ss <;> simp [rowsFrom, Service.rows]

theorem rowsFrom_snd (index : Nat) (s : Service) (ss : List Service) :
    "\n\n".intercalate ((s :: ss).map (Service.block colored)) =
      "\n".intercalate ((rowsFrom colored index (s :: ss)).map Prod.snd) := by
  induction ss generalizing index s with
  | nil => simp [rowsFrom, ← Service.block_eq]
  | cons s' ss ih =>
    have hblocks : "\n\n".intercalate ((s :: s' :: ss).map (Service.block colored)) =
        s.block colored ++ "\n\n" ++
          "\n\n".intercalate ((s' :: ss).map (Service.block colored)) :=
      String.intercalate_cons_of_ne_nil (by simp)
    have hempty : "\n".intercalate ("" :: (rowsFrom colored (index + 1) (s' :: ss)).map Prod.snd) =
        "" ++ "\n" ++ "\n".intercalate ((rowsFrom colored (index + 1) (s' :: ss)).map Prod.snd) :=
      String.intercalate_cons_of_ne_nil (by simp [rowsFrom_ne_nil])
    have hbreaks : ("\n\n" : String) = "\n" ++ ("" ++ "\n") := by decide
    rw [hblocks, ih (index + 1), rowsFrom, List.map_append, List.map_cons,
      String.intercalate_append_of_ne_nil (by simp [Service.rows_snd]) (by simp),
      ← Service.block_eq, hempty, hbreaks]
    simp only [String.append_assoc]

theorem rowsFrom_handles (colored : Bool) (index : Nat) (ss : List Service) :
    (rowsFrom colored index ss).filterMap Prod.fst =
      (ss.zipIdx index).flatMap fun p => serviceHandles p.1 p.2 := by
  match ss with
  | [] => rfl
  | [s] => simp [rowsFrom, Service.rows_fst]
  | s :: s' :: ss =>
    have ih := rowsFrom_handles colored (index + 1) (s' :: ss)
    simpa [rowsFrom, Service.rows_fst] using ih

/-- The line of a method is what is shown of it, and the line of any handle shows its label. -/
theorem rowsFrom_shows {index : Nat} {ss : List Service} {h : Handle} {line : String}
    (hm : (some h, line) ∈ rowsFrom colored index ss) :
    ∃ s, (s, h.serviceIndex) ∈ ss.zipIdx index ∧
      (h = .service h.serviceIndex ∧ line = s.header colored ∨
        ∃ j m, h = .method h.serviceIndex j ∧ s.methods[j]? = some m ∧
          line = "  " ++ m.line colored) := by
  have hrows {s : Service} {index : Nat} (hm : (some h, line) ∈ s.rows colored index) :
      h.serviceIndex = index ∧ (h = .service index ∧ line = s.header colored ∨
        ∃ j m, h = .method index j ∧ s.methods[j]? = some m ∧ line = "  " ++ m.line colored) := by
    simp only [Service.rows, List.mem_cons, List.mem_append, List.mem_map, Prod.exists,
      Prod.mk.injEq, Option.some.injEq, List.mem_zipIdx_iff_getElem?, List.not_mem_nil, or_false,
      reduceCtorEq, false_and] at hm
    rcases hm with ⟨rfl, rfl⟩ | ⟨m, j, hj, rfl, rfl⟩
    · exact ⟨rfl, .inl ⟨rfl, rfl⟩⟩
    · exact ⟨rfl, .inr ⟨j, m, rfl, hj, rfl⟩⟩
  induction ss generalizing index with
  | nil => simp [rowsFrom] at hm
  | cons s ss ih =>
    cases ss with
    | nil =>
      obtain ⟨hi, hs⟩ := hrows hm
      exact ⟨s, by simp [hi], hi ▸ hs⟩
    | cons s' ss =>
      simp only [rowsFrom, List.mem_append, List.mem_cons, Prod.mk.injEq, reduceCtorEq, false_and,
        false_or] at hm
      rcases hm with hm | hm
      · obtain ⟨hi, hs⟩ := hrows hm
        exact ⟨s, by simp [hi], hi ▸ hs⟩
      · obtain ⟨u, hu, hs⟩ := ih hm
        exact ⟨u, by rw [List.zipIdx_cons]; exact List.mem_cons_of_mem _ hu, hs⟩

theorem rowsFrom_lacks {index : Nat} {ss : List Service} (hs : ∀ s ∈ ss, s.Dotted) :
    ∀ row ∈ rowsFrom colored index ss, Lacks ['\n'] row.2 := by
  induction ss generalizing index with
  | nil => simp [rowsFrom]
  | cons s ss ih =>
    obtain ⟨hdotted, hss⟩ := List.forall_mem_cons.mp hs
    cases ss with
    | nil => exact Service.rows_lacks hdotted
    | cons s' ss =>
      refine List.forall_mem_append.mpr ⟨Service.rows_lacks hdotted, ?_⟩
      exact List.forall_mem_cons.mpr ⟨by decide, ih hss⟩

theorem listing_eq (colored : Bool) (t : ServiceTree) :
    t.listing colored = "\n".intercalate ((t.rows colored).map Prod.snd) := by
  obtain ⟨services⟩ := t
  cases services with
  | nil => simp [listing, rows, isEmpty]
  | cons s ss => simpa [listing, rows, isEmpty] using rowsFrom_snd 0 s ss

/-- If the names in a listing keep to their lines, its lines are those of the handles and a few
without one. -/
theorem listing_pieces (ht : ∀ s ∈ t.services, s.Dotted) :
    Text.pieces '\n' (t.listing colored) = (t.rows colored).map Prod.snd := by
  have hrows : t.rows colored ≠ [] ∧ ∀ row ∈ t.rows colored, Lacks ['\n'] row.2 := by
    obtain ⟨services⟩ := t
    cases services with
    | nil => cases colored <;> simp [rows, isEmpty] <;> decide +kernel
    | cons s ss => exact ⟨rowsFrom_ne_nil, rowsFrom_lacks ht⟩
  rw [listing_eq]
  refine Text.pieces_intercalate (by simp) (by simpa using hrows.1) fun l hl => ?_
  obtain ⟨row, hrow, rfl⟩ := List.mem_map.mp hl
  exact hrows.2 row hrow '\n' (by simp)

theorem rows_handles (colored : Bool) (t : ServiceTree) :
    (t.rows colored).filterMap Prod.fst = t.handles := by
  unfold rows
  split
  · rename_i he
    have hnil : t.services = [] := List.isEmpty_iff.mp he
    simp [handles, hnil]
  · exact rowsFrom_handles colored 0 t.services

/-- The line of a handle shows its label, and that of a method is the method as it is shown. -/
theorem rows_shows {h : Handle} {line : String} (hm : (some h, line) ∈ t.rows colored) :
    (∀ name, t.label h = some name → Shows line name) ∧
      ∀ m, t.resolve h = some m → line = "  " ++ m.line colored := by
  have hfrom : (some h, line) ∈ rowsFrom colored 0 t.services := by
    unfold rows at hm
    split at hm
    · simp at hm
    · exact hm
  obtain ⟨s, hs, hline⟩ := rowsFrom_shows hfrom
  have hs : t.services[h.serviceIndex]? = some s := List.mem_zipIdx_iff_getElem?.mp hs
  rcases hline with ⟨hh, rfl⟩ | ⟨j, m, hh, hj, rfl⟩
  · rw [hh]
    refine ⟨fun name hn => ?_, fun m hr => by cases hr⟩
    simp only [label, hs, Option.map_some, Option.some.injEq] at hn
    subst hn
    exact Service.header_shows colored s
  · rw [hh]
    have hr : t.resolve (.method h.serviceIndex j) = some m := by simp [resolve, hs, hj]
    refine ⟨fun name hn => ?_, fun m' hr' => ?_⟩
    · simp only [label, hr, Option.map_some, Option.some.injEq] at hn
      subst hn
      exact (Method.line_shows colored m).right _
    · rw [hr] at hr'
      cases hr'
      rfl

end ServiceTree

namespace Schema

variable {d : Disk} {root : String} {importPath : ImportPath} {s : Schema}

/-- The names in the listing of a schema that was loaded are made of identifiers. -/
theorem load_dotted (h : load d root importPath = .ok s) :
    ∀ service ∈ s.serviceTree.services, service.Dotted := by
  obtain ⟨q, -, hs⟩ := load_complete h
  obtain ⟨f, hf, -, hpackage, hservices⟩ := load_root h
  have hplain {g : StoredFile} (hg : g ∈ s.store.files) : g.decl.Plain :=
    Source.file?_plain (hs.meant g hg)
  have hmessage {name : String} (hn : ∃ g ∈ s.store.files, name ∈ g.decl.messageNames) :
      Name.IsDotted name := by
    obtain ⟨g, hg, hm⟩ := hn
    exact (hplain hg).messageNames name hm
  intro service hservice
  have ht := load_apart h
  have hscope : Name.IsDotted s.root.packageName := by
    have hp := (hplain (List.mem_of_head? hf)).packageName
    rwa [FileDecl.packageName, hpackage] at hp
  refine ⟨?_, fun m hm => ⟨.of_identifier (ht.methodIdent service hservice m hm), ?_, ?_⟩⟩
  · rw [ht.fullName service hservice]
    exact hscope.join (.of_identifier (ht.ident service hservice))
  · exact hmessage (hs.methods service hservice m hm).1
  · exact hmessage (hs.methods service hservice m hm).2

/-- In a schema that was loaded, the handles are the places of the services and methods of the root
file as it was read, each once and in declaration order. A handle has a label if it is one of them,
and stands for a method if it is that of one. Each has a line of its own in the listing, which shows
its label. A handle can be called exactly if it stands for a method that is not refused for its
shape, with any transport and text and at any address, and exactly if its line does not have the
mark. -/
theorem selection_agrees (h : load d root importPath = .ok s) :
    (∃ f, s.store.files.head? = some f ∧ Path.fileName? root = some f.name ∧
      s.serviceTree.handles.Pairwise Handle.Before ∧ s.serviceTree.handles.Nodup ∧
      (∀ handle, handle ∈ s.serviceTree.handles ↔ (f.decl.nameAt? handle).isSome = true) ∧
      ∀ handle, s.serviceTree.label handle = f.decl.nameAt? handle) ∧
    (∀ handle, (s.serviceTree.label handle).isSome = true ↔ handle ∈ s.serviceTree.handles) ∧
    (∀ handle, (s.serviceTree.resolve handle).isSome = true ↔
      handle ∈ s.serviceTree.handles ∧ handle.isMethod = true) ∧
    (∀ colored,
      Text.pieces '\n' (s.serviceTree.listing colored) =
        (s.serviceTree.rows colored).map Prod.snd ∧
      (s.serviceTree.rows colored).filterMap Prod.fst = s.serviceTree.handles ∧
      ∀ handle line name, (some handle, line) ∈ s.serviceTree.rows colored →
        s.serviceTree.label handle = some name → Text.Shows line name) ∧
    (∀ handle, s.serviceTree.isInvocable handle = true →
      (s.serviceTree.resolve handle).isSome = true) ∧
    ∀ handle m, s.serviceTree.resolve handle = some m →
      (∀ (σ : Type) (send : Transport (StateM σ)) (st : σ) (text address : String),
        s.serviceTree.isInvocable handle = true ↔
          ((m.invoke s.types send text address).run st).1.any Outcome.isShapeRefusal = false) ∧
      ∀ colored line, (some handle, line) ∈ s.serviceTree.rows colored →
        line = "  " ++ m.line colored ∧
          (s.serviceTree.isInvocable handle = true ↔ ¬ Text.Shows line Method.mark) := by
  have hdotted := load_dotted h
  obtain ⟨f, hf, hname, hpackage, hservices⟩ := load_root h
  have hlabel (handle : Handle) : s.serviceTree.label handle = f.decl.nameAt? handle :=
    (FileDecl.label_serviceTypes s.root handle).trans
      (FileDecl.nameAt?_eq hpackage hservices handle)
  refine ⟨⟨f, hf, hname, s.serviceTree.handles_pairwise, s.serviceTree.handles_nodup,
    fun handle => ?_, hlabel⟩, fun handle => ServiceTree.mem_handles.symm,
    fun handle => ServiceTree.resolve_isSome, fun colored => ?_,
    fun handle => ServiceTree.resolve_of_isInvocable, fun handle m hr => ?_⟩
  · rw [ServiceTree.mem_handles, hlabel]
  · exact ⟨ServiceTree.listing_pieces hdotted, ServiceTree.rows_handles colored s.serviceTree,
      fun handle line name hm => (ServiceTree.rows_shows hm).1 name⟩
  · have hinvocable := ServiceTree.isInvocable_of_resolve hr
    refine ⟨fun σ send st text address => ?_, fun colored line hm => ?_⟩
    · rw [Method.invoke_isShapeRefusal, hinvocable, Bool.not_eq_true']
    · obtain ⟨service, hh⟩ := ServiceTree.Holds.of_resolve hr
      have hm' := (hdotted service hh.service_mem).methods m hh.method_mem
      have hline := (ServiceTree.rows_shows hm).2 m hr
      refine ⟨hline, ?_⟩
      rw [hline, Method.line_shows_mark hm', hinvocable, Bool.not_eq_true', Bool.not_eq_true]

/-- A service without methods, and one with a stream. -/
def emptyAndStream : String :=
  "message A{}service S{}service T{rpc M(A)returns(stream A);rpc N(A)returns(A);}"

/-- A transport that brings back no bytes. -/
def silent : Transport (StateM Unit) :=
  fun _ => pure (.ok [])

theorem selection_agrees_stream :
    ∃ s, load (.ofFile "a.proto" emptyAndStream) "/a.proto" [] = .ok s ∧
      s.serviceTree.handles = [.service 0, .service 1, .method 1 0, .method 1 1] ∧
      s.serviceTree.handles.Nodup ∧ s.serviceTree.label (.method 0 0) = none ∧
      ∃ m n, s.serviceTree.resolve (.method 1 0) = some m ∧
        s.serviceTree.resolve (.method 1 1) = some n ∧
        ((m.invoke s.types silent "" "a").run ()).1.any Outcome.isShapeRefusal = true ∧
        ((n.invoke s.types silent "" "a").run ()).1.any Outcome.isShapeRefusal = false := by
  have h : ∃ s ∈ (load (.ofFile "a.proto" emptyAndStream) "/a.proto" []).toOption,
      s.serviceTree.handles = [.service 0, .service 1, .method 1 0, .method 1 1] ∧
      s.serviceTree.isInvocable (.method 1 0) = false ∧
      s.serviceTree.isInvocable (.method 1 1) = true := by
    decide +kernel
  obtain ⟨s, hs, hhandles, hstream, hunary⟩ := h
  have hload := ok_of_mem hs
  obtain ⟨⟨f, -, -, -, hnodup, -⟩, hlabel, hresolve, -, -, hinvoke⟩ := selection_agrees hload
  have hsome (j : Nat) (hj : Handle.method 1 j ∈ s.serviceTree.handles) :
      ∃ m, s.serviceTree.resolve (.method 1 j) = some m :=
    Option.isSome_iff_exists.mp ((hresolve _).mpr ⟨hj, rfl⟩)
  obtain ⟨m, hm⟩ := hsome 0 (by simp [hhandles])
  obtain ⟨n, hn⟩ := hsome 1 (by simp [hhandles])
  refine ⟨s, hload, hhandles, hnodup, ?_, m, n, hm, hn, ?_, ?_⟩
  · have hnone := mt (hlabel (.method 0 0)).mp (by simp [hhandles])
    simpa using hnone
  · have hshape := (hinvoke _ m hm).1 Unit silent () "" "a"
    simpa [hstream] using hshape
  · exact ((hinvoke _ n hn).1 Unit silent () "" "a").mp hunary

end Schema
end RpcConsole

import RpcConsole.Proofs.Load.Types
import RpcConsole.Proofs.Pool.Services
import RpcConsole.Service.Endpoint

namespace RpcConsole

namespace Name

variable {scope a b : String}

@[simp] theorem join_empty (name : String) : join "" name = name := rfl

theorem join_inj (h : join scope a = join scope b) : a = b := by
  unfold join at h
  split at h
  · exact h
  · simpa [String.ext_iff] using h

theorem dot_mem_join (h : scope ≠ "") (name : String) : '.' ∈ (join scope name).toList := by
  simp [join, h]

theorem not_blank_join (scope : String) {name : String} (h : name.toList.all Text.isSpace = false) :
    (join scope name).toList.all Text.isSpace = false := by
  unfold join
  split
  · exact h
  · simp [List.all_append, h]

end Name

namespace Endpoint

/-- A slash that no other one follows splits a text. -/
theorem splitLast_slash (service : List Char) {method : List Char} (h : '/' ∉ method) :
    splitLast (service ++ '/' :: method) = some (service, method) := by
  have hpart : ∀ c ∈ method.reverse, (c != '/') = true := by
    intro c hc
    rw [bne_iff_ne]
    rintro rfl
    exact h (List.mem_reverse.mp hc)
  have htake : (service ++ '/' :: method).reverse.takeWhile (· != '/') = method.reverse := by
    rw [List.reverse_append, List.reverse_cons, List.append_assoc,
      List.takeWhile_append_of_pos hpart]
    simp
  have hlength : (method.length == (service ++ '/' :: method).length) = false := by
    rw [beq_eq_false_iff_ne, List.length_append, List.length_cons]
    omega
  have hrest : (service ++ '/' :: method).length - method.length - 1 = service.length := by
    rw [List.length_append, List.length_cons]
    omega
  simp only [splitLast, htake, List.reverse_reverse, hlength, hrest, Bool.false_eq_true,
    if_false, List.take_left']

/-- An endpoint is read from its text, if neither name is blank and that of the method has no
slash. -/
theorem read_text {service method : String} (hs : service.toList.all Text.isSpace = false)
    (hm : method.toList.all Text.isSpace = false) (hslash : '/' ∉ method.toList) :
    read (service ++ "/" ++ method) = .ok ⟨service, method⟩ := by
  have hsplit : splitLast (service ++ "/" ++ method).toList =
      some (service.toList, method.toList) := by
    simpa using splitLast_slash service.toList hslash
  simp only [read, hsplit, hs, hm, Bool.or_self, Bool.false_eq_true, if_false, String.ofList_toList]

end Endpoint

/-- The path of a method gives back both names. -/
theorem Method.path_inj {m n : Method} (hm : '/' ∉ m.name.toList) (hn : '/' ∉ n.name.toList)
    (h : m.path = n.path) : m.service = n.service ∧ m.name = n.name := by
  have hsplit {k : Method} (hk : '/' ∉ k.name.toList) :
      Endpoint.splitLast k.path.toList = some ('/' :: k.service.toList, k.name.toList) := by
    simpa [path] using Endpoint.splitLast_slash ('/' :: k.service.toList) hk
  have he := (hsplit hm).symm.trans (h ▸ hsplit hn)
  simpa [String.toList_inj] using he

/-- Two places in a list are the same if what stands there has one key that comes once. -/
theorem eq_of_key {α β : Type} (key : α → β) {l : List α} {i j : Nat} {x y : α}
    (hn : (l.map key).Nodup) (hi : l[i]? = some x) (hj : l[j]? = some y) (hk : key x = key y) :
    i = j := by
  have hlt : i < (l.map key).length := by
    rw [List.length_map]
    exact (List.getElem?_eq_some_iff.mp hi).1
  exact (List.getElem?_inj hlt hn).mp (by simp [hi, hj, hk])

namespace ServiceTree

/-- A handle stands for a method of a service. -/
inductive Holds (t : ServiceTree) : Handle → Service → Method → Prop where
  | method {i j : Nat} {service : Service} {m : Method} (hs : t.services[i]? = some service)
      (hm : service.methods[j]? = some m) : Holds t (.method i j) service m

/-- The services of a tree can be told apart: they stand in one scope, they and their methods have
identifiers as names, and each name comes once. -/
structure Apart (scope : String) (t : ServiceTree) : Prop where
  fullName : ∀ s ∈ t.services, s.fullName = Name.join scope s.name
  service : ∀ s ∈ t.services, ∀ m ∈ s.methods, m.service = s.fullName
  ident : ∀ s ∈ t.services, Proto.Lexeme.isIdentifier s.name.toList = true
  methodIdent : ∀ s ∈ t.services, ∀ m ∈ s.methods, Proto.Lexeme.isIdentifier m.name.toList = true
  services : (t.services.map Service.name).Nodup
  methods : ∀ s ∈ t.services, (s.methods.map Method.name).Nodup

variable {t : ServiceTree} {h h' : Handle} {s s' : Service} {m m' : Method} {a b scope : String}

theorem Holds.resolve (hh : t.Holds h s m) : t.resolve h = some m := by
  obtain ⟨hs, hm⟩ := hh
  simp [ServiceTree.resolve, hs, hm]

theorem Holds.of_resolve (hr : t.resolve h = some m) : ∃ s, t.Holds h s m := by
  cases h with
  | service i => cases hr
  | method i j =>
    obtain ⟨s, hs, hm⟩ := Option.bind_eq_some_iff.mp hr
    exact ⟨s, .method hs hm⟩

theorem Holds.service_mem (hh : t.Holds h s m) : s ∈ t.services := by
  obtain ⟨hs, hm⟩ := hh
  exact List.mem_of_getElem? hs

theorem Holds.method_mem (hh : t.Holds h s m) : m ∈ s.methods := by
  obtain ⟨hs, hm⟩ := hh
  exact List.mem_of_getElem? hm

/-- What is found has the names that were asked for. -/
theorem findMethod_some (hf : t.findMethod a b = some h) :
    ∃ s m, t.Holds h s m ∧ m.name = b ∧ (s.fullName = a ∨ s.name = a) := by
  obtain ⟨⟨s, i⟩, hmem, hp⟩ := List.exists_of_findSome?_eq_some hf
  have hs := List.mem_zipIdx_iff_getElem?.mp hmem
  dsimp only at hp
  split at hp
  · rename_i ha
    obtain ⟨j, hj, rfl⟩ := Option.map_eq_some_iff.mp hp
    obtain ⟨hlt, hname, -⟩ := List.findIdx?_eq_some_iff_getElem.mp hj
    have hm : s.methods[j]? = some s.methods[j] := List.getElem?_eq_getElem hlt
    exact ⟨s, s.methods[j], .method hs hm, by simpa using hname, by simpa using ha⟩
  · cases hp

/-- What has the names that are asked for is found. -/
theorem findMethod_none (hf : t.findMethod a b = none) (hh : t.Holds h s m) (hb : m.name = b) :
    ¬ (s.fullName = a ∨ s.name = a) := by
  intro ha
  obtain @⟨i, j, _, _, hs, hm⟩ := hh
  have hp := List.findSome?_eq_none_iff.mp hf (s, i) (List.mem_zipIdx_iff_getElem?.mpr hs)
  simp only [Bool.or_eq_true, beq_iff_eq, ha, if_true, Option.map_eq_none_iff] at hp
  have hno := List.findIdx?_eq_none_iff.mp hp _ (List.mem_of_getElem? hm)
  simp [hb] at hno

namespace Apart

/-- Among all names of services, full and short ones, no two services share one. -/
theorem eq_of_name (ht : t.Apart scope) (hs : s ∈ t.services) (hs' : s' ∈ t.services)
    (ha : s.fullName = a ∨ s.name = a) (ha' : s'.fullName = a ∨ s'.name = a) :
    s.name = s'.name := by
  rw [ht.fullName s hs] at ha
  rw [ht.fullName s' hs'] at ha'
  by_cases hscope : scope = ""
  · simp only [hscope, Name.join_empty, or_self] at ha ha'
    exact ha.trans ha'.symm
  · have hdot {u u' : Service} (hu : Name.join scope u.name = a) (hu' : u' ∈ t.services)
        (hn : u'.name = a) : False := by
      have hmem := Name.dot_mem_join hscope u.name
      rw [hu, ← hn] at hmem
      exact (Proto.Lexeme.not_mem_of_isIdentifier (ht.ident u' hu')).2 hmem
    rcases ha with ha | ha <;> rcases ha' with ha' | ha'
    · exact Name.join_inj (ha.trans ha'.symm)
    · exact (hdot ha hs' ha').elim
    · exact (hdot ha' hs ha).elim
    · exact ha.trans ha'.symm

/-- Two handles for methods of one name in services of one name are the same. -/
theorem handle_unique (ht : t.Apart scope) (hh : t.Holds h s m) (hh' : t.Holds h' s' m')
    (hs : s.name = s'.name) (hm : m.name = m'.name) : h = h' := by
  obtain @⟨i, j, _, _, hi, hj⟩ := hh
  obtain @⟨i', j', _, _, hi', hj'⟩ := hh'
  have hii := eq_of_key Service.name ht.services hi hi' hs
  subst hii
  have hss : s = s' := Option.some.inj (hi.symm.trans hi')
  subst hss
  have hjj := eq_of_key Method.name (ht.methods s (List.mem_of_getElem? hi)) hj hj' hm
  rw [hjj]

/-- A method is found by its name and by either name of its service. -/
theorem findMethod (ht : t.Apart scope) (hh : t.Holds h s m) (ha : s.fullName = a ∨ s.name = a) :
    t.findMethod a m.name = some h := by
  cases hf : t.findMethod a m.name with
  | none => exact absurd ha (findMethod_none hf hh rfl)
  | some h' =>
    obtain ⟨s', m', hh', hm, ha'⟩ := findMethod_some hf
    have hs := ht.eq_of_name hh'.service_mem hh.service_mem ha' ha
    rw [ht.handle_unique hh' hh hs hm]

theorem read (ht : t.Apart scope) (hh : t.Holds h s m) :
    Endpoint.read (s.fullName ++ "/" ++ m.name) = .ok ⟨s.fullName, m.name⟩ := by
  have hident := ht.methodIdent s hh.service_mem m hh.method_mem
  have hname := Proto.Lexeme.not_blank_of_isIdentifier (ht.ident s hh.service_mem)
  apply Endpoint.read_text
  · rw [ht.fullName s hh.service_mem]
    exact Name.not_blank_join scope hname
  · exact Proto.Lexeme.not_blank_of_isIdentifier hident
  · exact (Proto.Lexeme.not_mem_of_isIdentifier hident).1

theorem path_inj (ht : t.Apart scope) (hh : t.Holds h s m) (hh' : t.Holds h' s' m')
    (hp : m.path = m'.path) : h = h' := by
  have hslash {h : Handle} {s : Service} {m : Method} (hh : t.Holds h s m) :
      '/' ∉ m.name.toList :=
    (Proto.Lexeme.not_mem_of_isIdentifier (ht.methodIdent s hh.service_mem m hh.method_mem)).1
  obtain ⟨hservice, hname⟩ := Method.path_inj (hslash hh) (hslash hh') hp
  rw [ht.service s hh.service_mem m hh.method_mem,
    ht.service s' hh'.service_mem m' hh'.method_mem] at hservice
  have hs := ht.eq_of_name hh.service_mem hh'.service_mem (.inl hservice) (.inl rfl)
  exact ht.handle_unique hh hh' hs hname

end Apart
end ServiceTree

/-- The services of an addressed file can be told apart in a tree. -/
theorem FileDecl.Addressed.apart {g : FileDecl} (hg : g.Addressed) :
    ServiceTree.Apart g.packageName ⟨g.serviceTypes⟩ := by
  constructor
  case services => simpa [serviceTypes, serviceType, Function.comp_def] using hg.services
  case methods =>
    intro s hs
    obtain ⟨u, hu, rfl⟩ := List.mem_map.mp hs
    simpa [serviceType, methodType, Function.comp_def] using hg.methods u hu
  case methodIdent =>
    intro s hs m hm
    obtain ⟨u, hu, rfl⟩ := List.mem_map.mp hs
    obtain ⟨n, hn, rfl⟩ := List.mem_map.mp hm
    exact (hg.plain u hu).methods n hn
  case service =>
    intro s hs m hm
    obtain ⟨u, hu, rfl⟩ := List.mem_map.mp hs
    obtain ⟨n, hn, rfl⟩ := List.mem_map.mp hm
    rfl
  all_goals
    intro s hs
    obtain ⟨u, hu, rfl⟩ := List.mem_map.mp hs
  · rfl
  · exact (hg.plain u hu).name

namespace Schema

variable {d : Disk} {root : String} {importPath : ImportPath} {s : Schema}

theorem load_addressed (h : load d root importPath = .ok s) : s.root.Addressed := by
  have hp := load_keeps (P := fun p => p.Named ∧ ∀ g ∈ p.files, g.Addressed)
    ⟨.empty, by simp⟩ (fun p p' f hf hp ha => ⟨hp.1.add ha, hp.1.addressed_add hp.2 hf ha⟩) h
  obtain ⟨q, -, hs⟩ := load_complete h
  exact hp.2 _ (List.mem_of_find?_eq_some hs.root)

/-- The services of the root file of a schema that was loaded can be told apart. -/
theorem load_apart (h : load d root importPath = .ok s) :
    s.serviceTree.Apart s.root.packageName :=
  (load_addressed h).apart

/-- Each method of a schema that was loaded is addressed by the text of its endpoint, by its name
with the full or the short name of its service, by its handle and by its path; and whatever names
lead to a method are names of it. -/
theorem methods_addressed (h : load d root importPath = .ok s) :
    (∀ handle service m, s.serviceTree.Holds handle service m →
      Endpoint.read (service.fullName ++ "/" ++ m.name) = .ok ⟨service.fullName, m.name⟩ ∧
        s.serviceTree.findMethod service.fullName m.name = some handle ∧
        s.serviceTree.findMethod service.name m.name = some handle ∧
        s.serviceTree.resolve handle = some m) ∧
    (∀ handle handle' m m', s.serviceTree.resolve handle = some m →
      s.serviceTree.resolve handle' = some m' → handle ≠ handle' → m.path ≠ m'.path) ∧
    (∀ a b handle, s.serviceTree.findMethod a b = some handle →
      ∃ service m, s.serviceTree.Holds handle service m ∧
        s.serviceTree.resolve handle = some m ∧ m.name = b ∧
        (service.fullName = a ∨ service.name = a)) ∧
    ∀ a b, s.serviceTree.findMethod a b = none →
      ¬ ∃ handle service m, s.serviceTree.Holds handle service m ∧ m.name = b ∧
        (service.fullName = a ∨ service.name = a) := by
  have ht := load_apart h
  refine ⟨fun handle service m hh => ?_, fun handle handle' m m' hr hr' hne hp => ?_,
    fun a b handle hf => ?_, fun a b hf => ?_⟩
  · exact ⟨ht.read hh, ht.findMethod hh (.inl rfl), ht.findMethod hh (.inr rfl), hh.resolve⟩
  · obtain ⟨service, hh⟩ := ServiceTree.Holds.of_resolve hr
    obtain ⟨service', hh'⟩ := ServiceTree.Holds.of_resolve hr'
    exact hne (ht.path_inj hh hh' hp)
  · obtain ⟨service, m, hh, hm, ha⟩ := ServiceTree.findMethod_some hf
    exact ⟨service, m, hh, hh.resolve, hm, ha⟩
  · rintro ⟨handle, service, m, hh, hm, ha⟩
    exact ServiceTree.findMethod_none hf hh hm ha

/-- A service in a package, with two methods. -/
def twoMethods : String :=
  "package p;message A{}service S{rpc M(A)returns(A);rpc N(A)returns(A);}"

theorem methods_addressed_second :
    ∃ s, load (.ofFile "a.proto" twoMethods) "/a.proto" [] = .ok s ∧
      Endpoint.read "p.S/N" = .ok ⟨"p.S", "N"⟩ ∧
      s.serviceTree.findMethod "p.S" "N" = some (.method 0 1) ∧
      s.serviceTree.findMethod "S" "N" = some (.method 0 1) ∧
      (s.serviceTree.resolve (.method 0 1)).map Method.name = some "N" := by
  have h : ∃ s ∈ (load (.ofFile "a.proto" twoMethods) "/a.proto" []).toOption,
      ∃ service ∈ s.serviceTree.services[0]?, ∃ m ∈ service.methods[1]?,
        service.fullName = "p.S" ∧ service.name = "S" ∧ m.name = "N" := by
    decide +kernel
  obtain ⟨s, hs, service, hservice, m, hm, hfull, hshort, hname⟩ := h
  have hload := ok_of_mem hs
  obtain ⟨hread, hlong, hfound, hr⟩ :=
    (methods_addressed hload).1 (.method 0 1) service m (.method hservice hm)
  rw [hfull, hname] at hread hlong
  rw [hshort, hname] at hfound
  exact ⟨s, hload, hread, hlong, hfound, by simp [hr, hname]⟩

end Schema
end RpcConsole

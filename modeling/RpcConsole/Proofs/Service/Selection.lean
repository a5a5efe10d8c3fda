import RpcConsole.Proofs.Load.Types
import RpcConsole.Service.Tree

namespace RpcConsole

namespace Handle

/-- The index of the service that a handle is, or is inside. -/
def serviceIndex : Handle → Nat
  | .service i => i
  | .method i _ => i

def isMethod : Handle → Bool
  | .service _ => false
  | .method _ _ => true

/-- Declaration order: a service before its methods, its methods as they are counted, and all of
them before the next service. -/
inductive Before : Handle → Handle → Prop where
  | header (i j : Nat) : Before (.service i) (.method i j)
  | method (i : Nat) {j k : Nat} (h : j < k) : Before (.method i j) (.method i k)
  | service {a b : Handle} (h : a.serviceIndex < b.serviceIndex) : Before a b

theorem Before.ne {a b : Handle} (h : Before a b) : a ≠ b := by
  rintro rfl
  cases h with
  | method _ h => exact Nat.lt_irrefl _ h
  | service h => exact Nat.lt_irrefl _ h

end Handle

namespace ServiceTree

variable {t : ServiceTree} {h : Handle}

theorem serviceIndex_of_mem {s : Service} {i : Nat} (hm : h ∈ serviceHandles s i) :
    h.serviceIndex = i := by
  simp only [serviceHandles, List.mem_cons, List.mem_map] at hm
  rcases hm with rfl | ⟨_, -, rfl⟩ <;> rfl

theorem serviceHandles_pairwise (s : Service) (i : Nat) :
    (serviceHandles s i).Pairwise Handle.Before := by
  refine List.pairwise_cons.mpr ⟨fun h hm => ?_, ?_⟩
  · obtain ⟨j, -, rfl⟩ := List.mem_map.mp hm
    exact .header i j
  · exact List.pairwise_map.mpr (List.pairwise_lt_range.imp fun hlt => .method i hlt)

/-- The handles stand in declaration order, so none of them comes twice. -/
theorem handles_pairwise (t : ServiceTree) : t.handles.Pairwise Handle.Before := by
  refine List.pairwise_flatMap.mpr ⟨fun p _ => serviceHandles_pairwise p.1 p.2, ?_⟩
  refine List.pairwise_iff_getElem.mpr fun i j hi hj hij a ha b hb => .service ?_
  rw [serviceIndex_of_mem ha, serviceIndex_of_mem hb, List.getElem_zipIdx, List.getElem_zipIdx]
  omega

theorem handles_nodup (t : ServiceTree) : t.handles.Nodup :=
  t.handles_pairwise.imp Handle.Before.ne

/-- The handles are those with a label. -/
theorem mem_handles : h ∈ t.handles ↔ (t.label h).isSome = true := by
  simp only [handles, serviceHandles, List.mem_flatMap, Prod.exists,
    List.mem_zipIdx_iff_getElem?, List.mem_cons, List.mem_map, List.mem_range]
  cases h with
  | service i => simp [label, Option.isSome_iff_exists]
  | method i j =>
    cases hs : t.services[i]? <;> simp [label, resolve, hs]

/-- The handles that stand for a method are those of methods. -/
theorem resolve_isSome : (t.resolve h).isSome = true ↔ h ∈ t.handles ∧ h.isMethod = true := by
  rw [mem_handles]
  cases h with
  | service i => simp [resolve, Handle.isMethod]
  | method i j => simp [label, Handle.isMethod]

theorem isInvocable_of_resolve {m : Method} (hr : t.resolve h = some m) :
    t.isInvocable h = !m.isStreaming := by
  simp [isInvocable, hr]

theorem resolve_of_isInvocable (hi : t.isInvocable h = true) : (t.resolve h).isSome = true := by
  unfold isInvocable at hi
  split at hi
  · simp [*]
  · cases hi

end ServiceTree

namespace FileDecl

/-- What stands at the place of a handle in a file: a service with its full name, or a method with
its own one. -/
def nameAt? (f : FileDecl) : Handle → Option String
  | .service service => f.services[service]?.map fun s => Name.join f.packageName s.name
  | .method service method =>
    f.services[service]?.bind fun s => s.methods[method]?.map MethodDecl.name

variable {f g : FileDecl}

/-- The labels of a tree are what stands in the file that it is made from. -/
theorem label_serviceTypes (g : FileDecl) (h : Handle) :
    ServiceTree.label ⟨g.serviceTypes⟩ h = g.nameAt? h := by
  cases h with
  | service i =>
    simp [ServiceTree.label, nameAt?, serviceTypes, serviceType, Function.comp_def]
  | method i j =>
    cases hs : g.services[i]? <;>
      simp [ServiceTree.label, ServiceTree.resolve, nameAt?, serviceTypes, serviceType, methodType,
        Function.comp_def, hs]

/-- Services that differ in nothing but what is linked stand at the same places. -/
theorem nameAt?_eq (hp : f.package = g.package)
    (hs : List.Forall₂ Pool.SameNames f.services g.services) (h : Handle) :
    g.nameAt? h = f.nameAt? h := by
  let names (s : ServiceDecl) : String × List String := (s.name, s.methods.map MethodDecl.name)
  have hnames : g.services.map names = f.services.map names :=
    map_eq_of_forall₂ (fun s u (h : Pool.SameNames s u) => by simp [names, h.1, h.2]) hs
  have hat (i : Nat) : g.services[i]?.map names = f.services[i]?.map names := by
    rw [← List.getElem?_map, hnames, List.getElem?_map]
  have hpackage : g.packageName = f.packageName := by simp [packageName, hp]
  cases h with
  | service i =>
    have he := congrArg (Option.map fun n => Name.join f.packageName n.1) (hat i)
    simpa [nameAt?, hpackage, names, Function.comp_def] using he
  | method i j =>
    have he := congrArg (Option.bind · fun n => n.2[j]?) (hat i)
    simpa [nameAt?, names, Option.bind_map, Function.comp_def] using he

end FileDecl

theorem Source.of?_fileName {d : Disk} {root : String} {importPath : ImportPath} {q : Source}
    (h : of? d root importPath = some q) : Path.fileName? root = some q.rootName := by
  unfold of? at h
  split at h
  · rename_i hname
    cases h
    exact hname
  · cases h

namespace Schema

variable {d : Disk} {root : String} {importPath : ImportPath} {s : Schema}

/-- The file that stands first in the store is the root, and the services of the linked root are
those that it was read with. -/
theorem load_root (h : load d root importPath = .ok s) :
    ∃ f, s.store.files.head? = some f ∧ Path.fileName? root = some f.name ∧
      f.decl.package = s.root.package ∧
      List.Forall₂ Pool.SameNames f.decl.services s.root.services := by
  obtain ⟨q, hq, hs⟩ := load_complete h
  obtain ⟨f, hf, hname⟩ : ∃ f, s.store.files.head? = some f ∧ f.name = q.rootName := by
    have hfirst := hs.rootFirst
    rw [Store.names, List.head?_map] at hfirst
    exact Option.map_eq_some_iff.mp hfirst
  have hfile := hs.meant f (List.mem_of_head? hf)
  have hpool := Source.linked_poolOf hs.pool fun n hn => by
    obtain ⟨g, hg, rfl⟩ := List.mem_map.mp (hs.linked.mem_iff.mp hn)
    exact ⟨g, hs.meant g hg⟩
  obtain ⟨decl, hd, hdname, hpackage, hservices⟩ :=
    hpool.declared s.root (List.mem_of_find?_eq_some hs.root)
  obtain ⟨g, hg, rfl⟩ := List.mem_map.mp hd
  obtain ⟨n, -, hn⟩ := List.mem_filterMap.mp hg
  have hroot : s.root.name = q.rootName := by
    have := List.find?_some hs.root
    simpa using this
  have hsame : n = f.name := by
    rw [← Source.file?_name hn, ← Source.file?_decl hn, hdname, hroot, hname]
  rw [hsame, hfile] at hn
  cases hn
  exact ⟨f, hf, hname ▸ Source.of?_fileName hq, hpackage, hservices⟩

end Schema
end RpcConsole

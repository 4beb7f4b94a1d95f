import AppCatalog.Kubernetes.MergePatch
import Mathlib.Data.List.Nodup

/-! The cluster's ApplicationDefinitions as the API server keeps them, and the client calls the
controller and the webhook make on them, each of which may fail. -/
namespace AppCatalog.Kubernetes

/-- The ApplicationDefinitions of the cluster, with unique names. -/
structure Store where
  items : List ApplicationDefinition
  nodup : (items.map (·.name)).Nodup

namespace Store

def get (s : Store) (name : String) : Option ApplicationDefinition :=
  s.items.find? (·.name == name)

theorem get_eq_none {s : Store} {name : String} :
    s.get name = none ↔ name ∉ s.items.map (·.name) := by
  simp [get, List.find?_eq_none]

/-- Adds an object under a free name. -/
def create (s : Store) (obj : ApplicationDefinition) (h : s.get obj.name = none) : Store where
  items := s.items ++ [obj]
  nodup := by
    rw [List.map_append, List.nodup_append]
    exact ⟨s.nodup, List.nodup_singleton _, by simpa using get_eq_none.mp h⟩

private theorem map_name_replace (items : List ApplicationDefinition) (obj : ApplicationDefinition) :
    (items.map fun a => if a.name = obj.name then obj else a).map (·.name) = items.map (·.name) := by
  simp only [List.map_map]
  exact List.map_congr_left fun a _ => by by_cases h : a.name = obj.name <;> simp [h]

/-- Puts `obj` in place of the object of the same name. -/
def replace (s : Store) (obj : ApplicationDefinition) : Store where
  items := s.items.map fun a => if a.name = obj.name then obj else a
  nodup := (map_name_replace s.items obj).symm ▸ s.nodup

/-- The objects a label selector `key=value` matches, in the server's order. -/
def list (s : Store) (key value : String) : List ApplicationDefinition :=
  s.items.filter fun a => a.labels key = some value

theorem get_name {s : Store} {name : String} {a : ApplicationDefinition}
    (h : s.get name = some a) : a.name = name := by
  simpa using List.find?_some h

theorem mem_of_get {s : Store} {name : String} {a : ApplicationDefinition}
    (h : s.get name = some a) : a ∈ s.items :=
  List.mem_of_find?_eq_some h

theorem get_of_mem {s : Store} {a : ApplicationDefinition} (h : a ∈ s.items) :
    s.get a.name = some a := by
  obtain ⟨b, hb⟩ : ∃ b, s.get a.name = some b := by
    refine Option.isSome_iff_exists.mp (List.find?_isSome.mpr ⟨a, h, by simp⟩)
  rw [hb, List.inj_on_of_nodup_map s.nodup (mem_of_get hb) h (get_name hb)]

theorem get_eq_some {s : Store} {name : String} {a : ApplicationDefinition} :
    s.get name = some a ↔ a ∈ s.items ∧ a.name = name :=
  ⟨fun h => ⟨mem_of_get h, get_name h⟩, fun ⟨h, hn⟩ => hn ▸ get_of_mem h⟩

theorem get_create (s : Store) (obj : ApplicationDefinition) (h : s.get obj.name = none)
    (name : String) : (s.create obj h).get name = if name = obj.name then some obj else s.get name := by
  by_cases hn : name = obj.name
  · subst hn
    simp only [if_true]
    exact get_of_mem (List.mem_append_right _ (List.mem_singleton_self _))
  · simp only [get, create, List.find?_append, hn, if_false]
    cases s.items.find? (·.name == name) <;> simp [Ne.symm hn]

theorem get_replace (s : Store) (obj : ApplicationDefinition) (name : String) :
    (s.replace obj).get name =
      if name = obj.name then (s.get name).map fun _ => obj else s.get name := by
  have hf : (fun a : ApplicationDefinition => a.name == name) ∘
      (fun a => if a.name = obj.name then obj else a) = fun a => a.name == name := by
    funext a; by_cases h : a.name = obj.name <;> simp [h]
  have hget : (s.replace obj).get name = (s.get name).map fun a => if a.name = obj.name then obj else a := by
    simp only [get, replace, List.find?_map, hf]
  rw [hget]
  cases hs : s.get name with
  | none => simp
  | some a => by_cases hn : name = obj.name <;> simp [get_name hs, hn]

theorem nodup_list (s : Store) (key value : String) : ((s.list key value).map (·.name)).Nodup :=
  s.nodup.sublist ((List.filter_sublist _).map _)

theorem mem_list {s : Store} {key value : String} {a : ApplicationDefinition} :
    a ∈ s.list key value ↔ a ∈ s.items ∧ a.labels key = some value := by
  simp [list]

end Store

/-- A client call, named by what it reads or writes. -/
inductive Call where
  | getCatalog (name : String)
  | get (name : String)
  | create (name : String)
  | patch (name : String)
  | list (key value : String)
  deriving DecidableEq, Repr

/-- The object a call reads or writes, for the calls about a single object. -/
def Call.target : Call → Option String
  | .get n | .create n | .patch n => some n
  | _ => none

/-- Which calls of a run fail with a transient error. -/
abbrev Faults := Call → Bool

def noFaults : Faults := fun _ => false

@[simp] theorem noFaults_apply (c : Call) : noFaults c = false := rfl

inductive ClientError where
  | failed (call : Call)
  | notFound (name : String)
  | alreadyExists (name : String)
  deriving DecidableEq, Repr

/-- `client.Create`. -/
def createObject (faults : Faults) (s : Store) (obj : ApplicationDefinition) :
    Store × Option ClientError :=
  if faults (.create obj.name) then (s, some (.failed (.create obj.name)))
  else match h : s.get obj.name with
    | none => (s.create obj h, none)
    | some _ => (s, some (.alreadyExists obj.name))

/-- `PatchObject`: `modify` runs on the copy read earlier, and the merge patch from that copy to
the result is sent without a precondition; the server applies it to the object it holds now. -/
def patchObject (faults : Faults) (s : Store) (read : ApplicationDefinition)
    (modify : ApplicationDefinition → ApplicationDefinition) : Store × Option ClientError :=
  if faults (.patch read.name) then (s, some (.failed (.patch read.name)))
  else match s.get read.name with
    | some cur => (s.replace ((mergeFrom read (modify read)).apply cur), none)
    | none => (s, some (.notFound read.name))

/-- With no write between the read and the patch, the server ends up with the modified copy. -/
theorem patchObject_of_get (faults : Faults) {s : Store} {read : ApplicationDefinition}
    (modify : ApplicationDefinition → ApplicationDefinition) (hs : s.get read.name = some read)
    (hm : (modify read).name = read.name) (hf : faults (.patch read.name) = false) :
    patchObject faults s read modify = (s.replace (modify read), none) := by
  simp [patchObject, hf, hs, apply_mergeFrom_self _ _ hm]

/-- Under a free name, `client.Create` adds the object unless the call fails. -/
theorem createObject_of_get (faults : Faults) {s : Store} {obj : ApplicationDefinition}
    (hs : s.get obj.name = none) :
    createObject faults s obj = if faults (.create obj.name) then (s, some (.failed (.create obj.name)))
      else (s.create obj hs, none) := by
  unfold createObject
  split_ifs
  · rfl
  · split <;> simp_all

end AppCatalog.Kubernetes

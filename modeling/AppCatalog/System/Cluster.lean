import AppCatalog.Admission.Validation
import AppCatalog.Synchronizer.Failures

/-! The cluster as a whole: catalog requests and reconcile passes, in any order. -/
namespace AppCatalog.System
open Kubernetes Synchronizer Admission

/-- The cluster's catalogs, each stored under its own name, and its ApplicationDefinitions. -/
structure Cluster where
  catalogs : String → Option ApplicationCatalog
  named : ∀ n c, catalogs n = some c → c.name = n
  store : Store

def Cluster.empty : Cluster := ⟨fun _ => none, fun _ _ h => Option.noConfusion h, ⟨[], List.nodup_nil⟩⟩

/-- Stores a catalog under its name. -/
def Cluster.put (cl : Cluster) (catalog : ApplicationCatalog) : Cluster where
  catalogs := Function.update cl.catalogs catalog.name (some catalog)
  named n c h := by
    by_cases hn : n = catalog.name
    · subst hn; simp only [Function.update_same, Option.some.injEq] at h; rw [← h]
    · exact cl.named n c (by simpa [Function.update_noteq hn] using h)
  store := cl.store

def Cluster.remove (cl : Cluster) (name : String) : Cluster where
  catalogs := Function.update cl.catalogs name none
  named n c h := by
    by_cases hn : n = name
    · subst hn; simp at h
    · exact cl.named n c (by simpa [Function.update_noteq hn] using h)
  store := cl.store

/-- What happens in the cluster: a request on a catalog, which the webhook sees first, or a
reconcile pass of the catalog `name`. -/
inductive Event where
  | request (op : Operation) (catalog : ApplicationCatalog) (faults : Faults)
  | reconcile (name : String) (faults : Faults)

/-- The parts of the cluster's components this model leaves open: the defaulting package the
webhook calls, the order Go ranges over a map in, and the controller's sort. -/
structure Components where
  defaulting : Defaulting
  ι : MapOrder
  σ : VersionSort

/-- A request the webhook allows is carried out; a reconcile pass reads the catalog of its name. -/
def step (k : Components) (cl : Cluster) : Event → Cluster
  | .request op catalog faults =>
    if (handle k.defaulting k.ι faults cl.store op catalog).isAllowed then
      match op with
      | .create | .update => cl.put catalog
      | .delete => cl.remove catalog.name
      | .connect => cl
    else cl
  | .reconcile name faults =>
    { cl with store := (reconcile k.σ faults (cl.catalogs name) name cl.store).1.store }

def run (k : Components) (cl : Cluster) (events : List Event) : Cluster := events.foldl (step k) cl

@[simp] theorem run_nil (k : Components) (cl : Cluster) : run k cl [] = cl := rfl

@[simp] theorem run_cons (k : Components) (cl : Cluster) (e : Event) (events : List Event) :
    run k cl (e :: events) = run k (step k cl e) events := rfl

/-- Requests change only the catalogs. -/
theorem step_request_store (k : Components) (cl : Cluster) (op : Operation)
    (catalog : ApplicationCatalog) (faults : Faults) :
    (step k cl (.request op catalog faults)).store = cl.store := by
  simp only [step]
  split_ifs
  · cases op <;> rfl
  · rfl

/-- No run of the cluster, whatever its requests, passes and failures, takes from an existing
ApplicationDefinition what the cluster owns. -/
theorem run_keepsUserState (k : Components) (cl : Cluster) (events : List Event) (m : String) :
    KeepsObject (cl.store.get m) ((run k cl events).store.get m) := by
  induction events generalizing cl with
  | nil => exact .refl _
  | cons e events ih =>
    refine KeepsObject.trans ?_ (ih _)
    cases e with
    | request op catalog faults => rw [step_request_store]; exact .refl _
    | reconcile n faults =>
      simp only [step, reconcile_get]
      exact passGet_keeps k.σ faults _ n m _

/-- One step at most unmanages an object another system manages, which stays such an object. -/
theorem step_system (k : Components) (cl : Cluster) (e : Event) (m : String)
    {a : ApplicationDefinition} (hsys : isSystemApplication a)
    (h : cl.store.get m = some a ∨ cl.store.get m = some (unmanaged a)) :
    (step k cl e).store.get m = some a ∨ (step k cl e).store.get m = some (unmanaged a) := by
  cases e with
  | request op catalog faults => rwa [step_request_store]
  | reconcile n faults =>
    simp only [step, reconcile_get]
    rcases h with h | h <;> rw [h]
    · exact passGet_system k.σ faults _ n m hsys
    · rcases @passGet_system k.σ faults (cl.catalogs n) n m (unmanaged a) (by simpa using hsys) with
        h' | h' <;> simp [h']

/-- Over every run of the cluster, an ApplicationDefinition another system manages is at most
stripped of the two ownership labels: no catalog changes anything else on it. -/
theorem run_system (k : Components) (cl : Cluster) (events : List Event) (m : String)
    {a : ApplicationDefinition} (ha : cl.store.get m = some a) (hsys : isSystemApplication a) :
    (run k cl events).store.get m = some a ∨ (run k cl events).store.get m = some (unmanaged a) := by
  suffices h : ∀ cl : Cluster, (cl.store.get m = some a ∨ cl.store.get m = some (unmanaged a)) →
      (run k cl events).store.get m = some a ∨ (run k cl events).store.get m = some (unmanaged a) from
    h cl (.inl ha)
  induction events with
  | nil => exact fun _ h => h
  | cons e events ih => exact fun cl h => ih _ (step_system k cl e m hsys h)

/-- Over every run of the cluster, an existing ApplicationDefinition keeps existing, related to what
it was by every relation that the update from an entry and the loss of the ownership labels
respect. -/
theorem run_preserved (k : Components) {R : ApplicationDefinition → ApplicationDefinition → Prop}
    (hR : Preserved R) (cl : Cluster) (events : List Event) (m : String) {a : ApplicationDefinition}
    (ha : cl.store.get m = some a) : ∃ a', (run k cl events).store.get m = some a' ∧ R a a' := by
  induction events generalizing cl a with
  | nil => exact ⟨a, ha, hR.refl a⟩
  | cons e events ih =>
    obtain ⟨b, hb, hab⟩ : ∃ b, (step k cl e).store.get m = some b ∧ R a b := by
      cases e with
      | request op catalog faults => exact ⟨a, by rw [step_request_store, ha], hR.refl a⟩
      | reconcile n faults =>
        simp only [step, reconcile_get, ha]
        exact hR.passGet_rel k.σ faults _ n m a
    obtain ⟨c, hc, hbc⟩ := ih _ hb
    exact ⟨c, hc, hR.trans hab hbc⟩

/-- Over every run of the cluster, whatever its requests, passes and failed API calls, no
ApplicationDefinition has its annotations or a label other than the two ownership labels changed. -/
theorem run_keepsMetadata (k : Components) (cl : Cluster) (events : List Event) (m : String)
    {a : ApplicationDefinition} (ha : cl.store.get m = some a) :
    ∃ a', (run k cl events).store.get m = some a' ∧ KeepsMetadata a a' :=
  run_preserved k keepsMetadata_preserved cl events m ha

/-- The components with no include annotation to reject, Go's map ranged in insertion order, and
the insertion sort Go uses on short slices. -/
def plainComponents : Components := ⟨⟨fun _ => [], []⟩, insertionOrder, insertionVersionSort⟩

/-- A catalog `"b"` that lists the chart `nginx` too. -/
def rivalCatalog : ApplicationCatalog := ⟨"b", fun _ => none, ⟨some ⟨none, some [nginxChart], false⟩⟩⟩

/-- Both catalogs are admitted while no object exists, then each is reconciled. -/
def raceEvents : List Event :=
  [.request .create nginxCatalog noFaults, .request .create rivalCatalog noFaults,
    .reconcile "a" noFaults, .reconcile "b" noFaults]

/-- The `nginx` object of the catalog `"a"` after another system labelled it as its own. -/
def systemNginx : ApplicationDefinition :=
  { convertChartToApplicationDefinition nginxCatalog nginxChart with
    labels := (convertChartToApplicationDefinition nginxCatalog nginxChart).labels.insert
      "apps.kubermatic.k8c.io/managed-by" "kubermatic" }

def systemCluster : Cluster := { Cluster.empty with store := ⟨[systemNginx], List.nodup_singleton _⟩ }

theorem run_system_race :
    systemCluster.store.get "nginx" = some systemNginx ∧ isSystemApplication systemNginx ∧
      ((run plainComponents systemCluster raceEvents).store.get "nginx" = some systemNginx ∨
        (run plainComponents systemCluster raceEvents).store.get "nginx" = some (unmanaged systemNginx)) :=
  have hsys : isSystemApplication systemNginx := by decide
  ⟨rfl, hsys, run_system plainComponents systemCluster raceEvents "nginx" rfl hsys⟩

theorem run_keepsMetadata_race :
    systemCluster.store.get "nginx" = some systemNginx ∧
      ∃ a', (run plainComponents systemCluster raceEvents).store.get "nginx" = some a' ∧
        KeepsMetadata systemNginx a' :=
  ⟨rfl, run_keepsMetadata plainComponents systemCluster raceEvents "nginx" rfl⟩

end AppCatalog.System

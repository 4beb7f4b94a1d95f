import AppCatalog.System.Quiescence
import AppCatalog.System.Serial

/-! A deleted catalog lets go of its objects for good. -/
namespace AppCatalog.System
open Kubernetes Synchronizer Admission

/-- The request stores a catalog named `A`. -/
def Event.puts (A : String) : Event → Bool
  | .request .create catalog _ | .request .update catalog _ => catalog.name == A
  | _ => false

/-- The catalog `A` is absent and no object carries its name label. -/
structure Released (A : String) (cl : Cluster) : Prop where
  absent : cl.catalogs A = none
  unlabelled : ∀ m, NotLabelled A (cl.store.get m)

/-- A pass of an absent catalog, under any failures, writes no label of its own. -/
theorem passGet_absent_notLabelled (σ : VersionSort) (faults : Faults) {A m : String}
    {o : Option ApplicationDefinition} (ho : NotLabelled A o) :
    NotLabelled A (passGet σ faults none A m o) := by
  rcases @passGet_of_not_mem σ faults none A m (fun _ h => Option.noConfusion h) (List.not_mem_nil m) o
    with h | ⟨gen, h⟩ <;> rw [h]
  · exact ho
  · rwa [orphanGet_of_unlabelled faults A gen m ho]

/-- A failure-free pass of an absent catalog unmanages everything it owned. -/
theorem step_reconcile_released (k : Components) {cl : Cluster} {A : String}
    (habs : cl.catalogs A = none) : Released A (step k cl (.reconcile A noFaults)) where
  absent := habs
  unlabelled m _ h := by
    simp only [step, reconcile_get, habs, passGet, noFaults_apply, Bool.false_eq_true,
      if_false] at h
    exact @orphanGet_noFaults_unlabelled A none m rfl _ _ h

/-- No step but the storing of a catalog `A` undoes its release. -/
theorem step_released (k : Components) {cl : Cluster} {A : String} (h : Released A cl) (e : Event)
    (he : e.puts A = false) : Released A (step k cl e) := by
  cases e with
  | request op catalog faults =>
    refine ⟨?_, by rw [step_request_store]; exact h.unlabelled⟩
    by_cases hn : A = catalog.name
    · subst hn
      simp only [step]
      split_ifs
      · cases op
        · simp [Event.puts] at he
        · simp [Event.puts] at he
        · simp [Cluster.remove]
        · exact h.absent
      · exact h.absent
    · rw [step_request_catalogs k cl op catalog faults hn]
      exact h.absent
  | reconcile n faults =>
    refine ⟨h.absent, fun m => ?_⟩
    simp only [step, reconcile_get]
    by_cases hn : n = A
    · subst hn
      rw [h.absent]
      exact passGet_absent_notLabelled k.σ faults (h.unlabelled m)
    · exact passGet_notLabelled k.σ faults (cl.named n) hn (h.unlabelled m)

/-- Once a failure-free pass of an absent catalog `A` has run, no ApplicationDefinition carries
`A`'s name label over any run that stores no catalog `A`, whatever the other requests, the passes
of any catalog and the failures: a deleted catalog never takes back the objects it released. -/
theorem run_released (k : Components) (cl : Cluster) (events : List Event) {A : String}
    (habs : cl.catalogs A = none) (hev : ∀ e ∈ events, e.puts A = false) (m : String) :
    NotLabelled A ((run k (step k cl (.reconcile A noFaults)) events).store.get m) := by
  suffices hrun : ∀ cl', Released A cl' → Released A (run k cl' events) from
    (hrun _ (step_reconcile_released k habs)).unlabelled m
  induction events with
  | nil => exact fun _ h => h
  | cons e events ih =>
    exact fun cl' h => ih (fun e' he' => hev e' (List.mem_cons_of_mem _ he')) _
      (step_released k h e (hev e (List.mem_cons_self _ _)))

/-- The rival catalog is created, both names are reconciled, and `"a"` is deleted again. -/
def releaseEvents : List Event :=
  [.request .create rivalCatalog noFaults, .reconcile "b" noFaults, .reconcile "a" noFaults,
    .request .delete nginxCatalog noFaults]

theorem run_released_rival :
    (heldCluster.remove "a").catalogs "a" = none ∧ (∀ e ∈ releaseEvents, e.puts "a" = false) ∧
      NotLabelled "a" ((run plainComponents (step plainComponents (heldCluster.remove "a")
        (.reconcile "a" noFaults)) releaseEvents).store.get "nginx") :=
  have habs : (heldCluster.remove "a").catalogs "a" = none := by simp [Cluster.remove]
  have hev : ∀ e ∈ releaseEvents, e.puts "a" = false := by decide
  ⟨habs, hev, run_released plainComponents (heldCluster.remove "a") releaseEvents habs hev "nginx"⟩

end AppCatalog.System

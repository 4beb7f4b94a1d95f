import AppCatalog.System.Takeover
import AppCatalog.Synchronizer.Recovery

/-! A catalog that holds its identities recovers from whatever the cluster does around it. -/
namespace AppCatalog.System
open Kubernetes Synchronizer

/-- While `A` holds its identities, a step does to the object of one of them nothing, or what a
pass of `A` under some failures does. -/
theorem step_get_of_holds (k : Components) {cl : Cluster} {A : String} {cA : ApplicationCatalog}
    (h : Holds A cA cl) (e : Event) {m : String} (hm : m ∈ declaredIdentities (some cA)) :
    (step k cl e).store.get m = cl.store.get m ∨
      ∃ faults, (step k cl e).store.get m = passGet k.σ faults (some cA) A m (cl.store.get m) := by
  cases e with
  | request op catalog faults => exact .inl (by rw [step_request_store])
  | reconcile n faults =>
    simp only [step, reconcile_get]
    by_cases hnA : n = A
    · subst hnA
      exact .inr ⟨faults, by rw [h.present]⟩
    · obtain ⟨a, ha, hl⟩ := h.labelled m hm
      rw [ha]
      exact .inl (h.passGet_other k.σ faults hnA hm hl)

/-- One failure-free pass of a catalog that holds its identities absorbs every run in which no
request concerns it: whatever the requests on other catalogs, the passes of any catalog and the
failed calls, the pass leaves each of its objects as the same pass would have left it before the
run. -/
theorem run_recovers (k : Components) (cl : Cluster) (events : List Event) {A : String}
    {cA : ApplicationCatalog} {charts : List ChartConfig} (hA : A ≠ "")
    (hev : ∀ e ∈ events, e.requestsOn A = false) (h : Holds A cA cl)
    (hc : chartsToReconcile cA = some charts) (hnd : (generatedApps cA charts).Nodup)
    (hD : ∀ chart ∈ charts, (chart.chartVersions.map (·.appVersion)).Nodup)
    (hE : ∀ m ∈ generatedApps cA charts, ∀ a, cl.store.get m = some a → (keys a.spec.versions).Nodup)
    {m : String} (hm : m ∈ generatedApps cA charts) :
    (step k (run k cl events) (.reconcile A noFaults)).store.get m =
      (step k cl (.reconcile A noFaults)).store.get m := by
  obtain rfl : cA.name = A := cl.named A cA h.present
  have hmA : m ∈ declaredIdentities (some cA) := declaredIdentities_of_charts hc ▸ hm
  let F := passGet k.σ noFaults (some cA) cA.name m
  obtain ⟨a, ha, -⟩ := h.labelled m hmA
  have hFF : F (F (some a)) = F (some a) := passGet_noFaults_idem k.σ hc hnd hD hm (hE m hm a ha)
  have hpass : ∀ cl' : Cluster, Holds cA.name cA cl' →
      (step k cl' (.reconcile cA.name noFaults)).store.get m = F (cl'.store.get m) := fun cl' h' => by
    simp only [step, reconcile_get, h'.present, F]
  -- Along the run `A` keeps holding, and the object stays as it was or as one clean pass leaves it.
  have hrun : ∀ cl' : Cluster, Holds cA.name cA cl' →
      (cl'.store.get m = some a ∨ cl'.store.get m = F (some a)) →
      Holds cA.name cA (run k cl' events) ∧
        ((run k cl' events).store.get m = some a ∨ (run k cl' events).store.get m = F (some a)) := by
    induction events with
    | nil => exact fun cl' h' hv => ⟨h', hv⟩
    | cons e events ih =>
      intro cl' h' hv
      have he := hev e (List.mem_cons_self _ _)
      refine ih (fun e' he' => hev e' (List.mem_cons_of_mem _ he')) _ (step_holds k hA h' e he) ?_
      rcases step_get_of_holds k h' e hmA with hs | ⟨faults, hs⟩ <;> rw [hs]
      · exact hv
      · rcases passGet_allOrNothing k.σ faults (declaredIdentities_of_charts hc ▸ hnd) cA.name m (cl'.store.get m) with
          h₁ | h₁ <;> rw [h₁]
        · exact hv
        · rcases hv with hv | hv <;> rw [hv]
          · exact .inr rfl
          · exact .inr hFF
  obtain ⟨hH, hv⟩ := hrun cl h (.inl ha)
  rw [hpass _ hH, hpass _ h, ha]
  rcases hv with hv | hv <;> rw [hv]
  exact hFF

theorem run_recovers_takeover :
    "a" ≠ "" ∧ (∀ e ∈ takeoverEvents, e.requestsOn "a" = false) ∧ Holds "a" nginxCatalog heldCluster ∧
      chartsToReconcile nginxCatalog = some [nginxChart] ∧
      (generatedApps nginxCatalog [nginxChart]).Nodup ∧
      (∀ chart ∈ [nginxChart], (chart.chartVersions.map (·.appVersion)).Nodup) ∧
      (∀ m ∈ generatedApps nginxCatalog [nginxChart], ∀ a, heldCluster.store.get m = some a →
        (keys a.spec.versions).Nodup) ∧
      "nginx" ∈ generatedApps nginxCatalog [nginxChart] ∧
      (step plainComponents (run plainComponents heldCluster takeoverEvents) (.reconcile "a" noFaults)).store.get
          "nginx" = (step plainComponents heldCluster (.reconcile "a" noFaults)).store.get "nginx" :=
  have hev : ∀ e ∈ takeoverEvents, e.requestsOn "a" = false := by decide
  have hE : ∀ m ∈ generatedApps nginxCatalog [nginxChart], ∀ a, heldCluster.store.get m = some a →
      (keys a.spec.versions).Nodup := fun m hm a ha => by
    obtain rfl : m = "nginx" := List.mem_singleton.mp hm
    obtain rfl : convertChartToApplicationDefinition nginxCatalog nginxChart = a := Option.some.inj ha
    exact List.nodup_nil
  ⟨by decide, hev, holds_heldCluster, rfl, List.nodup_singleton _, by decide, hE,
    List.mem_singleton_self _,
    run_recovers plainComponents heldCluster takeoverEvents (by decide) hev holds_heldCluster
      (show chartsToReconcile nginxCatalog = some [nginxChart] from rfl) (List.nodup_singleton _)
      (by decide) hE (List.mem_singleton_self _)⟩

end AppCatalog.System

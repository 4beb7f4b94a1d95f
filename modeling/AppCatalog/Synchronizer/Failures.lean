import AppCatalog.Synchronizer.Frame

/-! Failures of single API calls, and what a pass does when some of its calls fail. -/
namespace AppCatalog.Synchronizer
open Kubernetes

/-! ### Failures on calls the pass does not make, or makes successfully, do not matter -/

theorem get_mem_upsertCalls (faults : Faults) (d : ApplicationDefinition)
    (o : Option ApplicationDefinition) : .get d.name ∈ upsertCalls faults d o := by
  cases o <;> simp only [upsertCalls] <;> split_ifs <;> simp

theorem reconcileApplicationDefinition_noFaults (σ : VersionSort) {faults : Faults}
    {st : PassState} {d : ApplicationDefinition}
    (h : ∀ c ∈ upsertCalls faults d (st.store.get d.name), faults c = false) :
    reconcileApplicationDefinition σ faults st d = reconcileApplicationDefinition σ noFaults st d := by
  have hg := h _ (get_mem_upsertCalls faults d _)
  unfold reconcileApplicationDefinition
  cases ho : st.store.get d.name with
  | none =>
    have hc : faults (.create d.name) = false := h _ (by simp [ho, upsertCalls, hg])
    simp [createObject, hg, hc]
  | some e =>
    by_cases hs : isSystemApplication e = true
    · simp [hg, hs]
    · have hp : faults (.patch d.name) = false := h _ (by simp [ho, upsertCalls, hg, hs])
      have he : e.name = d.name := Store.get_name ho
      simp [hg, hs, updateApplicationDefinition, patchObject, he, hp]

theorem calls_foldl_chartStep (σ : VersionSort) (faults : Faults) (catalog : ApplicationCatalog)
    (charts : List ChartConfig) (st : PassState) :
    st.calls <+: (charts.foldl (chartStep σ faults catalog) st).calls := by
  obtain ⟨cs, h⟩ := foldl_chartStep_extends σ faults catalog charts st
  exact ⟨cs, h.calls.symm⟩

/-- The entry loop with no failed call is the failure-free entry loop. -/
theorem foldl_chartStep_noFaults (σ : VersionSort) {faults : Faults} (catalog : ApplicationCatalog)
    (charts : List ChartConfig) (st : PassState)
    (h : ∀ c ∈ (charts.foldl (chartStep σ faults catalog) st).calls, faults c = false) :
    charts.foldl (chartStep σ faults catalog) st = charts.foldl (chartStep σ noFaults catalog) st := by
  induction charts generalizing st with
  | nil => rfl
  | cons chart charts ih =>
    have hstep : chartStep σ faults catalog st chart = chartStep σ noFaults catalog st chart := by
      have hcalls := (chartStep_spec σ faults catalog st chart).1.calls
      unfold chartStep
      rw [reconcileApplicationDefinition_noFaults σ fun c hc => h c
        ((calls_foldl_chartStep σ faults catalog charts _).subset
          (by rw [hcalls]; exact List.mem_append_right _ hc))]
    simp only [List.foldl_cons] at h ⊢
    rw [ih _ h, hstep]

theorem calls_foldl_orphanStep (faults : Faults) (gen : Option (List String))
    (L : List ApplicationDefinition) (st : PassState) :
    st.calls <+: (L.foldl (orphanStep faults gen) st).calls := by
  induction L generalizing st with
  | nil => exact List.prefix_refl _
  | cons a L ih =>
    refine List.IsPrefix.trans ?_ (ih _)
    unfold orphanStep
    split_ifs
    · exact List.prefix_append _ _
    · exact List.prefix_refl _

/-- The orphan loop with no failed call is the failure-free orphan loop. -/
theorem foldl_orphanStep_noFaults {faults : Faults} (gen : Option (List String))
    (L : List ApplicationDefinition) (st : PassState)
    (h : ∀ c ∈ (L.foldl (orphanStep faults gen) st).calls, faults c = false) :
    L.foldl (orphanStep faults gen) st = L.foldl (orphanStep noFaults gen) st := by
  induction L generalizing st with
  | nil => rfl
  | cons a L ih =>
    simp only [List.foldl_cons] at h ⊢
    rw [ih _ h]
    congr 1
    unfold orphanStep
    split_ifs with ho
    · have hp : faults (.patch a.name) = false := h _ ((calls_foldl_orphanStep faults gen L _).subset
        (by simp [orphanStep, ho]))
      simp [removeManagedLabels, patchObject, hp]
    · rfl

theorem unmanageOrphans_noFaults {faults : Faults} (st : PassState) (catalogName : String)
    (gen : Option (List String))
    (h : ∀ c ∈ (unmanageOrphans faults st catalogName gen).1.calls, faults c = false) :
    unmanageOrphans faults st catalogName gen = unmanageOrphans noFaults st catalogName gen := by
  obtain ⟨-, hc, -⟩ := unmanageOrphans_spec faults st catalogName gen
  have hl : faults (.list labelApplicationCatalogName catalogName) = false :=
    h _ (by simp [hc, orphanCalls])
  unfold unmanageOrphans at h ⊢
  simp only [hl, Bool.false_eq_true, if_false] at h ⊢
  rw [foldl_orphanStep_noFaults gen _ _ h]
  rfl

theorem getCatalog_prefix_calls (σ : VersionSort) (faults : Faults)
    (found : Option ApplicationCatalog) (name : String) (s : Store) :
    [Call.getCatalog name] <+: (reconcile σ faults found name s).1.calls := by
  unfold reconcile handleDeletion
  dsimp only
  split_ifs
  · exact List.prefix_refl _
  · cases found with
    | none => exact ⟨_, (unmanageOrphans_spec faults ⟨s, _, []⟩ name none).2.1.symm⟩
    | some catalog =>
      dsimp only
      cases chartsToReconcile catalog with
      | none => exact List.prefix_refl _
      | some charts =>
        dsimp only
        exact (calls_foldl_chartStep σ faults catalog charts ⟨s, _, []⟩).trans
          ⟨_, (unmanageOrphans_spec faults _ _ _).2.1.symm⟩

/-- A pass in which no call failed is the failure-free pass: failures of calls it does not make
change nothing. -/
theorem reconcile_eq_noFaults (σ : VersionSort) {faults : Faults} (found : Option ApplicationCatalog)
    (name : String) (s : Store)
    (h : ∀ c ∈ (reconcile σ faults found name s).1.calls, faults c = false) :
    reconcile σ faults found name s = reconcile σ noFaults found name s := by
  have hg : faults (.getCatalog name) = false :=
    h _ ((getCatalog_prefix_calls σ faults found name s).subset (List.mem_singleton_self _))
  unfold reconcile handleDeletion at h ⊢
  simp only [hg, noFaults_apply, Bool.false_eq_true, if_false] at h ⊢
  revert h
  cases found with
  | none => exact unmanageOrphans_noFaults _ name none
  | some catalog =>
    dsimp only
    cases chartsToReconcile catalog with
    | none => exact fun _ => rfl
    | some charts =>
      dsimp only
      intro h
      have hf := foldl_chartStep_noFaults σ catalog charts _ fun c hc => h c
        (by rw [(unmanageOrphans_spec faults _ _ _).2.1]; exact List.mem_append_left _ hc)
      rw [unmanageOrphans_noFaults _ _ _ h, hf]

/-! ### One object's calls decide its fate -/

theorem upsertWith_noFaults (σ : VersionSort) {faults : Faults} {d : ApplicationDefinition}
    {o : Option ApplicationDefinition} (h : ∀ c ∈ upsertCalls faults d o, faults c = false) :
    upsertWith σ faults d o = upsertWith σ noFaults d o := by
  have hg := h _ (get_mem_upsertCalls faults d o)
  cases o with
  | none => simp [upsertWith, hg, h (.create d.name) (by simp [upsertCalls, hg])]
  | some e =>
    by_cases hs : isSystemApplication e = true
    · simp [upsertWith, hs]
    · simp [upsertWith, hg, hs, h (.patch d.name) (by simp [upsertCalls, hg, hs])]

theorem target_of_mem_upsertCalls {faults : Faults} {d : ApplicationDefinition}
    {o : Option ApplicationDefinition} {c : Call} (h : c ∈ upsertCalls faults d o) :
    c.target = some d.name := by
  cases o <;> simp only [upsertCalls] at h <;> split_ifs at h <;> simp at h <;>
    rcases h with rfl | rfl <;> rfl

/-- With distinct identities, each entry upserts the object as the pass found it. -/
theorem entriesFor_of_nodup {catalog : ApplicationCatalog} {charts : List ChartConfig}
    (hnd : (generatedApps catalog charts).Nodup) {chart : ChartConfig} (hc : chart ∈ charts) :
    entriesFor catalog charts chart.getAppName = [convertChartToApplicationDefinition catalog chart] := by
  induction charts with
  | nil => cases hc
  | cons c charts ih =>
    simp only [generatedApps, List.map_cons, List.nodup_cons, List.mem_map,
      convertChartToApplicationDefinition_name] at hnd
    have hnot : ∀ c' ∈ charts, c'.getAppName ≠ c.getAppName := fun c' h' he => hnd.1 ⟨c', h', he⟩
    rcases List.mem_cons.mp hc with rfl | hc
    · simp only [entriesFor, List.map_cons, List.filter_cons, convertChartToApplicationDefinition_name,
        decide_True, if_true, List.cons.injEq, true_and, List.filter_eq_nil_iff, List.mem_map]
      rintro _ ⟨c', h', rfl⟩
      simpa using hnot c' h'
    · have hne : c.getAppName ≠ chart.getAppName := fun he => hnot chart hc he.symm
      simpa [entriesFor, hne] using ih hnd.2 hc

theorem upsertCalls_subset_calls (σ : VersionSort) (faults : Faults) {catalog : ApplicationCatalog}
    {charts : List ChartConfig} (hnd : (generatedApps catalog charts).Nodup) (st : PassState)
    {chart : ChartConfig} (hc : chart ∈ charts) :
    upsertCalls faults (convertChartToApplicationDefinition catalog chart)
        (st.store.get chart.getAppName) ⊆ (charts.foldl (chartStep σ faults catalog) st).calls := by
  induction charts generalizing st with
  | nil => cases hc
  | cons c charts ih =>
    simp only [generatedApps, List.map_cons, List.nodup_cons, List.mem_map,
      convertChartToApplicationDefinition_name] at hnd
    obtain ⟨hstep, hget⟩ := chartStep_spec σ faults catalog st c
    rw [List.foldl_cons]
    rcases List.mem_cons.mp hc with rfl | hc
    · intro x hx
      refine (calls_foldl_chartStep σ faults catalog charts _).subset ?_
      rw [hstep.calls]
      exact List.mem_append_right _ (by simpa using hx)
    · have hne : chart.getAppName ≠ c.getAppName := fun he => hnd.1 ⟨chart, hc, he⟩
      have := ih hnd.2 (chartStep σ faults catalog st c) hc
      simpa [hget, hne] using this

theorem patch_mem_orphanCalls {faults : Faults} {s : Store} {catalogName : String}
    {gen : Option (List String)} {m : String} {a : ApplicationDefinition} (ha : s.get m = some a)
    (hl : a.labels labelApplicationCatalogName = some catalogName) (ho : isOrphan gen m)
    (hf : faults (.list labelApplicationCatalogName catalogName) = false) :
    .patch m ∈ orphanCalls faults s catalogName gen := by
  obtain ⟨hmem, rfl⟩ := Store.get_eq_some.mp ha
  simp only [orphanCalls, hf, Bool.false_eq_true, if_false, List.mem_cons, reduceCtorEq,
    false_or, List.mem_map, List.mem_filter, Store.mem_list, Call.patch.injEq]
  exact ⟨a, ⟨⟨hmem, hl⟩, ho⟩, rfl⟩

theorem passGet_of_charts (σ : VersionSort) {faults : Faults} {catalog : ApplicationCatalog}
    {charts : List ChartConfig} (hg : faults (.getCatalog catalog.name) = false)
    (hc : chartsToReconcile catalog = some charts) (m : String) (o : Option ApplicationDefinition) :
    passGet σ faults (some catalog) catalog.name m o =
      orphanGet faults catalog.name (some (generatedApps catalog charts)) m
        ((entriesFor catalog charts m).foldl (fun o d => upsertWith σ faults d o) o) := by
  simp [passGet, hg, hc]

theorem orphanGet_of_mem (faults : Faults) (catalogName : String) {gen : List String} {m : String}
    (hm : m ∈ gen) (o : Option ApplicationDefinition) : orphanGet faults catalogName (some gen) m o = o := by
  simp [orphanGet, isOrphan, hm]

/-- An upsert keeps every label the object has. -/
theorem upsertWith_keeps_label (σ : VersionSort) (faults : Faults) (d : ApplicationDefinition)
    {a : ApplicationDefinition} {k : String} (h : (a.labels k).isSome) :
    ∃ a', upsertWith σ faults d (some a) = some a' ∧ (a'.labels k).isSome := by
  simp only [upsertWith]
  split_ifs
  · exact ⟨a, rfl, h⟩
  · refine ⟨_, rfl, ?_⟩
    cases hd : d.labels k <;> simp [promotePreservedFields, hd, h]

/-- The calls of a pass that belong to the object `m`: its Get, Create and Patch, and the List of
the orphan cleanup when `m` is an object the cleanup may unmanage. -/
def OwnCallsSucceed (faults : Faults) (calls : List Call) (catalogName : String) (ids : List String)
    (s : Store) (m : String) : Prop :=
  (∀ c ∈ calls, c.target = some m → faults c = false) ∧
    (m ∉ ids → (∃ a, s.get m = some a ∧ a.labels labelApplicationCatalogName = some catalogName) →
      faults (.list labelApplicationCatalogName catalogName) = false)

/-- What a pass `r` with failures keeps of the failure-free pass, which leaves `s₀`: an error
exactly when a call failed, the failure-free state for every object whose own calls succeeded, and
every label of an object of one of the identities `ids`. -/
structure FailureIsolation (faults : Faults) (catalogName : String) (ids : List String) (s : Store)
    (r : PassState × Option ReconcileError) (s₀ : Store) : Prop where
  errorIffFailed : r.2.isSome ↔ ∃ c ∈ r.1.calls, faults c
  ownCallsDecide : ∀ m, OwnCallsSucceed faults r.1.calls catalogName ids s m →
    r.1.store.get m = s₀.get m
  keepsLabels : ∀ m ∈ ids, ∀ a k, s.get m = some a → (a.labels k).isSome →
    ∃ a', r.1.store.get m = some a' ∧ (a'.labels k).isSome

/-- For a catalog whose entries have distinct identities and whose read succeeds, a pass under any
failures keeps this much of the failure-free pass; the ownership labels are among the labels kept. -/
theorem reconcile_failureIsolation (σ : VersionSort) (faults : Faults) (catalog : ApplicationCatalog)
    (charts : List ChartConfig) (s : Store) (hc : chartsToReconcile catalog = some charts)
    (hnd : (generatedApps catalog charts).Nodup) (hg : faults (.getCatalog catalog.name) = false) :
    FailureIsolation faults catalog.name (generatedApps catalog charts) s
      (reconcile σ faults (some catalog) catalog.name s)
      (reconcile σ noFaults (some catalog) catalog.name s).1.store := by
  set r := reconcile σ faults (some catalog) catalog.name s
  have hnw : ¬Waiting faults (some catalog) catalog.name := by simp [Waiting, hc]
  have hcalls : r.1.calls = (charts.foldl (chartStep σ faults catalog) ⟨s, [.getCatalog catalog.name], []⟩).calls ++
      orphanCalls faults (charts.foldl (chartStep σ faults catalog) ⟨s, [.getCatalog catalog.name], []⟩).store
        catalog.name (some (generatedApps catalog charts)) := by
    simp only [r, reconcile, hg, hc, Bool.false_eq_true, if_false]
    exact (unmanageOrphans_spec faults _ _ _).2.1
  refine ⟨?_, fun m ⟨hown, hlist⟩ => ?_, fun m hm a k ha hk => ?_⟩
  · rw [← Option.ne_none_iff_isSome, Ne, (reconcile_err σ faults _ _ s).1]
    simp [hnw]
  · simp only [r, reconcile_get, passGet_of_charts σ hg hc, passGet_of_charts σ (noFaults_apply _) hc]
    by_cases hm : m ∈ generatedApps catalog charts
    · obtain ⟨chart, hchart, rfl⟩ : ∃ chart ∈ charts, chart.getAppName = m := by
        simpa [generatedApps] using hm
      simp only [orphanGet_of_mem _ _ hm, entriesFor_of_nodup hnd hchart, List.foldl_cons,
        List.foldl_nil]
      refine upsertWith_noFaults σ fun c hc' => hown c ?_ ?_
      · rw [hcalls]
        exact List.mem_append_left _ (upsertCalls_subset_calls σ faults hnd _ hchart hc')
      · simpa using target_of_mem_upsertCalls hc'
    · simp only [entriesFor_eq_nil hm, List.foldl_nil]
      cases ha : s.get m with
      | none => simp [orphanGet]
      | some a =>
        by_cases hl : a.labels labelApplicationCatalogName = some catalog.name
        · have hf := hlist hm ⟨a, ha, hl⟩
          have ho : isOrphan (some (generatedApps catalog charts)) m := by simpa [isOrphan] using hm
          have hs : (charts.foldl (chartStep σ faults catalog) ⟨s, [.getCatalog catalog.name], []⟩).store.get m
              = some a := by
            rw [foldl_chartStep_get, entriesFor_eq_nil hm]; exact ha
          have hpm : Call.patch m ∈ r.1.calls := by
            rw [hcalls]
            exact List.mem_append_right _ (patch_mem_orphanCalls hs hl ho hf)
          have hp := hown _ hpm rfl
          have hname : a.name = m := Store.get_name ha
          simp [orphanGet, hf, ho, hl, unmanageWith, hname, hp]
        · rw [orphanGet_of_unlabelled faults _ _ m (by simpa using hl),
            orphanGet_of_unlabelled noFaults _ _ m (by simpa using hl)]
  · obtain ⟨chart, hchart, rfl⟩ : ∃ chart ∈ charts, chart.getAppName = m := by
      simpa [generatedApps] using hm
    simp only [r, reconcile_get, passGet_of_charts σ hg hc, orphanGet_of_mem _ _ hm,
      entriesFor_of_nodup hnd hchart, List.foldl_cons, List.foldl_nil, ha]
    exact upsertWith_keeps_label σ faults _ hk

/-- A run in which only the Create of `nginx` fails. -/
def nginxCreateFails : Faults := fun c => c == .create "nginx"

theorem reconcile_failureIsolation_nginx :
    chartsToReconcile nginxCatalog = some [nginxChart] ∧ (generatedApps nginxCatalog [nginxChart]).Nodup ∧
      nginxCreateFails (.getCatalog nginxCatalog.name) = false ∧
      FailureIsolation nginxCreateFails nginxCatalog.name (generatedApps nginxCatalog [nginxChart])
        ⟨[], List.nodup_nil⟩
        (reconcile insertionVersionSort nginxCreateFails (some nginxCatalog) nginxCatalog.name ⟨[], List.nodup_nil⟩)
        (reconcile insertionVersionSort noFaults (some nginxCatalog) nginxCatalog.name ⟨[], List.nodup_nil⟩).1.store :=
  ⟨rfl, List.nodup_singleton _, rfl, reconcile_failureIsolation insertionVersionSort nginxCreateFails
    nginxCatalog [nginxChart] ⟨[], List.nodup_nil⟩ rfl (List.nodup_singleton _) rfl⟩

end AppCatalog.Synchronizer

import AppCatalog.Synchronizer.Ownership

/-! Passes of one catalog in a row, with every call succeeding: the second only sorts the versions
of what the first created, and what it leaves no pass changes. -/
namespace AppCatalog.Synchronizer
open Kubernetes

/-- An object with its versions sorted. -/
def sortVersions (σ : VersionSort) (a : ApplicationDefinition) : ApplicationDefinition :=
  { a with spec := { a.spec with versions := σ.sort a.spec.versions } }

theorem keys_convertVersions (catalog : ApplicationCatalog) (chart : ChartConfig) :
    keys (convertChartToApplicationDefinition catalog chart).spec.versions =
      chart.chartVersions.map (·.appVersion) := by
  simp [convertChartToApplicationDefinition, convertVersions, keys, Function.comp_def]

theorem ensureLabels_self (labels : Labels) : ensureLabels labels labels = labels :=
  Labels.ext fun k => by simp only [ensureLabels_apply]; cases labels k <;> rfl

theorem ensureLabels_ensureLabels (labels toEnsure : Labels) :
    ensureLabels (ensureLabels labels toEnsure) toEnsure = ensureLabels labels toEnsure :=
  Labels.ext fun k => by simp only [ensureLabels_apply]; cases toEnsure k <;> rfl

/-- Updating an object from its own declaration only sorts its versions. -/
theorem promotePreservedFields_self (σ : VersionSort) {d : ApplicationDefinition}
    (hD : (keys d.spec.versions).Nodup) : promotePreservedFields σ d d = sortVersions σ d := by
  refine ApplicationDefinition.ext' rfl (fun k => ?_) (fun k => ?_) ?_
  · simp [promotePreservedFields, sortVersions, ensureLabels_self]
  · simp [promotePreservedFields, sortVersions, ensureLabels_self]
  · simp [promotePreservedFields, sortVersions, sortedMerge_self σ hD]

/-- Updating an object twice from one declaration is updating it once. -/
theorem promotePreservedFields_idem (σ : VersionSort) {d e : ApplicationDefinition}
    (hE : (keys e.spec.versions).Nodup) (hD : (keys d.spec.versions).Nodup) :
    promotePreservedFields σ d (promotePreservedFields σ d e) = promotePreservedFields σ d e := by
  have hv : sortedMerge σ (sortedMerge σ e.spec.versions d.spec.versions) d.spec.versions =
      sortedMerge σ e.spec.versions d.spec.versions :=
    sortedMerge_of_subset σ (σ.sorted _) (nodup_keys_sortedMerge σ hE hD)
      fun _ hx => subset_sortedMerge σ hE hD hx
  refine ApplicationDefinition.ext' rfl (fun k => ?_) (fun k => ?_) ?_
  · simp only [promotePreservedFields, ensureLabels_ensureLabels]
  · simp only [promotePreservedFields, ensureLabels_ensureLabels]
  · simp only [promotePreservedFields, hv, Bool.or_assoc, Bool.or_self]
    by_cases h₁ : e.spec.selector.datacenters.isSome = true <;>
      by_cases h₂ : (e.spec.defaultValuesBlock != "" && e.spec.defaultValuesBlock != "{}") = true <;>
      simp [h₁, h₂]

theorem isSystemApplication_promotePreservedFields (σ : VersionSort) {d : ApplicationDefinition}
    (hd : d.labels "apps.kubermatic.k8c.io/managed-by" = none) (e : ApplicationDefinition) :
    isSystemApplication (promotePreservedFields σ d e) = isSystemApplication e := by
  simp [isSystemApplication, promotePreservedFields, hd]

/-- A failure-free upsert repeated changes nothing, except that it sorts the versions of an object
the first one created. -/
theorem upsertWith_upsertWith (σ : VersionSort) (catalog : ApplicationCatalog) {chart : ChartConfig}
    (hD : (chart.chartVersions.map (·.appVersion)).Nodup) (o : Option ApplicationDefinition)
    (hE : ∀ e, o = some e → (keys e.spec.versions).Nodup) :
    let d := convertChartToApplicationDefinition catalog chart
    upsertWith σ noFaults d (upsertWith σ noFaults d o) =
      if o.isNone then (upsertWith σ noFaults d o).map (sortVersions σ) else upsertWith σ noFaults d o := by
  intro d
  have hD' : (keys d.spec.versions).Nodup := by rwa [keys_convertVersions]
  have hsys : d.labels "apps.kubermatic.k8c.io/managed-by" = none := by
    simp [d, ownershipLabels, labelManagedByApplicationCatalog, labelApplicationCatalogName]
  cases o with
  | none =>
    simp [upsertWith, convert_not_isSystemApplication, d, promotePreservedFields_self σ hD']
  | some e =>
    by_cases hs : isSystemApplication e = true
    · simp [upsertWith, hs]
    · simp [upsertWith, hs, isSystemApplication_promotePreservedFields σ hsys,
        promotePreservedFields_idem σ (hE e rfl) hD']

/-- A failure-free orphan cleanup repeated changes nothing. -/
theorem orphanGet_noFaults_idem (catalogName : String) {gen : Option (List String)} {m : String}
    (ho : isOrphan gen m) (o : Option ApplicationDefinition) :
    orphanGet noFaults catalogName gen m (orphanGet noFaults catalogName gen m o) =
      orphanGet noFaults catalogName gen m o :=
  orphanGet_of_unlabelled noFaults catalogName gen m fun _ h => orphanGet_noFaults_unlabelled ho h

/-- A failure-free upsert leaves an object, with distinct version keys when the entry's and the
old object's are distinct. -/
theorem upsertWith_noFaults_nodup (σ : VersionSort) {d : ApplicationDefinition}
    (hD : (keys d.spec.versions).Nodup) (o : Option ApplicationDefinition)
    (hE : ∀ e, o = some e → (keys e.spec.versions).Nodup) :
    ∃ a, upsertWith σ noFaults d o = some a ∧ (keys a.spec.versions).Nodup := by
  cases o with
  | none => exact ⟨d, by simp [upsertWith], hD⟩
  | some e =>
    by_cases hs : isSystemApplication e = true
    · exact ⟨e, by simp [upsertWith, hs], hE e rfl⟩
    · exact ⟨promotePreservedFields σ d e, by simp [upsertWith, hs],
        nodup_keys_sortedMerge σ (hE e rfl) hD⟩

/-- A pass of the present catalog in which every call succeeds. -/
def failureFreePass (σ : VersionSort) (catalog : ApplicationCatalog) (s : Store) : Store :=
  (reconcile σ noFaults (some catalog) catalog.name s).1.store

section
variable (σ : VersionSort) {catalog : ApplicationCatalog} {charts : List ChartConfig}
  (hc : chartsToReconcile catalog = some charts) (hnd : (generatedApps catalog charts).Nodup)
include hc hnd

theorem failureFreePass_get_of_mem {chart : ChartConfig} (hchart : chart ∈ charts) (s : Store) :
    (failureFreePass σ catalog s).get chart.getAppName =
      upsertWith σ noFaults (convertChartToApplicationDefinition catalog chart) (s.get chart.getAppName) := by
  have hm : chart.getAppName ∈ generatedApps catalog charts := by simpa using ⟨chart, hchart, rfl⟩
  simp only [failureFreePass, reconcile_get, passGet_of_charts σ (noFaults_apply _) hc,
    orphanGet_of_mem _ _ hm, entriesFor_of_nodup hnd hchart, List.foldl_cons, List.foldl_nil]

/-- The second of two failure-free passes, name by name. -/
theorem failureFreePass_twice
    (hD : ∀ chart ∈ charts, (chart.chartVersions.map (·.appVersion)).Nodup) (s : Store)
    (hE : ∀ m ∈ generatedApps catalog charts, ∀ a, s.get m = some a → (keys a.spec.versions).Nodup)
    (m : String) :
    (failureFreePass σ catalog (failureFreePass σ catalog s)).get m =
      if (s.get m).isNone ∧ m ∈ generatedApps catalog charts
      then ((failureFreePass σ catalog s).get m).map (sortVersions σ)
      else (failureFreePass σ catalog s).get m := by
  by_cases hm : m ∈ generatedApps catalog charts
  · obtain ⟨chart, hchart, rfl⟩ : ∃ chart ∈ charts, chart.getAppName = m := by simpa using hm
    simp only [failureFreePass_get_of_mem σ hc hnd hchart, hm, and_true]
    exact upsertWith_upsertWith σ catalog (hD chart hchart) _ (hE _ hm)
  · have ho : isOrphan (some (generatedApps catalog charts)) m := by simpa [isOrphan] using hm
    simp only [failureFreePass, reconcile_get, passGet_of_charts σ (noFaults_apply _) hc,
      entriesFor_eq_nil hm, List.foldl_nil, hm, and_false, if_false]
    exact orphanGet_noFaults_idem _ ho _

end

/-- The chart `nginx` with its versions listed newest first. -/
def descendingChart : ChartConfig :=
  ⟨"nginx", none, none, "", [⟨"2.0.0", "v2.0.0", none⟩, ⟨"1.0.0", "v1.0.0", none⟩]⟩

/-- A catalog `"a"` that lists the one chart `descendingChart`. -/
def descendingCatalog : ApplicationCatalog :=
  ⟨"a", fun _ => none, ⟨some ⟨none, some [descendingChart], false⟩⟩⟩

/-- Whatever order Go's sort leaves equal keys in: the first pass creates `nginx` with its versions
in catalog order, and the second pass sorts them. -/
theorem second_pass_reorders_of_sort (σ : VersionSort) :
    ((failureFreePass σ descendingCatalog ⟨[], List.nodup_nil⟩).get "nginx").map
        (keys ·.spec.versions) = some ["v2.0.0", "v1.0.0"] ∧
      ((failureFreePass σ descendingCatalog (failureFreePass σ descendingCatalog
        ⟨[], List.nodup_nil⟩)).get "nginx").map (keys ·.spec.versions) = some ["v1.0.0", "v2.0.0"] := by
  have h₁ : (failureFreePass σ descendingCatalog ⟨[], List.nodup_nil⟩).get "nginx" =
      some (convertChartToApplicationDefinition descendingCatalog descendingChart) := rfl
  refine ⟨by rw [h₁]; rfl, ?_⟩
  rw [failureFreePass_twice σ (show chartsToReconcile descendingCatalog = some [descendingChart] from rfl)
    (List.nodup_singleton _) (by decide) _
    (fun _ _ _ h => Option.noConfusion h), if_pos ⟨rfl, by decide⟩, h₁]
  simp only [Option.map_some', sortVersions, Option.some.injEq]
  have hle : "v1.0.0" ≤ "v2.0.0" := String.le_iff_toList_le.mpr (by decide)
  exact List.eq_of_perm_of_sorted ((σ.keys_perm _).trans (List.Perm.swap _ _ _))
    (List.pairwise_map.mpr (σ.sorted _)) (by simpa using hle)

/-- Under the insertion sort Go runs on short slices, the second pass reorders the versions the
first pass wrote. -/
theorem second_pass_reorders :
    ((failureFreePass insertionVersionSort descendingCatalog ⟨[], List.nodup_nil⟩).get "nginx").map
        (keys ·.spec.versions) = some ["v2.0.0", "v1.0.0"] ∧
      ((failureFreePass insertionVersionSort descendingCatalog (failureFreePass insertionVersionSort
        descendingCatalog ⟨[], List.nodup_nil⟩)).get "nginx").map (keys ·.spec.versions) =
        some ["v1.0.0", "v2.0.0"] :=
  second_pass_reorders_of_sort insertionVersionSort

/-- Two failure-free passes of a catalog from `s`: the second changes only the objects of the
identities `ids` that the first created, and only by sorting their versions; a third changes
nothing. -/
structure SettlesInTwoPasses (σ : VersionSort) (catalog : ApplicationCatalog) (ids : List String)
    (s : Store) : Prop where
  second : ∀ m, (failureFreePass σ catalog (failureFreePass σ catalog s)).get m =
    if (s.get m).isNone ∧ m ∈ ids then ((failureFreePass σ catalog s).get m).map (sortVersions σ)
    else (failureFreePass σ catalog s).get m
  third : ∀ m,
    (failureFreePass σ catalog (failureFreePass σ catalog (failureFreePass σ catalog s))).get m =
      (failureFreePass σ catalog (failureFreePass σ catalog s)).get m

/-- For a catalog with distinct identities and distinct versions per entry, over objects with
distinct versions, failure-free passes settle after the second. -/
theorem reconcile_settlesInTwoPasses (σ : VersionSort) (catalog : ApplicationCatalog)
    (charts : List ChartConfig) (s : Store) (hc : chartsToReconcile catalog = some charts)
    (hnd : (generatedApps catalog charts).Nodup)
    (hD : ∀ chart ∈ charts, (chart.chartVersions.map (·.appVersion)).Nodup)
    (hE : ∀ m ∈ generatedApps catalog charts, ∀ a, s.get m = some a → (keys a.spec.versions).Nodup) :
    SettlesInTwoPasses σ catalog (generatedApps catalog charts) s := by
  have hfirst : ∀ chart ∈ charts, ∃ a, (failureFreePass σ catalog s).get chart.getAppName = some a ∧
      (keys a.spec.versions).Nodup := fun chart hchart => by
    rw [failureFreePass_get_of_mem σ hc hnd hchart]
    exact upsertWith_noFaults_nodup σ ((keys_convertVersions catalog chart).symm ▸ hD chart hchart) _
      (hE _ (by simpa using ⟨chart, hchart, rfl⟩))
  refine ⟨failureFreePass_twice σ hc hnd hD s hE, fun m => ?_⟩
  have hE₁ : ∀ m ∈ generatedApps catalog charts, ∀ a, (failureFreePass σ catalog s).get m = some a →
      (keys a.spec.versions).Nodup := fun m hm a ha => by
    obtain ⟨chart, hchart, rfl⟩ : ∃ chart ∈ charts, chart.getAppName = m := by simpa using hm
    obtain ⟨a', ha', hn⟩ := hfirst chart hchart
    rwa [Option.some.inj (ha.symm.trans ha')]
  rw [failureFreePass_twice σ hc hnd hD _ hE₁, if_neg]
  rintro ⟨hnone, hm⟩
  obtain ⟨chart, hchart, rfl⟩ : ∃ chart ∈ charts, chart.getAppName = m := by simpa using hm
  obtain ⟨a, ha, -⟩ := hfirst chart hchart
  simp [ha] at hnone

theorem reconcile_settlesInTwoPasses_descending :
    chartsToReconcile descendingCatalog = some [descendingChart] ∧
      (generatedApps descendingCatalog [descendingChart]).Nodup ∧
      (∀ chart ∈ [descendingChart], (chart.chartVersions.map (·.appVersion)).Nodup) ∧
      (∀ m ∈ generatedApps descendingCatalog [descendingChart], ∀ a,
        (⟨[], List.nodup_nil⟩ : Store).get m = some a → (keys a.spec.versions).Nodup) ∧
      SettlesInTwoPasses insertionVersionSort descendingCatalog
        (generatedApps descendingCatalog [descendingChart]) ⟨[], List.nodup_nil⟩ :=
  ⟨rfl, List.nodup_singleton _, by decide, fun _ _ _ h => Option.noConfusion h,
    reconcile_settlesInTwoPasses insertionVersionSort descendingCatalog [descendingChart] _ rfl
      (List.nodup_singleton _) (by decide) fun _ _ _ h => Option.noConfusion h⟩

end AppCatalog.Synchronizer

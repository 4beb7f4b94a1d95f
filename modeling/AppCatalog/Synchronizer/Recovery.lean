import AppCatalog.Synchronizer.Convergence

/-! Failed calls, and passes that drop an object, leave no trace once failure-free passes follow. -/
namespace AppCatalog.Synchronizer
open Kubernetes

/-- A run of passes refines its name-by-name description: the object of each name goes through the
passes' `passGet` in turn. -/
theorem runPasses_get (σ : VersionSort) (passes : List (Faults × Option ApplicationCatalog × String))
    (s : Store) (m : String) :
    (runPasses σ passes s).get m = passes.foldl (fun o p => passGet σ p.1 p.2.1 p.2.2 m o) (s.get m) := by
  induction passes generalizing s with
  | nil => rfl
  | cons p passes ih =>
    obtain ⟨faults, found, name⟩ := p
    rw [runPasses, ih, reconcile_get]
    rfl

/-! ### All or nothing -/

theorem upsertWith_allOrNothing (σ : VersionSort) (faults : Faults) (d : ApplicationDefinition)
    (o : Option ApplicationDefinition) :
    upsertWith σ faults d o = o ∨ upsertWith σ faults d o = upsertWith σ noFaults d o := by
  cases o with
  | none =>
    by_cases h : (faults (.get d.name) || faults (.create d.name)) = true
    · exact .inl (by simp only [upsertWith, h, if_true])
    · exact .inr (by simp [upsertWith, h])
  | some e =>
    by_cases h : (faults (.get d.name) || isSystemApplication e || faults (.patch d.name)) = true
    · exact .inl (by simp only [upsertWith, h, if_true])
    · simp only [Bool.or_eq_true, not_or] at h
      exact .inr (by simp [upsertWith, h])

theorem orphanGet_allOrNothing (faults : Faults) (catalogName : String) (gen : Option (List String))
    (m : String) (o : Option ApplicationDefinition) :
    orphanGet faults catalogName gen m o = o ∨
      orphanGet faults catalogName gen m o = orphanGet noFaults catalogName gen m o := by
  unfold orphanGet
  by_cases hl : faults (.list labelApplicationCatalogName catalogName) = false ∧ isOrphan gen m
  · rw [if_pos hl, if_pos ⟨noFaults_apply _, hl.2⟩]
    cases o with
    | none => exact .inl rfl
    | some a =>
      by_cases hlab : a.labels labelApplicationCatalogName = some catalogName
      · simp only [Option.map_some', hlab, if_true, Option.some.injEq]
        exact (unmanageWith_cases faults a).imp id fun h => h.trans (by simp [unmanageWith])
      · exact .inl (by simp [hlab])
  · exact .inl (if_neg hl)

/-- Under any failures, a pass does to the object of each name either nothing or what the
failure-free pass does, as long as no two entries of the catalog produce one name. -/
theorem passGet_allOrNothing (σ : VersionSort) (faults : Faults) {found : Option ApplicationCatalog}
    (hnd : (declaredIdentities found).Nodup) (name m : String) (o : Option ApplicationDefinition) :
    passGet σ faults found name m o = o ∨
      passGet σ faults found name m o = passGet σ noFaults found name m o := by
  simp only [passGet, noFaults_apply, Bool.false_eq_true, if_false]
  split_ifs
  · exact .inl rfl
  · cases found with
    | none => exact orphanGet_allOrNothing ..
    | some catalog =>
      dsimp only
      cases hc : chartsToReconcile catalog with
      | none => exact .inl rfl
      | some charts =>
        dsimp only
        rw [declaredIdentities_of_charts hc] at hnd
        by_cases hm : m ∈ generatedApps catalog charts
        · obtain ⟨chart, hchart, rfl⟩ : ∃ chart ∈ charts, chart.getAppName = m := by simpa using hm
          simp only [orphanGet_of_mem _ _ hm, entriesFor_of_nodup hnd hchart, List.foldl_cons,
            List.foldl_nil]
          exact upsertWith_allOrNothing ..
        · simp only [entriesFor_eq_nil hm, List.foldl_nil]
          exact orphanGet_allOrNothing ..

/-- At an identity of a catalog whose identities are distinct, a pass that reads the catalog is the
upsert of the identity's entry. -/
theorem passGet_of_mem (σ : VersionSort) {faults : Faults} {catalog : ApplicationCatalog}
    {charts : List ChartConfig} (hc : chartsToReconcile catalog = some charts)
    (hnd : (generatedApps catalog charts).Nodup) {chart : ChartConfig} (hchart : chart ∈ charts)
    (hg : faults (.getCatalog catalog.name) = false) (o : Option ApplicationDefinition) :
    passGet σ faults (some catalog) catalog.name chart.getAppName o =
      upsertWith σ faults (convertChartToApplicationDefinition catalog chart) o := by
  have hm : chart.getAppName ∈ generatedApps catalog charts := by simpa using ⟨chart, hchart, rfl⟩
  simp only [passGet_of_charts σ hg hc, orphanGet_of_mem _ _ hm, entriesFor_of_nodup hnd hchart,
    List.foldl_cons, List.foldl_nil]

/-! ### Failure-free passes absorb failing ones -/

section
variable (σ : VersionSort) {catalog : ApplicationCatalog} {charts : List ChartConfig}
  (hc : chartsToReconcile catalog = some charts) (hnd : (generatedApps catalog charts).Nodup)
  (hD : ∀ chart ∈ charts, (chart.chartVersions.map (·.appVersion)).Nodup)
include hc hnd hD

/-- At an identity, the failure-free pass leaves an object, with distinct version keys when the
object it found had them. -/
theorem passGet_noFaults_nodup {m : String} (hm : m ∈ generatedApps catalog charts)
    {o : Option ApplicationDefinition} (hE : ∀ a, o = some a → (keys a.spec.versions).Nodup) :
    ∃ a, passGet σ noFaults (some catalog) catalog.name m o = some a ∧ (keys a.spec.versions).Nodup := by
  obtain ⟨chart, hchart, rfl⟩ : ∃ chart ∈ charts, chart.getAppName = m := by simpa using hm
  rw [passGet_of_mem σ hc hnd hchart (noFaults_apply _)]
  exact upsertWith_noFaults_nodup σ ((keys_convertVersions catalog chart).symm ▸ hD chart hchart) o hE

/-- At an identity, a failure-free pass after one that found an object changes nothing. -/
theorem passGet_noFaults_idem {m : String} (hm : m ∈ generatedApps catalog charts)
    {a : ApplicationDefinition} (hn : (keys a.spec.versions).Nodup) :
    let F := passGet σ noFaults (some catalog) catalog.name m
    F (F (some a)) = F (some a) := by
  intro F
  obtain ⟨chart, hchart, rfl⟩ : ∃ chart ∈ charts, chart.getAppName = m := by simpa using hm
  simp only [F, passGet_of_mem σ hc hnd hchart (noFaults_apply _)]
  exact (upsertWith_upsertWith σ catalog (hD chart hchart) (some a)
    fun e he => Option.some.inj he ▸ hn).trans (if_neg (by simp))

/-- Name by name, a third failure-free pass changes nothing. -/
theorem passGet_noFaults_thrice (m : String) {o : Option ApplicationDefinition}
    (hE : m ∈ generatedApps catalog charts → ∀ a, o = some a → (keys a.spec.versions).Nodup) :
    let F := passGet σ noFaults (some catalog) catalog.name m
    F (F (F o)) = F (F o) := by
  intro F
  by_cases hm : m ∈ generatedApps catalog charts
  · obtain ⟨a, ha, hn⟩ := passGet_noFaults_nodup σ hc hnd hD hm (hE hm)
    rw [show F o = some a from ha]
    exact passGet_noFaults_idem σ hc hnd hD hm hn
  · have ho : isOrphan (some (generatedApps catalog charts)) m := by simpa [isOrphan] using hm
    have hF : ∀ o, F o = orphanGet noFaults catalog.name (some (generatedApps catalog charts)) m o :=
      fun o => by simp only [F, passGet_of_charts σ (noFaults_apply _) hc, entriesFor_eq_nil hm,
        List.foldl_nil]
    simp only [hF]
    exact orphanGet_noFaults_idem _ ho _

/-- Failures leave no trace: after any run of passes of a catalog, each under its own failures, two
failure-free passes leave every object as two failure-free passes from the start of the run do. -/
theorem runPasses_recovers (fs : List Faults) (s : Store)
    (hE : ∀ m ∈ generatedApps catalog charts, ∀ a, s.get m = some a → (keys a.spec.versions).Nodup)
    (m : String) :
    (failureFreePass σ catalog (failureFreePass σ catalog
        (runPasses σ (fs.map fun f => (f, some catalog, catalog.name)) s))).get m =
      (failureFreePass σ catalog (failureFreePass σ catalog s)).get m := by
  have hnd' : (declaredIdentities (some catalog)).Nodup := by
    rwa [declaredIdentities_of_charts hc]
  simp only [failureFreePass, reconcile_get, runPasses_get, List.foldl_map]
  have hE' := hE m
  generalize s.get m = o at hE' ⊢
  induction fs generalizing o with
  | nil => rfl
  | cons f fs ih =>
    rw [List.foldl_cons]
    rcases passGet_allOrNothing σ f hnd' catalog.name m o with h | h <;> rw [h]
    · exact ih o hE'
    · refine (ih _ fun hm a ha => ?_).trans (passGet_noFaults_thrice σ hc hnd hD m hE')
      obtain ⟨b, hb, hn⟩ := passGet_noFaults_nodup σ hc hnd hD hm (hE' hm)
      rwa [Option.some.inj (ha.symm.trans hb)]

end

theorem runPasses_recovers_descending :
    chartsToReconcile descendingCatalog = some [descendingChart] ∧
      (generatedApps descendingCatalog [descendingChart]).Nodup ∧
      (∀ chart ∈ [descendingChart], (chart.chartVersions.map (·.appVersion)).Nodup) ∧
      (∀ m ∈ generatedApps descendingCatalog [descendingChart], ∀ a,
        (⟨[], List.nodup_nil⟩ : Store).get m = some a → (keys a.spec.versions).Nodup) ∧
      ∀ m, (failureFreePass insertionVersionSort descendingCatalog
          (failureFreePass insertionVersionSort descendingCatalog
            (runPasses insertionVersionSort ([nginxCreateFails, noFaults].map
              fun f => (f, some descendingCatalog, descendingCatalog.name)) ⟨[], List.nodup_nil⟩))).get m =
        (failureFreePass insertionVersionSort descendingCatalog
          (failureFreePass insertionVersionSort descendingCatalog ⟨[], List.nodup_nil⟩)).get m :=
  ⟨rfl, List.nodup_singleton _, by decide, fun _ _ _ h => Option.noConfusion h,
    runPasses_recovers insertionVersionSort
      (show chartsToReconcile descendingCatalog = some [descendingChart] from rfl) (List.nodup_singleton _) (by decide) _ _
      fun _ _ _ h => Option.noConfusion h⟩

/-! ### Unmanaging is undone by the next catalog that declares the object -/

/-- A failure-free upsert does not see whether the object lost its ownership labels. -/
theorem upsertWith_noFaults_unmanaged (σ : VersionSort) {d : ApplicationDefinition}
    (hd : ∀ k, k = labelManagedByApplicationCatalog ∨ k = labelApplicationCatalogName → (d.labels k).isSome)
    {a : ApplicationDefinition} (hsys : isSystemApplication a = false) :
    upsertWith σ noFaults d (some (unmanaged a)) = upsertWith σ noFaults d (some a) := by
  have hl : ensureLabels (withoutOwnership a.labels) d.labels = ensureLabels a.labels d.labels :=
    Labels.ext fun k => by
      by_cases hk : k = labelManagedByApplicationCatalog ∨ k = labelApplicationCatalogName
      · obtain ⟨v, hv⟩ := Option.isSome_iff_exists.mp (hd k hk)
        simp [hv]
      · simp [withoutOwnership, hk]
  have hs : isSystemApplication (unmanaged a) = false := by rw [isSystemApplication_unmanaged, hsys]
  simp only [upsertWith, noFaults_apply, hs, hsys, Bool.or_self, Bool.false_eq_true, if_false]
  simp only [promotePreservedFields, unmanaged, hl]

/-- A failure-free pass of a catalog that declares `m` does not see whether the object of `m` lost
its ownership labels. -/
theorem passGet_noFaults_unmanaged (σ : VersionSort) {catalog : ApplicationCatalog} {m : String}
    (hm : m ∈ declaredIdentities (some catalog)) {a : ApplicationDefinition}
    (hsys : isSystemApplication a = false) :
    passGet σ noFaults (some catalog) catalog.name m (some (unmanaged a)) =
      passGet σ noFaults (some catalog) catalog.name m (some a) := by
  obtain ⟨charts, hc, hm'⟩ := mem_declaredIdentities_some hm
  rw [passGet_of_charts σ (noFaults_apply _) hc, passGet_of_charts σ (noFaults_apply _) hc,
    orphanGet_of_mem _ _ hm', orphanGet_of_mem _ _ hm']
  obtain ⟨d, ds, hds⟩ := List.exists_cons_of_ne_nil (entriesFor_ne_nil hm')
  have hd : d ∈ entriesFor catalog charts m := hds ▸ List.mem_cons_self d ds
  obtain ⟨chart, -, rfl⟩ := List.mem_map.mp (List.mem_filter.mp hd).1
  rw [hds, List.foldl_cons, List.foldl_cons, upsertWith_noFaults_unmanaged σ (fun k hk => ?_) hsys]
  rcases hk with rfl | rfl <;> simp [ownershipLabels, managedBy_ne_catalogName.symm]

/-- A pass that does not declare `m`, under any failures, at most unmanages its object. -/
theorem passGet_undeclared (σ : VersionSort) (faults : Faults) {found : Option ApplicationCatalog}
    {name m : String} (hN : ∀ c, found = some c → c.name = name) (hm : m ∉ declaredIdentities found)
    (o : Option ApplicationDefinition) :
    passGet σ faults found name m o = o ∨ passGet σ faults found name m o = o.map unmanaged := by
  rcases passGet_of_not_mem σ faults hN hm o with h | ⟨gen, h⟩
  · exact .inl h
  · rw [h]
    cases o with
    | none => exact .inl (orphanGet_of_unlabelled faults name gen m fun _ h => Option.noConfusion h)
    | some a => exact orphanGet_some faults name gen m a

/-- Passes that do not declare `m`, under any failures, at most unmanage its object. -/
theorem runPasses_undeclared (σ : VersionSort) {m : String}
    (passes : List (Faults × Option ApplicationCatalog × String))
    (hps : ∀ p ∈ passes, (∀ c, p.2.1 = some c → c.name = p.2.2) ∧ m ∉ declaredIdentities p.2.1)
    (s : Store) :
    (runPasses σ passes s).get m = s.get m ∨ (runPasses σ passes s).get m = (s.get m).map unmanaged := by
  rw [runPasses_get]
  generalize s.get m = o
  suffices h : ∀ o', (o' = o ∨ o' = o.map unmanaged) →
      passes.foldl (fun o p => passGet σ p.1 p.2.1 p.2.2 m o) o' = o ∨
        passes.foldl (fun o p => passGet σ p.1 p.2.1 p.2.2 m o) o' = o.map unmanaged from
    h o (.inl rfl)
  induction passes with
  | nil => exact fun _ h => h
  | cons p passes ih =>
    intro o' ho'
    obtain ⟨hN, hm⟩ := hps p (List.mem_cons_self _ _)
    refine ih (fun p' h' => hps p' (List.mem_cons_of_mem _ h')) _ ?_
    show passGet σ p.1 p.2.1 p.2.2 m o' = o ∨ passGet σ p.1 p.2.1 p.2.2 m o' = o.map unmanaged
    rcases ho' with rfl | rfl
    · exact passGet_undeclared σ p.1 hN hm _
    · rcases passGet_undeclared σ p.1 hN hm (o.map unmanaged) with h | h <;> rw [h]
      · exact .inr rfl
      · simp [Option.map_map, Function.comp_def]

/-- Re-adoption restores: passes that do not declare an object, under any failures (those of a
catalog that dropped its entry, of a deleted catalog, of other catalogs), leave no trace on it once a
catalog that declares it passes without failures. The object ends as that pass alone would leave
it: labelled as the catalog's, with its annotations, its other labels and the state the cluster owns
on it kept. The rest of its spec is replaced by the catalog's. -/
theorem runPasses_readopted (σ : VersionSort) {m : String}
    (passes : List (Faults × Option ApplicationCatalog × String))
    (hps : ∀ p ∈ passes, (∀ c, p.2.1 = some c → c.name = p.2.2) ∧ m ∉ declaredIdentities p.2.1)
    {catalog : ApplicationCatalog} (hm : m ∈ declaredIdentities (some catalog)) (s : Store)
    (hsys : ∀ a, s.get m = some a → a.labels "apps.kubermatic.k8c.io/managed-by" = none) :
    (failureFreePass σ catalog (runPasses σ passes s)).get m = (failureFreePass σ catalog s).get m ∧
      ∀ a, s.get m = some a → ∃ b, (failureFreePass σ catalog s).get m = some b ∧
        KeepsUserState a b ∧ KeepsMetadata a b ∧
        b.labels labelManagedByApplicationCatalog = some "true" ∧
        b.labels labelApplicationCatalogName = some catalog.name := by
  simp only [failureFreePass, reconcile_get]
  refine ⟨?_, fun a ha => ?_⟩
  · rcases runPasses_undeclared σ passes hps s with h | h <;> rw [h]
    cases hs : s.get m with
    | none => rfl
    | some a => exact passGet_noFaults_unmanaged σ hm (by simp [isSystemApplication, hsys a hs])
  · rw [ha]
    obtain ⟨b, hb, hown⟩ := passGet_noFaults_ownedBy σ hm (some a)
    obtain ⟨b₁, hb₁, hkeeps⟩ := passGet_keeps σ noFaults _ _ m _ a rfl
    obtain ⟨b₂, hb₂, hmeta⟩ := keepsMetadata_preserved.passGet_rel σ noFaults _ _ m a
    rw [Option.some.inj (hb₁.symm.trans hb)] at hkeeps
    rw [Option.some.inj (hb₂.symm.trans hb)] at hmeta
    -- The object was no other system's, and the pass writes no label but the ownership labels.
    have hnotsys : ¬(b.labels "apps.kubermatic.k8c.io/managed-by").isSome := by
      simp [hmeta.labels "apps.kubermatic.k8c.io/managed-by" (by decide) (by decide), hsys a ha]
    exact ⟨b, hb, hkeeps, hmeta, hown.resolve_left hnotsys⟩

/-- The store in which `nginx` was created for the catalog `"a"`, and then given a label of the
user's and enforced. -/
def nginxStore : Store :=
  ⟨[{ convertChartToApplicationDefinition nginxCatalog nginxChart with
    labels := (convertChartToApplicationDefinition nginxCatalog nginxChart).labels.insert "team" "x"
    spec := { (convertChartToApplicationDefinition nginxCatalog nginxChart).spec with enforced := true } }],
    List.nodup_singleton _⟩

/-- The catalog `"a"` drops its entry, and then lists it again. -/
theorem runPasses_readopted_nginx :
    (∀ p ∈ [(noFaults, some emptyCatalog, "a")],
      (∀ c, p.2.1 = some c → c.name = p.2.2) ∧ "nginx" ∉ declaredIdentities p.2.1) ∧
      "nginx" ∈ declaredIdentities (some nginxCatalog) ∧
      (∀ a, nginxStore.get "nginx" = some a → a.labels "apps.kubermatic.k8c.io/managed-by" = none) ∧
      (failureFreePass insertionVersionSort nginxCatalog
          (runPasses insertionVersionSort [(noFaults, some emptyCatalog, "a")] nginxStore)).get "nginx" =
        (failureFreePass insertionVersionSort nginxCatalog nginxStore).get "nginx" ∧
      ∀ a, nginxStore.get "nginx" = some a →
        ∃ b, (failureFreePass insertionVersionSort nginxCatalog nginxStore).get "nginx" = some b ∧
          KeepsUserState a b ∧ KeepsMetadata a b ∧
          b.labels labelManagedByApplicationCatalog = some "true" ∧
          b.labels labelApplicationCatalogName = some nginxCatalog.name :=
  have hps : ∀ p ∈ [(noFaults, some emptyCatalog, "a")],
      (∀ c, p.2.1 = some c → c.name = p.2.2) ∧ "nginx" ∉ declaredIdentities p.2.1 :=
    List.forall_mem_singleton.mpr ⟨fun _ h => Option.some.inj h ▸ rfl, List.not_mem_nil _⟩
  have hm : "nginx" ∈ declaredIdentities (some nginxCatalog) := List.mem_singleton_self _
  have hsys : ∀ a, nginxStore.get "nginx" = some a → a.labels "apps.kubermatic.k8c.io/managed-by" = none :=
    fun _ h => Option.some.inj h ▸ rfl
  ⟨hps, hm, hsys, runPasses_readopted insertionVersionSort _ hps hm nginxStore hsys⟩

end AppCatalog.Synchronizer

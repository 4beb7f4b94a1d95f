import AppCatalog.Synchronizer.Failures

/-! What a pass that returns no error leaves: the catalog owns exactly the objects of its
identities, apart from those another system manages. -/
namespace AppCatalog.Synchronizer
open Kubernetes

@[simp] theorem generatedApps_eq (catalog : ApplicationCatalog) (charts : List ChartConfig) :
    generatedApps catalog charts = charts.map ChartConfig.getAppName := by
  simp [generatedApps, Function.comp_def]

/-- The object is managed by another system, or carries both ownership labels of `catalogName`. -/
def OwnedBy (catalogName : String) (a : ApplicationDefinition) : Prop :=
  (a.labels "apps.kubermatic.k8c.io/managed-by").isSome ∨
    (a.labels labelManagedByApplicationCatalog = some "true" ∧
      a.labels labelApplicationCatalogName = some catalogName)

/-- The catalog `catalogName` owns, in `s`, an object for each of the identities `ids`, unless
another system manages it, and no object outside them carries its name label. -/
structure OwnsExactly (catalogName : String) (ids : List String) (s : Store) : Prop where
  declared : ∀ m ∈ ids, ∃ a, s.get m = some a ∧ OwnedBy catalogName a
  onlyDeclared : ∀ m a, s.get m = some a → a.labels labelApplicationCatalogName = some catalogName →
    m ∈ ids

theorem upsertWith_noFaults_ownedBy (σ : VersionSort) {catalogName : String}
    {d : ApplicationDefinition} (hd : d.labels labelManagedByApplicationCatalog = some "true" ∧
      d.labels labelApplicationCatalogName = some catalogName) (o : Option ApplicationDefinition) :
    ∃ a, upsertWith σ noFaults d o = some a ∧ OwnedBy catalogName a := by
  cases o with
  | none => exact ⟨d, by simp [upsertWith], .inr hd⟩
  | some e =>
    by_cases hs : isSystemApplication e = true
    · exact ⟨e, by simp [upsertWith, hs], .inl hs⟩
    · exact ⟨promotePreservedFields σ d e, by simp [upsertWith, hs],
        .inr (by simp [promotePreservedFields, hd.1, hd.2])⟩

/-- After the entries of a name, failure-free, its object is owned by their catalog. -/
theorem foldl_upsertWith_ownedBy (σ : VersionSort) {catalogName : String}
    {ds : List ApplicationDefinition} (hne : ds ≠ [])
    (hd : ∀ d ∈ ds, d.labels labelManagedByApplicationCatalog = some "true" ∧
      d.labels labelApplicationCatalogName = some catalogName) (o : Option ApplicationDefinition) :
    ∃ a, ds.foldl (fun o d => upsertWith σ noFaults d o) o = some a ∧ OwnedBy catalogName a := by
  induction ds generalizing o with
  | nil => exact absurd rfl hne
  | cons d ds ih =>
    rw [List.foldl_cons]
    by_cases hds : ds = []
    · subst hds
      exact upsertWith_noFaults_ownedBy σ (hd d (List.mem_cons_self _ _)) o
    · exact ih hds (fun d' h' => hd d' (List.mem_cons_of_mem _ h')) _

/-- The failure-free orphan cleanup leaves no orphan with the catalog's name label. -/
theorem orphanGet_noFaults_unlabelled {catalogName : String} {gen : Option (List String)}
    {m : String} (ho : isOrphan gen m) {o : Option ApplicationDefinition} {a : ApplicationDefinition}
    (h : orphanGet noFaults catalogName gen m o = some a) :
    a.labels labelApplicationCatalogName ≠ some catalogName := by
  simp only [orphanGet, noFaults_apply, ho, and_self, if_true, Option.map_eq_some'] at h
  obtain ⟨b, -, hb⟩ := h
  split_ifs at hb with hl
  · subst hb; simp [unmanageWith, unmanaged]
  · exact hb ▸ hl

/-- A failure-free pass of a present catalog owns the object of each of its identities. -/
theorem passGet_noFaults_ownedBy (σ : VersionSort) {catalog : ApplicationCatalog} {m : String}
    (hm : m ∈ declaredIdentities (some catalog)) (o : Option ApplicationDefinition) :
    ∃ a, passGet σ noFaults (some catalog) catalog.name m o = some a ∧ OwnedBy catalog.name a := by
  obtain ⟨charts, hc, hm'⟩ := mem_declaredIdentities_some hm
  rw [passGet_of_charts σ (noFaults_apply _) hc, orphanGet_of_mem _ _ hm']
  refine foldl_upsertWith_ownedBy σ (entriesFor_ne_nil hm') (fun d hd => ?_) o
  obtain ⟨chart, -, rfl⟩ := List.mem_map.mp (List.mem_filter.mp hd).1
  simp

/-- A pass of the catalog `name` that returns no error leaves the catalog owning exactly the
objects of its identities: for a present catalog the identities of its entries, for an absent one
none. -/
theorem reconcile_ownsExactly (σ : VersionSort) (faults : Faults) (found : Option ApplicationCatalog)
    (name : String) (s : Store) (hN : ∀ c, found = some c → c.name = name)
    (hok : (reconcile σ faults found name s).2 = none) :
    OwnsExactly name (declaredIdentities found) (reconcile σ faults found name s).1.store := by
  obtain ⟨hcalls, hnw⟩ := (reconcile_err σ faults found name s).1.mp hok
  have hg : faults (.getCatalog name) = false :=
    hcalls _ ((getCatalog_prefix_calls σ faults found name s).subset (List.mem_singleton_self _))
  rw [reconcile_eq_noFaults σ found name s hcalls]
  cases found with
  | none =>
    refine ⟨fun m hm => absurd hm (List.not_mem_nil m), fun m a ha hl => absurd hl ?_⟩
    rw [reconcile_get] at ha
    exact orphanGet_noFaults_unlabelled (show isOrphan none m from rfl) (by simpa [passGet] using ha)
  | some catalog =>
    obtain rfl := hN catalog rfl
    obtain ⟨charts, hc⟩ : ∃ charts, chartsToReconcile catalog = some charts := by
      cases hc : chartsToReconcile catalog
      · exact absurd ⟨hg, catalog, rfl, hc⟩ hnw
      · exact ⟨_, rfl⟩
    refine ⟨fun m hm => ?_, fun m a ha hl => ?_⟩
    · rw [reconcile_get]
      exact passGet_noFaults_ownedBy σ hm _
    · by_contra hm
      rw [declaredIdentities_of_charts hc] at hm
      rw [reconcile_get, passGet_of_charts σ (noFaults_apply _) hc, entriesFor_eq_nil hm,
        List.foldl_nil] at ha
      exact orphanGet_noFaults_unlabelled (by simpa [isOrphan] using hm) ha hl

theorem reconcile_ownsExactly_nginx :
    (∀ c, some nginxCatalog = some c → c.name = "a") ∧
      (reconcile insertionVersionSort noFaults (some nginxCatalog) "a" ⟨[], List.nodup_nil⟩).2 = none ∧
      OwnsExactly "a" (declaredIdentities (some nginxCatalog))
        (reconcile insertionVersionSort noFaults (some nginxCatalog) "a" ⟨[], List.nodup_nil⟩).1.store :=
  ⟨fun _ h => Option.some.inj h ▸ rfl, rfl, reconcile_ownsExactly insertionVersionSort noFaults
    (some nginxCatalog) "a" ⟨[], List.nodup_nil⟩ (fun _ h => Option.some.inj h ▸ rfl) rfl⟩

end AppCatalog.Synchronizer

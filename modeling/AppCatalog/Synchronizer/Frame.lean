import AppCatalog.Synchronizer.Pass

/-! What a reconcile pass never takes away from an ApplicationDefinition, and what it leaves
alone. Both are read off the pass's name-by-name description. -/
namespace AppCatalog.Synchronizer
open Kubernetes

/-- What the cluster owns on an object: a true `enforced` or `default`, a set datacenter selector,
a customized values block (other than `""` and `"{}"`) and every version key. -/
structure KeepsUserState (before after : ApplicationDefinition) : Prop where
  enforced : before.spec.enforced = true → after.spec.enforced = true
  default : before.spec.default = true → after.spec.default = true
  datacenters : before.spec.selector.datacenters.isSome →
    after.spec.selector.datacenters = before.spec.selector.datacenters
  defaultValuesBlock : before.spec.defaultValuesBlock ≠ "" → before.spec.defaultValuesBlock ≠ "{}" →
    after.spec.defaultValuesBlock = before.spec.defaultValuesBlock
  versions : ∀ k ∈ keys before.spec.versions, k ∈ keys after.spec.versions

theorem KeepsUserState.refl (a : ApplicationDefinition) : KeepsUserState a a :=
  ⟨id, id, fun _ => rfl, fun _ _ => rfl, fun _ => id⟩

theorem KeepsUserState.trans {a b c : ApplicationDefinition} (h₁ : KeepsUserState a b)
    (h₂ : KeepsUserState b c) : KeepsUserState a c where
  enforced h := h₂.enforced (h₁.enforced h)
  default h := h₂.default (h₁.default h)
  datacenters h := (h₂.datacenters (h₁.datacenters h ▸ h)).trans (h₁.datacenters h)
  defaultValuesBlock h h' := by
    rw [h₂.defaultValuesBlock (by rwa [h₁.defaultValuesBlock h h']) (by rwa [h₁.defaultValuesBlock h h']),
      h₁.defaultValuesBlock h h']
  versions k hk := h₂.versions k (h₁.versions k hk)

/-- The update path keeps what the cluster owns. -/
theorem promotePreservedFields_keeps (σ : VersionSort) (desired existing : ApplicationDefinition) :
    KeepsUserState existing (promotePreservedFields σ desired existing) where
  enforced h := by simp [promotePreservedFields, h]
  default h := by simp [promotePreservedFields, h]
  datacenters h := by simp [promotePreservedFields, h]
  defaultValuesBlock h h' := by simp [promotePreservedFields, h, h']
  versions k hk := (mem_keys_sortedMerge σ _ _ k).mpr (.inl hk)

theorem KeepsUserState.of_spec {a b : ApplicationDefinition} (h : b.spec = a.spec) :
    KeepsUserState a b := by
  constructor <;> simp [h]

theorem unmanageWith_keeps (faults : Faults) (a : ApplicationDefinition) :
    KeepsUserState a (unmanageWith faults a) := by
  unfold unmanageWith; split_ifs
  · exact .refl a
  · exact .of_spec rfl

/-- An object that exists keeps existing, and keeps what the cluster owns. -/
def KeepsObject (o o' : Option ApplicationDefinition) : Prop :=
  ∀ a, o = some a → ∃ a', o' = some a' ∧ KeepsUserState a a'

theorem KeepsObject.refl (o : Option ApplicationDefinition) : KeepsObject o o :=
  fun a h => ⟨a, h, .refl a⟩

theorem KeepsObject.trans {o₁ o₂ o₃ : Option ApplicationDefinition} (h₁ : KeepsObject o₁ o₂)
    (h₂ : KeepsObject o₂ o₃) : KeepsObject o₁ o₃ := fun a ha =>
  let ⟨b, hb, hab⟩ := h₁ a ha
  let ⟨c, hc, hbc⟩ := h₂ b hb
  ⟨c, hc, hab.trans hbc⟩

theorem upsertWith_keeps (σ : VersionSort) (faults : Faults) (desired : ApplicationDefinition)
    (o : Option ApplicationDefinition) : KeepsObject o (upsertWith σ faults desired o) := by
  rintro a rfl
  simp only [upsertWith]
  split_ifs
  · exact ⟨a, rfl, .refl a⟩
  · exact ⟨_, rfl, promotePreservedFields_keeps σ desired a⟩

theorem orphanGet_keeps (faults : Faults) (catalogName : String) (gen : Option (List String))
    (m : String) (o : Option ApplicationDefinition) :
    KeepsObject o (orphanGet faults catalogName gen m o) := by
  rintro a rfl
  unfold orphanGet
  split_ifs
  · refine ⟨_, Option.map_some' .., ?_⟩
    split_ifs
    · exact unmanageWith_keeps faults a
    · exact .refl a
  · exact ⟨a, rfl, .refl a⟩

theorem passGet_keeps (σ : VersionSort) (faults : Faults) (found : Option ApplicationCatalog)
    (name m : String) (o : Option ApplicationDefinition) :
    KeepsObject o (passGet σ faults found name m o) := by
  unfold passGet
  split_ifs
  · exact .refl o
  · split
    · exact orphanGet_keeps faults name none m o
    · split
      · exact .refl o
      · refine KeepsObject.trans ?_ (orphanGet_keeps faults _ _ m _)
        generalize entriesFor _ _ m = ds
        induction ds generalizing o with
        | nil => exact .refl o
        | cons d ds ih => exact (upsertWith_keeps σ faults d o).trans (ih _)

/-- A run of reconcile passes, each with its own read of the catalog and its own failures. -/
def runPasses (σ : VersionSort) : List (Faults × Option ApplicationCatalog × String) → Store → Store
  | [], s => s
  | (faults, found, name) :: passes, s => runPasses σ passes (reconcile σ faults found name s).1.store

/-- No pass, and no run of passes, takes from an existing ApplicationDefinition a true `enforced`
or `default`, a set datacenter selector, a customized values block or a version key. -/
theorem reconcile_keepsUserState (σ : VersionSort) :
    (∀ faults found name s m a, s.get m = some a →
      ∃ a', (reconcile σ faults found name s).1.store.get m = some a' ∧ KeepsUserState a a') ∧
    ∀ passes s m a, s.get m = some a →
      ∃ a', (runPasses σ passes s).get m = some a' ∧ KeepsUserState a a' := by
  have hpass : ∀ faults found name s m,
      KeepsObject (s.get m) ((reconcile σ faults found name s).1.store.get m) := fun faults found name s m => by
    rw [reconcile_get]; exact passGet_keeps σ faults found name m _
  refine ⟨fun faults found name s m => hpass faults found name s m, fun passes => ?_⟩
  induction passes with
  | nil => exact fun s m => KeepsObject.refl _
  | cons p passes ih =>
    obtain ⟨faults, found, name⟩ := p
    exact fun s m => (hpass faults found name s m).trans (ih _ m)

/-! ### What a pass leaves alone -/

/-- The identities of a catalog whose charts a pass reconciles are the names they generate. -/
theorem declaredIdentities_of_charts {catalog : ApplicationCatalog} {charts : List ChartConfig}
    (hc : chartsToReconcile catalog = some charts) :
    declaredIdentities (some catalog) = generatedApps catalog charts := by
  unfold chartsToReconcile at hc
  cases h : catalog.getHelmCharts <;> simp only [h] at hc
  · split_ifs at hc
    cases hc
    simp [declaredIdentities, h, generatedApps]
  · cases hc
    simp [declaredIdentities, h, generatedApps]

/-- A catalog that waits for its default charts declares no identity. -/
theorem declaredIdentities_of_waiting {catalog : ApplicationCatalog}
    (hc : chartsToReconcile catalog = none) : declaredIdentities (some catalog) = [] := by
  unfold chartsToReconcile at hc
  cases h : catalog.getHelmCharts with
  | some cs => simp [h] at hc
  | none => simp [declaredIdentities, h]

/-- An identity of a present catalog is a name that its charts generate. -/
theorem mem_declaredIdentities_some {catalog : ApplicationCatalog} {m : String}
    (hm : m ∈ declaredIdentities (some catalog)) :
    ∃ charts, chartsToReconcile catalog = some charts ∧ m ∈ generatedApps catalog charts := by
  cases hc : chartsToReconcile catalog with
  | none => exact absurd (declaredIdentities_of_waiting hc ▸ hm) (List.not_mem_nil m)
  | some charts => exact ⟨charts, rfl, declaredIdentities_of_charts hc ▸ hm⟩

theorem entriesFor_eq_nil {catalog : ApplicationCatalog} {charts : List ChartConfig} {m : String}
    (h : m ∉ generatedApps catalog charts) : entriesFor catalog charts m = [] := by
  simp only [generatedApps, List.mem_map, not_exists, not_and] at h
  simp only [entriesFor, List.filter_eq_nil_iff, List.mem_map]
  rintro _ ⟨chart, hc, rfl⟩
  simpa using h chart hc

theorem entriesFor_ne_nil {catalog : ApplicationCatalog} {charts : List ChartConfig} {m : String}
    (h : m ∈ generatedApps catalog charts) : entriesFor catalog charts m ≠ [] := by
  obtain ⟨chart, hchart, rfl⟩ := List.mem_map.mp h
  exact List.ne_nil_of_mem (List.mem_filter.mpr ⟨List.mem_map_of_mem _ hchart, by simp⟩)

theorem unmanageWith_cases (faults : Faults) (a : ApplicationDefinition) :
    unmanageWith faults a = a ∨ unmanageWith faults a = unmanaged a := by
  unfold unmanageWith; split_ifs
  · exact .inl rfl
  · exact .inr rfl

/-- The orphan cleanup either leaves an object or unmanages it. -/
theorem orphanGet_some (faults : Faults) (catalogName : String) (gen : Option (List String))
    (m : String) (a : ApplicationDefinition) :
    orphanGet faults catalogName gen m (some a) = some a ∨
      orphanGet faults catalogName gen m (some a) = some (unmanaged a) := by
  unfold orphanGet
  split_ifs
  · simp only [Option.map_some', Option.some.injEq]
    split_ifs
    · exact unmanageWith_cases faults a
    · exact .inl rfl
  · exact .inl rfl

/-- The orphan cleanup touches only objects labelled with its catalog. -/
theorem orphanGet_of_unlabelled (faults : Faults) (catalogName : String) (gen : Option (List String))
    (m : String) {o : Option ApplicationDefinition}
    (h : ∀ a, o = some a → a.labels labelApplicationCatalogName ≠ some catalogName) :
    orphanGet faults catalogName gen m o = o := by
  unfold orphanGet
  split_ifs
  · cases o with
    | none => rfl
    | some a => simp [h a rfl]
  · rfl

/-- A system application is never upserted. -/
theorem foldl_upsertWith_system (σ : VersionSort) (faults : Faults) {a : ApplicationDefinition}
    (h : isSystemApplication a) (ds : List ApplicationDefinition) :
    ds.foldl (fun o d => upsertWith σ faults d o) (some a) = some a := by
  induction ds with
  | nil => rfl
  | cons d ds ih => simpa [upsertWith, h] using ih

/-- Away from its identities, the pass is at most the orphan cleanup of its catalog. -/
theorem passGet_of_not_mem (σ : VersionSort) (faults : Faults) {found : Option ApplicationCatalog}
    {name m : String} (hN : ∀ c, found = some c → c.name = name) (hm : m ∉ declaredIdentities found)
    (o : Option ApplicationDefinition) :
    passGet σ faults found name m o = o ∨
      ∃ gen, passGet σ faults found name m o = orphanGet faults name gen m o := by
  unfold passGet
  split_ifs
  · exact .inl rfl
  · split
    · exact .inr ⟨none, rfl⟩
    · rename_i catalog
      split
      · exact .inl rfl
      · rename_i charts hc
        rw [declaredIdentities_of_charts hc] at hm
        rw [entriesFor_eq_nil hm, List.foldl_nil, hN catalog rfl]
        exact .inr ⟨_, rfl⟩

/-- A pass that does not declare `m` leaves alone an object that carries another catalog's name
label. -/
theorem passGet_of_labelled (σ : VersionSort) (faults : Faults) {found : Option ApplicationCatalog}
    {name m A : String} (hN : ∀ c, found = some c → c.name = name) (hm : m ∉ declaredIdentities found)
    {a : ApplicationDefinition} (hl : a.labels labelApplicationCatalogName = some A) (hA : name ≠ A) :
    passGet σ faults found name m (some a) = some a := by
  rcases passGet_of_not_mem σ faults hN hm (some a) with h | ⟨gen, h⟩
  · exact h
  · rw [h, orphanGet_of_unlabelled faults name gen m]
    rintro b hb
    rw [← Option.some.inj hb, hl]
    exact fun h' => hA (Option.some.inj h').symm

/-- A pass at most unmanages an object another system manages. -/
theorem passGet_system (σ : VersionSort) (faults : Faults) (found : Option ApplicationCatalog)
    (name m : String) {a : ApplicationDefinition} (hsys : isSystemApplication a) :
    passGet σ faults found name m (some a) = some a ∨
      passGet σ faults found name m (some a) = some (unmanaged a) := by
  unfold passGet
  split_ifs
  · exact .inl rfl
  · split
    · exact orphanGet_some ..
    · split
      · exact .inl rfl
      · rw [foldl_upsertWith_system σ faults hsys]
        exact orphanGet_some ..

/-- `b` is `a` with both ownership labels removed and nothing else changed. -/
structure Unmanaged (a b : ApplicationDefinition) : Prop where
  name : b.name = a.name
  managedBy : b.labels labelManagedByApplicationCatalog = none
  catalogName : b.labels labelApplicationCatalogName = none
  labels : ∀ k, k ≠ labelManagedByApplicationCatalog → k ≠ labelApplicationCatalogName →
    b.labels k = a.labels k
  annotations : b.annotations = a.annotations
  spec : b.spec = a.spec

theorem unmanaged_unmanages (a : ApplicationDefinition) : Unmanaged a (unmanaged a) :=
  ⟨rfl, by simp [unmanaged], by simp [unmanaged],
    fun k h₁ h₂ => by simp [unmanaged, withoutOwnership, h₁, h₂], rfl, rfl⟩

/-- The frame of a pass of the catalog `name` declaring the identities `ids`, from `s` to `s'`. -/
structure PassFrame (name : String) (ids : List String) (s s' : Store) : Prop where
  unchanged : ∀ m, m ∉ ids →
    (∀ a, s.get m = some a → a.labels labelApplicationCatalogName ≠ some name) → s'.get m = s.get m
  unmanagedOnly : ∀ m a, s.get m = some a → m ∉ ids →
    s'.get m = some a ∨ ∃ b, s'.get m = some b ∧ Unmanaged a b
  system : ∀ m a, s.get m = some a → (a.labels "apps.kubermatic.k8c.io/managed-by").isSome →
    s'.get m = some a ∨ ∃ b, s'.get m = some b ∧ Unmanaged a b
  noDeletion : ∀ m, (s.get m).isSome → (s'.get m).isSome

/-- Objects outside the pass's identities and not labelled with its catalog are unchanged; the
others outside its identities, and every system application, at most lose the two ownership
labels; and no object is deleted. -/
theorem reconcile_frame (σ : VersionSort) (faults : Faults) (found : Option ApplicationCatalog)
    (name : String) (s : Store) (hN : ∀ c, found = some c → c.name = name) :
    PassFrame name (declaredIdentities found) s (reconcile σ faults found name s).1.store where
  unchanged m hm hl := by
    rw [reconcile_get]
    rcases passGet_of_not_mem σ faults hN hm (s.get m) with h | ⟨gen, h⟩
    · exact h
    · exact h.trans (orphanGet_of_unlabelled faults name gen m hl)
  unmanagedOnly m a ha hm := by
    rw [reconcile_get, ha]
    rcases passGet_of_not_mem σ faults hN hm (some a) with h | ⟨gen, h⟩
    · exact .inl h
    · rcases orphanGet_some faults name gen m a with h' | h'
      · exact .inl (h.trans h')
      · exact .inr ⟨_, h.trans h', unmanaged_unmanages a⟩
  system m a ha hsys := by
    rw [reconcile_get, ha]
    rcases passGet_system σ faults found name m hsys with h | h
    · exact .inl h
    · exact .inr ⟨_, h, unmanaged_unmanages a⟩
  noDeletion m hm := by
    obtain ⟨a, ha⟩ := Option.isSome_iff_exists.mp hm
    obtain ⟨a', h, -⟩ := passGet_keeps σ faults found name m (s.get m) a ha
    simp [reconcile_get, h]

/-- A catalog `"a"` with no Helm section, which the pass reconciles as an empty entry list. -/
def emptyCatalog : ApplicationCatalog := ⟨"a", fun _ => none, ⟨none⟩⟩

/-- The chart `nginx`, with no metadata and no versions. -/
def nginxChart : ChartConfig := ⟨"nginx", none, none, "", []⟩

/-- A catalog `"a"` that lists the one chart `nginx`. -/
def nginxCatalog : ApplicationCatalog := ⟨"a", fun _ => none, ⟨some ⟨none, some [nginxChart], false⟩⟩⟩

/-- A store with an orphan of `"a"`, an object of `"a"` that another system manages, and an
object of the catalog `"b"`. -/
def frameStore : Store :=
  ⟨[convertChartToApplicationDefinition emptyCatalog ⟨"old", none, none, "", []⟩,
    { convertChartToApplicationDefinition emptyCatalog ⟨"sys", none, none, "", []⟩ with
      labels := (ownershipLabels "a").insert "apps.kubermatic.k8c.io/managed-by" "kubermatic" },
    convertChartToApplicationDefinition { emptyCatalog with name := "b" } ⟨"other", none, none, "", []⟩],
    by decide⟩

theorem reconcile_frame_frameStore :
    (∀ c, some nginxCatalog = some c → c.name = "a") ∧
      PassFrame "a" (declaredIdentities (some nginxCatalog)) frameStore
        (reconcile insertionVersionSort noFaults (some nginxCatalog) "a" frameStore).1.store :=
  ⟨fun _ h => Option.some.inj h ▸ rfl,
    reconcile_frame insertionVersionSort noFaults (some nginxCatalog) "a" frameStore
      fun _ h => Option.some.inj h ▸ rfl⟩

/-- A pass is local: what it leaves under a name depends on the catalog read and on the object the
store held under that name, never on the other objects. -/
theorem reconcile_local (σ : VersionSort) (faults : Faults) (found : Option ApplicationCatalog)
    (name : String) {s t : Store} {m : String} (h : s.get m = t.get m) :
    (reconcile σ faults found name s).1.store.get m = (reconcile σ faults found name t).1.store.get m := by
  rw [reconcile_get, reconcile_get, h]

/-- A store holding only the object `"other"`, produced by the catalog `"a"`. -/
def otherStore : Store :=
  ⟨[convertChartToApplicationDefinition emptyCatalog ⟨"other", none, none, "", []⟩], List.nodup_singleton _⟩

theorem reconcile_local_otherStore :
    (⟨[], List.nodup_nil⟩ : Store).get "nginx" = otherStore.get "nginx" ∧
      (reconcile insertionVersionSort noFaults (some emptyCatalog) "a" ⟨[], List.nodup_nil⟩).1.store.get
        "nginx" = (reconcile insertionVersionSort noFaults (some emptyCatalog) "a" otherStore).1.store.get
        "nginx" :=
  have h : (⟨[], List.nodup_nil⟩ : Store).get "nginx" = otherStore.get "nginx" := rfl
  ⟨h, reconcile_local insertionVersionSort noFaults (some emptyCatalog) "a" h⟩

/-! ### What every step of a pass respects -/

theorem entriesFor_converted (catalog : ApplicationCatalog) (charts : List ChartConfig) (m : String) :
    ∀ d ∈ entriesFor catalog charts m, ∃ chart, d = convertChartToApplicationDefinition catalog chart :=
  fun _ hd => (List.mem_map.mp (List.mem_filter.mp hd).1).imp fun _ h => h.2.symm

/-- The two ways a pass changes an object it finds: the update from an entry of a catalog, and the
loss of both ownership labels. A reflexive, transitive relation that both respect relates every
object to what any pass leaves of it. -/
structure Preserved (R : ApplicationDefinition → ApplicationDefinition → Prop) : Prop where
  refl : ∀ a, R a a
  trans : ∀ {a b c}, R a b → R b c → R a c
  update : ∀ σ catalog chart a,
    R a (promotePreservedFields σ (convertChartToApplicationDefinition catalog chart) a)
  unmanage : ∀ a, R a (unmanaged a)

section
variable {R : ApplicationDefinition → ApplicationDefinition → Prop} (hR : Preserved R)
include hR

theorem Preserved.orphanGet_rel (faults : Faults) (catalogName : String) (gen : Option (List String))
    (m : String) (a : ApplicationDefinition) :
    ∃ a', orphanGet faults catalogName gen m (some a) = some a' ∧ R a a' := by
  rcases orphanGet_some faults catalogName gen m a with h | h
  · exact ⟨a, h, hR.refl a⟩
  · exact ⟨_, h, hR.unmanage a⟩

theorem Preserved.upsertWith_rel (σ : VersionSort) (faults : Faults) (catalog : ApplicationCatalog)
    (chart : ChartConfig) (a : ApplicationDefinition) :
    ∃ a', upsertWith σ faults (convertChartToApplicationDefinition catalog chart) (some a) = some a' ∧
      R a a' := by
  simp only [upsertWith]
  split_ifs
  · exact ⟨a, rfl, hR.refl a⟩
  · exact ⟨_, rfl, hR.update σ catalog chart a⟩

theorem Preserved.foldl_rel (σ : VersionSort) (faults : Faults) (catalog : ApplicationCatalog)
    {ds : List ApplicationDefinition} (hds : ∀ d ∈ ds, ∃ chart, d = convertChartToApplicationDefinition catalog chart)
    (a : ApplicationDefinition) :
    ∃ a', ds.foldl (fun o d => upsertWith σ faults d o) (some a) = some a' ∧ R a a' := by
  induction ds generalizing a with
  | nil => exact ⟨a, rfl, hR.refl a⟩
  | cons d ds ih =>
    obtain ⟨chart, rfl⟩ := hds d (List.mem_cons_self _ _)
    obtain ⟨b, hb, hab⟩ := hR.upsertWith_rel σ faults catalog chart a
    obtain ⟨c, hc, hbc⟩ := ih (fun d' h' => hds d' (List.mem_cons_of_mem _ h')) b
    exact ⟨c, by rw [List.foldl_cons, hb, hc], hR.trans hab hbc⟩

/-- Every pass, under any failures, relates each object it finds to what it leaves. -/
theorem Preserved.passGet_rel (σ : VersionSort) (faults : Faults) (found : Option ApplicationCatalog)
    (name m : String) (a : ApplicationDefinition) :
    ∃ a', passGet σ faults found name m (some a) = some a' ∧ R a a' := by
  unfold passGet
  split_ifs
  · exact ⟨a, rfl, hR.refl a⟩
  · split
    · exact hR.orphanGet_rel faults name none m a
    · split
      · exact ⟨a, rfl, hR.refl a⟩
      · rename_i catalog _ charts _
        obtain ⟨b, hb, hab⟩ := hR.foldl_rel σ faults catalog (entriesFor_converted catalog charts m) a
        obtain ⟨c, hc, hbc⟩ := hR.orphanGet_rel faults _ _ m b
        exact ⟨c, hb ▸ hc, hR.trans hab hbc⟩

/-- What upserts create from nothing is related to one of the entries. -/
theorem Preserved.foldl_none_rel (σ : VersionSort) (faults : Faults) (catalog : ApplicationCatalog)
    {ds : List ApplicationDefinition} (hds : ∀ d ∈ ds, ∃ chart, d = convertChartToApplicationDefinition catalog chart)
    {b : ApplicationDefinition} (h : ds.foldl (fun o d => upsertWith σ faults d o) none = some b) :
    ∃ chart, R (convertChartToApplicationDefinition catalog chart) b := by
  induction ds with
  | nil => cases h
  | cons d ds ih =>
    have hds' : ∀ d' ∈ ds, ∃ chart, d' = convertChartToApplicationDefinition catalog chart :=
      fun d' h' => hds d' (List.mem_cons_of_mem _ h')
    rw [List.foldl_cons] at h
    by_cases hf : (faults (.get d.name) || faults (.create d.name)) = true
    · rw [show upsertWith σ faults d none = none by simp only [upsertWith, hf, if_true]] at h
      exact ih hds' h
    · rw [show upsertWith σ faults d none = some d by simp [upsertWith, hf]] at h
      obtain ⟨chart, rfl⟩ := hds d (List.mem_cons_self _ _)
      obtain ⟨b', hb', hab'⟩ := hR.foldl_rel σ faults catalog hds' _
      exact ⟨chart, Option.some.inj (hb'.symm.trans h) ▸ hab'⟩

/-- Every pass, under any failures, creates only objects related to an entry of a catalog. -/
theorem Preserved.passGet_none_rel (σ : VersionSort) (faults : Faults) (found : Option ApplicationCatalog)
    (name m : String) {b : ApplicationDefinition} (h : passGet σ faults found name m none = some b) :
    ∃ catalog chart, R (convertChartToApplicationDefinition catalog chart) b := by
  have horphan : ∀ n gen, orphanGet faults n gen m none = none := fun _ _ => by simp [orphanGet]
  unfold passGet at h
  split_ifs at h
  split at h
  · rw [horphan] at h
    cases h
  · split at h
    · cases h
    · rename_i catalog _ charts _
      cases ho : (entriesFor catalog charts m).foldl (fun o d => upsertWith σ faults d o) none with
      | none => rw [ho, horphan] at h; cases h
      | some c =>
        obtain ⟨chart, hc⟩ := hR.foldl_none_rel σ faults catalog (entriesFor_converted catalog charts m) ho
        obtain ⟨b', hb', hcb⟩ := hR.orphanGet_rel faults _ _ m c
        rw [ho, hb'] at h
        exact ⟨catalog, chart, hR.trans hc (Option.some.inj h ▸ hcb)⟩

end

/-- What no pass writes on an object: its annotations, and every label but the two ownership
labels. -/
structure KeepsMetadata (before after : ApplicationDefinition) : Prop where
  annotations : after.annotations = before.annotations
  labels : ∀ k, k ≠ labelManagedByApplicationCatalog → k ≠ labelApplicationCatalogName →
    after.labels k = before.labels k

theorem keepsMetadata_preserved : Preserved KeepsMetadata where
  refl _ := ⟨rfl, fun _ _ _ => rfl⟩
  trans h₁ h₂ := ⟨h₂.annotations.trans h₁.annotations,
    fun k hk hk' => (h₂.labels k hk hk').trans (h₁.labels k hk hk')⟩
  update _ _ _ _ := ⟨Labels.ext fun _ => by simp [promotePreservedFields, convertChartToApplicationDefinition],
    fun k hk hk' => by simp [promotePreservedFields, ownershipLabels, hk, hk']⟩
  unmanage _ := ⟨rfl, fun k hk hk' => by simp [unmanaged, withoutOwnership, hk, hk']⟩

/-- The label that marks another system's objects is not an ownership label. -/
theorem KeepsMetadata.isSystemApplication {a b : ApplicationDefinition} (h : KeepsMetadata a b) :
    isSystemApplication b = isSystemApplication a := by
  simp only [AppCatalog.isSystemApplication,
    h.labels "apps.kubermatic.k8c.io/managed-by" (by decide) (by decide)]

end AppCatalog.Synchronizer

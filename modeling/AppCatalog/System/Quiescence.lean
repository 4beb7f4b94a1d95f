import AppCatalog.System.Takeover
import AppCatalog.Synchronizer.Recovery

/-! Reconcile passes of any catalogs, in any order and under any failures, settle. -/
namespace AppCatalog.System
open Kubernetes Synchronizer

/-- A fold that never leaves its phase, and that moves up one phase at each `x`, goes from phase
`j` to phase `j + r` over a list holding `r` copies of `x` in order. -/
theorem foldl_phase {α β : Type} {f : α → β → α} {P : ℕ → α → Prop} {x : β}
    (hstay : ∀ j a b, P j a → P j (f a b)) (hup : ∀ j a, P j a → P (j + 1) (f a x))
    {l L : List β} (hl : l.Sublist L) (hx : ∀ y ∈ l, y = x) :
    ∀ j a, P j a → P (j + l.length) (L.foldl f a) := by
  induction hl with
  | slnil => exact fun j a h => h
  | cons y _ ih => exact fun j a h => ih hx j _ (hstay j a y h)
  | cons₂ y _ ih =>
    intro j a h
    obtain rfl := hx y (List.mem_cons_self _ _)
    have := ih (fun y' h' => hx y' (List.mem_cons_of_mem _ h')) (j + 1) _ (hup j a h)
    rwa [List.length_cons, ← Nat.add_assoc, Nat.add_right_comm]

/-- The events of a run of reconcile passes only. -/
def passEvents (passes : List (String × Faults)) : List Event :=
  passes.map fun p => .reconcile p.1 p.2

/-- A run of passes keeps the catalogs, and refines its name-by-name description. -/
theorem run_passEvents (k : Components) (cl : Cluster) (passes : List (String × Faults)) (m : String) :
    (run k cl (passEvents passes)).catalogs = cl.catalogs ∧
      (run k cl (passEvents passes)).store.get m =
        passes.foldl (fun o p => passGet k.σ p.2 (cl.catalogs p.1) p.1 m o) (cl.store.get m) := by
  induction passes generalizing cl with
  | nil => exact ⟨rfl, rfl⟩
  | cons p passes ih =>
    obtain ⟨h₁, h₂⟩ := ih (step k cl (.reconcile p.1 p.2))
    exact ⟨h₁, by rw [passEvents, List.map_cons, run_cons, ← passEvents, h₂]; simp [step, reconcile_get]⟩

/-! ### Names the catalog does not declare -/

theorem foldl_upsertWith_none_labelledBy (σ : VersionSort) (faults : Faults) {A : String}
    {ds : List ApplicationDefinition} (hd : ∀ d ∈ ds, LabelledBy A d) {b : ApplicationDefinition}
    (h : ds.foldl (fun o d => upsertWith σ faults d o) none = some b) : LabelledBy A b := by
  induction ds with
  | nil => cases h
  | cons d ds ih =>
    have hd' : ∀ d' ∈ ds, LabelledBy A d' := fun d' h' => hd d' (List.mem_cons_of_mem _ h')
    rw [List.foldl_cons] at h
    by_cases hf : (faults (.get d.name) || faults (.create d.name)) = true
    · rw [show upsertWith σ faults d none = none by simp only [upsertWith, hf, if_true]] at h
      exact ih hd' h
    · rw [show upsertWith σ faults d none = some d by simp [upsertWith, hf]] at h
      obtain ⟨b', h', hb'⟩ := foldl_upsertWith_labelledBy σ faults hd' (hd d (List.mem_cons_self _ _))
      rwa [Option.some.inj (h.symm.trans h')]

/-- What a pass creates carries the name label of the pass's catalog. -/
theorem passGet_none_catalogLabel (σ : VersionSort) (faults : Faults) {found : Option ApplicationCatalog}
    {name m : String} (hN : ∀ c, found = some c → c.name = name) {b : ApplicationDefinition}
    (h : passGet σ faults found name m none = some b) :
    b.labels labelApplicationCatalogName = some name := by
  by_cases hm : m ∈ declaredIdentities found
  · obtain ⟨catalog, rfl⟩ : ∃ c, found = some c := by
      cases found
      · exact absurd hm (List.not_mem_nil m)
      · exact ⟨_, rfl⟩
    obtain rfl := hN catalog rfl
    obtain ⟨charts, hc, hm'⟩ := mem_declaredIdentities_some hm
    cases hg : faults (.getCatalog catalog.name)
    · rw [passGet_of_charts σ hg hc, orphanGet_of_mem _ _ hm'] at h
      refine (foldl_upsertWith_none_labelledBy σ faults (fun d hd => ?_) h).2
      obtain ⟨chart, -, rfl⟩ := List.mem_map.mp (List.mem_filter.mp hd).1
      simp [LabelledBy]
    · simp [passGet, hg] at h
  · rcases passGet_of_not_mem σ faults hN hm none with h' | ⟨gen, h'⟩
    · cases h.symm.trans h'
    · rw [orphanGet_of_unlabelled faults name gen m fun _ h => Option.noConfusion h] at h'
      cases h.symm.trans h'

/-- The object carries no name label `A`. -/
def NotLabelled (A : String) (o : Option ApplicationDefinition) : Prop :=
  ∀ a, o = some a → a.labels labelApplicationCatalogName ≠ some A

/-- A pass of any catalog but `A` never writes `A`'s name label. -/
theorem passGet_notLabelled (σ : VersionSort) (faults : Faults) {found : Option ApplicationCatalog}
    {name m A : String} (hN : ∀ c, found = some c → c.name = name) (hA : name ≠ A)
    {o : Option ApplicationDefinition} (ho : NotLabelled A o) :
    NotLabelled A (passGet σ faults found name m o) := by
  intro b hb
  cases o with
  | none => rw [passGet_none_catalogLabel σ faults hN hb]; exact fun h => hA (Option.some.inj h)
  | some a =>
    rcases passGet_catalogLabel σ faults hN hb with h | h | ⟨h, -⟩ <;> rw [h]
    · exact ho a rfl
    · exact Option.noConfusion
    · exact fun h => hA (Option.some.inj h)

/-- The phase of the object of a name that the catalog `A` does not declare: after a failure-free
pass of `A`, it never again carries `A`'s name label. -/
def OrphanPhase (A : String) : ℕ → Option ApplicationDefinition → Prop
  | 0, _ => True
  | _ + 1, o => NotLabelled A o

/-- The object is one another system manages. -/
def SystemObject (o : Option ApplicationDefinition) : Prop :=
  ∃ a, o = some a ∧ isSystemApplication a = true

/-- Before the first failure-free pass of the catalog: another system's object, or none, or one with
distinct version keys. -/
def Adoptable (o : Option ApplicationDefinition) : Prop :=
  SystemObject o ∨ ∀ a, o = some a → (keys a.spec.versions).Nodup ∧ isSystemApplication a = false

/-- After it: another system's object, or one with distinct version keys and `A`'s name label. -/
def AdoptedBy (A : String) (o : Option ApplicationDefinition) : Prop :=
  SystemObject o ∨ ∃ a, o = some a ∧ (keys a.spec.versions).Nodup ∧ isSystemApplication a = false ∧
    a.labels labelApplicationCatalogName = some A

/-- The phase of the object of one of the identities of the catalog `A`, whose failure-free pass
does `F` to it: adoptable, adopted, settled. -/
def IdentityPhase (A : String) (F : Option ApplicationDefinition → Option ApplicationDefinition) :
    ℕ → Option ApplicationDefinition → Prop
  | 0, o => Adoptable o
  | 1, o => AdoptedBy A o
  | _ + 2, o => AdoptedBy A o ∧ F o = o

theorem AdoptedBy.adoptable {A : String} {o : Option ApplicationDefinition} (h : AdoptedBy A o) :
    Adoptable o := by
  rcases h with h | ⟨a, rfl, hn, hs, -⟩
  · exact .inl h
  · exact .inr fun _ h => Option.some.inj h ▸ ⟨hn, hs⟩

/-! ### One catalog's passes, name by name -/

section
variable (k : Components) {cl : Cluster} {catalog : ApplicationCatalog} {charts : List ChartConfig}
  (hcat : cl.catalogs catalog.name = some catalog) (hc : chartsToReconcile catalog = some charts)
  {m : String}

include hcat hc in
theorem orphanPhase_stay (hm : m ∉ generatedApps catalog charts) (j : ℕ)
    (o : Option ApplicationDefinition) (p : String × Faults) (h : OrphanPhase catalog.name j o) :
    OrphanPhase catalog.name j (passGet k.σ p.2 (cl.catalogs p.1) p.1 m o) := by
  obtain ⟨n, faults⟩ := p
  cases j with
  | zero => trivial
  | succ j =>
    by_cases hn : n = catalog.name
    · subst hn
      have hm' : m ∉ declaredIdentities (some catalog) := by rwa [declaredIdentities_of_charts hc]
      rw [hcat]
      intro b hb
      rcases passGet_undeclared k.σ faults (fun _ hc => by cases hc; rfl) hm' o with h' | h' <;>
        rw [h'] at hb
      · exact h b hb
      · obtain ⟨a, -, rfl⟩ := Option.map_eq_some'.mp hb
        simp [unmanaged, withoutOwnership]
    · exact passGet_notLabelled k.σ faults (cl.named n) hn h

include hcat hc in
theorem orphanPhase_up (hm : m ∉ generatedApps catalog charts) (j : ℕ)
    (o : Option ApplicationDefinition) (_ : OrphanPhase catalog.name j o) :
    OrphanPhase catalog.name (j + 1) (passGet k.σ noFaults (cl.catalogs catalog.name) catalog.name m o) := by
  have ho : isOrphan (some (generatedApps catalog charts)) m := by simpa [isOrphan] using hm
  rw [hcat, passGet_of_charts k.σ (noFaults_apply _) hc, entriesFor_eq_nil hm, List.foldl_nil]
  exact fun _ h => orphanGet_noFaults_unlabelled ho h

variable (hnd : (generatedApps catalog charts).Nodup)
  (hD : ∀ chart ∈ charts, (chart.chartVersions.map (·.appVersion)).Nodup)
  {chart : ChartConfig} (hchart : chart ∈ charts)

/-- The failure-free pass of the catalog, on the object of the name `m`. -/
abbrev identityPass (k : Components) (catalog : ApplicationCatalog) (m : String) :
    Option ApplicationDefinition → Option ApplicationDefinition :=
  passGet k.σ noFaults (some catalog) catalog.name m

include hc hnd hchart in
theorem identityPass_system {o : Option ApplicationDefinition} (h : SystemObject o) :
    identityPass k catalog chart.getAppName o = o := by
  obtain ⟨a, rfl, hs⟩ := h
  rw [identityPass, passGet_of_mem k.σ hc hnd hchart (noFaults_apply _)]
  simp [upsertWith, hs]

include hc hnd hD hchart in
theorem identityPass_adopts {o : Option ApplicationDefinition} (h : Adoptable o) :
    AdoptedBy catalog.name (identityPass k catalog chart.getAppName o) := by
  rcases h with h | h
  · exact .inl (by rw [identityPass_system k hc hnd hchart h]; exact h)
  · have hD' : (keys (convertChartToApplicationDefinition catalog chart).spec.versions).Nodup := by
      rw [keys_convertVersions]; exact hD chart hchart
    refine .inr ?_
    rw [identityPass, passGet_of_mem k.σ hc hnd hchart (noFaults_apply _)]
    cases o with
    | none => exact ⟨_, by simp [upsertWith], hD', convert_not_isSystemApplication _ _, by simp⟩
    | some a =>
      obtain ⟨hn, hs⟩ := h a rfl
      refine ⟨promotePreservedFields k.σ (convertChartToApplicationDefinition catalog chart) a,
        by simp [upsertWith, hs], nodup_keys_sortedMerge k.σ hn hD', ?_, by simp [promotePreservedFields]⟩
      rw [isSystemApplication_promotePreservedFields k.σ (by simp [ownershipLabels,
        labelManagedByApplicationCatalog, labelApplicationCatalogName]), hs]

include hc hnd hD hchart in
theorem identityPass_settles {o : Option ApplicationDefinition} (h : AdoptedBy catalog.name o) :
    identityPass k catalog chart.getAppName (identityPass k catalog chart.getAppName o) =
      identityPass k catalog chart.getAppName o := by
  rcases h with h | ⟨a, rfl, hn, -, -⟩
  · rw [identityPass_system k hc hnd hchart h, identityPass_system k hc hnd hchart h]
  · have hm : chart.getAppName ∈ generatedApps catalog charts := by simpa using ⟨chart, hchart, rfl⟩
    exact passGet_noFaults_idem k.σ hc hnd hD hm hn

include hcat hc hnd hD hchart in
theorem identityPhase_stay
    (hexcl : ∀ n c, n ≠ catalog.name → cl.catalogs n = some c → chart.getAppName ∉ declaredIdentities (some c))
    (j : ℕ) (o : Option ApplicationDefinition) (p : String × Faults)
    (h : IdentityPhase catalog.name (identityPass k catalog chart.getAppName) j o) :
    IdentityPhase catalog.name (identityPass k catalog chart.getAppName) j
      (passGet k.σ p.2 (cl.catalogs p.1) p.1 chart.getAppName o) := by
  obtain ⟨n, faults⟩ := p
  by_cases hn : n = catalog.name
  · subst hn
    rw [hcat]
    have hnd' : (declaredIdentities (some catalog)).Nodup := by
      rwa [declaredIdentities_of_charts hc]
    rcases passGet_allOrNothing k.σ faults hnd' catalog.name chart.getAppName o with h' | h' <;>
      rw [h']
    · exact h
    · match j, h with
      | 0, h => exact (identityPass_adopts k hc hnd hD hchart h).adoptable
      | 1, h => exact identityPass_adopts k hc hnd hD hchart h.adoptable
      | _ + 2, h =>
        rw [show passGet k.σ noFaults (some catalog) catalog.name chart.getAppName o = o from h.2]
        exact h
  · have hm' : chart.getAppName ∉ declaredIdentities (cl.catalogs n) := by
      cases hcn : cl.catalogs n with
      | none => exact List.not_mem_nil _
      | some c => exact hexcl n c hn hcn
    have hsys : ∀ {o}, SystemObject o → SystemObject (passGet k.σ faults (cl.catalogs n) n chart.getAppName o) := by
      rintro _ ⟨a, rfl, hs⟩
      rcases passGet_system k.σ faults (cl.catalogs n) n chart.getAppName hs with h' | h' <;> rw [h']
      · exact ⟨a, rfl, hs⟩
      · exact ⟨_, rfl, by simpa using hs⟩
    have hlab : ∀ {o}, AdoptedBy catalog.name o → AdoptedBy catalog.name
        (passGet k.σ faults (cl.catalogs n) n chart.getAppName o) ∧
        (SystemObject o ∨ passGet k.σ faults (cl.catalogs n) n chart.getAppName o = o) := by
      rintro _ (hs | ⟨a, rfl, hn', hs, hl⟩)
      · exact ⟨.inl (hsys hs), .inl hs⟩
      · rw [passGet_of_labelled k.σ faults (cl.named n) hm' hl hn]
        exact ⟨.inr ⟨a, rfl, hn', hs, hl⟩, .inr rfl⟩
    match j, h with
    | 0, h =>
      rcases h with hs | h
      · exact .inl (hsys hs)
      · refine .inr fun b hb => ?_
        rcases passGet_undeclared k.σ faults (cl.named n) hm' o with h' | h' <;> rw [h'] at hb
        · exact h b hb
        · obtain ⟨a, ha, rfl⟩ := Option.map_eq_some'.mp hb
          exact ⟨(h a ha).1, by rw [isSystemApplication_unmanaged]; exact (h a ha).2⟩
    | 1, h => exact (hlab h).1
    | _ + 2, h =>
      refine ⟨(hlab h.1).1, ?_⟩
      rcases (hlab h.1).2 with hs | hs
      · exact identityPass_system k hc hnd hchart (hsys hs)
      · rw [hs]; exact h.2
include hcat hc hnd hD hchart in
theorem identityPhase_up (j : ℕ) (o : Option ApplicationDefinition)
    (h : IdentityPhase catalog.name (identityPass k catalog chart.getAppName) j o) :
    IdentityPhase catalog.name (identityPass k catalog chart.getAppName) (j + 1)
      (passGet k.σ noFaults (cl.catalogs catalog.name) catalog.name chart.getAppName o) := by
  rw [hcat]
  match j, h with
  | 0, h => exact identityPass_adopts k hc hnd hD hchart h
  | 1, h => exact ⟨identityPass_adopts k hc hnd hD hchart h.adoptable, identityPass_settles k hc hnd hD hchart h⟩
  | _ + 2, h =>
    rw [show passGet k.σ noFaults (some catalog) catalog.name chart.getAppName o = o from h.2]
    exact h

end

/-- Quiescence. In a run of reconcile passes of any catalogs, in any order and under any failures,
in which the catalog has two failure-free passes, a further failure-free pass of it changes nothing.
This holds when no other present catalog declares one of its identities, its identities are
distinct, each of its entries lists distinct versions, and its objects have distinct version
keys. -/
theorem run_quiescent (k : Components) (cl : Cluster) (passes : List (String × Faults))
    {catalog : ApplicationCatalog} {charts : List ChartConfig}
    (hcat : cl.catalogs catalog.name = some catalog) (hc : chartsToReconcile catalog = some charts)
    (hnd : (generatedApps catalog charts).Nodup)
    (hD : ∀ chart ∈ charts, (chart.chartVersions.map (·.appVersion)).Nodup)
    (hE : ∀ m ∈ generatedApps catalog charts, ∀ a, cl.store.get m = some a → (keys a.spec.versions).Nodup)
    (hexcl : ∀ n c, n ≠ catalog.name → cl.catalogs n = some c →
      ∀ m ∈ declaredIdentities (some c), m ∉ generatedApps catalog charts)
    (htwice : [(catalog.name, noFaults), (catalog.name, noFaults)].Sublist passes) (m : String) :
    (step k (run k cl (passEvents passes)) (.reconcile catalog.name noFaults)).store.get m =
      (run k cl (passEvents passes)).store.get m := by
  obtain ⟨hcats, hget⟩ := run_passEvents k cl passes m
  have hx : ∀ y ∈ [(catalog.name, noFaults), (catalog.name, noFaults)], y = (catalog.name, noFaults) := by
    simp
  simp only [step, reconcile_get, hcats, hcat, hget]
  by_cases hm : m ∈ generatedApps catalog charts
  · obtain ⟨chart, hchart, rfl⟩ : ∃ chart ∈ charts, chart.getAppName = m := by simpa using hm
    have h₀ : Adoptable (cl.store.get chart.getAppName) := by
      cases ha : cl.store.get chart.getAppName with
      | none => exact .inr fun _ h => Option.noConfusion h
      | some a =>
        cases hs : isSystemApplication a
        · exact .inr fun b hb => Option.some.inj hb ▸ ⟨hE _ hm a ha, hs⟩
        · exact .inl ⟨a, rfl, hs⟩
    exact (foldl_phase (identityPhase_stay k hcat hc hnd hD hchart
      fun n c hn hcn hmc => hexcl n c hn hcn _ hmc hm) (identityPhase_up k hcat hc hnd hD hchart)
      htwice hx 0 _ h₀).2
  · rw [passGet_of_charts k.σ (noFaults_apply _) hc, entriesFor_eq_nil hm, List.foldl_nil]
    exact orphanGet_of_unlabelled noFaults _ _ m
      (foldl_phase (orphanPhase_stay k hcat hc hm) (orphanPhase_up k hcat hc hm) htwice hx 0 _ trivial)

/-- The catalog `"a"` is reconciled with its Create failing, then cleanly, then the absent `"b"`
is, then `"a"` again. -/
def settlingPasses : List (String × Faults) :=
  [(nginxCatalog.name, nginxCreateFails), (nginxCatalog.name, noFaults), ("b", noFaults),
    (nginxCatalog.name, noFaults)]

theorem run_quiescent_created :
    createdCluster.catalogs nginxCatalog.name = some nginxCatalog ∧
      chartsToReconcile nginxCatalog = some [nginxChart] ∧ (generatedApps nginxCatalog [nginxChart]).Nodup ∧
      (∀ chart ∈ [nginxChart], (chart.chartVersions.map (·.appVersion)).Nodup) ∧
      (∀ m ∈ generatedApps nginxCatalog [nginxChart], ∀ a, createdCluster.store.get m = some a →
        (keys a.spec.versions).Nodup) ∧
      (∀ n c, n ≠ nginxCatalog.name → createdCluster.catalogs n = some c →
        ∀ m ∈ declaredIdentities (some c), m ∉ generatedApps nginxCatalog [nginxChart]) ∧
      [(nginxCatalog.name, noFaults), (nginxCatalog.name, noFaults)].Sublist settlingPasses ∧
      ∀ m, (step plainComponents (run plainComponents createdCluster (passEvents settlingPasses))
          (.reconcile nginxCatalog.name noFaults)).store.get m =
        (run plainComponents createdCluster (passEvents settlingPasses)).store.get m :=
  have hE : ∀ m ∈ generatedApps nginxCatalog [nginxChart], ∀ a, createdCluster.store.get m = some a →
      (keys a.spec.versions).Nodup := fun _ _ _ h => Option.noConfusion h
  have hexcl : ∀ n c, n ≠ nginxCatalog.name → createdCluster.catalogs n = some c →
      ∀ m ∈ declaredIdentities (some c), m ∉ generatedApps nginxCatalog [nginxChart] := fun n c hn hc => by
    simp only [createdCluster, Cluster.put] at hc
    rw [Function.update_noteq hn] at hc
    cases hc
  have htwice : [(nginxCatalog.name, noFaults), (nginxCatalog.name, noFaults)].Sublist settlingPasses :=
    .cons _ (.cons₂ _ (.cons _ (.cons₂ _ .slnil)))
  ⟨rfl, rfl, List.nodup_singleton _, by decide, hE, hexcl, htwice,
    @run_quiescent plainComponents createdCluster settlingPasses nginxCatalog [nginxChart] rfl rfl
      (List.nodup_singleton _) (by decide) hE hexcl htwice⟩

end AppCatalog.System

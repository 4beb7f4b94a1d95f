import AppCatalog.System.Cluster

/-! Who can take an ApplicationDefinition from the catalog that owns it. -/
namespace AppCatalog.System
open Kubernetes Synchronizer Admission

/-! ### Who takes an ApplicationDefinition from its owner -/

/-- An upsert leaves an object, or gives it the name label of its entry. -/
theorem upsertWith_catalogLabel (σ : VersionSort) (faults : Faults) {d a a' : ApplicationDefinition}
    {n : String} (hd : d.labels labelApplicationCatalogName = some n)
    (h : upsertWith σ faults d (some a) = some a') :
    a' = a ∨ (a'.labels labelApplicationCatalogName = some n ∧ isSystemApplication a = false) := by
  simp only [upsertWith] at h
  split_ifs at h with hc
  · exact .inl (Option.some.inj h).symm
  · obtain rfl := Option.some.inj h
    simp only [Bool.or_eq_true, not_or] at hc
    exact .inr ⟨by simp [promotePreservedFields, hd], by simpa using hc.1.2⟩

theorem foldl_upsertWith_catalogLabel (σ : VersionSort) (faults : Faults) {n : String}
    {ds : List ApplicationDefinition} (hd : ∀ d ∈ ds, d.labels labelApplicationCatalogName = some n)
    (a b : ApplicationDefinition) (h : ds.foldl (fun o d => upsertWith σ faults d o) (some a) = some b) :
    b.labels labelApplicationCatalogName = a.labels labelApplicationCatalogName ∨
      (b.labels labelApplicationCatalogName = some n ∧ isSystemApplication a = false) := by
  induction ds generalizing a with
  | nil => exact .inl (by rw [Option.some.inj h.symm])
  | cons d ds ih =>
    obtain ⟨a', ha'⟩ : ∃ a', upsertWith σ faults d (some a) = some a' := by
      simp only [upsertWith]; split_ifs <;> exact ⟨_, rfl⟩
    rw [List.foldl_cons, ha'] at h
    rcases ih (fun d' h' => hd d' (List.mem_cons_of_mem _ h')) a' h with hb | hb <;>
      rcases upsertWith_catalogLabel σ faults (hd d (List.mem_cons_self _ _)) ha' with rfl | ha
    · exact .inl hb
    · exact .inr ⟨hb.trans ha.1, ha.2⟩
    · exact .inr hb
    · exact .inr ⟨hb.1, ha.2⟩

/-- A pass of `name` leaves an object's name label, removes it, or sets it to `name`, the last
only on an object of one of its identities that no other system manages. -/
theorem passGet_catalogLabel (σ : VersionSort) (faults : Faults) {found : Option ApplicationCatalog}
    {name m : String} (hN : ∀ c, found = some c → c.name = name) {a b : ApplicationDefinition}
    (h : passGet σ faults found name m (some a) = some b) :
    b.labels labelApplicationCatalogName = a.labels labelApplicationCatalogName ∨
      b.labels labelApplicationCatalogName = none ∨
      (b.labels labelApplicationCatalogName = some name ∧ m ∈ declaredIdentities found ∧
        isSystemApplication a = false) := by
  by_cases hm : m ∈ declaredIdentities found
  · obtain ⟨catalog, rfl⟩ : ∃ c, found = some c := by
      cases found
      · exact absurd hm (List.not_mem_nil m)
      · exact ⟨_, rfl⟩
    obtain rfl := hN catalog rfl
    obtain ⟨charts, hc⟩ : ∃ charts, chartsToReconcile catalog = some charts := by
      cases hc : chartsToReconcile catalog
      · exact absurd (declaredIdentities_of_waiting hc ▸ hm) (List.not_mem_nil m)
      · exact ⟨_, rfl⟩
    have hm' : m ∈ generatedApps catalog charts := declaredIdentities_of_charts hc ▸ hm
    cases hg : faults (.getCatalog catalog.name)
    · rw [passGet_of_charts σ hg hc, orphanGet_of_mem _ _ hm'] at h
      refine (foldl_upsertWith_catalogLabel σ faults ?_ a b h).imp_right fun h' => .inr ⟨h'.1, hm, h'.2⟩
      intro d hd
      obtain ⟨chart, -, rfl⟩ := List.mem_map.mp (List.mem_filter.mp hd).1
      simp
    · simp only [passGet, hg, if_true, Option.some.injEq] at h
      exact .inl (by rw [h])
  · rcases passGet_of_not_mem σ faults hN hm (some a) with h' | ⟨gen, h'⟩
    · exact .inl (by rw [Option.some.inj (h.symm.trans h')])
    · rcases orphanGet_some faults name gen m a with h'' | h''
      · exact .inl (by rw [Option.some.inj (h.symm.trans (h'.trans h''))])
      · exact .inr (.inl (by rw [Option.some.inj (h.symm.trans (h'.trans h''))]; simp [unmanaged]))

/-- The step `e` from `cl` is a reconcile pass of the catalog `B`, which is present and declares
`X`, and `X` is an object no other system manages. -/
def TakeoverStep (cl : Cluster) (e : Event) (X B : String) : Prop :=
  ∃ faults catalog, e = .reconcile B faults ∧ cl.catalogs B = some catalog ∧
    X ∈ declaredIdentities (some catalog) ∧
    ∀ a, cl.store.get X = some a → a.labels "apps.kubermatic.k8c.io/managed-by" = none

/-- In any step of the cluster, an ApplicationDefinition's name label goes from one catalog `A` to
another `B` only in a takeover step of `B`. -/
theorem step_catalogLabel_change (k : Components) (cl : Cluster) (e : Event) (X A B : String)
    (hA : (cl.store.get X).map (·.labels labelApplicationCatalogName) = some (some A))
    (hB : ((step k cl e).store.get X).map (·.labels labelApplicationCatalogName) = some (some B))
    (hAB : A ≠ B) : TakeoverStep cl e X B := by
  obtain ⟨a, ha, hla⟩ := Option.map_eq_some'.mp hA
  obtain ⟨b, hb, hlb⟩ := Option.map_eq_some'.mp hB
  cases e with
  | request op catalog faults =>
    rw [step_request_store, ha] at hb
    obtain rfl := Option.some.inj hb
    exact absurd (hla.symm.trans hlb) (by simpa using hAB)
  | reconcile n faults =>
    simp only [step, reconcile_get, ha] at hb
    rcases passGet_catalogLabel k.σ faults (cl.named n) hb with h | h | ⟨h, hX, hs⟩
    · exact absurd (hla.symm.trans (h ▸ hlb)) (by simpa using hAB)
    · simp [h] at hlb
    · obtain rfl : n = B := by simpa [h] using hlb
      cases hc : cl.catalogs n with
      | none => simp [hc, declaredIdentities] at hX
      | some catalog =>
        refine ⟨faults, catalog, rfl, hc, hc ▸ hX, fun a' ha' => ?_⟩
        rw [ha] at ha'
        simpa [isSystemApplication, Option.some.inj ha'] using hs

/-- In any step of the cluster, an ApplicationDefinition's name label goes from one catalog `A` to
another `B` only in a takeover step of `B`, and a create or update of a catalog that declares an
object another catalog owns at that moment is denied. The webhook does not exclude the takeover
step: it reads the objects of its own moment. -/
theorem step_ownerChange (k : Components) (cl : Cluster) :
    (∀ e X A B, (cl.store.get X).map (·.labels labelApplicationCatalogName) = some (some A) →
      ((step k cl e).store.get X).map (·.labels labelApplicationCatalogName) = some (some B) →
      A ≠ B → TakeoverStep cl e X B) ∧
    (∀ op catalog faults a, (op = .create ∨ op = .update) →
      a ∈ cl.store.list labelManagedByApplicationCatalog "true" →
      a.name ∈ declaredIdentities (some catalog) →
      (a.labels labelApplicationCatalogName).getD "" ≠ "" →
      (a.labels labelApplicationCatalogName).getD "" ≠ catalog.name →
      (handle k.defaulting k.ι faults cl.store op catalog).isAllowed = false) :=
  ⟨step_catalogLabel_change k cl, fun _ catalog faults _ hop ha hX hown hother =>
    handle_isAllowed_of_owned _ _ faults cl.store hop catalog ha hX hown hother⟩

/-- Two catalogs declaring `nginx`, both admitted before either is reconciled: the pass of `"b"`
takes `nginx` straight from `"a"`. -/
theorem ownership_race :
    ((run plainComponents .empty raceEvents).catalogs "a").isSome ∧
      ((run plainComponents .empty raceEvents).catalogs "b").isSome ∧
      ((run plainComponents .empty (raceEvents.take 3)).store.get "nginx").map
        (·.labels labelApplicationCatalogName) = some (some "a") ∧
      ((run plainComponents .empty raceEvents).store.get "nginx").map
        (·.labels labelApplicationCatalogName) = some (some "b") := by
  decide

/-- The object `nginx` of the catalog `"a"`, once its pass has labelled it. -/
theorem nginx_mem_list_race :
    convertChartToApplicationDefinition nginxCatalog nginxChart ∈
      (run plainComponents .empty (raceEvents.take 3)).store.list
        labelManagedByApplicationCatalog "true" :=
  Store.mem_list.mpr ⟨Store.mem_of_get (show (run plainComponents .empty (raceEvents.take 3)).store.get
    "nginx" = some (convertChartToApplicationDefinition nginxCatalog nginxChart) from rfl), rfl⟩

theorem step_ownerChange_race :
    ((run plainComponents .empty (raceEvents.take 3)).store.get "nginx").map
        (·.labels labelApplicationCatalogName) = some (some "a") ∧
      ((step plainComponents (run plainComponents .empty (raceEvents.take 3))
        (.reconcile "b" noFaults)).store.get "nginx").map
        (·.labels labelApplicationCatalogName) = some (some "b") ∧ "a" ≠ "b" ∧
      TakeoverStep (run plainComponents .empty (raceEvents.take 3)) (.reconcile "b" noFaults)
        "nginx" "b" ∧
      (handle plainComponents.defaulting plainComponents.ι noFaults
        (run plainComponents .empty (raceEvents.take 3)).store .create rivalCatalog).isAllowed = false :=
  have hA : ((run plainComponents .empty (raceEvents.take 3)).store.get "nginx").map
      (·.labels labelApplicationCatalogName) = some (some "a") := by decide
  have hB : ((step plainComponents (run plainComponents .empty (raceEvents.take 3))
      (.reconcile "b" noFaults)).store.get "nginx").map
      (·.labels labelApplicationCatalogName) = some (some "b") := by decide
  ⟨hA, hB, by decide, (step_ownerChange plainComponents _).1 _ "nginx" "a" "b" hA hB (by decide),
    (step_ownerChange plainComponents _).2 .create rivalCatalog noFaults _ (.inl rfl)
      nginx_mem_list_race (by decide) (by decide) (by decide)⟩

/-- A create or update of a catalog that declares an object another catalog owns at that moment is
not carried out. -/
theorem step_request_of_owned (k : Components) (cl : Cluster) {op : Operation}
    (hop : op = .create ∨ op = .update) (catalog : ApplicationCatalog) (faults : Faults)
    {a : ApplicationDefinition} (ha : a ∈ cl.store.list labelManagedByApplicationCatalog "true")
    (hX : a.name ∈ (catalog.getHelmCharts.getD []).map ChartConfig.getAppName)
    (hown : ownerOf a ≠ "") (hother : ownerOf a ≠ catalog.name) :
    step k cl (.request op catalog faults) = cl := by
  simp [step, handle_isAllowed_of_owned _ _ faults cl.store hop catalog ha hX hown hother]

theorem step_request_of_owned_race :
    convertChartToApplicationDefinition nginxCatalog nginxChart ∈
        (run plainComponents .empty (raceEvents.take 3)).store.list
          labelManagedByApplicationCatalog "true" ∧
      (convertChartToApplicationDefinition nginxCatalog nginxChart).name ∈
        (rivalCatalog.getHelmCharts.getD []).map ChartConfig.getAppName ∧
      ownerOf (convertChartToApplicationDefinition nginxCatalog nginxChart) ≠ "" ∧
      ownerOf (convertChartToApplicationDefinition nginxCatalog nginxChart) ≠ rivalCatalog.name ∧
      step plainComponents (run plainComponents .empty (raceEvents.take 3))
        (.request .create rivalCatalog noFaults) = run plainComponents .empty (raceEvents.take 3) :=
  ⟨nginx_mem_list_race, by decide, by decide, by decide, step_request_of_owned plainComponents _
    (.inl rfl) rivalCatalog noFaults nginx_mem_list_race (by decide) (by decide) (by decide)⟩

/-! ### Ownership, once labelled, is stable -/

/-- The object carries both ownership labels of the catalog `A`. -/
def LabelledBy (A : String) (a : ApplicationDefinition) : Prop :=
  a.labels labelManagedByApplicationCatalog = some "true" ∧ a.labels labelApplicationCatalogName = some A

theorem upsertWith_labelledBy (σ : VersionSort) (faults : Faults) {A : String}
    {d a : ApplicationDefinition} (hd : LabelledBy A d) (ha : LabelledBy A a) :
    ∃ a', upsertWith σ faults d (some a) = some a' ∧ LabelledBy A a' := by
  simp only [upsertWith]
  split_ifs
  · exact ⟨a, rfl, ha⟩
  · exact ⟨_, rfl, by simp [LabelledBy, promotePreservedFields, hd.1, hd.2]⟩

theorem foldl_upsertWith_labelledBy (σ : VersionSort) (faults : Faults) {A : String}
    {ds : List ApplicationDefinition} (hd : ∀ d ∈ ds, LabelledBy A d) {a : ApplicationDefinition}
    (ha : LabelledBy A a) :
    ∃ b, ds.foldl (fun o d => upsertWith σ faults d o) (some a) = some b ∧ LabelledBy A b := by
  induction ds generalizing a with
  | nil => exact ⟨a, rfl, ha⟩
  | cons d ds ih =>
    obtain ⟨a', h, ha'⟩ := upsertWith_labelledBy σ faults (hd d (List.mem_cons_self _ _)) ha
    rw [List.foldl_cons, h]
    exact ih (fun d' h' => hd d' (List.mem_cons_of_mem _ h')) ha'

/-- A pass of the catalog `A` itself leaves its labels on the objects of its identities. -/
theorem passGet_labelledBy (σ : VersionSort) (faults : Faults) {A m : String} {cA : ApplicationCatalog}
    (hname : cA.name = A) (hm : m ∈ declaredIdentities (some cA)) {a : ApplicationDefinition}
    (ha : LabelledBy A a) : ∃ b, passGet σ faults (some cA) A m (some a) = some b ∧ LabelledBy A b := by
  subst hname
  cases hg : faults (.getCatalog cA.name)
  · obtain ⟨charts, hc⟩ : ∃ charts, chartsToReconcile cA = some charts := by
      cases hc : chartsToReconcile cA
      · exact absurd (declaredIdentities_of_waiting hc ▸ hm) (List.not_mem_nil m)
      · exact ⟨_, rfl⟩
    have hm' : m ∈ generatedApps cA charts := declaredIdentities_of_charts hc ▸ hm
    rw [passGet_of_charts σ hg hc, orphanGet_of_mem _ _ hm']
    refine foldl_upsertWith_labelledBy σ faults (fun d hd => ?_) ha
    obtain ⟨chart, -, rfl⟩ := List.mem_map.mp (List.mem_filter.mp hd).1
    simp [LabelledBy]
  · exact ⟨a, by simp [passGet, hg], ha⟩

/-- The request is on the catalog named `A`. -/
def Event.requestsOn (A : String) : Event → Bool
  | .request _ catalog _ => catalog.name == A
  | .reconcile _ _ => false

/-- The catalog `A`, present as `cA`, holds its identities: the object of each carries both of its
ownership labels, and no other catalog declares any of them. -/
structure Holds (A : String) (cA : ApplicationCatalog) (cl : Cluster) : Prop where
  present : cl.catalogs A = some cA
  labelled : ∀ m ∈ declaredIdentities (some cA), ∃ a, cl.store.get m = some a ∧ LabelledBy A a
  exclusive : ∀ n c, n ≠ A → cl.catalogs n = some c →
    ∀ m ∈ declaredIdentities (some c), m ∉ declaredIdentities (some cA)

/-- A catalog that holds an identity makes the webhook deny every other catalog declaring it. -/
theorem Holds.exclusive_put {k : Components} {cl : Cluster} {A : String} {cA : ApplicationCatalog}
    (hA : A ≠ "") (h : Holds A cA cl) {op : Operation} (hop : op = .create ∨ op = .update)
    {catalog : ApplicationCatalog} {faults : Faults} (hn : catalog.name ≠ A)
    (hallow : (handle k.defaulting k.ι faults cl.store op catalog).isAllowed) :
    ∀ m ∈ declaredIdentities (some catalog), m ∉ declaredIdentities (some cA) := by
  intro m hm hmA
  obtain ⟨a, ha, hl⟩ := h.labelled m hmA
  have hmem : a ∈ cl.store.list labelManagedByApplicationCatalog "true" :=
    Store.mem_list.mpr ⟨Store.mem_of_get ha, hl.1⟩
  have hown : ownerOf a = A := by simp [ownerOf, hl.2]
  have hX : a.name ∈ (catalog.getHelmCharts.getD []).map ChartConfig.getAppName :=
    Store.get_name ha ▸ hm
  rw [handle_isAllowed_of_owned _ _ faults cl.store hop catalog hmem hX (hown ▸ hA)
    (hown ▸ Ne.symm hn)] at hallow
  exact Bool.false_ne_true hallow

/-- A pass of any other catalog, under any failures, leaves alone an object that `A` holds. -/
theorem Holds.passGet_other {cl : Cluster} {A : String} {cA : ApplicationCatalog} (h : Holds A cA cl)
    (σ : VersionSort) (faults : Faults) {n : String} (hnA : n ≠ A) {m : String}
    (hm : m ∈ declaredIdentities (some cA)) {a : ApplicationDefinition} (hl : LabelledBy A a) :
    passGet σ faults (cl.catalogs n) n m (some a) = some a := by
  have hm' : m ∉ declaredIdentities (cl.catalogs n) := by
    cases hc : cl.catalogs n with
    | none => exact List.not_mem_nil m
    | some c => exact fun hmc => h.exclusive n c hnA hc m hmc hm
  exact passGet_of_labelled σ faults (cl.named n) hm' hl.2 hnA

/-- No step other than a request on `A` takes from `A` what it holds. -/
theorem step_holds (k : Components) {cl : Cluster} {A : String} {cA : ApplicationCatalog}
    (hA : A ≠ "") (h : Holds A cA cl) (e : Event) (he : e.requestsOn A = false) :
    Holds A cA (step k cl e) := by
  cases e with
  | request op catalog faults =>
    have hn : catalog.name ≠ A := by simpa [Event.requestsOn] using he
    simp only [step]
    split_ifs with hallow
    · cases op with
      | create | update =>
        refine ⟨by simp [Cluster.put, Function.update_noteq (Ne.symm hn), h.present], h.labelled,
          fun n c hnA hc => ?_⟩
        by_cases hnc : n = catalog.name
        · subst hnc
          simp only [Cluster.put, Function.update_same, Option.some.injEq] at hc
          subst hc
          exact h.exclusive_put hA (by simp) hn hallow
        · exact h.exclusive n c hnA (by simpa [Cluster.put, Function.update_noteq hnc] using hc)
      | delete =>
        refine ⟨by simp [Cluster.remove, Function.update_noteq (Ne.symm hn), h.present], h.labelled,
          fun n c hnA hc => h.exclusive n c hnA ?_⟩
        by_cases hnc : n = catalog.name
        · simp [Cluster.remove, hnc] at hc
        · simpa [Cluster.remove, Function.update_noteq hnc] using hc
      | connect => exact h
    · exact h
  | reconcile n faults =>
    refine ⟨h.present, fun m hm => ?_, h.exclusive⟩
    obtain ⟨a, ha, hl⟩ := h.labelled m hm
    simp only [step, reconcile_get, ha]
    by_cases hnA : n = A
    · subst hnA
      rw [h.present]
      exact passGet_labelledBy k.σ faults (cl.named _ _ h.present) hm hl
    · exact ⟨a, h.passGet_other k.σ faults hnA hm hl, hl⟩

/-- Over every run in which the catalog `A` itself is not changed, whatever the requests on other
catalogs, the passes and the failures: once `A` holds its identities it keeps them. The webhook
denies every other catalog declaring one of them, and no pass takes them. -/
theorem run_holds (k : Components) (cl : Cluster) (events : List Event) {A : String}
    {cA : ApplicationCatalog} (hA : A ≠ "") (hev : ∀ e ∈ events, e.requestsOn A = false)
    (h : Holds A cA cl) : Holds A cA (run k cl events) := by
  induction events generalizing cl with
  | nil => exact h
  | cons e events ih =>
    exact ih _ (fun e' he' => hev e' (List.mem_cons_of_mem _ he'))
      (step_holds k hA h e (hev e (List.mem_cons_self _ _)))

/-- A failure-free upsert of an entry labels an object that no other system manages. -/
theorem upsertWith_noFaults_labelledBy (σ : VersionSort) {A : String} {d : ApplicationDefinition}
    (hd : LabelledBy A d) {o : Option ApplicationDefinition}
    (hsys : ∀ a, o = some a → isSystemApplication a = false) :
    ∃ b, upsertWith σ noFaults d o = some b ∧ LabelledBy A b := by
  cases o with
  | none => exact ⟨d, by simp [upsertWith], hd⟩
  | some e =>
    exact ⟨promotePreservedFields σ d e, by simp [upsertWith, hsys e rfl],
      by simp [LabelledBy, promotePreservedFields, hd.1, hd.2]⟩

/-- A failure-free pass of a present catalog labels the object of each of its identities that no
other system manages. -/
theorem passGet_noFaults_labelledBy (σ : VersionSort) {A m : String} {cA : ApplicationCatalog}
    (hname : cA.name = A) (hm : m ∈ declaredIdentities (some cA)) {o : Option ApplicationDefinition}
    (hsys : ∀ a, o = some a → isSystemApplication a = false) :
    ∃ b, passGet σ noFaults (some cA) A m o = some b ∧ LabelledBy A b := by
  subst hname
  obtain ⟨charts, hc⟩ : ∃ charts, chartsToReconcile cA = some charts := by
    cases hc : chartsToReconcile cA
    · exact absurd (declaredIdentities_of_waiting hc ▸ hm) (List.not_mem_nil m)
    · exact ⟨_, rfl⟩
  have hm' : m ∈ generatedApps cA charts := declaredIdentities_of_charts hc ▸ hm
  rw [passGet_of_charts σ (noFaults_apply _) hc, orphanGet_of_mem _ _ hm']
  have hd : ∀ d ∈ entriesFor cA charts m, LabelledBy cA.name d := fun d hd => by
    obtain ⟨chart, -, rfl⟩ := List.mem_map.mp (List.mem_filter.mp hd).1
    simp [LabelledBy]
  cases hds : entriesFor cA charts m with
  | nil =>
    obtain ⟨chart, hchart, rfl⟩ := List.mem_map.mp hm'
    have h : convertChartToApplicationDefinition cA chart ∈
        entriesFor cA charts (convertChartToApplicationDefinition cA chart).name :=
      List.mem_filter.mpr ⟨List.mem_map_of_mem _ hchart, by simp⟩
    rw [hds] at h
    cases h
  | cons d ds =>
    rw [hds] at hd
    obtain ⟨a, h, ha⟩ := upsertWith_noFaults_labelledBy σ (hd d (List.mem_cons_self _ _)) hsys
    rw [List.foldl_cons, h]
    exact foldl_upsertWith_labelledBy σ noFaults (fun d' h' => hd d' (List.mem_cons_of_mem _ h')) ha

/-- A failure-free pass of a present catalog that no other catalog contends with makes it hold its
identities, unless another system manages one of their objects. With `run_holds`, the catalog then
keeps them. -/
theorem step_reconcile_holds (k : Components) (cl : Cluster) {A : String} {cA : ApplicationCatalog}
    (hpres : cl.catalogs A = some cA)
    (hexcl : ∀ n c, n ≠ A → cl.catalogs n = some c →
      ∀ m ∈ declaredIdentities (some c), m ∉ declaredIdentities (some cA))
    (hsys : ∀ m ∈ declaredIdentities (some cA), ∀ a, cl.store.get m = some a →
      a.labels "apps.kubermatic.k8c.io/managed-by" = none) :
    Holds A cA (step k cl (.reconcile A noFaults)) where
  present := hpres
  labelled m hm := by
    simp only [step, reconcile_get, hpres]
    exact passGet_noFaults_labelledBy k.σ (cl.named _ _ hpres) hm fun a ha => by
      simp [isSystemApplication, hsys m hm a ha]
  exclusive := hexcl

/-- The cluster right after `"a"` was created, before its first pass. -/
def createdCluster : Cluster := Cluster.empty.put nginxCatalog

theorem step_reconcile_holds_created :
    createdCluster.catalogs "a" = some nginxCatalog ∧
      (∀ n c, n ≠ "a" → createdCluster.catalogs n = some c →
        ∀ m ∈ declaredIdentities (some c), m ∉ declaredIdentities (some nginxCatalog)) ∧
      (∀ m ∈ declaredIdentities (some nginxCatalog), ∀ a, createdCluster.store.get m = some a →
        a.labels "apps.kubermatic.k8c.io/managed-by" = none) ∧
      Holds "a" nginxCatalog (step plainComponents createdCluster (.reconcile "a" noFaults)) :=
  have hexcl : ∀ n c, n ≠ "a" → createdCluster.catalogs n = some c →
      ∀ m ∈ declaredIdentities (some c), m ∉ declaredIdentities (some nginxCatalog) := fun n c hn hc => by
    simp only [createdCluster, Cluster.put] at hc
    rw [Function.update_noteq (show n ≠ nginxCatalog.name from hn)] at hc
    cases hc
  have hsys : ∀ m ∈ declaredIdentities (some nginxCatalog), ∀ a, createdCluster.store.get m = some a →
      a.labels "apps.kubermatic.k8c.io/managed-by" = none := fun _ _ _ ha => by cases ha
  ⟨rfl, hexcl, hsys, step_reconcile_holds plainComponents createdCluster rfl hexcl hsys⟩

/-- The cluster after `"a"` was created and reconciled: it holds `nginx`. -/
def heldCluster : Cluster :=
  { Cluster.empty.put nginxCatalog with
    store := (reconcile insertionVersionSort noFaults (some nginxCatalog) "a" ⟨[], List.nodup_nil⟩).1.store }

theorem holds_heldCluster : Holds "a" nginxCatalog heldCluster where
  present := rfl
  labelled m hm := by
    rw [show declaredIdentities (some nginxCatalog) = ["nginx"] from rfl, List.mem_singleton] at hm
    subst hm
    exact ⟨_, rfl, by decide, by decide⟩
  exclusive n c hn hc := by
    simp only [heldCluster, Cluster.put] at hc
    rw [Function.update_noteq (show n ≠ nginxCatalog.name from hn)] at hc
    cases hc

/-- The rival catalog asks to be created, both catalogs are reconciled, that of `"a"` with its
Patch of `nginx` failing, and the rival is deleted. -/
def takeoverEvents : List Event :=
  [.request .create rivalCatalog noFaults, .reconcile "b" noFaults,
    .reconcile "a" fun c => c == .patch "nginx", .request .delete rivalCatalog noFaults]

theorem run_holds_takeover :
    "a" ≠ "" ∧ (∀ e ∈ takeoverEvents, e.requestsOn "a" = false) ∧ Holds "a" nginxCatalog heldCluster ∧
      Holds "a" nginxCatalog (run plainComponents heldCluster takeoverEvents) :=
  have hev : ∀ e ∈ takeoverEvents, e.requestsOn "a" = false := by decide
  ⟨by decide, hev, holds_heldCluster,
    run_holds plainComponents heldCluster takeoverEvents (by decide) hev holds_heldCluster⟩

end AppCatalog.System

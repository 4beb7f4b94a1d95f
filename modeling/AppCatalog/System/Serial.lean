import AppCatalog.System.Takeover

/-! Requests admitted one at a time, each followed by a failure-free pass of its catalog. -/
namespace AppCatalog.System
open Kubernetes Synchronizer Admission

/-- No step makes an object another system's: such an object after the step was one before. -/
theorem step_system_of (k : Components) (cl : Cluster) (e : Event) {m : String}
    {b : ApplicationDefinition} (hb : (step k cl e).store.get m = some b) (hsys : isSystemApplication b) :
    ∃ a, cl.store.get m = some a ∧ isSystemApplication a := by
  cases e with
  | request op catalog faults => exact ⟨b, by rwa [step_request_store] at hb, hsys⟩
  | reconcile n faults =>
    simp only [step, reconcile_get] at hb
    cases ha : cl.store.get m with
    | none =>
      rw [ha] at hb
      obtain ⟨catalog, chart, h⟩ := keepsMetadata_preserved.passGet_none_rel k.σ faults _ n m hb
      rw [h.isSystemApplication, convert_not_isSystemApplication] at hsys
      cases hsys
    | some a =>
      rw [ha] at hb
      obtain ⟨b', hb', h⟩ := keepsMetadata_preserved.passGet_rel k.σ faults _ n m a
      obtain rfl := Option.some.inj (hb'.symm.trans hb)
      exact ⟨a, rfl, h.isSystemApplication ▸ hsys⟩

/-- A request stores its catalog, removes it, or leaves the cluster as it is. -/
theorem step_request_cases (k : Components) (cl : Cluster) (op : Operation)
    (catalog : ApplicationCatalog) (faults : Faults) :
    step k cl (.request op catalog faults) = cl.put catalog ∨
      step k cl (.request op catalog faults) = cl.remove catalog.name ∨
      step k cl (.request op catalog faults) = cl := by
  simp only [step]
  split_ifs
  · cases op
    · exact .inl rfl
    · exact .inl rfl
    · exact .inr (.inl rfl)
    · exact .inr (.inr rfl)
  · exact .inr (.inr rfl)

/-- A request changes no catalog but its own. -/
theorem step_request_catalogs (k : Components) (cl : Cluster) (op : Operation)
    (catalog : ApplicationCatalog) (faults : Faults) {A : String} (hA : A ≠ catalog.name) :
    (step k cl (.request op catalog faults)).catalogs A = cl.catalogs A := by
  rcases step_request_cases k cl op catalog faults with h | h | h <;> rw [h]
  · exact Function.update_noteq hA _ _
  · exact Function.update_noteq hA _ _

/-- Every present catalog has a name and holds its identities. -/
def AllHold (cl : Cluster) : Prop :=
  ∀ A c, cl.catalogs A = some c → A ≠ "" ∧ Holds A c cl

/-- Every object of `cl'` that another system manages was one in `cl`. -/
def SystemFrom (cl cl' : Cluster) : Prop :=
  ∀ m b, cl'.store.get m = some b → isSystemApplication b →
    ∃ a, cl.store.get m = some a ∧ isSystemApplication a

theorem SystemFrom.step {k : Components} {cl cl' : Cluster} (h : SystemFrom cl cl') (e : Event) :
    SystemFrom cl (step k cl' e) := fun _ _ hb hsys =>
  let ⟨a, ha, hsys'⟩ := step_system_of k cl' e hb hsys
  h _ a ha hsys'

theorem AllHold.step_reconcile {k : Components} {cl : Cluster} (h : AllHold cl) (n : String)
    (faults : Faults) : AllHold (step k cl (.reconcile n faults)) := fun A c hc =>
  ⟨(h A c hc).1, step_holds k (h A c hc).1 (h A c hc).2 _ rfl⟩

/-- A request, then a failure-free pass of its catalog, keeps every present catalog holding its
identities, provided the catalog has a name and no object at its identities is another system's. -/
theorem AllHold.round {k : Components} {cl : Cluster} (h : AllHold cl) (op : Operation)
    (catalog : ApplicationCatalog) (faults : Faults) (hname : catalog.name ≠ "")
    (hsys : ∀ m ∈ declaredIdentities (some catalog), ∀ a, cl.store.get m = some a →
      a.labels "apps.kubermatic.k8c.io/managed-by" = none) :
    AllHold (step k (step k cl (.request op catalog faults)) (.reconcile catalog.name noFaults)) := by
  let cl₁ := step k cl (.request op catalog faults)
  -- Every other catalog keeps holding through the request.
  have hother : ∀ A c, A ≠ catalog.name → cl₁.catalogs A = some c → A ≠ "" ∧ Holds A c cl₁ :=
    fun A c hA hc => by
      rw [step_request_catalogs k cl op catalog faults hA] at hc
      obtain ⟨hA', hH⟩ := h A c hc
      exact ⟨hA', step_holds k hA' hH _ (by simpa [Event.requestsOn] using Ne.symm hA)⟩
  intro A c hc
  by_cases hA : A = catalog.name
  · subst hA
    refine ⟨hname, ?_⟩
    rcases step_request_cases k cl op catalog faults with h₁ | h₁ | h₁
    · -- The catalog was stored: its pass makes it hold, as no other catalog contends.
      have hc₁ : cl₁.catalogs catalog.name = some catalog := by
        simp [cl₁, h₁, Cluster.put]
      obtain rfl : catalog = c := Option.some.inj (hc₁.symm.trans hc)
      refine step_reconcile_holds k cl₁ hc₁ (fun n c' hn hc' m hm hmc => ?_) ?_
      · exact ((hother n c' hn hc').2.exclusive _ _ (Ne.symm hn) hc₁ m hmc) hm
      · rw [show cl₁.store = cl.store from step_request_store k cl op catalog faults]
        exact hsys
    · have : cl₁.catalogs catalog.name = none := by simp [cl₁, h₁, Cluster.remove]
      exact absurd (hc.symm.trans this) (Option.some_ne_none c)
    · obtain ⟨hA', hH⟩ := h _ c (by rw [← h₁]; exact hc)
      exact step_holds k hA' (show Holds catalog.name c cl₁ by rw [show cl₁ = cl from h₁]; exact hH) _ rfl
  · obtain ⟨hA', hH⟩ := hother A c hA hc
    exact ⟨hA', step_holds k hA' hH _ rfl⟩

/-- The runs in which each request is followed at once by a failure-free pass of its catalog;
passes of any catalog, under any failures, may come between two such rounds. -/
inductive Serial : List Event → Prop
  | nil : Serial []
  | reconcile (n : String) (faults : Faults) {events : List Event} :
      Serial events → Serial (.reconcile n faults :: events)
  | request (op : Operation) (catalog : ApplicationCatalog) (faults : Faults) {events : List Event} :
      Serial events → Serial (.request op catalog faults :: .reconcile catalog.name noFaults :: events)

/-- Over every serial run, whatever its requests, their outcomes and the failures of the passes in
between: if every present catalog holds its identities at the start, every present catalog holds
its identities at the end, so no two of them declare one identity. It suffices that each requested
catalog has a name and declares no identity whose object another system manages. -/
theorem run_serial_allHold (k : Components) (cl : Cluster) {events : List Event}
    (hser : Serial events) (h : AllHold cl)
    (hreq : ∀ op catalog faults, Event.request op catalog faults ∈ events → catalog.name ≠ "" ∧
      ∀ m ∈ declaredIdentities (some catalog), ∀ a, cl.store.get m = some a →
        a.labels "apps.kubermatic.k8c.io/managed-by" = none) :
    AllHold (run k cl events) := by
  suffices hrun : ∀ cl', SystemFrom cl cl' → AllHold cl' → AllHold (run k cl' events) from
    hrun cl (fun _ b hb hsys => ⟨b, hb, hsys⟩) h
  induction hser with
  | nil => exact fun _ _ h' => h'
  | reconcile n faults _ ih =>
    exact fun cl' hS h' => ih (fun op c f hm => hreq op c f (List.mem_cons_of_mem _ hm)) _
      (hS.step _) (h'.step_reconcile n faults)
  | request op catalog faults _ ih =>
    intro cl' hS h'
    obtain ⟨hname, hsys⟩ := hreq op catalog faults (List.mem_cons_self _ _)
    have hsys' : ∀ m ∈ declaredIdentities (some catalog), ∀ a, cl'.store.get m = some a →
        a.labels "apps.kubermatic.k8c.io/managed-by" = none := fun m hm a ha => by
      cases hs : isSystemApplication a
      · simpa [isSystemApplication] using hs
      · obtain ⟨a₀, ha₀, hs₀⟩ := hS m a ha hs
        simp [isSystemApplication, hsys m hm a₀ ha₀] at hs₀
    exact ih (fun op c f hm => hreq op c f (List.mem_cons_of_mem _ (List.mem_cons_of_mem _ hm))) _
      ((hS.step _).step _) (h'.round op catalog faults hname hsys')

/-- The catalog `"a"` is created and reconciled; then `"b"`, which declares `nginx` too, is
requested and its pass run. -/
def serialEvents : List Event :=
  [.request .create nginxCatalog noFaults, .reconcile "a" noFaults,
    .request .create rivalCatalog noFaults, .reconcile "b" noFaults]

theorem run_serial_allHold_rival :
    Serial serialEvents ∧ AllHold Cluster.empty ∧
      (∀ op catalog faults, Event.request op catalog faults ∈ serialEvents → catalog.name ≠ "" ∧
        ∀ m ∈ declaredIdentities (some catalog), ∀ a, Cluster.empty.store.get m = some a →
          a.labels "apps.kubermatic.k8c.io/managed-by" = none) ∧
      AllHold (run plainComponents Cluster.empty serialEvents) :=
  have hser : Serial serialEvents := .request _ _ _ (.request _ _ _ .nil)
  have h : AllHold Cluster.empty := fun _ _ hc => Option.noConfusion hc
  have hreq : ∀ op catalog faults, Event.request op catalog faults ∈ serialEvents →
      catalog.name ≠ "" ∧ ∀ m ∈ declaredIdentities (some catalog), ∀ a,
        Cluster.empty.store.get m = some a → a.labels "apps.kubermatic.k8c.io/managed-by" = none := by
    intro op catalog faults hm
    simp [serialEvents] at hm
    refine ⟨?_, fun m _ a ha => Option.noConfusion ha⟩
    rcases hm with ⟨-, rfl, -⟩ | ⟨-, rfl, -⟩ <;> decide
  ⟨hser, h, hreq, run_serial_allHold plainComponents Cluster.empty hser h hreq⟩

end AppCatalog.System

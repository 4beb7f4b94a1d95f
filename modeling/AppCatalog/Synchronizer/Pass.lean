import AppCatalog.Synchronizer.Reconciler

/-! The reconcile pass, name by name: what it does to each ApplicationDefinition depends on that
object alone, and the error it returns reports exactly the calls that failed. -/
namespace AppCatalog.Synchronizer
open Kubernetes

/-- The calls one entry makes, given the object its read finds. -/
def upsertCalls (faults : Faults) (desired : ApplicationDefinition) :
    Option ApplicationDefinition → List Call
  | none => if faults (.get desired.name) then [.get desired.name]
      else [.get desired.name, .create desired.name]
  | some e => if faults (.get desired.name) || isSystemApplication e then [.get desired.name]
      else [.get desired.name, .patch desired.name]

/-- What the calls of one entry do to the object of its name. -/
def upsertWith (σ : VersionSort) (faults : Faults) (desired : ApplicationDefinition) :
    Option ApplicationDefinition → Option ApplicationDefinition
  | none => if faults (.get desired.name) || faults (.create desired.name) then none else some desired
  | some e =>
    if faults (.get desired.name) || isSystemApplication e || faults (.patch desired.name) then some e
    else some (promotePreservedFields σ desired e)

/-- Everything one entry does: errors kept, its calls appended, an error exactly when one of its
calls failed, and only the object of its name changed. -/
theorem reconcileApplicationDefinition_spec (σ : VersionSort) (faults : Faults) (st : PassState)
    (desired : ApplicationDefinition) :
    let r := reconcileApplicationDefinition σ faults st desired
    let cs := upsertCalls faults desired (st.store.get desired.name)
    r.1.errs = st.errs ∧ r.1.calls = st.calls ++ cs ∧ (r.2.isSome ↔ ∃ c ∈ cs, faults c) ∧
      (∀ m, r.1.store.get m =
        if m = desired.name then upsertWith σ faults desired (st.store.get m) else st.store.get m) ∧
      ∀ e, r.2 = some e → e.isRequeue = false := by
  intro r cs
  have hr : r = reconcileApplicationDefinition σ faults st desired := rfl
  clear_value r
  unfold reconcileApplicationDefinition at hr
  -- the code's branches: the read fails, the object is missing, or it exists
  cases hg : faults (.get desired.name) with
  | true =>
    simp only [hg, if_true] at hr
    subst hr
    refine ⟨rfl, ?_, ?_, fun m => ?_, by simp [ReconcileError.isRequeue]⟩ <;>
      cases ho : st.store.get desired.name <;> (try split_ifs with hm) <;> (try subst hm) <;>
      simp [*, cs, upsertCalls, upsertWith]
  | false =>
    simp only [hg, Bool.false_eq_true, if_false] at hr
    cases ho : st.store.get desired.name with
    | none =>
      simp only [ho, createObject_of_get faults ho] at hr
      split_ifs at hr <;> subst hr <;>
        refine ⟨rfl, ?_, ?_, fun m => ?_, by simp [ReconcileError.isRequeue]⟩ <;>
        (try split_ifs with hm) <;> (try subst hm) <;>
        simp [*, cs, upsertCalls, upsertWith, Store.get_create]
    | some e =>
      have he : e.name = desired.name := Store.get_name ho
      simp only [ho, updateApplicationDefinition, patchObject, he] at hr
      split_ifs at hr <;> subst hr <;>
        refine ⟨rfl, ?_, ?_, fun m => ?_, by simp [ReconcileError.isRequeue]⟩ <;>
        (try split_ifs with hm) <;> (try subst hm) <;>
        simp [*, cs, upsertCalls, upsertWith, Store.get_replace, apply_mergeFrom_self]

/-- `st'` is `st` with the calls `cs` made: an error was added exactly when one of them failed,
and none of the added errors asks for a requeue. -/
structure Extends (faults : Faults) (st st' : PassState) (cs : List Call) : Prop where
  calls : st'.calls = st.calls ++ cs
  errs : ∃ es, st'.errs = st.errs ++ es ∧ (es = [] ↔ ∀ c ∈ cs, faults c = false) ∧
    ∀ e ∈ es, e.isRequeue = false

theorem Extends.refl (faults : Faults) (st : PassState) : Extends faults st st [] :=
  ⟨by simp, ⟨[], by simp, by simp, by simp⟩⟩

theorem Extends.trans {faults : Faults} {st₁ st₂ st₃ : PassState} {cs₁ cs₂ : List Call}
    (h₁ : Extends faults st₁ st₂ cs₁) (h₂ : Extends faults st₂ st₃ cs₂) :
    Extends faults st₁ st₃ (cs₁ ++ cs₂) := by
  obtain ⟨hc₁, es₁, he₁, hf₁, hr₁⟩ := h₁
  obtain ⟨hc₂, es₂, he₂, hf₂, hr₂⟩ := h₂
  refine ⟨by simp [hc₁, hc₂], es₁ ++ es₂, by simp [he₁, he₂], ?_, ?_⟩
  · simp [hf₁, hf₂, or_imp, forall_and]
  · exact fun e he => (List.mem_append.mp he).elim (hr₁ e) (hr₂ e)

/-- An added error option, wrapped: present exactly when a call failed. -/
private theorem extends_of_option {faults : Faults} {st st' : PassState} {cs : List Call}
    (err : Option ReconcileError) (hc : st'.calls = st.calls ++ cs)
    (he : st'.errs = st.errs ++ err.toList) (hf : err.isSome ↔ ∃ c ∈ cs, faults c)
    (hr : ∀ e, err = some e → e.isRequeue = false) : Extends faults st st' cs := by
  refine ⟨hc, err.toList, he, ?_, fun e h => hr e (by simpa using h)⟩
  cases err <;> simp_all

theorem chartStep_spec (σ : VersionSort) (faults : Faults) (catalog : ApplicationCatalog)
    (st : PassState) (chart : ChartConfig) :
    let d := convertChartToApplicationDefinition catalog chart
    Extends faults st (chartStep σ faults catalog st chart)
        (upsertCalls faults d (st.store.get d.name)) ∧
      ∀ m, (chartStep σ faults catalog st chart).store.get m =
        if m = d.name then upsertWith σ faults d (st.store.get m) else st.store.get m := by
  intro d
  obtain ⟨he, hc, hf, hg, hr⟩ := reconcileApplicationDefinition_spec σ faults st d
  refine ⟨extends_of_option ((reconcileApplicationDefinition σ faults st d).2.map
    (.chart chart.chartName)) hc (by simp [chartStep, he, d]) (by simpa using hf) ?_, hg⟩
  intro e h
  obtain ⟨e', h', rfl⟩ := Option.map_eq_some'.mp h
  simpa [ReconcileError.isRequeue] using hr e' h'

/-- The converted entries that produce the name `m`, in catalog order. -/
def entriesFor (catalog : ApplicationCatalog) (charts : List ChartConfig) (m : String) :
    List ApplicationDefinition :=
  (charts.map (convertChartToApplicationDefinition catalog)).filter (·.name = m)

/-- The entry loop, name by name: the entries of a name upsert its object in turn. -/
theorem foldl_chartStep_get (σ : VersionSort) (faults : Faults) (catalog : ApplicationCatalog)
    (charts : List ChartConfig) (st : PassState) (m : String) :
    (charts.foldl (chartStep σ faults catalog) st).store.get m =
      (entriesFor catalog charts m).foldl (fun o d => upsertWith σ faults d o) (st.store.get m) := by
  induction charts generalizing st with
  | nil => rfl
  | cons chart charts ih =>
    rw [List.foldl_cons, ih, (chartStep_spec σ faults catalog st chart).2 m]
    by_cases hm : m = chart.getAppName
    · simp [entriesFor, hm]
    · simp [entriesFor, hm, Ne.symm hm]

theorem foldl_chartStep_extends (σ : VersionSort) (faults : Faults) (catalog : ApplicationCatalog)
    (charts : List ChartConfig) (st : PassState) :
    ∃ cs, Extends faults st (charts.foldl (chartStep σ faults catalog) st) cs := by
  induction charts generalizing st with
  | nil => exact ⟨[], Extends.refl faults st⟩
  | cons chart charts ih =>
    obtain ⟨cs, h⟩ := ih (chartStep σ faults catalog st chart)
    exact ⟨_, (chartStep_spec σ faults catalog st chart).1.trans h⟩

/-- The orphan cleanup of one object: both ownership labels go, unless the patch fails. -/
def unmanageWith (faults : Faults) (a : ApplicationDefinition) : ApplicationDefinition :=
  if faults (.patch a.name) then a else unmanaged a

@[simp] theorem unmanageWith_name (faults : Faults) (a : ApplicationDefinition) :
    (unmanageWith faults a).name = a.name := by
  unfold unmanageWith; split_ifs <;> rfl

theorem orphanStep_spec (faults : Faults) (gen : Option (List String)) (st : PassState)
    {a : ApplicationDefinition} (ha : st.store.get a.name = some a) :
    Extends faults st (orphanStep faults gen st a)
        (if isOrphan gen a.name then [.patch a.name] else []) ∧
      ∀ m, (orphanStep faults gen st a).store.get m =
        if m = a.name ∧ isOrphan gen a.name then some (unmanageWith faults a) else st.store.get m := by
  unfold orphanStep
  by_cases ho : isOrphan gen a.name = true
  · simp only [ho, if_true, and_true]
    by_cases hp : faults (.patch a.name) = true
    · have hr : removeManagedLabels faults st.store a = (st.store, some (.failed (.patch a.name))) := by
        simp [removeManagedLabels, patchObject, hp]
      refine ⟨extends_of_option (some (.unmanage a.name (.failed (.patch a.name))))
        (by simp) (by simp [hr]) (by simp [hp]) (by simp [ReconcileError.isRequeue]), fun m => ?_⟩
      simp only [hr, unmanageWith, hp, if_true]
      split_ifs with hm
      · rw [hm, ha]
      · rfl
    · have hp' : faults (.patch a.name) = false := by simpa using hp
      have hr : removeManagedLabels faults st.store a = (st.store.replace (unmanaged a), none) :=
        patchObject_of_get faults unmanaged ha rfl hp'
      refine ⟨extends_of_option none (by simp) (by simp [hr]) (by simp [hp'])
        (by simp), fun m => ?_⟩
      simp only [hr, Store.get_replace, unmanageWith, hp', Bool.false_eq_true, if_false,
        unmanaged_name]
      split_ifs with hm
      · rw [hm, ha]; rfl
      · rfl
  · simp only [ho, Bool.false_eq_true, if_false, and_false]
    exact ⟨Extends.refl faults st, fun m => by simp⟩

theorem foldl_orphanStep_spec (faults : Faults) (gen : Option (List String))
    (L : List ApplicationDefinition) (st : PassState) (hL : ∀ a ∈ L, st.store.get a.name = some a)
    (hnd : (L.map (·.name)).Nodup) :
    Extends faults st (L.foldl (orphanStep faults gen) st)
        ((L.filter fun a => isOrphan gen a.name).map fun a => .patch a.name) ∧
      ∀ m, (L.foldl (orphanStep faults gen) st).store.get m =
        if m ∈ L.map (·.name) ∧ isOrphan gen m then (st.store.get m).map (unmanageWith faults)
        else st.store.get m := by
  induction L generalizing st with
  | nil => exact ⟨Extends.refl faults st, fun m => by simp⟩
  | cons a L ih =>
    have ha := hL a (List.mem_cons_self _ _)
    obtain ⟨hstep, hget⟩ := orphanStep_spec faults gen st ha
    simp only [List.map_cons, List.nodup_cons, List.mem_map] at hnd
    have hL' : ∀ b ∈ L, (orphanStep faults gen st a).store.get b.name = some b := by
      intro b hb
      have hne : b.name ≠ a.name := fun h => hnd.1 ⟨b, hb, h⟩
      simpa [hget, hne] using hL b (List.mem_cons_of_mem _ hb)
    obtain ⟨hcs, hrest⟩ := ih _ hL' hnd.2
    refine ⟨?_, fun m => ?_⟩
    · convert hstep.trans hcs using 1
      by_cases ho : isOrphan gen a.name = true <;> simp [List.filter_cons, ho]
    rw [List.foldl_cons, hrest, hget]
    by_cases hm : m = a.name
    · subst hm
      have hnot : a.name ∉ L.map (·.name) := fun h => hnd.1 (List.mem_map.mp h)
      by_cases ho : isOrphan gen a.name = true <;> simp [hnot, ho, ha]
    · simp [hm]

theorem anyRequeue_eq_false {es : List ReconcileError} (h : ∀ e ∈ es, e.isRequeue = false) :
    anyRequeue es = false := by
  induction es with
  | nil => rfl
  | cons e es ih =>
    simp only [anyRequeue, h e (List.mem_cons_self _ _), Bool.false_or]
    exact ih fun e' he' => h e' (List.mem_cons_of_mem _ he')

@[simp] theorem newAggregate_eq_none {errs : List ReconcileError} :
    newAggregate errs = none ↔ errs = [] := by
  simp [newAggregate]

/-- An aggregate asks for a requeue only when one of its errors does. -/
theorem isRequeue_of_newAggregate {errs : List ReconcileError} {e : ReconcileError}
    (h : newAggregate errs = some e) (hrq : ∀ e ∈ errs, e.isRequeue = false) : e.isRequeue = false := by
  simp only [newAggregate, Option.ite_none_left_eq_some, Option.some.injEq] at h
  rw [← h.2, ReconcileError.isRequeue, anyRequeue_eq_false hrq]

/-- What the orphan cleanup does to the object named `m`. -/
def orphanGet (faults : Faults) (catalogName : String) (gen : Option (List String)) (m : String)
    (o : Option ApplicationDefinition) : Option ApplicationDefinition :=
  if faults (.list labelApplicationCatalogName catalogName) = false ∧ isOrphan gen m then
    o.map fun a => if a.labels labelApplicationCatalogName = some catalogName
      then unmanageWith faults a else a
  else o

/-- The calls of the orphan cleanup: the List, then a Patch for every orphan it returned. -/
def orphanCalls (faults : Faults) (s : Store) (catalogName : String) (gen : Option (List String)) :
    List Call :=
  .list labelApplicationCatalogName catalogName ::
    if faults (.list labelApplicationCatalogName catalogName) then []
    else ((s.list labelApplicationCatalogName catalogName).filter fun a => isOrphan gen a.name).map
      fun a => .patch a.name

theorem unmanageOrphans_spec (faults : Faults) (st : PassState) (catalogName : String)
    (gen : Option (List String)) :
    let r := unmanageOrphans faults st catalogName gen
    let cs := orphanCalls faults st.store catalogName gen
    r.1.errs = st.errs ∧ r.1.calls = st.calls ++ cs ∧ (r.2 = none ↔ ∀ c ∈ cs, faults c = false) ∧
      (∀ e, r.2 = some e → e.isRequeue = false) ∧
      ∀ m, r.1.store.get m = orphanGet faults catalogName gen m (st.store.get m) := by
  intro r cs
  have hr : r = unmanageOrphans faults st catalogName gen := rfl
  have hcs : cs = orphanCalls faults st.store catalogName gen := rfl
  clear_value r cs
  subst hcs
  unfold unmanageOrphans at hr
  cases hl : faults (.list labelApplicationCatalogName catalogName) with
  | true =>
    simp only [hl, if_true] at hr
    subst hr
    refine ⟨rfl, by simp [orphanCalls, hl], by simp [orphanCalls, hl],
      by simp [ReconcileError.isRequeue], fun m => ?_⟩
    simp [orphanGet, hl]
  | false =>
    simp only [hl, Bool.false_eq_true, if_false] at hr
    subst hr
    set L := st.store.list labelApplicationCatalogName catalogName
    have hL : ∀ a ∈ L, st.store.get a.name = some a := fun a ha =>
      Store.get_of_mem (Store.mem_list.mp ha).1
    obtain ⟨⟨hc, es, he, hf, hrq⟩, hget⟩ := foldl_orphanStep_spec faults gen L { st with
      calls := st.calls ++ [.list labelApplicationCatalogName catalogName], errs := [] } hL
      (st.store.nodup_list _ _)
    simp only [List.nil_append] at he
    refine ⟨rfl, by simp [hc, orphanCalls, hl, L], ?_, fun e h => isRequeue_of_newAggregate h (he ▸ hrq),
      fun m => ?_⟩
    · simp only [newAggregate_eq_none, he, hf, orphanCalls, hl, List.mem_cons, forall_eq_or_imp,
        true_and, Bool.false_eq_true, if_false, L]
    rw [hget]
    simp only [orphanGet, hl, true_and]
    have hmem : m ∈ L.map (·.name) ↔
        ∃ a, st.store.get m = some a ∧ a.labels labelApplicationCatalogName = some catalogName := by
      simp only [List.mem_map, L, Store.mem_list, Store.get_eq_some]
      constructor
      · rintro ⟨a, ⟨ha, hlab⟩, rfl⟩; exact ⟨a, ⟨ha, rfl⟩, hlab⟩
      · rintro ⟨a, ⟨ha, rfl⟩, hlab⟩; exact ⟨a, ⟨ha, hlab⟩, rfl⟩
    by_cases ho : isOrphan gen m = true
    · cases hg : st.store.get m with
      | none => simp [hmem, hg]
      | some a => by_cases hlab : a.labels labelApplicationCatalogName = some catalogName <;>
          simp [hmem, hg, hlab, ho]
    · simp [ho]

/-- What a pass of the catalog `name` does to the object `o` under the name `m`. -/
def passGet (σ : VersionSort) (faults : Faults) (found : Option ApplicationCatalog) (name : String)
    (m : String) (o : Option ApplicationDefinition) : Option ApplicationDefinition :=
  if faults (.getCatalog name) then o
  else match found with
    | none => orphanGet faults name none m o
    | some catalog =>
      match chartsToReconcile catalog with
      | none => o
      | some charts => orphanGet faults catalog.name (some (generatedApps catalog charts)) m
          ((entriesFor catalog charts m).foldl (fun o d => upsertWith σ faults d o) o)

/-- The pass refines its name-by-name description: each object ends as `passGet` says. -/
theorem reconcile_get (σ : VersionSort) (faults : Faults) (found : Option ApplicationCatalog)
    (name : String) (s : Store) (m : String) :
    (reconcile σ faults found name s).1.store.get m = passGet σ faults found name m (s.get m) := by
  unfold reconcile passGet
  cases faults (.getCatalog name) with
  | true => rfl
  | false =>
    simp only [Bool.false_eq_true, if_false]
    cases found with
    | none => exact (unmanageOrphans_spec faults _ name none).2.2.2.2 m
    | some catalog =>
      dsimp only
      cases chartsToReconcile catalog with
      | none => rfl
      | some charts =>
        exact ((unmanageOrphans_spec faults _ catalog.name _).2.2.2.2 m).trans
          (congrArg _ (foldl_chartStep_get σ faults catalog charts _ m))

private theorem toList_eq_nil {α : Type} {o : Option α} : o.toList = [] ↔ o = none := by
  cases o <;> simp

/-- The pass waits for the mutating webhook: the catalog asked for the defaults and has no charts. -/
def Waiting (faults : Faults) (found : Option ApplicationCatalog) (name : String) : Prop :=
  faults (.getCatalog name) = false ∧ ∃ c, found = some c ∧ chartsToReconcile c = none

/-- A pass returns no error exactly when none of its calls failed and it does not wait; it asks for
a requeue exactly when it waits. -/
theorem reconcile_err (σ : VersionSort) (faults : Faults) (found : Option ApplicationCatalog)
    (name : String) (s : Store) :
    let r := reconcile σ faults found name s
    (r.2 = none ↔ (∀ c ∈ r.1.calls, faults c = false) ∧ ¬Waiting faults found name) ∧
      ∀ e, r.2 = some e → (e.isRequeue ↔ Waiting faults found name) := by
  intro r
  have hr : r = reconcile σ faults found name s := rfl
  clear_value r
  unfold reconcile at hr
  cases hg : faults (.getCatalog name) with
  | true =>
    simp only [hg, if_true] at hr
    subst hr
    simp [Waiting, hg, ReconcileError.isRequeue]
  | false =>
    simp only [hg, Bool.false_eq_true, if_false] at hr
    cases found with
    | none =>
      obtain ⟨-, hc, hn, hrq, -⟩ := unmanageOrphans_spec faults
        { store := s, calls := [.getCatalog name], errs := [] } name none
      subst hr
      refine ⟨?_, fun e he => by simp [hrq e he, Waiting]⟩
      simp [handleDeletion, hc, hn, hg, Waiting]
    | some catalog =>
      cases hch : chartsToReconcile catalog with
      | none =>
        simp only [hch] at hr
        subst hr
        simp [Waiting, hg, hch, ReconcileError.isRequeue]
      | some charts =>
        simp only [hch] at hr
        subst hr
        obtain ⟨cs₁, hc₁, es, he, hf, hrq⟩ := foldl_chartStep_extends σ faults catalog charts
          { store := s, calls := [.getCatalog name], errs := [] }
        obtain ⟨he₂, hc₂, hn₂, hrq₂, -⟩ := unmanageOrphans_spec faults
          (charts.foldl (chartStep σ faults catalog) { store := s, calls := [.getCatalog name], errs := [] })
          catalog.name (some (generatedApps catalog charts))
        have hnw : ¬Waiting faults (some catalog) name := by simp [Waiting, hch]
        refine ⟨?_, fun e h => iff_of_false ?_ hnw⟩
        · simp only [newAggregate_eq_none, he₂, he, List.nil_append, List.append_eq_nil, toList_eq_nil,
            hf, hn₂, hc₂, hc₁, hnw, not_false_eq_true, and_true, List.forall_mem_append,
            List.forall_mem_singleton, hg, true_and]
        · rw [isRequeue_of_newAggregate h fun e he' => ?_]
          · exact Bool.false_ne_true
          rcases List.mem_append.mp he' with he' | he'
          · exact hrq e (by simpa [he₂, he] using he')
          · exact hrq₂ e (by simpa using he')

/-- The controller's answer to a pass: a requeue after ten seconds while the pass waits; otherwise
the configured interval, or none if it is not positive, when every call succeeded, and an error
when one failed. -/
theorem Reconcile_outcome (cfg : ControllerConfig) (σ : VersionSort) (faults : Faults)
    (found : Option ApplicationCatalog) (name : String) (s : Store) :
    let r := Reconcile cfg σ faults found name s
    (Waiting faults found name → r.2 = .ok ⟨10⟩) ∧
      (¬Waiting faults found name → r.2.toOption =
        if ∀ c ∈ r.1.calls, faults c = false then some ⟨max cfg.reconciliationInterval 0⟩ else none) := by
  obtain ⟨hnone, hreq⟩ := reconcile_err σ faults found name s
  simp only [Reconcile]
  cases h : (reconcile σ faults found name s).2 with
  | none =>
    obtain ⟨hc, hw⟩ := hnone.mp h
    refine ⟨fun h' => absurd h' hw, fun _ => ?_⟩
    rw [if_pos hc]
    simp only [Except.toOption, Option.some.injEq, Result.mk.injEq]
    split_ifs <;> omega
  | some e =>
    by_cases hw : Waiting faults found name
    · simp [hw, (hreq e h).mpr hw]
    · have hrq : e.isRequeue = false := by simpa using mt (hreq e h).mp hw
      have hc : ¬∀ c ∈ (reconcile σ faults found name s).1.calls, faults c = false :=
        fun hc => by simp [hnone.mpr ⟨hc, hw⟩] at h
      simp [hw, hrq, hc, Except.toOption]

end AppCatalog.Synchronizer

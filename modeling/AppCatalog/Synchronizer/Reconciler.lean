import AppCatalog.Kubernetes.Client
import AppCatalog.Synchronizer.Converter
import AppCatalog.Synchronizer.Versions

/-! The reconcile pass of one ApplicationCatalog: upsert the ApplicationDefinition of every entry,
then take the ownership labels off every object of the catalog that no entry produced. -/
namespace AppCatalog.Synchronizer
open Kubernetes

/-- The errors of a pass, one constructor for each place the code makes or wraps one. -/
inductive ReconcileError where
  | requeueAfter10Secs
  | getApplicationCatalog
  | getApplicationDefinition (name : String)
  | client (err : ClientError)
  | chart (chartName : String) (err : ReconcileError)
  | listApplicationDefinitions
  | unmanage (name : String) (err : ClientError)
  | aggregate (errs : List ReconcileError)
  deriving Repr

mutual
/-- `errors.Is(err, errRequeueAfter10Secs)`, looking through wrapped and aggregated errors. -/
def ReconcileError.isRequeue : ReconcileError → Bool
  | .requeueAfter10Secs => true
  | .chart _ e => e.isRequeue
  | .aggregate es => anyRequeue es
  | _ => false

def anyRequeue : List ReconcileError → Bool
  | [] => false
  | e :: es => e.isRequeue || anyRequeue es
end

/-- `kerrors.NewAggregate`: no error for an empty list. -/
def newAggregate (errs : List ReconcileError) : Option ReconcileError :=
  if errs.isEmpty then none else some (.aggregate errs)

/-- What a part of a pass leaves: the store, the calls it made in order, and the errors. -/
structure PassState where
  store : Store
  calls : List Call
  errs : List ReconcileError

/-- The closure `updateApplicationDefinition` hands to `PatchObject`: ensure the catalog's labels
and annotations, promote the fields the cluster owns into `desired`, then replace the spec. -/
def promotePreservedFields (σ : VersionSort) (desired existing : ApplicationDefinition) :
    ApplicationDefinition :=
  { existing with
    labels := ensureLabels existing.labels desired.labels
    annotations := ensureLabels existing.annotations desired.annotations
    spec :=
      { desired.spec with
        enforced := existing.spec.enforced || desired.spec.enforced
        default := existing.spec.default || desired.spec.default
        selector := { datacenters := if existing.spec.selector.datacenters.isSome
          then existing.spec.selector.datacenters else desired.spec.selector.datacenters }
        defaultValuesBlock :=
          if existing.spec.defaultValuesBlock != "" && existing.spec.defaultValuesBlock != "{}"
          then existing.spec.defaultValuesBlock else desired.spec.defaultValuesBlock
        versions := sortedMerge σ existing.spec.versions desired.spec.versions } }

@[simp] theorem promotePreservedFields_name (σ : VersionSort) (desired existing : ApplicationDefinition) :
    (promotePreservedFields σ desired existing).name = existing.name := rfl

def updateApplicationDefinition (σ : VersionSort) (faults : Faults) (s : Store)
    (existing desired : ApplicationDefinition) : Store × Option ReconcileError :=
  let r := patchObject faults s existing (promotePreservedFields σ desired)
  (r.1, r.2.map .client)

/-- Create the object if it is missing, skip it if another system manages it, else update it. -/
def reconcileApplicationDefinition (σ : VersionSort) (faults : Faults) (st : PassState)
    (desired : ApplicationDefinition) : PassState × Option ReconcileError :=
  let calls := st.calls ++ [.get desired.name]
  if faults (.get desired.name) then
    ({ st with calls }, some (.getApplicationDefinition desired.name))
  else match st.store.get desired.name with
    | none =>
      let r := createObject faults st.store desired
      ({ st with store := r.1, calls := calls ++ [.create desired.name] }, r.2.map .client)
    | some existing =>
      if isSystemApplication existing then ({ st with calls }, none)
      else
        let r := updateApplicationDefinition σ faults st.store existing desired
        ({ st with store := r.1, calls := calls ++ [.patch existing.name] }, r.2)

/-- One turn of the entry loop of `reconcile`. -/
def chartStep (σ : VersionSort) (faults : Faults) (catalog : ApplicationCatalog) (st : PassState)
    (chart : ChartConfig) : PassState :=
  let r := reconcileApplicationDefinition σ faults st (convertChartToApplicationDefinition catalog chart)
  { r.1 with errs := r.1.errs ++ (r.2.map (.chart chart.chartName)).toList }

/-- An object with both ownership labels deleted. -/
def unmanaged (appDef : ApplicationDefinition) : ApplicationDefinition :=
  { appDef with labels := withoutOwnership appDef.labels }

@[simp] theorem unmanaged_name (appDef : ApplicationDefinition) :
    (unmanaged appDef).name = appDef.name := rfl

@[simp] theorem unmanaged_unmanaged (appDef : ApplicationDefinition) :
    unmanaged (unmanaged appDef) = unmanaged appDef := by
  simp only [unmanaged, ApplicationDefinition.mk.injEq, and_true, true_and]
  refine Labels.ext fun k => ?_
  by_cases hk : k = labelManagedByApplicationCatalog ∨ k = labelApplicationCatalogName <;>
    simp [withoutOwnership, hk]

/-- The label of another system is not an ownership label. -/
@[simp] theorem isSystemApplication_unmanaged (appDef : ApplicationDefinition) :
    isSystemApplication (unmanaged appDef) = isSystemApplication appDef := by
  simp [isSystemApplication, unmanaged, withoutOwnership, labelManagedByApplicationCatalog,
    labelApplicationCatalogName]

def removeManagedLabels (faults : Faults) (s : Store) (appDef : ApplicationDefinition) :
    Store × Option ClientError :=
  patchObject faults s appDef unmanaged

/-- `generatedApps == nil || !generatedApps[appDef.Name]`. -/
def isOrphan (generatedApps : Option (List String)) (name : String) : Bool :=
  match generatedApps with
  | none => true
  | some apps => name ∉ apps

/-- One turn of the loop of `unmanageOrphans`. -/
def orphanStep (faults : Faults) (generatedApps : Option (List String)) (st : PassState)
    (appDef : ApplicationDefinition) : PassState :=
  if isOrphan generatedApps appDef.name then
    let r := removeManagedLabels faults st.store appDef
    { store := r.1, calls := st.calls ++ [.patch appDef.name],
      errs := st.errs ++ (r.2.map (.unmanage appDef.name)).toList }
  else st

/-- List the catalog's objects and unmanage those not generated in this pass; `none` stands for
the nil map of a deleted catalog, for which every listed object is unmanaged. -/
def unmanageOrphans (faults : Faults) (st : PassState) (catalogName : String)
    (generatedApps : Option (List String)) : PassState × Option ReconcileError :=
  let calls := st.calls ++ [.list labelApplicationCatalogName catalogName]
  if faults (.list labelApplicationCatalogName catalogName) then
    ({ st with calls }, some .listApplicationDefinitions)
  else
    let r := (st.store.list labelApplicationCatalogName catalogName).foldl
      (orphanStep faults generatedApps) { st with calls, errs := [] }
    ({ r with errs := st.errs }, newAggregate r.errs)

def handleDeletion (faults : Faults) (st : PassState) (catalogName : String) :
    PassState × Option ReconcileError :=
  unmanageOrphans faults st catalogName none

/-- The entries a pass converts, or `none` while a catalog that asked for the defaults has no
charts yet (the mutating webhook has not run). -/
def chartsToReconcile (catalog : ApplicationCatalog) : Option (List ChartConfig) :=
  match catalog.getHelmCharts with
  | some charts => some charts
  | none => if catalog.spec.helm.any (·.includeDefaults) then none else some []

/-- The names the entries of a catalog produce. -/
def generatedApps (catalog : ApplicationCatalog) (charts : List ChartConfig) : List String :=
  charts.map fun chart => (convertChartToApplicationDefinition catalog chart).name

/-- The reconcile pass of the catalog `name`; `found` is what the read of the catalog returned. -/
def reconcile (σ : VersionSort) (faults : Faults) (found : Option ApplicationCatalog) (name : String)
    (s : Store) : PassState × Option ReconcileError :=
  let st : PassState := { store := s, calls := [.getCatalog name], errs := [] }
  if faults (.getCatalog name) then (st, some .getApplicationCatalog)
  else match found with
    | none => handleDeletion faults st name
    | some catalog =>
      match chartsToReconcile catalog with
      | none => (st, some .requeueAfter10Secs)
      | some charts =>
        let r := charts.foldl (chartStep σ faults catalog) st
        let o := unmanageOrphans faults r catalog.name (some (generatedApps catalog charts))
        (o.1, newAggregate (o.1.errs ++ o.2.toList))

/-- `ControllerConfig`: whether `Log` is set, and `ReconciliationInterval` in seconds, which a
`time.Duration` lets be negative. -/
structure ControllerConfig where
  hasLog : Bool
  reconciliationInterval : Int
  deriving DecidableEq, Repr

/-- `validate`: the error it returns, if any. -/
def ControllerConfig.validate (c : ControllerConfig) : Option String :=
  if !c.hasLog then some "log cannot be nil"
  else if c.reconciliationInterval < 0 then some "reconciliation interval must be a non-negative duration"
  else none

/-- `Add`'s checks of its config before it builds the controller: the error it returns, if any. -/
def add (cfg : Option ControllerConfig) : Option String :=
  match cfg with
  | none => some "failed to instantiate controller: config is nil"
  | some c => c.validate.map ("failed to instantiate controller: " ++ ·)

/-- `Add` accepts exactly a config with a logger and an interval that is not negative. -/
theorem add_eq_none_iff (cfg : Option ControllerConfig) :
    add cfg = none ↔ ∃ c, cfg = some c ∧ c.hasLog = true ∧ 0 ≤ c.reconciliationInterval := by
  cases cfg with
  | none => simp [add]
  | some c =>
    cases hl : c.hasLog
    · simp [add, ControllerConfig.validate, hl]
    · by_cases hi : c.reconciliationInterval < 0
      · simp [add, ControllerConfig.validate, hl, hi]
      · simp [add, ControllerConfig.validate, hl, hi, not_lt.mp hi]

example : add (some ⟨true, -60⟩) =
    some "failed to instantiate controller: reconciliation interval must be a non-negative duration" := by
  decide

/-- `reconcile.Result`: `requeueAfter = 0` asks for no requeue. -/
structure Result where
  requeueAfter : Int
  deriving DecidableEq, Repr

/-- The controller's entry point: a requeue request is not an error, any other error is. -/
def Reconcile (cfg : ControllerConfig) (σ : VersionSort) (faults : Faults)
    (found : Option ApplicationCatalog) (name : String) (s : Store) :
    PassState × Except ReconcileError Result :=
  let r := reconcile σ faults found name s
  (r.1, match r.2 with
    | some err => if err.isRequeue then .ok ⟨10⟩ else .error err
    | none => .ok ⟨if cfg.reconciliationInterval > 0 then cfg.reconciliationInterval else 0⟩)

end AppCatalog.Synchronizer

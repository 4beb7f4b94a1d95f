import AppCatalog.Synchronizer.Frame

/-! An update racing an external write. The merge patch is computed from the copy the reconciler
read and carries no resourceVersion, so the server applies it to whatever it holds by then. -/
namespace AppCatalog.Synchronizer
open Kubernetes

/-- What an update computed from `read` as `p` leaves as `b` on a server that held `cur`: the
server's `enforced`, `default` and datacenters, and its values block and versions unless `p`
changed them, in which case `p`'s. -/
structure InterleavedUpdate (read cur p b : ApplicationDefinition) : Prop where
  enforced : b.spec.enforced = cur.spec.enforced
  default : b.spec.default = cur.spec.default
  datacenters : b.spec.selector.datacenters = cur.spec.selector.datacenters
  defaultValuesBlock : b.spec.defaultValuesBlock =
    if read.spec.defaultValuesBlock = p.spec.defaultValuesBlock then cur.spec.defaultValuesBlock
    else p.spec.defaultValuesBlock
  versions : b.spec.versions =
    if read.spec.versions = p.spec.versions then cur.spec.versions else p.spec.versions

/-- The update of one entry, computed from the copy `read` and applied to the object `cur` the
server holds when the patch arrives, whatever was written in between. -/
theorem updateApplicationDefinition_interleaved (σ : VersionSort) (faults : Faults) {s : Store}
    {read cur : ApplicationDefinition} (catalog : ApplicationCatalog) (chart : ChartConfig)
    (hcur : s.get read.name = some cur) (hf : faults (.patch read.name) = false) :
    ∃ b, (updateApplicationDefinition σ faults s read
        (convertChartToApplicationDefinition catalog chart)).1.get read.name = some b ∧
      InterleavedUpdate read cur
        (promotePreservedFields σ (convertChartToApplicationDefinition catalog chart) read) b := by
  have hname : cur.name = read.name := Store.get_name hcur
  refine ⟨(mergeFrom read (promotePreservedFields σ (convertChartToApplicationDefinition catalog chart)
    read)).apply cur, ?_, ⟨?_, ?_, ?_, ?_, ?_⟩⟩
  · simp only [updateApplicationDefinition, patchObject, hf, Bool.false_eq_true, if_false, hcur,
      Store.get_replace, MergePatch.apply_name, hname, if_true, Option.map_some']
  all_goals simp only [MergePatch.apply, mergeFrom, getD_diffField]
  · simp [promotePreservedFields, convertChartToApplicationDefinition]
  · simp [promotePreservedFields, convertChartToApplicationDefinition]
  · by_cases h : read.spec.selector.datacenters.isSome = true
    · simp [promotePreservedFields, h]
    · have h' : read.spec.selector.datacenters = none := by simpa using h
      simp [promotePreservedFields, convertChartToApplicationDefinition, h']

/-- The chart `nginx` as the catalog first listed it: no values block, one version. -/
def nginxChartV1 : ChartConfig := ⟨"nginx", none, none, "", [⟨"1.0.0", "v1.0.0", none⟩]⟩

/-- The next version of the entry: a values block and a second version. -/
def nginxChartV2 : ChartConfig :=
  ⟨"nginx", none, none, "replicaCount: 1", [⟨"1.0.0", "v1.0.0", none⟩, ⟨"2.0.0", "v2.0.0", none⟩]⟩

/-- The object as the reconciler reads it. -/
def readCopy : ApplicationDefinition := convertChartToApplicationDefinition emptyCatalog nginxChartV1

/-- The object after a user, between the read and the patch, customizes the values block and adds
a version. -/
def userEdit : ApplicationDefinition :=
  { readCopy with
    spec := { readCopy.spec with
      defaultValuesBlock := "replicaCount: 5"
      versions := readCopy.spec.versions ++ [⟨"v0.9.0", none⟩] } }

/-- The store the reconciler read, and the store its patch reaches. -/
def readStore : Store := ⟨[readCopy], List.nodup_singleton _⟩

def editedStore : Store := readStore.replace userEdit

/-- The update computed from the read copy overwrites the customized values block and removes the
version the user added. -/
theorem patch_overwrites_concurrent_edit :
    readStore.get "nginx" = some readCopy ∧
      (editedStore.get "nginx").map (·.spec.defaultValuesBlock) = some "replicaCount: 5" ∧
      (editedStore.get "nginx").map (keys ·.spec.versions) = some ["v1.0.0", "v0.9.0"] ∧
      ((updateApplicationDefinition insertionVersionSort noFaults editedStore readCopy
        (convertChartToApplicationDefinition emptyCatalog nginxChartV2)).1.get "nginx").map
        (·.spec.defaultValuesBlock) = some "replicaCount: 1" ∧
      ((updateApplicationDefinition insertionVersionSort noFaults editedStore readCopy
        (convertChartToApplicationDefinition emptyCatalog nginxChartV2)).1.get "nginx").map
        (keys ·.spec.versions) = some ["v1.0.0", "v2.0.0"] :=
  ⟨rfl, by decide, by decide, by decide, by decide⟩

theorem updateApplicationDefinition_interleaved_userEdit :
    editedStore.get readCopy.name = some userEdit ∧ noFaults (.patch readCopy.name) = false ∧
      ∃ b, (updateApplicationDefinition insertionVersionSort noFaults editedStore readCopy
          (convertChartToApplicationDefinition emptyCatalog nginxChartV2)).1.get readCopy.name = some b ∧
        InterleavedUpdate readCopy userEdit (promotePreservedFields insertionVersionSort
          (convertChartToApplicationDefinition emptyCatalog nginxChartV2) readCopy) b :=
  ⟨rfl, rfl, updateApplicationDefinition_interleaved insertionVersionSort noFaults emptyCatalog
    nginxChartV2 rfl rfl⟩

/-- The listed copy carries labels, and only the two ownership labels, so that its unmanaged copy
carries none. -/
def OnlyOwnershipLabels (labels : Labels) : Prop :=
  labels.keys.Nonempty ∧ labels.keys ⊆ {labelManagedByApplicationCatalog, labelApplicationCatalogName}

instance : DecidablePred OnlyOwnershipLabels := fun _ => inferInstanceAs (Decidable (_ ∧ _))

/-- The unmanaged copy of a map is empty, and the map is not, exactly when the map carries only
ownership labels: then `client.MergeFrom` sends `labels: null`. -/
theorem withoutOwnership_emptied (labels : Labels) :
    ((withoutOwnership labels).keys = ∅ ∧ labels.keys ≠ ∅) ↔ OnlyOwnershipLabels labels := by
  rw [OnlyOwnershipLabels, Finset.nonempty_iff_ne_empty, and_comm, Labels.keys_eq_empty_iff,
    Labels.keys_subset_iff]
  refine and_congr_right fun _ => forall_congr' fun k => ?_
  by_cases hk : k = labelManagedByApplicationCatalog ∨ k = labelApplicationCatalogName
  · rcases hk with rfl | rfl <;> simp
  · simp only [not_or] at hk
    simp [withoutOwnership, hk]

/-- Key by key, the patch from a map to its unmanaged copy deletes the ownership labels the map
had, and leaves every other key of the map it is applied to. -/
theorem getD_diffField_withoutOwnership (labels cur : Labels) (k : String) :
    (diffField (labels k) (withoutOwnership labels k)).getD (cur k) =
      if (labels k).isSome ∧ (k = labelManagedByApplicationCatalog ∨ k = labelApplicationCatalogName)
      then none else cur k := by
  by_cases hk : k = labelManagedByApplicationCatalog ∨ k = labelApplicationCatalogName
  · rcases hk with rfl | rfl
    · cases h : labels labelManagedByApplicationCatalog <;> simp [h]
    · cases h : labels labelApplicationCatalogName <;> simp [h]
  · simp [withoutOwnership, hk]

/-- The orphan cleanup's patch, computed from the listed copy `read` and applied to the object `cur`
the server holds when it arrives, keeps `cur`'s annotations and spec. It deletes from `cur` exactly
the ownership labels `read` carried, so that a label written in between survives; but when `read`
carries only ownership labels the patch is `labels: null`, and every label of `cur` goes, those
written in between too. -/
theorem removeManagedLabels_interleaved (faults : Faults) {s : Store} {read cur : ApplicationDefinition}
    (hcur : s.get read.name = some cur) (hf : faults (.patch read.name) = false) :
    ∃ b, (removeManagedLabels faults s read).1.get read.name = some b ∧ b.name = cur.name ∧
      b.annotations = cur.annotations ∧ b.spec = cur.spec ∧
      ∀ k, b.labels k = if OnlyOwnershipLabels read.labels then none
        else if (read.labels k).isSome ∧
          (k = labelManagedByApplicationCatalog ∨ k = labelApplicationCatalogName) then none
        else cur.labels k := by
  have hname : cur.name = read.name := Store.get_name hcur
  refine ⟨(mergeFrom read (unmanaged read)).apply cur, ?_, rfl, ?_, ?_, fun k => ?_⟩
  · simp only [removeManagedLabels, patchObject, hf, Bool.false_eq_true, if_false, hcur,
      Store.get_replace, MergePatch.apply_name, hname, if_true, Option.map_some']
  · simp [MergePatch.apply, mergeFrom, unmanaged]
  · simp [MergePatch.apply, mergeFrom, unmanaged]
  · simp only [MergePatch.apply, mergeFrom, unmanaged, apply_mapPatch, withoutOwnership_emptied,
      getD_diffField_withoutOwnership]

/-- A label the user puts on the object between the List and the Patch of the cleanup. -/
def labelledEdit : ApplicationDefinition := { readCopy with labels := readCopy.labels.insert "team" "x" }

def labelledStore : Store := readStore.replace labelledEdit

theorem removeManagedLabels_interleaved_labelledEdit :
    labelledStore.get readCopy.name = some labelledEdit ∧ noFaults (.patch readCopy.name) = false ∧
      OnlyOwnershipLabels readCopy.labels ∧
      ∃ b, (removeManagedLabels noFaults labelledStore readCopy).1.get readCopy.name = some b ∧
        b.name = labelledEdit.name ∧ b.annotations = labelledEdit.annotations ∧
        b.spec = labelledEdit.spec ∧
        ∀ k, b.labels k = if OnlyOwnershipLabels readCopy.labels then none
          else if (readCopy.labels k).isSome ∧
            (k = labelManagedByApplicationCatalog ∨ k = labelApplicationCatalogName) then none
          else labelledEdit.labels k :=
  ⟨rfl, rfl, by decide, removeManagedLabels_interleaved noFaults rfl rfl⟩

end AppCatalog.Synchronizer

import AppCatalog.Api.Definition

/-! JSON merge patches of ApplicationDefinitions: computed by `client.MergeFrom` from a copy
read earlier, applied by the server to the object it holds when the patch arrives. -/
namespace AppCatalog.Kubernetes

/-- One field of a merge patch: the new value where it differs from the old, else nothing. -/
def diffField {α : Type} [DecidableEq α] (old new : α) : Option α :=
  if old = new then none else some new

@[simp] theorem getD_diffField {α : Type} [DecidableEq α] (old new cur : α) :
    (diffField old new).getD cur = if old = new then cur else new := by
  unfold diffField; split_ifs <;> rfl

theorem getD_diffField_self {α : Type} [DecidableEq α] (old new : α) :
    (diffField old new).getD old = new := by
  simp only [getD_diffField]; split_ifs with h <;> simp [h]

/-- The patch of a label or annotation map. `ObjectMeta` marshals both maps with `omitempty`, so a
map that the change empties is absent from the new JSON and the patch carries `null`, which drops
the whole map on the server; otherwise the map is patched key by key (`some none` deletes a key),
touching only keys in `touched`. -/
inductive MapPatch where
  | null
  | keys (diff : String → Option (Option String)) (touched : Finset String)
      (untouched : ∀ k, k ∉ touched → diff k = none)

/-- The patch `client.MergeFrom` computes for a map from `old` to `new`. -/
def mapPatch (old new : Labels) : MapPatch :=
  if new.keys = ∅ ∧ old.keys ≠ ∅ then .null
  else .keys (fun k => diffField (old k) (new k)) (old.keys ∪ new.keys) fun k hk => by
    rw [Finset.mem_union, not_or, old.mem_keys, new.mem_keys, Option.not_isSome_iff_eq_none,
      Option.not_isSome_iff_eq_none] at hk
    simp [diffField, hk.1, hk.2]

/-- The server's merge of a map patch into the map it holds. -/
def MapPatch.apply : MapPatch → Labels → Labels
  | .null, _ => Labels.empty
  | .keys diff touched untouched, cur =>
    { get := fun k => (diff k).getD (cur k)
      keys := (cur.keys ∪ touched).filter fun k => ((diff k).getD (cur k)).isSome
      mem_keys := fun k => by
        rw [Finset.mem_filter, Finset.mem_union, cur.mem_keys]
        by_cases hk : k ∈ touched
        · simp [hk]
        · simp [hk, untouched k hk] }

/-- A key of the merged map: none when the patch drops the map, else the patched key. -/
theorem apply_mapPatch (old new cur : Labels) (k : String) :
    (mapPatch old new).apply cur k =
      if new.keys = ∅ ∧ old.keys ≠ ∅ then none else (diffField (old k) (new k)).getD (cur k) := by
  unfold mapPatch
  split_ifs <;> rfl

/-- A map the change leaves as it was is not patched. -/
@[simp] theorem apply_mapPatch_same (l cur : Labels) : (mapPatch l l).apply cur = cur :=
  Labels.ext fun k => by simp [apply_mapPatch]

/-- A merge patch of the modelled fields. Scalars and lists are replaced whole; so are the three
objects carried by their JSON encoding, which the controller only ever clears. -/
structure MergePatch where
  labels : MapPatch
  annotations : MapPatch
  displayName : Option String
  description : Option String
  method : Option TemplateMethod
  defaultValues : Option (Option String)
  defaultValuesBlock : Option String
  defaultNamespace : Option (Option String)
  defaultDeployOptions : Option (Option String)
  defaultVersion : Option String
  enforced : Option Bool
  default : Option Bool
  datacenters : Option (Option (List String))
  documentationURL : Option String
  sourceURL : Option String
  logo : Option String
  logoFormat : Option String
  versions : Option (List ApplicationVersion)

/-- `client.MergeFrom(old)` sent with `new`: every field in which they differ. -/
def mergeFrom (old new : ApplicationDefinition) : MergePatch where
  labels := mapPatch old.labels new.labels
  annotations := mapPatch old.annotations new.annotations
  displayName := diffField old.spec.displayName new.spec.displayName
  description := diffField old.spec.description new.spec.description
  method := diffField old.spec.method new.spec.method
  defaultValues := diffField old.spec.defaultValues new.spec.defaultValues
  defaultValuesBlock := diffField old.spec.defaultValuesBlock new.spec.defaultValuesBlock
  defaultNamespace := diffField old.spec.defaultNamespace new.spec.defaultNamespace
  defaultDeployOptions := diffField old.spec.defaultDeployOptions new.spec.defaultDeployOptions
  defaultVersion := diffField old.spec.defaultVersion new.spec.defaultVersion
  enforced := diffField old.spec.enforced new.spec.enforced
  default := diffField old.spec.default new.spec.default
  datacenters := diffField old.spec.selector.datacenters new.spec.selector.datacenters
  documentationURL := diffField old.spec.documentationURL new.spec.documentationURL
  sourceURL := diffField old.spec.sourceURL new.spec.sourceURL
  logo := diffField old.spec.logo new.spec.logo
  logoFormat := diffField old.spec.logoFormat new.spec.logoFormat
  versions := diffField old.spec.versions new.spec.versions

/-- The server's merge: a patched field takes the patch's value, every other keeps its own. -/
def MergePatch.apply (p : MergePatch) (cur : ApplicationDefinition) : ApplicationDefinition where
  name := cur.name
  labels := p.labels.apply cur.labels
  annotations := p.annotations.apply cur.annotations
  spec :=
    { displayName := p.displayName.getD cur.spec.displayName
      description := p.description.getD cur.spec.description
      method := p.method.getD cur.spec.method
      defaultValues := p.defaultValues.getD cur.spec.defaultValues
      defaultValuesBlock := p.defaultValuesBlock.getD cur.spec.defaultValuesBlock
      defaultNamespace := p.defaultNamespace.getD cur.spec.defaultNamespace
      defaultDeployOptions := p.defaultDeployOptions.getD cur.spec.defaultDeployOptions
      defaultVersion := p.defaultVersion.getD cur.spec.defaultVersion
      enforced := p.enforced.getD cur.spec.enforced
      default := p.default.getD cur.spec.default
      selector := { datacenters := p.datacenters.getD cur.spec.selector.datacenters }
      documentationURL := p.documentationURL.getD cur.spec.documentationURL
      sourceURL := p.sourceURL.getD cur.spec.sourceURL
      logo := p.logo.getD cur.spec.logo
      logoFormat := p.logoFormat.getD cur.spec.logoFormat
      versions := p.versions.getD cur.spec.versions }

@[simp] theorem MergePatch.apply_name (p : MergePatch) (cur : ApplicationDefinition) :
    (p.apply cur).name = cur.name := rfl

theorem ApplicationDefinition.ext' {a b : ApplicationDefinition} (hn : a.name = b.name)
    (hl : ∀ k, a.labels k = b.labels k) (ha : ∀ k, a.annotations k = b.annotations k)
    (hs : a.spec = b.spec) : a = b := by
  cases a; cases b
  simp only at hn hl ha hs
  subst hn hs
  rw [Labels.ext hl, Labels.ext ha]

/-- Applied to the map it was computed from, a map patch yields the new map. -/
theorem apply_mapPatch_self (old new : Labels) : (mapPatch old new).apply old = new := by
  by_cases h : new.keys = ∅ ∧ old.keys ≠ ∅
  · rw [show mapPatch old new = .null from if_pos h, Labels.eq_empty_of_keys h.1]
    rfl
  · exact Labels.ext fun k => by rw [apply_mapPatch, if_neg h, getD_diffField_self]

/-- Applied to the very object it was computed from, a merge patch yields the modified object. -/
theorem apply_mergeFrom_self (old new : ApplicationDefinition) (h : new.name = old.name) :
    (mergeFrom old new).apply old = new := by
  refine ApplicationDefinition.ext' h.symm (fun k => ?_) (fun k => ?_) ?_ <;>
    simp only [MergePatch.apply, mergeFrom, apply_mapPatch_self, getD_diffField_self]

end AppCatalog.Kubernetes

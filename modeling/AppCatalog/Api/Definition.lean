import AppCatalog.Api.Catalog
import Mathlib.Data.Finset.Basic

/-! The ApplicationDefinition resource, as far as the controller reads and writes it. -/
namespace AppCatalog

/-- A label or annotation map, Go's `map[string]string`: a value for each of finitely many keys.
`get` is the map read, `none` for a missing key. -/
structure Labels where
  get : String → Option String
  keys : Finset String
  mem_keys : ∀ k, k ∈ keys ↔ (get k).isSome

attribute [coe] Labels.get

instance : CoeFun Labels fun _ => String → Option String := ⟨Labels.get⟩

namespace Labels

/-- Two maps with the same reads are the same map. -/
theorem ext {l₁ l₂ : Labels} (h : ∀ k, l₁ k = l₂ k) : l₁ = l₂ := by
  obtain ⟨g₁, s₁, h₁⟩ := l₁
  obtain ⟨g₂, s₂, h₂⟩ := l₂
  obtain rfl : g₁ = g₂ := funext h
  obtain rfl : s₁ = s₂ := Finset.ext fun k => (h₁ k).trans (h₂ k).symm
  rfl

def empty : Labels := ⟨fun _ => none, ∅, by simp⟩

@[simp] theorem empty_apply (k : String) : empty k = none := rfl

/-- `len(m) == 0`: a map with no key reads `none` everywhere. -/
theorem keys_eq_empty_iff {l : Labels} : l.keys = ∅ ↔ ∀ k, l k = none := by
  simp only [Finset.eq_empty_iff_forall_not_mem, l.mem_keys, Option.not_isSome_iff_eq_none]

theorem eq_empty_of_keys {l : Labels} (h : l.keys = ∅) : l = empty :=
  ext (keys_eq_empty_iff.mp h)

theorem keys_subset_iff {l : Labels} {S : Finset String} : l.keys ⊆ S ↔ ∀ k, k ∉ S → l k = none := by
  simp only [Finset.subset_iff, l.mem_keys]
  exact forall_congr' fun k => by cases l k <;> simp

/-- `m[k] = v`. -/
def insert (l : Labels) (k v : String) : Labels where
  get k' := if k' = k then some v else l k'
  keys := Insert.insert k l.keys
  mem_keys k' := by by_cases h : k' = k <;> simp [h, l.mem_keys]

@[simp] theorem insert_apply (l : Labels) (k v k' : String) :
    l.insert k v k' = if k' = k then some v else l k' := rfl

end Labels

structure HelmCredentials where
  username : Option SecretKeySelector
  password : Option SecretKeySelector
  registryConfigFile : Option SecretKeySelector
  deriving DecidableEq, Repr

structure HelmSource where
  url : String
  chartName : String
  chartVersion : String
  credentials : Option HelmCredentials
  deriving DecidableEq, Repr

/-- One entry of `spec.versions`, keyed by `version`; `helm` is `template.source.helm`. -/
structure ApplicationVersion where
  version : String
  helm : Option HelmSource
  deriving DecidableEq, Repr

inductive TemplateMethod where
  | helm
  deriving DecidableEq, Repr

structure DefaultingSelector where
  datacenters : Option (List String)
  deriving DecidableEq, Repr

/-- The spec of KKP's ApplicationDefinition, which is not under src/. `defaultValues`,
`defaultNamespace` and `defaultDeployOptions` are pointers to objects that no code under src/ looks
into; they are carried by their JSON encoding. -/
structure ApplicationDefinitionSpec where
  displayName : String
  description : String
  method : TemplateMethod
  defaultValues : Option String
  defaultValuesBlock : String
  defaultNamespace : Option String
  defaultDeployOptions : Option String
  defaultVersion : String
  enforced : Bool
  default : Bool
  selector : DefaultingSelector
  documentationURL : String
  sourceURL : String
  logo : String
  logoFormat : String
  versions : List ApplicationVersion
  deriving DecidableEq, Repr

structure ApplicationDefinition where
  name : String
  labels : Labels
  annotations : Labels
  spec : ApplicationDefinitionSpec

/-- Carried by ApplicationDefinitions that another system manages. -/
def isSystemApplication (appDef : ApplicationDefinition) : Bool :=
  (appDef.labels "apps.kubermatic.k8c.io/managed-by").isSome

theorem managedBy_ne_catalogName : labelManagedByApplicationCatalog ≠ labelApplicationCatalogName := by
  decide

/-- Modelled from the spec: `EnsureLabels` and `EnsureAnnotations` of internal/pkg/kubernetes are
not under src/. They set every given key to its given value and keep every other key. -/
def ensureLabels (labels toEnsure : Labels) : Labels where
  get k := (toEnsure k).orElse fun _ => labels k
  keys := toEnsure.keys ∪ labels.keys
  mem_keys k := by
    rw [Finset.mem_union, toEnsure.mem_keys, labels.mem_keys]
    cases h : toEnsure k <;> simp [h]

@[simp] theorem ensureLabels_apply (labels toEnsure : Labels) (k : String) :
    ensureLabels labels toEnsure k = (toEnsure k).orElse fun _ => labels k := rfl

/-- The two ownership labels a catalog puts on what it manages. -/
def ownershipLabels (catalogName : String) : Labels where
  get k := if k = labelManagedByApplicationCatalog then some "true"
    else if k = labelApplicationCatalogName then some catalogName else none
  keys := {labelManagedByApplicationCatalog, labelApplicationCatalogName}
  mem_keys k := by
    by_cases h₁ : k = labelManagedByApplicationCatalog <;>
      by_cases h₂ : k = labelApplicationCatalogName <;> simp [h₁, h₂, managedBy_ne_catalogName.symm]

/-- The labels `removeManagedLabels` leaves: both ownership labels deleted. -/
def withoutOwnership (labels : Labels) : Labels where
  get k := if k = labelManagedByApplicationCatalog ∨ k = labelApplicationCatalogName then none
    else labels k
  keys := (labels.keys.erase labelManagedByApplicationCatalog).erase labelApplicationCatalogName
  mem_keys k := by
    by_cases h : k = labelManagedByApplicationCatalog ∨ k = labelApplicationCatalogName
    · rcases h with rfl | rfl <;> simp [managedBy_ne_catalogName, labels.mem_keys]
    · simp only [not_or] at h
      simp [h, labels.mem_keys]

@[simp] theorem ownershipLabels_managedBy (n : String) :
    ownershipLabels n labelManagedByApplicationCatalog = some "true" := by
  simp [ownershipLabels]

@[simp] theorem ownershipLabels_catalogName (n : String) :
    ownershipLabels n labelApplicationCatalogName = some n := by
  simp [ownershipLabels, managedBy_ne_catalogName.symm]

@[simp] theorem withoutOwnership_managedBy (labels : Labels) :
    withoutOwnership labels labelManagedByApplicationCatalog = none := by
  simp [withoutOwnership]

@[simp] theorem withoutOwnership_catalogName (labels : Labels) :
    withoutOwnership labels labelApplicationCatalogName = none := by
  simp [withoutOwnership]

end AppCatalog

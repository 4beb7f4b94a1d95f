import Mathlib.Data.String.Basic

/-! The ApplicationCatalog API: chart entries, repository layers and their resolution. -/
namespace AppCatalog

/-- A reference to one key of a secret; credentials are carried as references only. -/
structure SecretKeySelector where
  name : String
  key : String
  deriving DecidableEq, Repr

structure RepositoryCredentials where
  username : Option SecretKeySelector
  password : Option SecretKeySelector
  registryConfigFile : Option SecretKeySelector
  deriving DecidableEq, Repr

structure RepositorySettings where
  baseURL : String
  credentials : Option RepositoryCredentials
  deriving DecidableEq, Repr

structure ChartMetadata where
  appName : String
  displayName : String
  description : String
  documentationURL : String
  sourceURL : String
  logo : String
  logoFormat : String
  deriving DecidableEq, Repr

structure ChartVersion where
  chartVersion : String
  appVersion : String
  repositorySettings : Option RepositorySettings
  deriving DecidableEq, Repr

structure ChartConfig where
  chartName : String
  metadata : Option ChartMetadata
  repositorySettings : Option RepositorySettings
  defaultValuesBlock : String
  chartVersions : List ChartVersion
  deriving DecidableEq, Repr

/-- `charts = none` is the nil list of the code, distinct from the empty list. -/
structure HelmSpec where
  repositorySettings : Option RepositorySettings
  charts : Option (List ChartConfig)
  includeDefaults : Bool
  deriving DecidableEq, Repr

structure ApplicationCatalogSpec where
  helm : Option HelmSpec
  deriving DecidableEq, Repr

/-- An ApplicationCatalog with the one annotation the validating webhook reads. -/
structure ApplicationCatalog where
  name : String
  annotations : String → Option String
  spec : ApplicationCatalogSpec

/-- Set on ApplicationDefinitions created or managed by the ApplicationCatalog controller. -/
def labelManagedByApplicationCatalog : String := "applicationcatalog.k8c.io/managed-by"

/-- Names the ApplicationCatalog that generated an ApplicationDefinition. -/
def labelApplicationCatalogName : String := "applicationcatalog.k8c.io/catalog-name"

def defaultHelmRepository : String := "oci://quay.io/kubermatic-mirror/helm-charts"

namespace ApplicationCatalog

def getHelmCharts (ac : ApplicationCatalog) : Option (List ChartConfig) :=
  ac.spec.helm.bind (·.charts)

def getGlobalRepositorySettings (ac : ApplicationCatalog) : Option RepositorySettings :=
  ac.spec.helm.bind (·.repositorySettings)

/-- Version-level, then chart-level, then global settings, then the default repository. -/
def resolveChartURL (ac : ApplicationCatalog) (chart : ChartConfig) (version : ChartVersion) :
    String :=
  if let some s := version.repositorySettings.filter (·.baseURL != "") then s.baseURL
  else if let some s := chart.repositorySettings.filter (·.baseURL != "") then s.baseURL
  else if let some s := ac.getGlobalRepositorySettings.filter (·.baseURL != "") then s.baseURL
  else defaultHelmRepository

/-- Credentials are returned only from the layer that sets a base URL. -/
def resolveChartCredentials (ac : ApplicationCatalog) (chart : ChartConfig)
    (version : ChartVersion) : Option RepositoryCredentials :=
  if let some s := version.repositorySettings.filter (·.baseURL != "") then s.credentials
  else if let some s := chart.repositorySettings.filter (·.baseURL != "") then s.credentials
  else if let some s := ac.getGlobalRepositorySettings.filter (·.baseURL != "") then s.credentials
  else none

end ApplicationCatalog

/-- The ApplicationDefinition name of an entry: `metadata.appName` if set, else the chart name. -/
def ChartConfig.getAppName (c : ChartConfig) : String :=
  if let some m := c.metadata.filter (·.appName != "") then m.appName else c.chartName

/-- The identities of the catalog a pass reads: `GetAppName` of each of its entries; an absent
catalog declares none. -/
def declaredIdentities : Option ApplicationCatalog → List String
  | none => []
  | some ac => (ac.getHelmCharts.getD []).map ChartConfig.getAppName

end AppCatalog

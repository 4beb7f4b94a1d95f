import AppCatalog.Api.Definition

/-! Conversion of one catalog entry into the ApplicationDefinition it declares. -/
namespace AppCatalog.Synchronizer

def convertCredentials (creds : Option RepositoryCredentials) : Option HelmCredentials :=
  creds.map fun c =>
    { username := c.username, password := c.password, registryConfigFile := c.registryConfigFile }

/-- One version per chart version, in catalog order, each with its resolved repository. -/
def convertVersions (catalog : ApplicationCatalog) (chart : ChartConfig) : List ApplicationVersion :=
  chart.chartVersions.map fun chartVersion =>
    { version := chartVersion.appVersion
      helm := some
        { chartName := chart.chartName
          chartVersion := chartVersion.chartVersion
          url := catalog.resolveChartURL chart chartVersion
          credentials := convertCredentials (catalog.resolveChartCredentials chart chartVersion) } }

def convertChartToApplicationDefinition (catalog : ApplicationCatalog) (chart : ChartConfig) :
    ApplicationDefinition where
  name := chart.getAppName
  labels := ownershipLabels catalog.name
  annotations := Labels.empty
  spec :=
    { method := .helm
      defaultValues := none
      defaultValuesBlock := chart.defaultValuesBlock
      defaultNamespace := none
      defaultDeployOptions := none
      defaultVersion := ""
      versions := convertVersions catalog chart
      displayName := (chart.metadata.map (·.displayName)).getD ""
      description := (chart.metadata.map (·.description)).getD ""
      documentationURL := (chart.metadata.map (·.documentationURL)).getD ""
      sourceURL := (chart.metadata.map (·.sourceURL)).getD ""
      logo := (chart.metadata.map (·.logo)).getD ""
      logoFormat := (chart.metadata.map (·.logoFormat)).getD ""
      enforced := false
      default := false
      selector := { datacenters := none } }

@[simp] theorem convertChartToApplicationDefinition_name (catalog : ApplicationCatalog)
    (chart : ChartConfig) : (convertChartToApplicationDefinition catalog chart).name = chart.getAppName :=
  rfl

@[simp] theorem convertChartToApplicationDefinition_labels (catalog : ApplicationCatalog)
    (chart : ChartConfig) :
    (convertChartToApplicationDefinition catalog chart).labels = ownershipLabels catalog.name :=
  rfl

theorem convert_not_isSystemApplication (catalog : ApplicationCatalog) (chart : ChartConfig) :
    isSystemApplication (convertChartToApplicationDefinition catalog chart) = false := by
  simp [isSystemApplication, ownershipLabels, labelManagedByApplicationCatalog,
    labelApplicationCatalogName]

end AppCatalog.Synchronizer

import AppCatalog.Api.Catalog
import AppCatalog.Api.Definition
import AppCatalog.Kubernetes.MergePatch
import AppCatalog.Kubernetes.Client
import AppCatalog.Synchronizer.Converter
import AppCatalog.Synchronizer.Versions
import AppCatalog.Synchronizer.Reconciler
import AppCatalog.Synchronizer.Pass
import AppCatalog.Synchronizer.Frame
import AppCatalog.Synchronizer.Failures
import AppCatalog.Synchronizer.Ownership
import AppCatalog.Synchronizer.Convergence
import AppCatalog.Synchronizer.Interleaving
import AppCatalog.Synchronizer.Recovery
import AppCatalog.Admission.Validation
import AppCatalog.Log.Options
import AppCatalog.System.Cluster
import AppCatalog.System.Takeover
import AppCatalog.System.Recovery
import AppCatalog.System.Quiescence
import AppCatalog.System.Serial
import AppCatalog.System.Release

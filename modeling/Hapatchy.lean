import Hapatchy.PatchEngine.WholeLines
import Hapatchy.PatchEngine.Reversal
import Hapatchy.PatchEngine.Reapply
import Hapatchy.PatchEngine.RoundTrip
import Hapatchy.PatchEngine.Unanchored
import Hapatchy.PatchEngine.Endings
import Hapatchy.PatchBuilder.Complete
import Hapatchy.Os.Steps
import Hapatchy.SafeIo
import Hapatchy.SafeIo.Specs
import Hapatchy.Reconciler.Report
import Hapatchy.Reconciler.Retention
import Hapatchy.Reconciler.Again
import Hapatchy.Backup.History
import Hapatchy.Coordinator.Flows
import Hapatchy.Coordinator.Rechecks
import Hapatchy.SourceGraph.Protects
import Hapatchy.SourceScan.Termination
import Hapatchy.SourceScan.Complete
import Hapatchy.Watcher
import Hapatchy.Watcher.Roots
import Hapatchy.Tasks.Unload
import Hapatchy.Tasks.Cancellation
import Hapatchy.Reconciler.Authority
import Hapatchy.Reconciler.Outcome
import Hapatchy.AtomicWriter.Events
import Hapatchy.ManagedSource.Revisions
import Hapatchy.Coordinator.Reverts
import Hapatchy.Coordinator.Durability
import Hapatchy.Coordinator.Versions
import Hapatchy.Coordinator.Reloads
import Hapatchy.Coordinator.Sources
import Hapatchy.Validation.Specs
import Hapatchy.ConfigFlow.Edits

import CommonFabric.JsValue
import CommonFabric.ValuePath
import CommonFabric.Checked
import CommonFabric.Patch
import CommonFabric.PatchFrame
import CommonFabric.Store
import CommonFabric.Scope
import CommonFabric.ClientCommit
import CommonFabric.Reconstruct
import CommonFabric.Conflicts
import CommonFabric.OpFields
import CommonFabric.Streams
import CommonFabric.Worklist
import CommonFabric.ContentAddressed
import CommonFabric.Commit
import CommonFabric.Wave
import CommonFabric.Writes
import CommonFabric.ReadSound
import CommonFabric.Transaction
import CommonFabric.History
import CommonFabric.DocumentCache
import CommonFabric.Branching
import CommonFabric.ContentPass
import CommonFabric.Resubmission
import CommonFabric.ReadCheck
import CommonFabric.PatchAgree
import CommonFabric.RowFrame
import CommonFabric.ReadCoherence
import CommonFabric.PendingCoherence
import CommonFabric.StoredOperations
import CommonFabric.ElidedOperations
import CommonFabric.Elision
import CommonFabric.JsMap
import CommonFabric.ServerSync
import CommonFabric.FieldOrder
import CommonFabric.JsonText
import CommonFabric.WireText
import CommonFabric.LinkSchemas
import CommonFabric.SchemaRefs
import CommonFabric.SchemaTable
import CommonFabric.EventAppendQueue
import CommonFabric.EventAppendOrder
import CommonFabric.AppendOutbox
import CommonFabric.AppendDelivery
import CommonFabric.JsSet
import CommonFabric.Demand
import CommonFabric.SchedulerKeys
import CommonFabric.DependencyGraph
import CommonFabric.TriggerIndex
import CommonFabric.Liveness
import CommonFabric.TriggerTrie
import CommonFabric.AdmissionWaiters
import CommonFabric.BigintBytes
import CommonFabric.TriggerRuns
import CommonFabric.ReactiveDependencies
import CommonFabric.TriggerExactness
import CommonFabric.TriggerReads
import CommonFabric.PatchOverlap
import CommonFabric.PatchShape
import CommonFabric.Invites
import CommonFabric.InviteSteps
import CommonFabric.InviteRuns
import CommonFabric.JsonParse
import CommonFabric.Utf8Text
import CommonFabric.RoutedJson
import CommonFabric.Tarjan
import CommonFabric.TarjanClose
import CommonFabric.TarjanRun
import CommonFabric.ModuleHashes
import CommonFabric.ModuleIdentity
import CommonFabric.ModuleAgreement
import CommonFabric.ListOperations
import CommonFabric.ConflictScan
import CommonFabric.WritePaths
import CommonFabric.CacheAccounting
import CommonFabric.EncodedGrowth
import CommonFabric.AtomicCommit
import CommonFabric.ObservationCeiling
import CommonFabric.ReactivitySoundness
import CommonFabric.DocumentReads
import CommonFabric.ConsumedLabel
import CommonFabric.SpeculationLineage
import CommonFabric.FanOut
import CommonFabric.WorkOracle
import CommonFabric.LabelRepresentation
import CommonFabric.PatternCoverage
import CommonFabric.LabelViewRebase
import CommonFabric.PreparedFacts
import CommonFabric.CommitRates
import CommonFabric.SessionTakeover
import CommonFabric.PresenceConvergence
import CommonFabric.CommitReadChecks
import CommonFabric.RoutedSteps
import CommonFabric.CfcClause
import CommonFabric.StagedMapRuns
import CommonFabric.FabricEquality
import CommonFabric.DeclaredLabelRuns
import CommonFabric.IndexRuns
import CommonFabric.Leb128
import CommonFabric.Wtf8
import CommonFabric.Base64url
import CommonFabric.ClauseIdentity
import CommonFabric.LaterReads
import CommonFabric.WaveReads

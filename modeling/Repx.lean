import Repx.Foundation.ByteString
import Repx.Foundation.PairedLevels
import Repx.Foundation.Framing
import Repx.Commitment.Sha256
import Repx.Commitment.Merkle
import Repx.Commitment.MerkleBinding
import Repx.Commitment.Attestation
import Repx.Commitment.AttestationLeaves
import Repx.Commitment.AttestationBinding
import Repx.Trace.Event
import Repx.Trace.FileIdentity
import Repx.Operations.CanonicalOp
import Repx.Foundation.HashTables
import Repx.Trace.PendingWrites
import Repx.Operations.CanonicalizeEvents
import Repx.Foundation.Interleaving
import Repx.Operations.EventEffects
import Repx.Operations.EventLedger
import Repx.Operations.EventSimulation
import Repx.Operations.EventInterleaving
import Repx.Operations.OpEncoding
import Repx.Operations.OpShapes
import Repx.Foundation.Worklist
import Repx.Slice.Scan
import Repx.Slice.ScanTables
import Repx.Slice.OutputSlice
import Repx.Slice.Closure
import Repx.Slice.Emission
import Repx.Slice.OpBinding
import Repx.Slice.OrderIndependence
import Repx.Slice.Authorship
import Repx.Slice.RenameChains
import Repx.Slice.Completeness
import Repx.Slice.OutputCommitment
import Repx.Foundation.SharedLog
import Repx.Operations.EventRenaming
import Repx.Operations.EventSeparation
import Repx.Foundation.GuardedRuns
import Repx.Probe.Maps
import Repx.Probe.ProcessHandlers
import Repx.Probe.ProcessTree
import Repx.Probe.StaleIdentifiers
import Repx.Probe.ArgumentCapture
import Repx.Foundation.Utf8
import Repx.Trace.World
import Repx.Trace.Collector
import Repx.Trace.RenamePairing
import Repx.Commitment.Envelope
import Repx.Commitment.OperationSets
import Repx.Commitment.DiffReport
import Repx.Attribution.ProcessTable
import Repx.Trace.RefusedRecords
import Repx.Attribution.Lifetimes
import Repx.Attribution.ToolChains
import Repx.Attribution.Introductions
import Repx.Operations.OpOwners
import Repx.Slice.EmissionOwners
import Repx.Attribution.ToolAgreement
import Repx.Operations.ExitOps
import Repx.Attribution.RootExit
import Repx.Attribution.WriteCredit
import Repx.Attribution.OpenerCredit
import Repx.Probe.CallRecords
import Repx.Trace.ReusedPids
import Repx.Identity.GoCacheEntry
import Repx.Foundation.TextSearch
import Repx.Identity.GoImportConfig
import Repx.Identity.WorkRoots
import Repx.Foundation.UnixPaths
import Repx.Identity.UnavailablePaths
import Repx.Trace.LexicalPaths
import Repx.Identity.ObservedFile
import Repx.Workspace.OutputSelection
import Repx.Operations.WriteActions
import Repx.Attribution.WriteCopies
import Repx.Operations.CloseRouting
import Repx.Commitment.LegacyNodes
import Repx.Commitment.CommandDisplay
import Repx.Foundation.Subtrees
import Repx.Trace.PathRewrites
import Repx.Trace.WatchFilter
import Repx.Workspace.SelectedOutputs
import Repx.Commitment.SignatureVerification
import Repx.Trace.LongPaths
import Repx.Trace.UnlinkOrder
import Repx.Slice.ProcessIndices
import Repx.Commitment.RootLoops
import Repx.Commitment.OperationRoots
import Repx.Foundation.Descent
import Repx.Workspace.SnapshotWalk
import Repx.Foundation.RacyCounter
import Repx.Foundation.RecordLayout
import Repx.Trace.Recording
import Repx.Attribution.Observations
import Repx.Commands.Attesting
import Repx.Commands.Machine
import Repx.Commands.Verification
import Repx.Commands.Harness
import Repx.Commands.Reproducibility
import Repx.Foundation.LineText
import Repx.Probe.TracepointFormats
import Repx.Commitment.KeyFiles
import Repx.Commands.Signing
import Repx.Identity.ObservedPath
import Repx.Commands.OutputBytes

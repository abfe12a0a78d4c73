import StageLineage.Cli.Program
import StageLineage.FileSystem.Tree
import StageLineage.Main
import StageLineage.Proofs.Session.Availability
import StageLineage.Proofs.Session.Presence
import StageLineage.Proofs.Session.ReadBack
import StageLineage.Proofs.Session.Stale
import StageLineage.Store.Memory
import StageLineage.Proofs.Session.Refusal
import StageLineage.Proofs.Session.Frame
import StageLineage.Proofs.Session.Independent
import StageLineage.Proofs.Json.Printer
import StageLineage.Proofs.Session.Reported
import StageLineage.Proofs.Session.Commitment
import StageLineage.Proofs.Nesting
import StageLineage.Proofs.Lineage.Chained
import StageLineage.Proofs.Lineage.Apart
import StageLineage.Proofs.Manifest.Cycle
import StageLineage.Proofs.Manifest.Rearranged
import StageLineage.Proofs.Lineage.Rearranged
import StageLineage.Proofs.Lineage.Total
import StageLineage.Proofs.Manifest.Accepted
import StageLineage.Proofs.Session.Driven
import StageLineage.Proofs.Session.Isolated
import StageLineage.Proofs.Session.Unambiguous
import StageLineage.Proofs.Session.Unbranched
import StageLineage.Proofs.Cli.Scenario
import StageLineage.Proofs.Manifest.Order
import StageLineage.Proofs.Lineage.Influence
import StageLineage.Proofs.Session.Repair
import StageLineage.Proofs.Lineage.Default
import StageLineage.Proofs.Codec
import StageLineage.Proofs.Cli.Progress
import StageLineage.Proofs.Manifest.Reach
import StageLineage.Proofs.Manifest.Refused
import StageLineage.Proofs.Topology.Shape
import StageLineage.Proofs.Manifest.Nulls
import StageLineage.Proofs.SortedMap.Pairs
import StageLineage.Proofs.Text.Order
import StageLineage.Proofs.Fingerprint.Unordered
import StageLineage.Proofs.Fingerprint.Hex
import StageLineage.Proofs.Registry
import StageLineage.Proofs.Store.Calls
import StageLineage.Proofs.Topology.Parting

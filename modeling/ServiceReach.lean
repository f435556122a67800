import ServiceReach.EntryPoint.Identifier
import ServiceReach.Main
import ServiceReach.Model.Store
import ServiceReach.Proofs.Analysis
import ServiceReach.Proofs.CallGraph.Closure
import ServiceReach.Proofs.CallGraph.Dispatch
import ServiceReach.Proofs.CallGraph.Overrides
import ServiceReach.Proofs.CallGraph.Sites
import ServiceReach.Proofs.CallGraph.Targeted
import ServiceReach.Proofs.CallGraph.Targets
import ServiceReach.Proofs.Command.Outputs
import ServiceReach.Proofs.EntryPoint.Binders
import ServiceReach.Proofs.EntryPoint.Failures
import ServiceReach.Proofs.EntryPoint.Idempotence
import ServiceReach.Proofs.EntryPoint.Identify
import ServiceReach.Proofs.EntryPoint.Receivers
import ServiceReach.Proofs.EntryPoint.Registrations
import ServiceReach.Proofs.EntryPoint.Services
import ServiceReach.Proofs.EntryPoint.Stages
import ServiceReach.Proofs.Index.Agreement
import ServiceReach.Proofs.Index.BinaryNames
import ServiceReach.Proofs.Index.Build
import ServiceReach.Proofs.Index.CallSites
import ServiceReach.Proofs.Index.CallTargets
import ServiceReach.Proofs.Index.Course
import ServiceReach.Proofs.Index.DottedNames
import ServiceReach.Proofs.Index.Enclosing
import ServiceReach.Proofs.Index.FallThrough
import ServiceReach.Proofs.Index.FileOrder
import ServiceReach.Proofs.Index.Files
import ServiceReach.Proofs.Index.History
import ServiceReach.Proofs.Index.InstructionText
import ServiceReach.Proofs.Index.LoopHeader
import ServiceReach.Proofs.Index.NestedNames
import ServiceReach.Proofs.Index.Numbering
import ServiceReach.Proofs.Index.Operators
import ServiceReach.Proofs.Index.Receivers
import ServiceReach.Proofs.Index.Recorded
import ServiceReach.Proofs.Index.Recursion
import ServiceReach.Proofs.Index.Repetition
import ServiceReach.Proofs.Index.Scan
import ServiceReach.Proofs.Index.Scoping
import ServiceReach.Proofs.Index.Shape
import ServiceReach.Proofs.Index.Sites
import ServiceReach.Proofs.Index.TypeExpressions
import ServiceReach.Proofs.Index.WellFormed
import ServiceReach.Proofs.Json.RoundTrip
import ServiceReach.Proofs.Json.Strings
import ServiceReach.Proofs.Model.BestMatch
import ServiceReach.Proofs.Model.Chain
import ServiceReach.Proofs.Model.Converse
import ServiceReach.Proofs.Model.Distance
import ServiceReach.Proofs.Model.Hierarchy
import ServiceReach.Proofs.Model.Inheritance
import ServiceReach.Proofs.Model.Method
import ServiceReach.Proofs.Model.Order
import ServiceReach.Proofs.Model.Outcome
import ServiceReach.Proofs.Model.Program
import ServiceReach.Proofs.Model.Remote
import ServiceReach.Proofs.Model.Search
import ServiceReach.Proofs.Model.Signature
import ServiceReach.Proofs.Model.Store
import ServiceReach.Proofs.Model.Window
import ServiceReach.Proofs.Report.Callers
import ServiceReach.Proofs.Settings.File
import ServiceReach.Proofs.Text.Lines
import ServiceReach.Proofs.Text.Utf8
import ServiceReach.Proofs.Trace.Buffer
import ServiceReach.Proofs.Trace.Chain
import ServiceReach.Proofs.Trace.Forwarding
import ServiceReach.Proofs.Trace.Frames
import ServiceReach.Proofs.Trace.Machine
import ServiceReach.Proofs.Trace.Printer
import ServiceReach.Proofs.Trace.Restriction
import ServiceReach.Proofs.Trace.Walk
import ServiceReach.Proofs.Workspace.Files

import GraphQuery.Coercion.Arguments
import GraphQuery.Coercion.Input
import GraphQuery.Document.Parser
import GraphQuery.Execution.Operation
import GraphQuery.Inspection
import GraphQuery.Json.Reader
import GraphQuery.Main
import GraphQuery.Proofs.Coercion.Binding
import GraphQuery.Proofs.Coercion.Defaults
import GraphQuery.Proofs.Coercion.InputTypes
import GraphQuery.Proofs.Coercion.Reordering
import GraphQuery.Proofs.Coercion.Scalars
import GraphQuery.Proofs.Coercion.SingleItems
import GraphQuery.Proofs.Coercion.Substitution
import GraphQuery.Proofs.Coercion.Unbound
import GraphQuery.Proofs.Execution.Cancellation
import GraphQuery.Proofs.Execution.CheckedRequests
import GraphQuery.Proofs.Execution.CheckedSpreads
import GraphQuery.Proofs.Execution.Conformance
import GraphQuery.Proofs.Execution.DepthLimit
import GraphQuery.Proofs.Execution.ErrorPlaces
import GraphQuery.Proofs.Execution.Frames
import GraphQuery.Proofs.Execution.Inlining
import GraphQuery.Proofs.Execution.Isolation
import GraphQuery.Proofs.Execution.Once
import GraphQuery.Proofs.Execution.OwnSets
import GraphQuery.Proofs.Execution.ReadingBack
import GraphQuery.Proofs.Execution.Redefinitions
import GraphQuery.Proofs.Execution.Refusals
import GraphQuery.Proofs.Execution.ScheduleIndependence
import GraphQuery.Proofs.Execution.Succession
import GraphQuery.Proofs.Execution.TypeLookups
import GraphQuery.Proofs.Schema.Enums
import GraphQuery.Proofs.Schema.Interfaces
import GraphQuery.Proofs.Schema.PossibleTypes
import GraphQuery.Proofs.Schema.Rearrangement
import GraphQuery.Proofs.Schema.References
import GraphQuery.Proofs.Selection.BodiesOnce
import GraphQuery.Proofs.Selection.LongestPath
import GraphQuery.Proofs.Selection.MergedExpansion
import GraphQuery.Proofs.Selection.SpreadFaults
import GraphQuery.Proofs.Source.LineIndex
import GraphQuery.Proofs.Syntax.Acceptance
import GraphQuery.Proofs.Syntax.Beginnings
import GraphQuery.Proofs.Syntax.BlockStrings
import GraphQuery.Proofs.Syntax.Composition
import GraphQuery.Proofs.Syntax.Cutting
import GraphQuery.Proofs.Syntax.Definitions
import GraphQuery.Proofs.Syntax.Escapes
import GraphQuery.Proofs.Syntax.FaultPositions
import GraphQuery.Proofs.Syntax.Layout
import GraphQuery.Proofs.Syntax.LiteralTexts
import GraphQuery.Proofs.Syntax.NestingLimit
import GraphQuery.Proofs.Syntax.Positions
import GraphQuery.Proofs.Syntax.PrintedLiterals
import GraphQuery.Proofs.Syntax.Productions
import GraphQuery.Proofs.Syntax.Recognition
import GraphQuery.Proofs.Syntax.Rescanning
import GraphQuery.Proofs.Syntax.Respelling
import GraphQuery.Proofs.Syntax.Stretches
import GraphQuery.Proofs.Syntax.Tracking
import GraphQuery.Proofs.Syntax.TypeTexts
import GraphQuery.Proofs.Syntax.ValueSlots
import GraphQuery.Proofs.Syntax.Viability
import GraphQuery.Request
import GraphQuery.Response
import GraphQuery.Schema.Builder
import GraphQuery.Scripted.Resolver
import GraphQuery.Scripted.Scalar
import GraphQuery.Scripted.TypeRule

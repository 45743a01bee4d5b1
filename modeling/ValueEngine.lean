import ValueEngine.Script.Session
import ValueEngine.Proofs.Equality.Congruence
import ValueEngine.Proofs.Equality.Mirror
import ValueEngine.Proofs.Equality.Structural
import ValueEngine.Proofs.Loans.Answers
import ValueEngine.Proofs.Rendering.Depiction
import ValueEngine.Proofs.Rendering.Text
import ValueEngine.Proofs.Soundness.Actions
import ValueEngine.Proofs.Soundness.Operations
import ValueEngine.Proofs.Soundness.Plain
import ValueEngine.Proofs.Life.Collection
import ValueEngine.Proofs.Soundness.Scripts
import ValueEngine.Proofs.Soundness.Sessions
import ValueEngine.Proofs.Life.Counts
import ValueEngine.Proofs.Life.Runs
import ValueEngine.Proofs.Iteration.Advance
import ValueEngine.Proofs.Iteration.Interlude
import ValueEngine.Proofs.Iteration.Protocol
import ValueEngine.Proofs.Reporting.Ending
import ValueEngine.Proofs.Reporting.Operations
import ValueEngine.Proofs.Reporting.Once
import ValueEngine.Proofs.Reporting.Entry
import ValueEngine.Proofs.Lookup.Lineage
import ValueEngine.Proofs.Effects.Retention
import ValueEngine.Proofs.Effects.Atomic
import ValueEngine.Proofs.Effects.Requests
import ValueEngine.Proofs.Effects.Newborn
import ValueEngine.Proofs.Slicing.Progression
import ValueEngine.Proofs.Slicing.Selection
import ValueEngine.Proofs.Operator.Dispatch
import ValueEngine.Proofs.Tracing.Discreet
import ValueEngine.Proofs.Tracing.Levels
import ValueEngine.Proofs.Identity.Results
import ValueEngine.Proofs.Identity.Aliasing
import ValueEngine.Proofs.Membership.Scan
import ValueEngine.Proofs.Membership.Laws
import ValueEngine.Proofs.Lookup.Mutation
import ValueEngine.Proofs.Rendering.Refusal
import ValueEngine.Proofs.Rendering.Guarded
import ValueEngine.Proofs.Call.Agreement
import ValueEngine.Proofs.Dictionary.Laws
import ValueEngine.Proofs.Iteration.Ledger
import ValueEngine.Proofs.Iteration.Fairness
import ValueEngine.Proofs.Iteration.Delivery
import ValueEngine.Proofs.Sequence.Agreement
import ValueEngine.Proofs.Slicing.Algebra
import ValueEngine.Proofs.Order.Total
import ValueEngine.Proofs.Equality.Bounded
import ValueEngine.Proofs.Lookup.Blindness
import ValueEngine.Proofs.Rendering.Bounded
import ValueEngine.Proofs.Rendering.ReadBack

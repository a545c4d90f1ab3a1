import CallByNeed.Code.Json
import CallByNeed.Eval.Json
import CallByNeed.Flow.Json
import CallByNeed.Flow.Script
import CallByNeed.Main
import CallByNeed.Proofs.Code.Nesting
import CallByNeed.Proofs.Code.Supplies
import CallByNeed.Proofs.Code.Blocks
import CallByNeed.Proofs.Code.Unit
import CallByNeed.Proofs.Comparison.Answer
import CallByNeed.Proofs.Comparison.FastPath
import CallByNeed.Proofs.Discipline.Form
import CallByNeed.Proofs.Eval.Promises
import CallByNeed.Proofs.Flow.Drafts
import CallByNeed.Proofs.Source.Meaning
import CallByNeed.Proofs.Source.Serving
import CallByNeed.Proofs.Eval.Inquiry
import CallByNeed.Proofs.Plain.Binding
import CallByNeed.Proofs.Plain.Changes
import CallByNeed.Proofs.Plain.Evaluations
import CallByNeed.Proofs.Plain.Machine
import CallByNeed.Proofs.Plain.Program
import CallByNeed.Proofs.Source.Carrying
import CallByNeed.Proofs.Source.Execution
import CallByNeed.Proofs.Eval.Depth
import CallByNeed.Proofs.Source.Obedience
import CallByNeed.Proofs.Plain.Ending
import CallByNeed.Proofs.Plain.Soundness
import CallByNeed.Proofs.Eval.Limits
import CallByNeed.Proofs.Comparison.Meanings
import CallByNeed.Proofs.Source.Shapes
import CallByNeed.Proofs.Comparison.Pinned
import CallByNeed.Proofs.Comparison.Compiled
import CallByNeed.Proofs.Comparison.Diagonal
import CallByNeed.Proofs.Comparison.Opening
import CallByNeed.Proofs.Comparison.Statics
import CallByNeed.Proofs.Json.Programs
import CallByNeed.Proofs.Source.Splicing
import CallByNeed.Proofs.Source.Sweeps
import CallByNeed.Proofs.Comparison.Interpreted
import CallByNeed.Proofs.Comparison.Agreement
import CallByNeed.Proofs.Comparison.Inlining
import CallByNeed.Proofs.Flow.Walks
import CallByNeed.Proofs.Code.Refusals
import CallByNeed.Proofs.Source.Placement
import CallByNeed.Proofs.Source.Quoting
import CallByNeed.Proofs.Landing.Trails
import CallByNeed.Proofs.Code.Streams
import CallByNeed.Proofs.Flow.Shape
import CallByNeed.Proofs.Eval.Numbers
import CallByNeed.Proofs.Code.Patches
import CallByNeed.Proofs.Code.Ledger
import CallByNeed.Proofs.Code.Assignments
import CallByNeed.Proofs.Code.Fingerprint
import CallByNeed.Proofs.Eval.Repeats
import CallByNeed.Proofs.Flow.Parking

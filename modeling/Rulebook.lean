import Rulebook.Bindings
import Rulebook.Critter.Text
import Rulebook.Critter.World
import Rulebook.Defect
import Rulebook.Expr.Basic
import Rulebook.Expr.Text
import Rulebook.Folding
import Rulebook.Fresh
import Rulebook.Inlining
import Rulebook.Json
import Rulebook.Library
import Rulebook.Literal
import Rulebook.Lowering
import Rulebook.Machine.Eval
import Rulebook.Machine.Host
import Rulebook.Machine.Value
import Rulebook.Operator
import Rulebook.Program
import Rulebook.Proofs.Critter.Closure
import Rulebook.Proofs.Critter.Meaning
import Rulebook.Proofs.Critter.Spelling
import Rulebook.Proofs.Expansion.Calls
import Rulebook.Proofs.Expansion.Depth
import Rulebook.Proofs.Expansion.Program
import Rulebook.Proofs.Expansion.Recursion
import Rulebook.Proofs.Expansion.Term
import Rulebook.Proofs.Folding.Acceptance
import Rulebook.Proofs.Folding.Lowering
import Rulebook.Proofs.Folding.Meaning
import Rulebook.Proofs.Folding.Normal
import Rulebook.Proofs.Folding.Partial
import Rulebook.Proofs.Hoisting.Choice
import Rulebook.Proofs.Hoisting.Count
import Rulebook.Proofs.Hoisting.Meaning
import Rulebook.Proofs.Hoisting.Shape
import Rulebook.Proofs.Hoisting.Tests
import Rulebook.Proofs.Interpretation.Basic
import Rulebook.Proofs.Interpretation.Inlining
import Rulebook.Proofs.Interpretation.Lowering
import Rulebook.Proofs.Interpretation.Program
import Rulebook.Proofs.Interpretation.Relation
import Rulebook.Proofs.Interpretation.Renaming
import Rulebook.Proofs.Kinds.Calls
import Rulebook.Proofs.Kinds.Lowering
import Rulebook.Proofs.Kinds.Values
import Rulebook.Proofs.Machine.Alike
import Rulebook.Proofs.Machine.Ends
import Rulebook.Proofs.Machine.Locality
import Rulebook.Proofs.Machine.Safety
import Rulebook.Proofs.Names.Binders
import Rulebook.Proofs.Names.Checking
import Rulebook.Proofs.Names.Hygiene
import Rulebook.Proofs.Names.Lowering
import Rulebook.Proofs.Names.Renamed
import Rulebook.Proofs.Occurrence
import Rulebook.Proofs.Outcome
import Rulebook.Proofs.Rewriting
import Rulebook.Proofs.Stored.Lossless
import Rulebook.Proofs.Stored.Tolerance
import Rulebook.Proofs.Stored.Trimming
import Rulebook.Proofs.Substitution
import Rulebook.Proofs.Text.Display
import Rulebook.Proofs.Text.Reading
import Rulebook.Proofs.Text.Spelling
import Rulebook.Proofs.Text.Spine
import Rulebook.Proofs.Text.Token
import Rulebook.Proofs.Text.Types
import Rulebook.Proofs.Text.Words
import Rulebook.Proofs.Typing.Acceptance
import Rulebook.Proofs.Typing.Basic
import Rulebook.Proofs.Typing.Check
import Rulebook.Proofs.Typing.Defects
import Rulebook.Proofs.Typing.Folding
import Rulebook.Proofs.Typing.Fresh
import Rulebook.Proofs.Typing.Inlining
import Rulebook.Proofs.Typing.Lowering
import Rulebook.Proofs.Typing.Program
import Rulebook.Proofs.Typing.Rules
import Rulebook.Proofs.Typing.Substitution
import Rulebook.Report
import Rulebook.Rule
import Rulebook.Stored.Basic
import Rulebook.Stored.Expr
import Rulebook.Stored.Program
import Rulebook.Substitution
import Rulebook.Ty
import Rulebook.Typing

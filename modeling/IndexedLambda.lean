import IndexedLambda.Algebra.Error
import IndexedLambda.Algebra.Extension
import IndexedLambda.Algebra.Operation
import IndexedLambda.Algebra.Rule
import IndexedLambda.Algebra.Stack
import IndexedLambda.Diagnostic
import IndexedLambda.Evaluation.Action
import IndexedLambda.Evaluation.Equality
import IndexedLambda.Evaluation.Reduction
import IndexedLambda.Evaluation.Stock
import IndexedLambda.Family.Proof
import IndexedLambda.Family.Term
import IndexedLambda.Family.Type
import IndexedLambda.Fault
import IndexedLambda.Inference.Context
import IndexedLambda.Inference.Report
import IndexedLambda.Inference.Rule
import IndexedLambda.Inference.SymbolTable
import IndexedLambda.Judgment
import IndexedLambda.NameTable
import IndexedLambda.Status
import IndexedLambda.Term.Basic
import IndexedLambda.Term.Binding
import IndexedLambda.Term.Combinator
import IndexedLambda.Term.Glyphs
import IndexedLambda.Term.Occurrence
import IndexedLambda.Term.Shift
import IndexedLambda.Term.Substitution
import IndexedLambda.Text.Bytes
import IndexedLambda.Text.Printable
import IndexedLambda.Text.Quoted
import IndexedLambda.Types.Constant
import IndexedLambda.Types.Monotype
import IndexedLambda.Types.Render
import IndexedLambda.Types.Scheme
import IndexedLambda.Unification.ClassMap
import IndexedLambda.Unification.Context
import IndexedLambda.Unification.Unify
import IndexedLambda.Proofs.Keys
import IndexedLambda.Proofs.Types.Substitution
import IndexedLambda.Proofs.Unification.Resolution
import IndexedLambda.Proofs.Unification.Reading
import IndexedLambda.Proofs.Unification.Growth
import IndexedLambda.Proofs.Unification.Shape
import IndexedLambda.Proofs.Unification.Reachable
import IndexedLambda.Proofs.Evaluation.Fuel
import IndexedLambda.Proofs.Unification.Termination
import IndexedLambda.Proofs.Unification.Complete
import IndexedLambda.Proofs.Unification.Sound
import IndexedLambda.Proofs.Inference.Derivation
import IndexedLambda.Proofs.Inference.Rules
import IndexedLambda.Proofs.Inference.Environment
import IndexedLambda.Proofs.Inference.Sound
import IndexedLambda.Proofs.Term.Discipline
import IndexedLambda.Proofs.Term.Rewriting
import IndexedLambda.Proofs.Term.Displacement
import IndexedLambda.Proofs.Term.WellFormed
import IndexedLambda.Proofs.Term.Contraction
import IndexedLambda.Proofs.Term.NameSubstitution
import IndexedLambda.Proofs.Evaluation.Run
import IndexedLambda.Proofs.Evaluation.WellFormed
import IndexedLambda.Proofs.Evaluation.Beta
import IndexedLambda.Proofs.Evaluation.Placeholder
import IndexedLambda.Proofs.Evaluation.Extensionality
import IndexedLambda.Proofs.Term.FreeSubstitution
import IndexedLambda.Proofs.Inference.Scope
import IndexedLambda.Proofs.Inference.Session
import IndexedLambda.Proofs.Inference.Fresh
import IndexedLambda.Proofs.Inference.Elaboration
import IndexedLambda.Proofs.Inference.IndexGeneralization
import IndexedLambda.Proofs.Inference.Progress
import IndexedLambda.Proofs.Inference.OldVariables
import IndexedLambda.Proofs.Inference.Visible
import IndexedLambda.Proofs.Inference.Explanation
import IndexedLambda.Proofs.Inference.Principal
import IndexedLambda.Proofs.Evaluation.Comparison
import IndexedLambda.Proofs.Unification.Symmetry
import IndexedLambda.Proofs.Unification.Idempotent
import IndexedLambda.Proofs.Unification.Tracing
import IndexedLambda.Proofs.Unification.Confined
import IndexedLambda.Proofs.Term.Names
import IndexedLambda.Proofs.Inference.Vocabulary
import IndexedLambda.Proofs.Inference.FreshTypes
import IndexedLambda.Proofs.Inference.Freshness
import IndexedLambda.Proofs.Inference.Locality
import IndexedLambda.Proofs.Inference.Brackets
import IndexedLambda.Proofs.Evaluation.Equivalence
import IndexedLambda.Proofs.Types.AlphaEquivalence
import IndexedLambda.Proofs.Types.Indexing
import IndexedLambda.Proofs.Inference.Instantiation
import IndexedLambda.Proofs.Inference.Generalization
import IndexedLambda.Proofs.Inference.Declaration
import IndexedLambda.Proofs.Algebra.Operands
import IndexedLambda.Proofs.Algebra.StackDiscipline
import IndexedLambda.Proofs.Algebra.Elimination
import IndexedLambda.Proofs.Algebra.Projection
import IndexedLambda.Proofs.Term.Eta
import IndexedLambda.Proofs.Term.Composition
import IndexedLambda.Proofs.Evaluation.SpineReduction
import IndexedLambda.Proofs.Evaluation.HeadNormal
import IndexedLambda.Proofs.Evaluation.ForcedComparison
import IndexedLambda.Proofs.Evaluation.Transport
import IndexedLambda.Proofs.Evaluation.Weakening
import IndexedLambda.Proofs.Evaluation.Stepwise
import IndexedLambda.Proofs.Types.Capture
import IndexedLambda.Proofs.Term.ConstantAbstraction
import IndexedLambda.Proofs.Evaluation.Currying
import IndexedLambda.Proofs.Algebra.Registry
import IndexedLambda.Proofs.DeclaredInverses
import IndexedLambda.Proofs.Inference.LiveBindings
import IndexedLambda.Proofs.Term.ShiftAlgebra
import IndexedLambda.Proofs.Algebra.Underflow
import IndexedLambda.Proofs.Term.StrictForm
import IndexedLambda.Proofs.Term.UniqueReading
import IndexedLambda.Proofs.Inference.LetTower
import IndexedLambda.Proofs.Term.Occurrences
import IndexedLambda.Proofs.Unification.Separation

import Clausal.ClauseForm
import Clausal.Command.Session
import Clausal.Forward
import Clausal.Main
import Clausal.Theory
import Clausal.Proofs.Subst.Acyclic
import Clausal.Proofs.Unify.Soundness
import Clausal.Proofs.Term.FirstOrder
import Clausal.Proofs.Unify.Completeness
import Clausal.Proofs.Search.Derivation
import Clausal.Proofs.Search.Trace
import Clausal.Proofs.Term.FreeVars
import Clausal.Proofs.Search.Copy
import Clausal.Proofs.Search.Apart
import Clausal.Proofs.Search.Soundness
import Clausal.Proofs.Search.Completeness
import Clausal.Proofs.ClauseForm.Truth
import Clausal.Proofs.ClauseForm.Valuation
import Clausal.Proofs.ClauseForm.Negation
import Clausal.Proofs.ClauseForm.Renaming
import Clausal.Proofs.ClauseForm.Apart
import Clausal.Proofs.ClauseForm.Matrix
import Clausal.Proofs.ClauseForm.Entailment
import Clausal.Proofs.Subst.Resolved
import Clausal.Proofs.Unify.Evaluation
import Clausal.Proofs.ClauseForm.Symbols
import Clausal.Proofs.ClauseForm.Satisfiability
import Clausal.Proofs.Source.Grammar
import Clausal.Proofs.Distinct
import Clausal.Proofs.Term.Relabel
import Clausal.Proofs.Source.Variants
import Clausal.Proofs.Source.Loading
import Clausal.Proofs.Unify.Renaming
import Clausal.Proofs.Search.Procedure
import Clausal.Proofs.Search.Variant
import Clausal.Proofs.Search.Plan
import Clausal.Proofs.Search.Refinement
import Clausal.Proofs.Search.Attempts
import Clausal.Proofs.Search.Requests
import Clausal.Proofs.Search.Truncation
import Clausal.Proofs.Search.Termination
import Clausal.Proofs.Forward.LeastModel
import Clausal.Proofs.Search.Ground
import Clausal.Proofs.Forward.Agreement
import Clausal.Proofs.Source.Lexis
import Clausal.Proofs.Source.Reading
import Clausal.Proofs.Source.Language
import Clausal.Proofs.ClauseForm.Fresh
import Clausal.Proofs.ClauseForm.Separation
import Clausal.Proofs.ClauseForm.Capture
import Clausal.Proofs.Term.Formation
import Clausal.Proofs.ClauseForm.Outline
import Clausal.Proofs.Json.RoundTrip
import Clausal.Proofs.ClauseForm.Outcome
import Clausal.Proofs.Source.Places
import Clausal.Proofs.Source.Concatenation
import Clausal.Proofs.Source.Rendering
import Clausal.Proofs.ClauseForm.NormalForm
import Clausal.Proofs.ClauseForm.Product
import Clausal.Proofs.ClauseForm.Nameless
import Clausal.Proofs.ClauseForm.Standardization
import Clausal.Proofs.ClauseForm.Statements
import Clausal.Proofs.ClauseForm.Recognition
import Clausal.Proofs.Horn.Meaning
import Clausal.Proofs.Forward.Counting
import Clausal.Proofs.Search.Depth
import Clausal.Proofs.Search.Cycles
import Clausal.Proofs.Subst.Restriction
import Clausal.Proofs.Search.Answers
import Clausal.Proofs.Source.Faults
import Clausal.Proofs.ClauseForm.Formation
import Clausal.Proofs.Subst.Binders
import Clausal.Proofs.Subst.Occurs
import Clausal.Proofs.Unify.Reflexivity
import Clausal.Proofs.Clause.Members
import Clausal.Proofs.Clause.Stores
import Clausal.Proofs.Term.Positions
import Clausal.Proofs.Source.Closure

import NaryLambda.Context
import NaryLambda.Evaluation.Closure
import NaryLambda.Evaluation.Eval
import NaryLambda.Evaluation.Reduction
import NaryLambda.Failure
import NaryLambda.Interpreter
import NaryLambda.Name
import NaryLambda.Operators
import NaryLambda.Report
import NaryLambda.Term.Basic
import NaryLambda.Term.InPlace
import NaryLambda.Term.Nameless
import NaryLambda.Term.Occurrences
import NaryLambda.Term.Renaming
import NaryLambda.Term.Substitution
import NaryLambda.Term.Transform
import NaryLambda.Text.Quoted
import NaryLambda.Ty.Basic
import NaryLambda.Ty.Text
import NaryLambda.Typing.Infer
import NaryLambda.Typing.Rules
import NaryLambda.Proofs.AlphaEquiv
import NaryLambda.Proofs.Contexts
import NaryLambda.Proofs.Currying
import NaryLambda.Proofs.Evaluation.AlphaEquiv
import NaryLambda.Proofs.Evaluation.Arguments
import NaryLambda.Proofs.Evaluation.ArityModes
import NaryLambda.Proofs.Evaluation.Closure
import NaryLambda.Proofs.Evaluation.Ends
import NaryLambda.Proofs.Evaluation.Lockstep
import NaryLambda.Proofs.Evaluation.Map
import NaryLambda.Proofs.Evaluation.Origin
import NaryLambda.Proofs.Evaluation.Rules
import NaryLambda.Proofs.Evaluation.Wrapping
import NaryLambda.Proofs.Inlining
import NaryLambda.Proofs.Interpreter
import NaryLambda.Proofs.Messages
import NaryLambda.Proofs.Normalization
import NaryLambda.Proofs.Operators
import NaryLambda.Proofs.Pointwise
import NaryLambda.Proofs.Reduction.Evaluation
import NaryLambda.Proofs.Reduction.Progress
import NaryLambda.Proofs.Registries
import NaryLambda.Proofs.Reports
import NaryLambda.Proofs.Safety.Calls
import NaryLambda.Proofs.Safety.Closed
import NaryLambda.Proofs.Safety.Open
import NaryLambda.Proofs.Substitution.BindValues
import NaryLambda.Proofs.Substitution.Captured
import NaryLambda.Proofs.Substitution.FreeVars
import NaryLambda.Proofs.Substitution.InPlace
import NaryLambda.Proofs.Substitution.Instantiate
import NaryLambda.Proofs.Substitution.Laws
import NaryLambda.Proofs.Substitution.Map
import NaryLambda.Proofs.Substitution.Nameless
import NaryLambda.Proofs.Substitution.Renaming
import NaryLambda.Proofs.Substitution.Shapes
import NaryLambda.Proofs.Substitution.Size
import NaryLambda.Proofs.Term.Dump
import NaryLambda.Proofs.Text.Delimiters
import NaryLambda.Proofs.Text.Quoted
import NaryLambda.Proofs.Traversal
import NaryLambda.Proofs.Ty.Text
import NaryLambda.Proofs.Typing.AlphaEquiv
import NaryLambda.Proofs.Typing.Fault
import NaryLambda.Proofs.Typing.FreeVars
import NaryLambda.Proofs.Typing.Inversion
import NaryLambda.Proofs.Typing.Rejection
import NaryLambda.Proofs.Typing.Rules
import NaryLambda.Proofs.Typing.Substitution

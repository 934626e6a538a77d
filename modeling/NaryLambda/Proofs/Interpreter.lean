import NaryLambda.Interpreter
import NaryLambda.Proofs.Evaluation.Rules

/-!
# The ends of a run

A run of a program ends with the type error, with the reason why evaluation is
stuck, or with the value and the type.

Results:

* `Interpreter.run_of_infer_error`: a program without a type ends at once.
* `Interpreter.run_eq_some_iff`: the ends of the run of a program with a type.
-/

namespace NaryLambda

namespace Interpreter

variable {L : Type} {I : Interpreter L} {e : Term L}

/-- A program without a type ends with the type error, at every depth. -/
theorem run_of_infer_error {error : TypeError} (h : e.infer I.operators ∅ = .error error)
    (depth : Nat) : (I.run depth e).run = some (.error (.typing error)) := by
  unfold run infer
  rw [h]
  rfl

/-- The run of a program with a type ends as its evaluation does. -/
theorem run_eq_some_iff {t : Ty} (h : e.infer I.operators ∅ = .ok t) {depth : Nat}
    {r : Except (Failure L) (Term L × Ty)} :
    (I.run depth e).run = some r ↔
      (∃ v, Term.AnswersAt I.operators I.arity depth e (.ok v) ∧ r = .ok (v, t)) ∨
      ∃ reason, Term.AnswersAt I.operators I.arity depth e (.error reason) ∧
        r = .error (.evaluation reason) := by
  have hrun : (I.run depth e).run = (e.eval I.operators I.arity depth).run.map
      fun r => (r.mapError .evaluation).map fun v => (v, t) := by
    unfold run infer eval
    rw [h]
    generalize e.eval I.operators I.arity depth = x
    rcases x with _ | _ | _ <;> rfl
  rw [hrun]
  unfold Term.AnswersAt
  rcases (e.eval I.operators I.arity depth).run with _ | reason | v
  · simp
  · simp [Except.mapError, Except.map, eq_comm]
  · simp [Except.mapError, Except.map, eq_comm]

/-- `(\f: (int) -> int, x: int. f(x) + 1)[\x: int. x * 2, 20]`. -/
def succOfDouble : Term Int64 :=
  .app (.lam [⟨"f", .fn [.int] .int⟩, ⟨"x", .int⟩]
      (.binop "+" (.app (.var "f") [.var "x"]) (.lit 1)))
    [.lam [⟨"x", .int⟩] (.binop "*" (.var "x") (.lit 2)), .lit 20]

end Interpreter

end NaryLambda

import NaryLambda.Evaluation.Eval
import NaryLambda.Failure
import NaryLambda.Typing.Infer

/-!
# The interpreter

An interpreter is a registry of operators with an arity mode. It infers types,
evaluates terms, and runs programs: terms that have a type in the empty context
and are evaluated only then.
-/

namespace NaryLambda

/-- A registry of operators, and what to do with applications to a wrong number
    of arguments (`Pipeline`). -/
structure Interpreter (L : Type) where
  operators : Operators L
  arity : ArityMode := .strict

namespace Interpreter

variable {L : Type}

/-- The interpreter of the standard operators (`default`). -/
def standard : Interpreter Int64 := { operators := .standard }

/-- Registers an operator, in place of an older one of the same name. -/
def register (I : Interpreter L) (op : Name) (f : L → L → L) : Interpreter L :=
  { I with operators := I.operators.insert op f }

/-- The type of a term in a context (`type_check`). -/
def infer (I : Interpreter L) (Γ : Context) (e : Term L) : Except (Failure L) Ty :=
  (e.infer I.operators Γ).mapError .typing

/-- The value of a term (`evaluate`), with recursion no deeper than the bound. -/
def eval (I : Interpreter L) (depth : Nat) (e : Term L) : ExceptT (Failure L) Option (Term L) :=
  (e.eval I.operators I.arity depth).adapt .evaluation

/-- The value and the type of a program (`run`). Evaluation starts only if there is
    a type. -/
def run (I : Interpreter L) (depth : Nat) (e : Term L) :
    ExceptT (Failure L) Option (Term L × Ty) := do
  let t ← I.infer ∅ e
  let v ← I.eval depth e
  return (v, t)

end Interpreter

end NaryLambda

import NaryLambda.Evaluation.Eval
import NaryLambda.Term.Transform

/-!
# Evaluation with closures

An evaluator that never substitutes: it keeps the values of names in an
environment, and the value of a lambda is the lambda together with the
environment in which it stands. The order of its checks is that of evaluation
by substitution, in the strict arity mode.
-/

namespace NaryLambda

/-- Values with environments. The newest entry of an environment stands first. -/
inductive Value (L : Type)
  | unit
  | lit (n : L)
  | closure (params : List Param) (body : Term L) (env : List (Name × Value L))

variable {L : Type}

/-- The values of the names in scope. -/
abbrev Environment (L : Type) := List (Name × Value L)

/-- The environment with the values of parameters, entered in order. -/
def Environment.extend (env : Environment L) : List Param → List (Value L) → Environment L
  | p :: params, v :: values => extend ((p.name, v) :: env) params values
  | [], _ | _, [] => env

namespace Value

/-- The number that an operand has to be. -/
def asLiteral (op : Name) : Value L → Bounded (Value L) L
  | .lit n => return n
  | found => throw (.operand op found)

/-- The term that a value stands for: a closure is its lambda with the captured
    values written in. -/
def readBack : Value L → Term L
  | .unit => .unit
  | .lit n => .lit n
  | .closure params body env =>
    (Term.lam params body).instantiate (env.attach.map fun p => (p.1.1, p.1.2.readBack))
termination_by v => sizeOf v
decreasing_by
  obtain ⟨⟨x, v⟩, h⟩ := p
  have := List.sizeOf_lt_of_mem h
  simp only [Prod.mk.sizeOf_spec, closure.sizeOf_spec] at this ⊢
  omega

end Value

/-- Evaluates a term in an environment, with recursion no deeper than the bound. -/
def Term.evalClosure (ops : Operators L) :
    Nat → Environment L → Term L → Bounded (Value L) (Value L)
  | 0, _, _ => unfinished
  | depth + 1, env, e =>
    match e with
    | .unit => return .unit
    | .lit n => return .lit n
    | .lam params body => return .closure params body env
    | .var x =>
      match env.lookup x with
      | some v => return v
      | none => throw (.free x)
    | .app callee args => do
      match ← evalClosure ops depth env callee with
      | .closure params body captured =>
        if params.length ≠ args.length then throw (.arity params.length args.length)
        else
          let values ← args.mapM (evalClosure ops depth env)
          evalClosure ops depth (Environment.extend captured params values) body
      | found => throw (.notLambda found)
    | .binop op lhs rhs =>
      match ops[op]? with
      | none => throw (.unknownOperator op)
      | some f => do
        let m ← (← evalClosure ops depth env lhs).asLiteral op
        let n ← (← evalClosure ops depth env rhs).asLiteral op
        return .lit (f m n)

/-- How an evaluation with closures ends, as a result without closures. -/
def Value.readBackResult : Except (StuckReason (Value L)) (Value L) → Result L
  | .ok v => .ok v.readBack
  | .error e => .error (e.map readBack)

end NaryLambda

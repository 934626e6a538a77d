import NaryLambda.Context
import NaryLambda.Operators
import NaryLambda.Failure

/-!
# Type inference

`infer` finds the type of a term in a context, or the first error on its way
through the term: operands before the operator's name, left before right; the
callee, then the number of arguments, then the arguments from left to right,
and last whether their types fit. Parameters carry their types, so there is
nothing to guess. Of a registry only the names count.
-/

namespace NaryLambda

variable {L : Type}

/-- The first position at which the found type is not the expected one
    (`ArgumentMismatch` in `type_check`). -/
def firstMismatch (expected found : List Ty) : Option TypeError :=
  ((expected.zip found).zipIdx.find? fun p => p.1.1 != p.1.2).map fun p =>
    .argument p.2 p.1.1 p.1.2

/-- Fails unless an operand has the integer type (`OperandMismatch` in `type_check`). -/
def requireInt (op : Name) (side : Side) : Ty → Except TypeError Unit
  | .int => .ok ()
  | found => .error (.operand op side found)

mutual

/-- The type of a term in a context, or the first reason why it has none
    (`type_check`). -/
def Term.infer (ops : Operators L) (Γ : Context) : Term L → Except TypeError Ty
  | .unit => .ok .unit
  | .lit _ => .ok .int
  | .var x =>
    match Γ[x]? with
    | some t => .ok t
    | none => .error (.unbound x)
  | .lam params body => do
    let range ← body.infer ops (Γ.extend params)
    return .fn (params.map (·.type)) range
  | .app callee args => do
    match ← callee.infer ops Γ with
    | .fn domains range =>
      if domains.length ≠ args.length then
        throw (.arity (.fn domains range) domains.length args.length)
      else
        let found ← Term.inferAll ops Γ args
        match firstMismatch domains found with
        | some e => throw e
        | none => return range
    | found => throw (.notFunction found)
  | .binop op lhs rhs => do
    requireInt op .left (← lhs.infer ops Γ)
    requireInt op .right (← rhs.infer ops Γ)
    if op ∈ ops then return .int else throw (.unknownOperator op)

/-- The types of a list of terms, found from left to right. -/
def Term.inferAll (ops : Operators L) (Γ : Context) : List (Term L) → Except TypeError (List Ty)
  | [] => .ok []
  | e :: es => do
    let t ← e.infer ops Γ
    let ts ← Term.inferAll ops Γ es
    return t :: ts

end

end NaryLambda

import NaryLambda.Failure
import NaryLambda.Operators
import NaryLambda.Term.Substitution

/-!
# Reduction

Evaluation in single steps, from left to right, in the strict arity mode: the
relation `Step` between terms, and the relation `Stuck` between a term and the
reason why its leftmost active part can make no step.
-/

namespace NaryLambda

variable {L : Type}

/-- The body with values put in for the parameters, in order. A value goes to no
    place if a later parameter has the same name. -/
def Term.bindValues : List Param → List (Term L) → Term L → Term L
  | p :: params, v :: values, body =>
    bindValues params values
      (if p.name ∈ paramNames params then body else body.substitute p.name v)
  | [], _, body | _, [], body => body

/-- One step of reduction. -/
inductive Step (ops : Operators L) : Term L → Term L → Prop
  | callee {callee callee' : Term L} {args : List (Term L)} :
      Step ops callee callee' → Step ops (.app callee args) (.app callee' args)
  | arg {params : List Param} {body a a' : Term L} {values args : List (Term L)} :
      params.length = (values ++ a :: args).length → (∀ v ∈ values, v.isValue) →
      Step ops a a' →
      Step ops (.app (.lam params body) (values ++ a :: args))
        (.app (.lam params body) (values ++ a' :: args))
  | beta {params : List Param} {body : Term L} {values : List (Term L)} :
      params.length = values.length → (∀ v ∈ values, v.isValue) →
      Step ops (.app (.lam params body) values) (body.bindValues params values)
  | lhs {op : Name} {lhs lhs' rhs : Term L} :
      op ∈ ops → Step ops lhs lhs' → Step ops (.binop op lhs rhs) (.binop op lhs' rhs)
  | rhs {op : Name} {m : L} {rhs rhs' : Term L} :
      op ∈ ops → Step ops rhs rhs' → Step ops (.binop op (.lit m) rhs) (.binop op (.lit m) rhs')
  | compute {op : Name} {f : L → L → L} {m n : L} :
      ops[op]? = some f → Step ops (.binop op (.lit m) (.lit n)) (.lit (f m n))

/-- The leftmost active part of a term is stuck for the reason. -/
inductive Stuck (ops : Operators L) : Term L → StuckReason (Term L) → Prop
  | free {x : Name} : Stuck ops (.var x) (.free x)
  | callee {callee : Term L} {args : List (Term L)} {r : StuckReason (Term L)} :
      Stuck ops callee r → Stuck ops (.app callee args) r
  | notLambda {v : Term L} {args : List (Term L)} :
      v.isValue → (∀ params body, v ≠ .lam params body) → Stuck ops (.app v args) (.notLambda v)
  | arity {params : List Param} {body : Term L} {args : List (Term L)} :
      params.length ≠ args.length →
      Stuck ops (.app (.lam params body) args) (.arity params.length args.length)
  | arg {params : List Param} {body a : Term L} {values args : List (Term L)}
      {r : StuckReason (Term L)} :
      params.length = (values ++ a :: args).length → (∀ v ∈ values, v.isValue) →
      Stuck ops a r → Stuck ops (.app (.lam params body) (values ++ a :: args)) r
  | unknownOperator {op : Name} {lhs rhs : Term L} :
      op ∉ ops → Stuck ops (.binop op lhs rhs) (.unknownOperator op)
  | lhs {op : Name} {lhs rhs : Term L} {r : StuckReason (Term L)} :
      op ∈ ops → Stuck ops lhs r → Stuck ops (.binop op lhs rhs) r
  | lhsOperand {op : Name} {v rhs : Term L} :
      op ∈ ops → v.isValue → (∀ n, v ≠ .lit n) → Stuck ops (.binop op v rhs) (.operand op v)
  | rhs {op : Name} {m : L} {rhs : Term L} {r : StuckReason (Term L)} :
      op ∈ ops → Stuck ops rhs r → Stuck ops (.binop op (.lit m) rhs) r
  | rhsOperand {op : Name} {m : L} {v : Term L} :
      op ∈ ops → v.isValue → (∀ n, v ≠ .lit n) →
      Stuck ops (.binop op (.lit m) v) (.operand op v)

end NaryLambda

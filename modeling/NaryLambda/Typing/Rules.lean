import NaryLambda.Context
import NaryLambda.Failure
import NaryLambda.Operators

/-!
# Typing rules and faults

The type system as an inductive relation. Scopes are total look-ups from names
to types: a lambda's body is typed in the scope in which its parameters come
first, the last one of each name.

`Reaches` and `Fault` say where in a term a type error lies. A subterm is
reached if everything that comes before it has the types it needs; the order is
callee, number of arguments, arguments from left to right, and left operand,
right operand. A reached subterm is at fault if the types of its own parts do
not fit.
-/

namespace NaryLambda

/-! ## The type system -/

/-- The types of all names, where they have one. -/
abbrev Scope := Name → Option Ty

/-- The scope of a context. -/
def Context.scope (Γ : Context) : Scope := fun x => Γ[x]?

/-- The scope inside a lambda. -/
def Scope.under (Γ : Scope) (params : List Param) : Scope := fun x =>
  (paramType? x params).or (Γ x)

/-- The typing relation, over the operators of a registry. -/
inductive HasType {L : Type} (ops : Operators L) : Scope → Term L → Ty → Prop
  | unit {Γ : Scope} : HasType ops Γ .unit .unit
  | lit {Γ : Scope} {n : L} : HasType ops Γ (.lit n) .int
  | var {Γ : Scope} {x : Name} {t : Ty} : Γ x = some t → HasType ops Γ (.var x) t
  | lam {Γ : Scope} {params : List Param} {body : Term L} {range : Ty} :
      HasType ops (Γ.under params) body range →
      HasType ops Γ (.lam params body) (.fn (params.map (·.type)) range)
  | app {Γ : Scope} {callee : Term L} {args : List (Term L)} {domains : List Ty} {range : Ty} :
      HasType ops Γ callee (.fn domains range) → args.length = domains.length →
      (∀ p ∈ args.zip domains, HasType ops Γ p.1 p.2) → HasType ops Γ (.app callee args) range
  | binop {Γ : Scope} {op : Name} {lhs rhs : Term L} :
      HasType ops Γ lhs .int → HasType ops Γ rhs .int → op ∈ ops →
      HasType ops Γ (.binop op lhs rhs) .int

/-! ## Faults -/

variable {L : Type}

/-- `Reaches ops Γ e Δ s`: on the way through `e` in the context `Γ` the subterm
    `s` is reached, in the context `Δ` of the lambdas around it. -/
inductive Reaches (ops : Operators L) : Context → Term L → Context → Term L → Prop
  | here {Γ : Context} {e : Term L} : Reaches ops Γ e Γ e
  | body {Γ Δ : Context} {params : List Param} {body s : Term L} :
      Reaches ops (Γ.extend params) body Δ s → Reaches ops Γ (.lam params body) Δ s
  | callee {Γ Δ : Context} {callee s : Term L} {args : List (Term L)} :
      Reaches ops Γ callee Δ s → Reaches ops Γ (.app callee args) Δ s
  | arg {Γ Δ : Context} {callee a s : Term L} {before after : List (Term L)}
      {domains : List Ty} {range : Ty} :
      HasType ops Γ.scope callee (.fn domains range) →
      domains.length = (before ++ a :: after).length →
      (∀ b ∈ before, ∃ t, HasType ops Γ.scope b t) →
      Reaches ops Γ a Δ s → Reaches ops Γ (.app callee (before ++ a :: after)) Δ s
  | lhs {Γ Δ : Context} {op : Name} {lhs rhs s : Term L} :
      Reaches ops Γ lhs Δ s → Reaches ops Γ (.binop op lhs rhs) Δ s
  | rhs {Γ Δ : Context} {op : Name} {lhs rhs s : Term L} :
      HasType ops Γ.scope lhs .int → Reaches ops Γ rhs Δ s →
      Reaches ops Γ (.binop op lhs rhs) Δ s

/-- `Fault ops Γ s e`: in the context `Γ`, the term `s` itself is at fault, and `e`
    says why. -/
inductive Fault (ops : Operators L) (Γ : Context) : Term L → TypeError → Prop
  | unbound {x : Name} : x ∉ Γ → Fault ops Γ (.var x) (.unbound x)
  | left {op : Name} {lhs rhs : Term L} {t : Ty} :
      HasType ops Γ.scope lhs t → t ≠ .int → Fault ops Γ (.binop op lhs rhs) (.operand op .left t)
  | right {op : Name} {lhs rhs : Term L} {t : Ty} :
      HasType ops Γ.scope lhs .int → HasType ops Γ.scope rhs t → t ≠ .int →
      Fault ops Γ (.binop op lhs rhs) (.operand op .right t)
  | unknownOperator {op : Name} {lhs rhs : Term L} :
      HasType ops Γ.scope lhs .int → HasType ops Γ.scope rhs .int → op ∉ ops →
      Fault ops Γ (.binop op lhs rhs) (.unknownOperator op)
  | notFunction {callee : Term L} {args : List (Term L)} {t : Ty} :
      HasType ops Γ.scope callee t → (∀ domains range, t ≠ .fn domains range) →
      Fault ops Γ (.app callee args) (.notFunction t)
  | arity {callee : Term L} {args : List (Term L)} {domains : List Ty} {range : Ty} :
      HasType ops Γ.scope callee (.fn domains range) → domains.length ≠ args.length →
      Fault ops Γ (.app callee args) (.arity (.fn domains range) domains.length args.length)
  | argument {callee : Term L} {args : List (Term L)} {domains found : List Ty} {range s t : Ty}
      {position : Nat} :
      HasType ops Γ.scope callee (.fn domains range) → domains.length = args.length →
      found.length = args.length → (∀ p ∈ args.zip found, HasType ops Γ.scope p.1 p.2) →
      domains[position]? = some s → found[position]? = some t → s ≠ t →
      (∀ i < position, domains[i]? = found[i]?) →
      Fault ops Γ (.app callee args) (.argument position s t)

end NaryLambda

import NaryLambda.Ty.Basic

/-!
# Terms

A term is the unit, a literal, a variable, a lambda over any number of typed
parameters, an application to any number of arguments, or a named binary
operator between two operands. The literals come from a type `L`: the language
itself has 64-bit integers, and unbounded integers serve as its exact
counterpart. Parameters of one lambda may share a name, and then the last of
them binds it.

Results:

* `Term.induction`: induction with a hypothesis for every argument.
* `Term.size_pos`, `Term.size_le_sum_of_mem`: how sizes compare.
-/

namespace NaryLambda

/-- A typed name: a parameter of a lambda, or an entry of a context. -/
structure Param where
  name : Name
  type : Ty
  deriving DecidableEq, Inhabited

/-- The terms over literals from `L` (`Expr`). -/
inductive Term (L : Type)
  | unit
  | lit (n : L)
  | var (x : Name)
  | lam (params : List Param) (body : Term L)
  | app (callee : Term L) (args : List (Term L))
  | binop (op : Name) (lhs rhs : Term L)
  deriving Inhabited

namespace Term

variable {L : Type}

/-- Induction on terms, with a hypothesis for every argument of an application. -/
@[induction_eliminator]
theorem induction {motive : Term L → Prop} (unit : motive .unit) (lit : ∀ n, motive (.lit n))
    (var : ∀ x, motive (.var x))
    (lam : ∀ params body, motive body → motive (.lam params body))
    (app : ∀ callee args, motive callee → (∀ a ∈ args, motive a) → motive (.app callee args))
    (binop : ∀ op lhs rhs, motive lhs → motive rhs → motive (.binop op lhs rhs)) :
    ∀ e, motive e
  | .unit => unit
  | .lit n => lit n
  | .var x => var x
  | .lam params body => lam params body (induction unit lit var lam app binop body)
  | .app callee args =>
    app callee args (induction unit lit var lam app binop callee)
      (fun a _ => induction unit lit var lam app binop a)
  | .binop op lhs rhs =>
    binop op lhs rhs (induction unit lit var lam app binop lhs)
      (induction unit lit var lam app binop rhs)
termination_by e => sizeOf e

/-- Whether a term is a value: the unit, a literal or a lambda (`is_value`). -/
def isValue : Term L → Bool
  | .unit | .lit _ | .lam _ _ => true
  | .var _ | .app _ _ | .binop _ _ _ => false

/-! ## Size

Sums name their zero, so that they are the same whatever instances are imported.
-/

/-- The number of constructors in a term. -/
def size : Term L → Nat
  | .unit | .lit _ | .var _ => 1
  | .lam _ body => body.size + 1
  | .app callee args => callee.size + @List.sum Nat _ Zero.ofOfNat0 (args.map size) + 1
  | .binop _ lhs rhs => lhs.size + rhs.size + 1
termination_by e => sizeOf e

theorem size_pos (e : Term L) : 0 < e.size := by
  cases e <;> simp [size]

/-- An argument is no larger than all the arguments together. -/
theorem size_le_sum_of_mem {a : Term L} {args : List (Term L)} (h : a ∈ args) :
    a.size ≤ @List.sum Nat _ Zero.ofOfNat0 (args.map size) := by
  obtain ⟨before, after, rfl⟩ := List.append_of_mem h
  rw [List.map_append, List.sum_append_nat, List.map_cons, List.sum_cons]
  omega

/-! ## Equality -/

variable [DecidableEq L]

mutual

/-- Decides whether two terms are the same, names included (`==` of `Expr`). -/
def decEq : (d e : Term L) → Decidable (d = e)
  | .unit, .unit => isTrue rfl
  | .lit m, .lit n => decidable_of_iff (m = n) (by simp)
  | .var x, .var y => decidable_of_iff (x = y) (by simp)
  | .lam ps b, .lam qs c =>
    have := decEq b c
    decidable_of_iff (ps = qs ∧ b = c) (by simp)
  | .app c as, .app d bs =>
    have := decEq c d
    have := decEqList as bs
    decidable_of_iff (c = d ∧ as = bs) (by simp)
  | .binop o l r, .binop p m s =>
    have := decEq l m
    have := decEq r s
    decidable_of_iff (o = p ∧ l = m ∧ r = s) (by simp)
  | .unit, .lit _ | .unit, .var _ | .unit, .lam _ _ | .unit, .app _ _ | .unit, .binop _ _ _
  | .lit _, .unit | .lit _, .var _ | .lit _, .lam _ _ | .lit _, .app _ _ | .lit _, .binop _ _ _
  | .var _, .unit | .var _, .lit _ | .var _, .lam _ _ | .var _, .app _ _ | .var _, .binop _ _ _
  | .lam _ _, .unit | .lam _ _, .lit _ | .lam _ _, .var _ | .lam _ _, .app _ _
  | .lam _ _, .binop _ _ _
  | .app _ _, .unit | .app _ _, .lit _ | .app _ _, .var _ | .app _ _, .lam _ _
  | .app _ _, .binop _ _ _
  | .binop _ _ _, .unit | .binop _ _ _, .lit _ | .binop _ _ _, .var _ | .binop _ _ _, .lam _ _
  | .binop _ _ _, .app _ _ => isFalse nofun

/-- Decides whether two lists of terms are the same. -/
def decEqList : (ds es : List (Term L)) → Decidable (ds = es)
  | [], [] => isTrue rfl
  | d :: ds, e :: es =>
    have := decEq d e
    have := decEqList ds es
    decidable_of_iff (d = e ∧ ds = es) (by simp)
  | [], _ :: _ | _ :: _, [] => isFalse nofun

end

instance : DecidableEq (Term L) := decEq

end Term

end NaryLambda

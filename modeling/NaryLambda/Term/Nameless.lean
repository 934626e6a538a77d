import NaryLambda.Term.Occurrences

/-!
# Terms without bound names

A nameless term refers to a parameter by the number of lambdas between the
occurrence and the binder and by the position among the binder's parameters.
Free variables keep their names, and parameters keep their types. Two terms are
alpha-equivalent iff they have the same nameless form. Where parameters of one
lambda share a name, an occurrence refers to the last of them.

Results:

* `Nameless.induction`: induction with a hypothesis for every argument.
-/

namespace NaryLambda

/-- Terms whose bound occurrences refer to their binders. -/
inductive Nameless (L : Type)
  | unit
  | lit (n : L)
  | free (x : Name)
  | bound (depth position : Nat)
  | lam (types : List Ty) (body : Nameless L)
  | app (callee : Nameless L) (args : List (Nameless L))
  | binop (op : Name) (lhs rhs : Nameless L)
  deriving Inhabited

/-- Induction on nameless terms, with a hypothesis for every argument of an
    application. -/
@[induction_eliminator]
theorem Nameless.induction {L : Type} {motive : Nameless L → Prop} (unit : motive .unit)
    (lit : ∀ n, motive (.lit n)) (free : ∀ x, motive (.free x))
    (bound : ∀ depth position, motive (.bound depth position))
    (lam : ∀ types body, motive body → motive (.lam types body))
    (app : ∀ callee args, motive callee → (∀ a ∈ args, motive a) → motive (.app callee args))
    (binop : ∀ op lhs rhs, motive lhs → motive rhs → motive (.binop op lhs rhs)) :
    ∀ e, motive e
  | .unit => unit
  | .lit n => lit n
  | .free x => free x
  | .bound depth position => bound depth position
  | .lam types body => lam types body (induction unit lit free bound lam app binop body)
  | .app callee args =>
    app callee args (induction unit lit free bound lam app binop callee)
      (fun a _ => induction unit lit free bound lam app binop a)
  | .binop op lhs rhs =>
    binop op lhs rhs (induction unit lit free bound lam app binop lhs)
      (induction unit lit free bound lam app binop rhs)
termination_by e => sizeOf e

/-- The position of the last occurrence of a name in a list. -/
def lastPosition? (x : Name) : List Name → Option Nat
  | [] => none
  | y :: names =>
    match lastPosition? x names with
    | some i => some (i + 1)
    | none => if y = x then some 0 else none

/-- The binder that a name refers to, among the parameter names of the lambdas
    around it, innermost first: how many lambdas are crossed, and the position
    of the parameter. -/
def binder? (x : Name) : List (List Name) → Option (Nat × Nat)
  | [] => none
  | names :: scope =>
    match lastPosition? x names with
    | some i => some (0, i)
    | none => (binder? x scope).map fun b => (b.1 + 1, b.2)

variable {L : Type}

namespace Term

/-- The nameless form of a term under lambdas with the given parameter names,
    innermost first. -/
def namelessIn (scope : List (List Name)) : Term L → Nameless L
  | .unit => .unit
  | .lit n => .lit n
  | .var x =>
    match binder? x scope with
    | some b => .bound b.1 b.2
    | none => .free x
  | .lam params body => .lam (params.map (·.type)) (body.namelessIn (paramNames params :: scope))
  | .app callee args => .app (callee.namelessIn scope) (args.map (namelessIn scope))
  | .binop op lhs rhs => .binop op (lhs.namelessIn scope) (rhs.namelessIn scope)
termination_by e => sizeOf e

/-- The nameless form of a term. -/
def nameless (e : Term L) : Nameless L := e.namelessIn []

/-- Two terms that differ in the names of parameters only. -/
def AlphaEquiv (d e : Term L) : Prop := d.nameless = e.nameless

end Term

/-- The nameless term with `v` in place of a free variable. The references of
    `v` stay within `v`, so nothing is shifted under a lambda. -/
def Nameless.substitute (x : Name) (v : Nameless L) : Nameless L → Nameless L
  | .unit => .unit
  | .lit n => .lit n
  | .free y => if y = x then v else .free y
  | .bound depth position => .bound depth position
  | .lam types body => .lam types (substitute x v body)
  | .app callee args => .app (substitute x v callee) (args.map (substitute x v))
  | .binop op lhs rhs => .binop op (substitute x v lhs) (substitute x v rhs)
termination_by e => sizeOf e

end NaryLambda

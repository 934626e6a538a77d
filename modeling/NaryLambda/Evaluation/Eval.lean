import NaryLambda.Failure
import NaryLambda.Operators
import NaryLambda.Term.Substitution

/-!
# Evaluation

Call-by-value evaluation to a value or to the reason why evaluation is stuck.
An operator is looked up before its operands are evaluated, and each operand is
checked as soon as its value is known, the left one first. Of an application
the callee is evaluated first. Then arguments are evaluated from left to right,
each one being put into the body before the next is evaluated.

A term need not have a value at all, so evaluation takes a bound on the depth
of its recursion and gives no answer when the bound is too small.

Results:

* `eval_mono`: an answer under some bound is the answer under every larger one.
* `Evaluates.unique`: a term evaluates to one result at most.
-/

namespace NaryLambda

/-- What becomes of a lambda that is applied to more or fewer arguments than it
    has parameters (`ArityMismatch` of `EvaluationOptions`). -/
inductive ArityMode
  /-- The application is stuck. -/
  | strict
  /-- Parameters and arguments are paired up to the end of the shorter list, and
      what is then left of the body is the result, unevaluated. -/
  | truncate
  deriving DecidableEq, Inhabited

/-- A computation that gives no answer, or is stuck, or gives a result. The
    reason why it is stuck carries values from `V`. -/
abbrev Bounded (V : Type) := ExceptT (StuckReason V) Option

/-- How an evaluation ends: with a value, or with the reason why it is stuck. -/
abbrev Result (L : Type) := Except (StuckReason (Term L)) (Term L)

variable {L : Type}

/-- No answer. -/
def unfinished {V α : Type} : Bounded V α := ExceptT.mk none

namespace Term

/-- The number that an operand has to be (`into_int`). -/
def asLiteral (op : Name) : Term L → Bounded (Term L) L
  | .lit n => return n
  | found => throw (.operand op found)

/-- Evaluates arguments from left to right and puts the values into the body, up
    to the end of the shorter list (the fold in `apply`). The value goes to no
    place if a later parameter has the same name. -/
def passArguments (eval : Term L → Bounded (Term L) (Term L)) :
    List Param → List (Term L) → Term L → Bounded (Term L) (Term L)
  | p :: params, a :: args, body => do
    let v ← eval a
    passArguments eval params args
      (if p.name ∈ paramNames params then body else body.substitute p.name v)
  | [], _, body | _, [], body => return body

/-- Evaluates a term (`evaluate_with`), with recursion no deeper than the bound. -/
def eval (ops : Operators L) (mode : ArityMode) : Nat → Term L → Bounded (Term L) (Term L)
  | 0, _ => unfinished
  | depth + 1, e =>
    match e with
    | .unit | .lit _ | .lam _ _ => return e
    | .var x => throw (.free x)
    | .app callee args => do
      match ← eval ops mode depth callee with
      | .lam params body =>
        if params.length ≠ args.length ∧ mode = .strict then
          throw (.arity params.length args.length)
        else
          let body ← passArguments (eval ops mode depth) params args body
          if params.length = args.length then eval ops mode depth body else return body
      | found => throw (.notLambda found)
    | .binop op lhs rhs =>
      match ops[op]? with
      | none => throw (.unknownOperator op)
      | some f => do
        let m ← asLiteral op (← eval ops mode depth lhs)
        let n ← asLiteral op (← eval ops mode depth rhs)
        return .lit (f m n)

/-- The term evaluates to the result: a value, or the reason why it is stuck. -/
def Evaluates (ops : Operators L) (mode : ArityMode) (e : Term L) (r : Result L) : Prop :=
  ∃ depth, (eval ops mode depth e).run = some r

end Term

/-! ## More depth keeps the answer -/

namespace Bounded

variable {V α β : Type}

/-- Every answer of `x` is the answer of `y`. -/
def Extends (x y : Bounded V α) : Prop := ∀ r, x.run = some r → y.run = some r

theorem Extends.refl (x : Bounded V α) : Extends x x := fun _ => id

/-- A computation in two steps gives an answer iff the first step is stuck, or it
    has a value from which the second step gives the answer. -/
theorem run_bind_eq_some {x : Bounded V α} {f : α → Bounded V β}
    {r : Except (StuckReason V) β} :
    (x >>= f).run = some r ↔
      (∃ a, x.run = some (.ok a) ∧ (f a).run = some r) ∨
      (∃ e, x.run = some (.error e) ∧ r = .error e) := by
  rw [ExceptT.run_bind]
  rcases h : x.run with _ | _ | a <;> simp [eq_comm]

theorem Extends.bind {x y : Bounded V α} {f g : α → Bounded V β} (h : Extends x y)
    (hfg : ∀ a, Extends (f a) (g a)) : Extends (x >>= f) (y >>= g) := by
  intro r hr
  rw [run_bind_eq_some] at hr ⊢
  rcases hr with ⟨a, hx, hf⟩ | ⟨e, hx, he⟩
  · exact .inl ⟨a, h _ hx, hfg a _ hf⟩
  · exact .inr ⟨e, h _ hx, he⟩

end Bounded

namespace Term

open Bounded

theorem extends_passArguments {eval eval' : Term L → Bounded (Term L) (Term L)}
    (h : ∀ e, Extends (eval e) (eval' e)) (params : List Param) (args : List (Term L))
    (body : Term L) :
    Extends (passArguments eval params args body) (passArguments eval' params args body) := by
  induction params generalizing args body with
  | nil => exact .refl _
  | cons p params ih =>
    cases args with
    | nil => exact .refl _
    | cons a args => exact (h a).bind fun v => ih _ _

theorem extends_eval_succ (ops : Operators L) (mode : ArityMode) (depth : Nat) (e : Term L) :
    Extends (eval ops mode depth e) (eval ops mode (depth + 1) e) := by
  induction depth generalizing e with
  | zero => exact fun r h => by simp [eval, unfinished] at h
  | succ depth ih =>
    cases e with
    | unit | lit | lam | var => exact .refl _
    | app callee args =>
      refine (ih callee).bind fun v => ?_
      split
      · split
        · exact .refl _
        · refine (extends_passArguments ih _ _ _).bind fun b => ?_
          split
          · exact ih b
          · exact .refl _
      · exact .refl _
    | binop op lhs rhs =>
      simp only [eval]
      split
      · exact .refl _
      · exact (ih lhs).bind fun v => (Extends.refl _).bind fun m => (ih rhs).bind fun _ => .refl _

/-- An answer under some bound is the answer under every larger one. -/
theorem eval_mono {ops : Operators L} {mode : ArityMode} {d d' : Nat} {e : Term L}
    {r : Result L} (hle : d ≤ d') (h : (eval ops mode d e).run = some r) :
    (eval ops mode d' e).run = some r := by
  induction hle with
  | refl => exact h
  | step _ ih => exact extends_eval_succ _ _ _ _ _ ih

/-- A term evaluates to one result at most. -/
theorem Evaluates.unique {ops : Operators L} {mode : ArityMode} {e : Term L}
    {r s : Result L} (hr : Evaluates ops mode e r) (hs : Evaluates ops mode e s) : r = s := by
  obtain ⟨d, hd⟩ := hr
  obtain ⟨d', hd'⟩ := hs
  exact Option.some.inj ((eval_mono (Nat.le_max_left d d') hd).symm.trans
    (eval_mono (Nat.le_max_right d d') hd'))

end Term

end NaryLambda

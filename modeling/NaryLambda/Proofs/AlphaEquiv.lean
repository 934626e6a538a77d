import NaryLambda.Proofs.Pointwise
import NaryLambda.Term.Nameless

/-!
# The form of alpha-equivalent terms

Two terms, each under lambdas of its own, that have the same nameless form are
terms of one form, and their parts have the same nameless forms again. A variable
is bound by the same parameter on both sides, or it is free on both sides and has
the same name.

Results:

* `Term.alphaForm_of_namelessIn_eq`: the form of terms with one nameless form.
-/

namespace NaryLambda

namespace Term

variable {L : Type}

/-! ## The nameless form of a term -/

@[simp] theorem nameless_unit : (unit : Term L).nameless = .unit := by rw [nameless, namelessIn]

@[simp] theorem nameless_lit (n : L) : (lit n).nameless = .lit n := by rw [nameless, namelessIn]

@[simp] theorem nameless_var (x : Name) : (var x : Term L).nameless = .free x := by
  rw [nameless, namelessIn, binder?]

@[simp] theorem nameless_lam (params : List Param) (body : Term L) :
    (lam params body).nameless =
      .lam (params.map (·.type)) (body.namelessIn [paramNames params]) := by
  rw [nameless, namelessIn]

@[simp] theorem nameless_app (callee : Term L) (args : List (Term L)) :
    (app callee args).nameless = .app callee.nameless (args.map nameless) := by
  rw [nameless, namelessIn]
  rfl

@[simp] theorem nameless_binop (op : Name) (lhs rhs : Term L) :
    (binop op lhs rhs).nameless = .binop op lhs.nameless rhs.nameless := by
  rw [nameless, namelessIn, nameless, nameless]

/-! ## Two terms with one nameless form -/

/-- Two terms of one form, under lambdas with the parameter names of `scope` and
    `scope'`. Parts have the same nameless form. -/
inductive AlphaForm (scope scope' : List (List Name)) : Term L → Term L → Prop
  | unit : AlphaForm scope scope' .unit .unit
  | lit {n : L} : AlphaForm scope scope' (.lit n) (.lit n)
  | free {x : Name} : binder? x scope = none → binder? x scope' = none →
      AlphaForm scope scope' (.var x) (.var x)
  | bound {x y : Name} {b : Nat × Nat} : binder? x scope = some b → binder? y scope' = some b →
      AlphaForm scope scope' (.var x) (.var y)
  | lam {params params' : List Param} {body body' : Term L} :
      params.map (·.type) = params'.map (·.type) →
      body.namelessIn (paramNames params :: scope) =
        body'.namelessIn (paramNames params' :: scope') →
      AlphaForm scope scope' (.lam params body) (.lam params' body')
  | app {callee callee' : Term L} {args args' : List (Term L)} :
      callee.namelessIn scope = callee'.namelessIn scope' →
      List.Forall₂ (fun a a' => a.namelessIn scope = a'.namelessIn scope') args args' →
      AlphaForm scope scope' (.app callee args) (.app callee' args')
  | binop {op : Name} {lhs lhs' rhs rhs' : Term L} :
      lhs.namelessIn scope = lhs'.namelessIn scope' →
      rhs.namelessIn scope = rhs'.namelessIn scope' →
      AlphaForm scope scope' (.binop op lhs rhs) (.binop op lhs' rhs')

/-- The nameless form of a variable: a reference to its binder, or its name. -/
theorem namelessIn_var_cases (x : Name) (scope : List (List Name)) :
    (binder? x scope = none ∧ (var x : Term L).namelessIn scope = .free x) ∨
      ∃ b, binder? x scope = some b ∧ (var x : Term L).namelessIn scope = .bound b.1 b.2 := by
  rw [namelessIn]
  cases binder? x scope with
  | none => exact .inl ⟨rfl, rfl⟩
  | some b => exact .inr ⟨b, rfl, rfl⟩

/-- Only a variable has the nameless form of a variable. -/
theorem exists_var_of_namelessIn_eq {x : Name} {e : Term L} {scope scope' : List (List Name)}
    (h : (var x).namelessIn scope = e.namelessIn scope') : ∃ y, e = var y := by
  cases e with
  | var y => exact ⟨y, rfl⟩
  | unit | lit | lam | app | binop =>
    rcases namelessIn_var_cases (L := L) x scope with ⟨-, hx⟩ | ⟨b, -, hx⟩ <;>
      simp [hx, namelessIn] at h

/-- Variables with one nameless form are bound by the same parameter, or both free. -/
theorem alphaForm_var {x y : Name} {scope scope' : List (List Name)}
    (h : (var x : Term L).namelessIn scope = (var y).namelessIn scope') :
    AlphaForm scope scope' (var x : Term L) (var y) := by
  rcases namelessIn_var_cases (L := L) x scope with ⟨hb, hx⟩ | ⟨b, hb, hx⟩
  · rcases namelessIn_var_cases (L := L) y scope' with ⟨hb', hy⟩ | ⟨b', hb', hy⟩
    · rw [hx, hy, Nameless.free.injEq] at h
      subst h
      exact .free hb hb'
    · rw [hx, hy] at h
      cases h
  · rcases namelessIn_var_cases (L := L) y scope' with ⟨hb', hy⟩ | ⟨b', hb', hy⟩
    · rw [hx, hy] at h
      cases h
    · rw [hx, hy, Nameless.bound.injEq] at h
      exact .bound hb (hb'.trans (congrArg some (Prod.ext h.1.symm h.2.symm)))

/-- Terms with one nameless form are terms of one form. -/
theorem alphaForm_of_namelessIn_eq {d e : Term L} {scope scope' : List (List Name)}
    (h : d.namelessIn scope = e.namelessIn scope') : AlphaForm scope scope' d e := by
  cases d with
  | var x =>
    obtain ⟨y, rfl⟩ := exists_var_of_namelessIn_eq h
    exact alphaForm_var h
  | unit =>
    cases e with
    | unit => exact .unit
    | var y => obtain ⟨x, ⟨⟩⟩ := exists_var_of_namelessIn_eq h.symm
    | lit | lam | app | binop => simp [namelessIn] at h
  | lit m =>
    cases e with
    | lit n =>
      obtain rfl : m = n := by simpa [namelessIn] using h
      exact .lit
    | var y => obtain ⟨x, ⟨⟩⟩ := exists_var_of_namelessIn_eq h.symm
    | unit | lam | app | binop => simp [namelessIn] at h
  | lam params body =>
    cases e with
    | lam params' body' =>
      rw [namelessIn, namelessIn, Nameless.lam.injEq] at h
      exact .lam h.1 h.2
    | var y => obtain ⟨x, ⟨⟩⟩ := exists_var_of_namelessIn_eq h.symm
    | unit | lit | app | binop => simp [namelessIn] at h
  | app callee args =>
    cases e with
    | app callee' args' =>
      rw [namelessIn, namelessIn, Nameless.app.injEq] at h
      exact .app h.1 (forall₂_iff_map_eq.2 h.2)
    | var y => obtain ⟨x, ⟨⟩⟩ := exists_var_of_namelessIn_eq h.symm
    | unit | lit | lam | binop => simp [namelessIn] at h
  | binop op lhs rhs =>
    cases e with
    | binop op' lhs' rhs' =>
      rw [namelessIn, namelessIn, Nameless.binop.injEq] at h
      obtain ⟨rfl, hl, hr⟩ := h
      exact .binop hl hr
    | var y => obtain ⟨x, ⟨⟩⟩ := exists_var_of_namelessIn_eq h.symm
    | unit | lit | lam | app => simp [namelessIn] at h

end Term

end NaryLambda

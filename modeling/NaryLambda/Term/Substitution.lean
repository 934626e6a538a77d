import NaryLambda.Term.Renaming

/-!
# Capture-avoiding substitution

`e.substitute x v` replaces the free occurrences of `x` in `e` by `v`. A lambda
that binds `x`, or in which `x` is not free, stays as it is. Any other lambda
first has the parameters renamed that are free in `v`, each renaming being
itself a substitution of a variable in the body, and then `v` is put into the
renamed body. That body is no subterm of the lambda, but it is as large as the
old one, since a variable for a variable keeps the size: this is why the
recursion ends.

Results:

* `substitute_var`, `substitute_lam`, `substitute_app`, …: the equations of
  substitution, one for each form of term.
* `size_substitute`: substitution of a leaf keeps the size.
-/

namespace NaryLambda

namespace Term

variable {L : Type}

/-- The substitution of `v` for `x`, with the fact that it keeps the size when
    `v` is a leaf. -/
def substituteSized (x : Name) (v : Term L) (e : Term L) :
    { r : Term L // v.size = 1 → r.size = e.size } :=
  match e with
  | .unit => ⟨.unit, fun _ => rfl⟩
  | .lit n => ⟨.lit n, fun _ => rfl⟩
  | .var y => if y = x then ⟨v, fun h => by simp [h, size]⟩ else ⟨.var y, fun _ => rfl⟩
  | .lam params body =>
    if x ∈ paramNames params ∨ body.occursFree x = false then ⟨.lam params body, fun _ => rfl⟩
    else
      let names := freshRenaming params body v.freeVars
      let ⟨renamed, hr⟩ : { b : Term L // b.size = body.size } :=
        names.foldl (fun ⟨b, hb⟩ r =>
          ⟨(substituteSized r.1 (.var r.2) b).1,
            ((substituteSized r.1 (.var r.2) b).2 (by simp [size])).trans hb⟩) ⟨body, rfl⟩
      ⟨.lam (params.map (·.rename names)) (substituteSized x v renamed).1, fun h => by
        simp only [size, (substituteSized x v renamed).2 h, hr]⟩
  | .app callee args =>
    ⟨.app (substituteSized x v callee).1 (args.attach.map fun a => (substituteSized x v a.1).1),
      fun h => by
        have : args.attach.map (fun a => (substituteSized x v a.1).1.size) = args.map size := by
          rw [← List.attach_map_val (f := size)]
          exact List.map_congr_left fun a _ => (substituteSized x v a.1).2 h
        simp only [size, (substituteSized x v callee).2 h, List.map_map, Function.comp_def, this]⟩
  | .binop op lhs rhs =>
    ⟨.binop op (substituteSized x v lhs).1 (substituteSized x v rhs).1, fun h => by
      simp only [size, (substituteSized x v lhs).2 h, (substituteSized x v rhs).2 h]⟩
termination_by e.size
decreasing_by
  all_goals simp only [size]
  all_goals try omega
  all_goals
    have := size_le_sum_of_mem a.2
    omega

/-- The term with every free occurrence of `x` replaced by `v` (`substitute`).
    Parameters that would capture a free variable of `v` are renamed. -/
def substitute (e : Term L) (x : Name) (v : Term L) : Term L := (substituteSized x v e).1

/-- Applies a renaming to the free variables of a term, one name after another. -/
def renameVars (names : Renaming) (e : Term L) : Term L :=
  names.foldl (fun e r => e.substitute r.1 (.var r.2)) e

/-- A lambda's parameters and body after the parameters in `captured` got fresh
    names (`rename_captured`). `renameInPlace` does the same in a loop. -/
def renameCaptured (params : List Param) (body : Term L) (captured : NameSet) :
    List Param × Term L :=
  let names := freshRenaming params body captured
  (params.map (·.rename names), body.renameVars names)

/-! ## Size -/

/-- Substitution of a leaf keeps the size of a term. -/
theorem size_substitute (e : Term L) (x : Name) {v : Term L} (h : v.size = 1) :
    (e.substitute x v).size = e.size :=
  (substituteSized x v e).2 h

theorem size_renameVars (names : Renaming) (e : Term L) : (e.renameVars names).size = e.size := by
  induction names generalizing e with
  | nil => rfl
  | cons r names ih =>
    rw [renameVars, List.foldl_cons, ← renameVars, ih, size_substitute _ _ (by simp [size])]

/-! ## Equations -/

@[simp] theorem substitute_unit (x : Name) (v : Term L) : Term.unit.substitute x v = .unit := by
  simp [substitute, substituteSized]

@[simp] theorem substitute_lit (n : L) (x : Name) (v : Term L) :
    (Term.lit n).substitute x v = .lit n := by
  simp [substitute, substituteSized]

@[simp] theorem substitute_var (x y : Name) (v : Term L) :
    (Term.var y).substitute x v = if y = x then v else .var y := by
  rw [substitute, substituteSized]
  split <;> rfl

@[simp] theorem substitute_app (callee : Term L) (args : List (Term L)) (x : Name) (v : Term L) :
    (Term.app callee args).substitute x v =
      .app (callee.substitute x v) (args.map (·.substitute x v)) := by
  rw [substitute, substituteSized]
  simp [substitute]

@[simp] theorem substitute_binop (op : Name) (lhs rhs : Term L) (x : Name) (v : Term L) :
    (Term.binop op lhs rhs).substitute x v =
      .binop op (lhs.substitute x v) (rhs.substitute x v) := by
  rw [substitute, substituteSized]
  rfl

theorem substitute_lam (params : List Param) (body : Term L) (x : Name) (v : Term L) :
    (Term.lam params body).substitute x v =
      if x ∈ paramNames params ∨ body.occursFree x = false then .lam params body
      else
        let renamed := renameCaptured params body v.freeVars
        .lam renamed.1 (renamed.2.substitute x v) := by
  have fold : ∀ (names : Renaming) (b : { b : Term L // b.size = body.size }),
      (names.foldl (fun (⟨b, hb⟩ : { b : Term L // b.size = body.size }) r =>
        (⟨(substituteSized r.1 (.var r.2) b).1,
          ((substituteSized r.1 (.var r.2) b).2 (by simp [size])).trans hb⟩ :
            { b : Term L // b.size = body.size })) b).1 = b.1.renameVars names := by
    intro names
    induction names with
    | nil => exact fun _ => rfl
    | cons r names ih => exact fun b => ih _
  rw [substitute, substituteSized]
  split
  · rfl
  · simp only [renameCaptured, ← fold _ ⟨body, rfl⟩]
    rfl

/-- A lambda that binds the name, or in which it is not free, stays as it is. -/
theorem substitute_lam_of_not_occursFree {params : List Param} {body : Term L} {x : Name}
    (h : (Term.lam params body).occursFree x = false) (v : Term L) :
    (Term.lam params body).substitute x v = .lam params body := by
  rw [substitute_lam, if_pos]
  simp only [occursFree_lam, Bool.and_eq_false_iff, Bool.not_eq_false', List.contains_eq_mem,
    decide_eq_true_eq] at h
  exact h

end Term

end NaryLambda

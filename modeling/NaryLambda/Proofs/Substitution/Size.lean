import Mathlib.Algebra.BigOperators.Ring.List
import Mathlib.Algebra.Ring.Nat
import NaryLambda.Proofs.Substitution.InPlace

/-!
# How large a substitution is

Each free occurrence of the name, which has size one, makes room for the new term. To
say how many occurrences a body has after its lambda's parameters are renamed, free
occurrences are counted first: renaming brings in variables that are no parameter's and
free nowhere, so the count of every name stays.

Results:

* `Term.countFree_substitute`: how often a name is free in a substitution.
* `Term.size_substitute_add`: the size of a substitution.
* `Term.substitution_ends`: substitution ends, within a depth of recursion that is the
  size of the term, and its result has this size.
-/

namespace NaryLambda

namespace Term

variable {L : Type}

/-! ## Free occurrences -/

/-- A name is counted nowhere iff it does not occur free. -/
theorem countFree_eq_zero_iff {e : Term L} {x : Name} :
    e.countFree x = 0 ↔ e.occursFree x = false := by
  induction e with
  | unit | lit n => simp [countFree]
  | var y => simp [countFree]
  | lam params body ih =>
    rw [countFree]
    by_cases hx : x ∈ paramNames params <;> simp [hx, ih]
  | app callee args ihc iha =>
    rw [countFree, Nat.add_eq_zero_iff, ihc, List.sum_eq_zero_iff_forall_eq_nat,
      List.forall_mem_map, occursFree_app, Bool.or_eq_false_iff, List.any_eq_false]
    simp only [Bool.not_eq_true]
    exact and_congr_right fun _ => forall₂_congr fun a ha => iha a ha
  | binop op lhs rhs ihl ihr =>
    rw [countFree, Nat.add_eq_zero_iff, ihl, ihr, occursFree_binop, Bool.or_eq_false_iff]

/-- What substitution does to the number of free occurrences. -/
def CountLaw (e : Term L) : Prop :=
  ∀ (x : Name) (v : Term L) (z : Name), (e.substitute x v).countFree z =
    (if z = x then 0 else e.countFree z) + e.countFree x * v.countFree z

/-- A turn of the renaming loop changes no count of the lambda. -/
theorem countFree_turn {captured : NameSet} {params : List Param} {body : Term L}
    {r : Name × Name} (h : Refreshes captured params body r) (hbody : CountLaw body) (z : Name) :
    (lam (params.map (·.rename [r])) (body.substitute r.1 (.var r.2))).countFree z =
      (lam params body).countFree z := by
  have hvar : (var r.2 : Term L).countFree z = if r.2 = z then 1 else 0 := by rw [countFree]
  have hmem : z ∈ paramNames (params.map (·.rename [r])) ↔
      (z ∈ paramNames params ∧ z ≠ r.1) ∨ (z = r.2 ∧ r.1 ∈ paramNames params) :=
    mem_paramNames_rename
  have hne : r.2 ≠ r.1 := fun he => h.new_notMem (he ▸ h.old_mem)
  rw [countFree, countFree, hbody, hvar]
  by_cases hnew : z = r.2
  · -- the new name is a parameter after the turn, and free nowhere before it
    subst hnew
    rw [if_pos (hmem.2 (.inr ⟨rfl, h.old_mem⟩)), if_neg h.new_notMem,
      countFree_eq_zero_iff.2 h.new_notFree]
  · by_cases hold : z = r.1
    · -- the old name is a parameter before the turn, and replaced everywhere by it
      subst hold
      have hgone : r.1 ∉ paramNames (params.map (·.rename [r])) := by
        rw [hmem]
        exact fun h => h.elim (fun h => h.2 rfl) (fun h => hnew h.1)
      rw [if_neg hgone, if_pos rfl, if_neg hne, if_pos h.old_mem, Nat.mul_zero]
    · have hsame : z ∈ paramNames (params.map (·.rename [r])) ↔ z ∈ paramNames params := by
        rw [hmem]
        exact ⟨fun h => h.elim (·.1) fun h => absurd h.1 hnew, fun h => .inl ⟨h, hold⟩⟩
      rw [if_neg hold, if_neg (Ne.symm hnew), Nat.mul_zero, Nat.add_zero]
      simp only [hsame]

theorem countFree_renameCaptured_of_countLaw (params : List Param) {body : Term L}
    (captured : NameSet) (hbody : ∀ b : Term L, b.size = body.size → CountLaw b) (z : Name) :
    (lam (renameCaptured params body captured).1
      (renameCaptured params body captured).2).countFree z = (lam params body).countFree z := by
  refine renameCaptured_keeps
    (motive := fun ps b => (lam ps b).countFree z = (lam params body).countFree z) rfl ?_
  intro ps b r hsize hr h
  rw [countFree_turn hr (hbody b hsize), h]

/-- A name that is free in a lambda is counted in the body that its parameters' renaming
    leaves. -/
theorem countFree_of_occursFree_lam {params : List Param} {body : Term L} {x : Name}
    (h : (lam params body).occursFree x = true) :
    (lam params body).countFree x = body.countFree x := by
  rw [countFree, if_neg (occursFree_lam_iff.1 h).1]

theorem countLaw (e : Term L) : CountLaw e := by
  induction e using sizeInduction with
  | unit | lit n => intro x v z; simp [countFree]
  | var y =>
    intro x v z
    rw [substitute_var, countFree, countFree]
    by_cases hy : y = x
    · rw [if_pos hy, if_pos hy, Nat.one_mul]
      grind
    · rw [if_neg hy, if_neg hy, Nat.zero_mul, countFree]
      grind
  | lam params body ih =>
    intro x v z
    rcases substitute_lam_cases params body x v with ⟨hx, heq⟩ | ⟨hx, heq⟩
    · rw [heq, countFree_eq_zero_iff.2 hx]
      split_ifs with hz
      · rw [hz, countFree_eq_zero_iff.2 hx, Nat.zero_mul]
      · rw [Nat.zero_mul, Nat.add_zero]
    · have hlam := occursFree_renameCaptured params body v.freeVars
      have hcount := countFree_renameCaptured_of_countLaw params v.freeVars ih
      rw [← hlam] at hx
      rw [heq, ← hcount z, ← hcount x, countFree_of_occursFree_lam hx, countFree, countFree,
        ih _ (size_renameCaptured _ _ _)]
      by_cases hz : z ∈ paramNames (renameCaptured params body v.freeVars).1
      · -- no free variable of the new term is a parameter after the renaming
        have hv : v.countFree z = 0 := by
          rw [countFree_eq_zero_iff, Bool.eq_false_iff]
          exact fun h => notMem_renameCaptured params body (mem_freeVars.2 h) hz
        rw [if_pos hz, if_pos hz, hv, ite_self, Nat.mul_zero]
      · rw [if_neg hz, if_neg hz]
  | app callee args ihc iha =>
    intro x v z
    have hargs : (args.map fun a => (a.substitute x v).countFree z).sum =
        (if z = x then 0 else (args.map (countFree z)).sum) +
          (args.map (countFree x)).sum * v.countFree z := by
      rw [List.map_congr_left fun a ha => iha a ha x v z, List.sum_map_add, List.sum_map_mul_right]
      split_ifs
      · rw [List.sum_eq_zero_iff_forall_eq_nat.2 (by simp)]
      · rfl
    rw [substitute_app, countFree, countFree, countFree, ihc, List.map_map, Function.comp_def,
      hargs, Nat.add_mul]
    split_ifs <;> omega
  | binop op lhs rhs ihl ihr =>
    intro x v z
    rw [substitute_binop, countFree, countFree, countFree, ihl, ihr, Nat.add_mul]
    split_ifs <;> omega

/-- How often a name is free in a substitution: as often as in the term, unless it is the
    name replaced, and as often as in the new term for every place where that one is put. -/
theorem countFree_substitute (e : Term L) (x : Name) (v : Term L) (z : Name) :
    (e.substitute x v).countFree z =
      (if z = x then 0 else e.countFree z) + e.countFree x * v.countFree z :=
  countLaw e x v z

/-- Renaming captured parameters changes no count of a lambda. -/
theorem countFree_renameCaptured (params : List Param) (body : Term L) (captured : NameSet)
    (z : Name) :
    (lam (renameCaptured params body captured).1
      (renameCaptured params body captured).2).countFree z = (lam params body).countFree z :=
  countFree_renameCaptured_of_countLaw params captured (fun b _ => countLaw b) z

/-! ## Size -/

/-- A substitution takes away as many variables as are free under the name, and puts as
    many copies of the new term in their places. -/
theorem size_substitute_add (e : Term L) (x : Name) (v : Term L) :
    (e.substitute x v).size + e.countFree x = e.size + e.countFree x * v.size := by
  induction e using sizeInduction with
  | unit | lit n => simp [countFree]
  | var y =>
    rw [substitute_var, countFree]
    split_ifs
    · rw [size]
      omega
    · rw [Nat.zero_mul]
  | lam params body ih =>
    rcases substitute_lam_cases params body x v with ⟨hx, heq⟩ | ⟨hx, heq⟩
    · rw [heq, countFree_eq_zero_iff.2 hx, Nat.zero_mul]
    · have hcount := countFree_renameCaptured params body v.freeVars x
      rw [← occursFree_renameCaptured params body v.freeVars] at hx
      rw [countFree_of_occursFree_lam hx] at hcount
      have hsize := size_renameCaptured params body v.freeVars
      have hbody := ih _ hsize
      rw [hcount, hsize] at hbody
      rw [heq, size, size]
      omega
  | app callee args ihc iha =>
    have hargs : (args.map fun a => (a.substitute x v).size + a.countFree x).sum =
        (args.map fun a => a.size + a.countFree x * v.size).sum := by
      rw [List.map_congr_left iha]
    rw [List.sum_map_add, List.sum_map_add, List.sum_map_mul_right] at hargs
    rw [substitute_app, size, size, countFree, List.map_map, Function.comp_def, Nat.add_mul]
    omega
  | binop op lhs rhs ihl ihr =>
    rw [substitute_binop, size, size, countFree, Nat.add_mul]
    omega

/-- **Substitution ends, and how large its result is.** Recursion as deep as the size of
    the term, or any deeper, is enough for substitution. Each free occurrence of the name
    gives way to a copy of the new term. And renaming captured parameters keeps the size
    of the body, so that the renamed body, although it is no part of the lambda, is
    smaller than the lambda. -/
theorem substitution_ends (e : Term L) (x : Name) (v : Term L) :
    (∀ more, substituteWithin (e.size + more) e x v = some (e.substitute x v)) ∧
      (e.substitute x v).size + e.countFree x = e.size + e.countFree x * v.size ∧
      ∀ params (body : Term L) captured,
        (renameCaptured params body captured).2.size = body.size ∧
          (renameCaptured params body captured).2.size < (lam params body).size := by
  refine ⟨fun more => substituteWithin_eq (Nat.le_add_right _ _) x v,
    size_substitute_add e x v, fun params body captured => ?_⟩
  rw [size_renameCaptured, size]
  exact ⟨rfl, Nat.lt_succ_self _⟩

end Term

end NaryLambda

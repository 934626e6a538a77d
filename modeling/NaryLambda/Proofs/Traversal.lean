import NaryLambda.Proofs.Substitution.FreeVars
import NaryLambda.Term.InPlace

/-!
# Free variables, in four ways

Whether a name is free is decided by `occursFree`; the set of free variables is collected
by `freeVars`, is described part by part by `freeNames`, and is found by a traversal with
one stack of bound names for the whole term. All four agree. What makes the traversal
right is that it leaves the stack as it found it: each part of a term is then reached
with the names bound around it, and with no names bound in another part.

Results:

* `Term.mem_freeNames`: the members of the set that is described part by part.
* `Term.traverse_eq`: what a traversal does to its state.
* `Term.freeVars_agree`: the four agree.
-/

namespace NaryLambda

namespace Term

variable {L : Type}

/-! ## The set part by part -/

theorem mem_foldl_union {x : Name} {sets : List NameSet} {free : NameSet} :
    x ∈ sets.foldl (· ∪ ·) free ↔ x ∈ free ∨ ∃ s ∈ sets, x ∈ s := by
  induction sets generalizing free with
  | nil => simp
  | cons s sets ih =>
    rw [List.foldl_cons, ih, Std.ExtTreeSet.mem_union_iff, or_assoc]
    simp

/-- A name is in the set that is described part by part iff it occurs free. -/
theorem mem_freeNames {e : Term L} {x : Name} :
    x ∈ e.freeNames ↔ e.occursFree x = true := by
  induction e with
  | unit | lit n => simp [freeNames]
  | var y =>
    rw [freeNames, Std.ExtTreeSet.mem_ofList, List.contains_iff_mem, List.mem_singleton,
      occursFree_var, beq_iff_eq]
    exact eq_comm
  | lam params body ih =>
    rw [freeNames, Std.ExtTreeSet.mem_diff_iff, ih, occursFree_lam_iff,
      Std.ExtTreeSet.mem_ofList, List.contains_iff_mem]
    exact and_comm
  | app callee args ihc iha =>
    rw [freeNames, mem_foldl_union, ihc, occursFree_app_iff]
    refine or_congr_right ?_
    simp only [List.mem_map, exists_exists_and_eq_and]
    exact exists_congr fun a => and_congr_right (iha a)
  | binop op lhs rhs ihl ihr =>
    rw [freeNames, Std.ExtTreeSet.mem_union_iff, ihl, ihr, occursFree_binop_iff]

theorem freeVars_eq_freeNames (e : Term L) : e.freeVars = e.freeNames :=
  Std.ExtTreeSet.ext_mem fun _ => mem_freeVars.trans mem_freeNames.symm

/-! ## One stack -/

/-- Of the bound names it matters which they are, and not in what order they were bound. -/
theorem collectFree_congr {bound bound' : List Name} (h : ∀ x, x ∈ bound ↔ x ∈ bound')
    (e : Term L) (free : NameSet) : e.collectFree bound free = e.collectFree bound' free := by
  refine Std.ExtTreeSet.ext_mem fun x => ?_
  rw [mem_collectFree, mem_collectFree, h]

/-- A traversal leaves the stack as it found it, and collects the free variables of the
    term that are not on the stack. -/
theorem traverse_eq (e : Term L) (s : Traversal) :
    e.traverse s = ⟨s.bound, e.collectFree s.bound s.free⟩ := by
  induction e generalizing s with
  | unit | lit n => rw [traverse, collectFree]
  | var y =>
    rw [traverse, collectFree]
    split <;> rfl
  | lam params body ih =>
    have hstack : ∀ x, x ∈ s.bound ++ paramNames params ↔ x ∈ paramNames params ++ s.bound := by
      intro x
      rw [List.mem_append, List.mem_append, or_comm]
    rw [traverse, ih, collectFree, collectFree_congr hstack]
    simp only [List.take_left]
  | app callee args ihc iha =>
    rw [traverse, collectFree, ihc]
    generalize callee.collectFree s.bound s.free = free
    -- every argument is reached with the stack of the whole application
    induction args generalizing free with
    | nil => rfl
    | cons a args ih =>
      rw [List.foldl_cons, List.foldl_cons, iha a (.head _)]
      exact ih (fun b hb => iha b (.tail _ hb)) _
  | binop op lhs rhs ihl ihr => rw [traverse, collectFree, ihl, ihr]

/-- **The analyses of free variables agree.** A name is among the free variables iff it
    occurs free. The set is the one that is described part by part, where a lambda
    contributes the free variables of its body without all of its parameters. And a
    traversal with one stack, which starts with nothing bound, finds that set; in whatever
    state it reaches a term, it leaves the stack as it was and adds the free variables of
    the term that are not on it. -/
theorem freeVars_agree (e : Term L) :
    (∀ x, x ∈ e.freeVars ↔ e.occursFree x = true) ∧
      e.freeVars = e.freeNames ∧
      e.traverse ⟨[], ∅⟩ = ⟨[], e.freeVars⟩ ∧
      ∀ s : Traversal, e.traverse s =
        ⟨s.bound, s.free ∪ (e.freeNames \ .ofList s.bound)⟩ := by
  refine ⟨fun x => mem_freeVars, freeVars_eq_freeNames e, traverse_eq e _, fun s => ?_⟩
  rw [traverse_eq, Traversal.mk.injEq]
  refine ⟨rfl, Std.ExtTreeSet.ext_mem fun x => ?_⟩
  rw [mem_collectFree, Std.ExtTreeSet.mem_union_iff, Std.ExtTreeSet.mem_diff_iff, mem_freeNames,
    Std.ExtTreeSet.mem_ofList, List.contains_iff_mem]
  tauto

/-- In `(\y: int. y)[y]` the callee binds `y`, and the argument does not see it. -/
example :
    let s := (app (lam [⟨"y", .int⟩] (var "y")) [var "y"] : Term Int64).traverse ⟨["x"], ∅⟩
    s.bound = ["x"] ∧ s.free.toList = ["y"] := by
  decide +kernel

end Term

end NaryLambda

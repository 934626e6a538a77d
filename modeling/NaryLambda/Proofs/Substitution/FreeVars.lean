import Mathlib.Tactic.Tauto
import NaryLambda.Proofs.Substitution.Renaming

/-!
# Free variables under substitution

What is free in `e.substitute x v`: the free variables of `e` other than `x`,
and those of `v` if there is an `x` to replace. No free variable of `v` is lost
to a parameter, and no name that renaming chooses becomes free.

Results:

* `Term.occursFree_substitute`: whether a name is free in a substitution.
* `Term.freeVars_substitute`: the set of free variables of a substitution.
* `Term.occursFree_renameCaptured`: renaming captured parameters changes no free
  variable of a lambda.
* `Term.substitute_lam_cases`: a lambda stays as it is under a substitution, or
  has its captured parameters renamed before its body changes.
-/

namespace NaryLambda

namespace Term

variable {L : Type}

theorem occursFree_lam_iff {x : Name} {params : List Param} {body : Term L} :
    (lam params body).occursFree x = true ↔
      x ∉ paramNames params ∧ body.occursFree x = true := by
  simp

theorem occursFree_app_iff {x : Name} {callee : Term L} {args : List (Term L)} :
    (app callee args).occursFree x = true ↔
      callee.occursFree x = true ∨ ∃ a ∈ args, a.occursFree x = true := by
  simp

theorem occursFree_binop_iff {x op : Name} {lhs rhs : Term L} :
    (binop op lhs rhs).occursFree x = true ↔
      lhs.occursFree x = true ∨ rhs.occursFree x = true := by
  simp

theorem closed_app_iff {callee : Term L} {args : List (Term L)} :
    (app callee args).Closed ↔ callee.Closed ∧ ∀ a ∈ args, a.Closed := by
  simp only [Closed, ← Bool.not_eq_true, occursFree_app_iff]
  grind

theorem closed_binop_iff {op : Name} {lhs rhs : Term L} :
    (binop op lhs rhs).Closed ↔ lhs.Closed ∧ rhs.Closed := by
  simp only [Closed, ← Bool.not_eq_true, occursFree_binop_iff]
  grind

/-- What some term of a list has after a substitution, some term has before, or it comes
    with the new term into one of the list. -/
theorem exists_mem_map_substitute {x : Name} {v : Term L} {args : List (Term L)}
    {P Q : Term L → Prop} {R : Prop}
    (h : ∀ a ∈ args, (Q (a.substitute x v) ↔ P a ∨ (a.occursFree x = true ∧ R))) :
    (∃ b ∈ args.map (·.substitute x v), Q b) ↔
      (∃ a ∈ args, P a) ∨ ((∃ a ∈ args, a.occursFree x = true) ∧ R) := by
  constructor
  · rintro ⟨b, hb, hQ⟩
    obtain ⟨a, ha, rfl⟩ := List.mem_map.1 hb
    rcases (h a ha).1 hQ with hP | ⟨hx, hR⟩
    · exact .inl ⟨a, ha, hP⟩
    · exact .inr ⟨⟨a, ha, hx⟩, hR⟩
  · rintro (⟨a, ha, hP⟩ | ⟨⟨a, ha, hx⟩, hR⟩)
    · exact ⟨_, List.mem_map_of_mem ha, (h a ha).2 (.inl hP)⟩
    · exact ⟨_, List.mem_map_of_mem ha, (h a ha).2 (.inr ⟨hx, hR⟩)⟩

/-- What substitution does to the free variables of a term. -/
def FreeLaw (e : Term L) : Prop :=
  ∀ (x : Name) (v : Term L) (y : Name), (e.substitute x v).occursFree y = true ↔
    (e.occursFree y = true ∧ y ≠ x) ∨ (e.occursFree x = true ∧ v.occursFree y = true)

/-- A turn of the renaming loop changes no free variable of the lambda. -/
theorem occursFree_turn {captured : NameSet} {params : List Param} {body : Term L}
    {r : Name × Name} (h : Refreshes captured params body r) (hbody : FreeLaw body) (y : Name) :
    (lam (params.map (·.rename [r])) (body.substitute r.1 (.var r.2))).occursFree y =
      (lam params body).occursFree y := by
  rw [Bool.eq_iff_iff, occursFree_lam_iff, occursFree_lam_iff, hbody, mem_paramNames_rename,
    occursFree_var, beq_iff_eq]
  have := h.old_mem
  have := h.new_notMem
  have := h.new_notFree
  grind

/-- Renaming changes no free variable of the lambda, if substitution in bodies of
    this size obeys the law. -/
theorem occursFree_renameCaptured_of_freeLaw (params : List Param) {body : Term L}
    (captured : NameSet) (hbody : ∀ b : Term L, b.size = body.size → FreeLaw b) (y : Name) :
    (lam (renameCaptured params body captured).1
      (renameCaptured params body captured).2).occursFree y = (lam params body).occursFree y := by
  refine renameCaptured_induction
    (motive := fun ps b => (lam ps b).occursFree y = (lam params body).occursFree y) ?_ rfl ?_
  · intro b x z w hsize hfree
    rcases (hbody b hsize _ _ _).1 hfree with ⟨hfree, -⟩ | ⟨-, hfree⟩
    · exact .inl hfree
    · exact .inr (by simpa using hfree : z = w).symm
  · intro ps b r hsize hr h
    rw [occursFree_turn hr (hbody b hsize), h]

theorem size_renameCaptured (params : List Param) (body : Term L) (captured : NameSet) :
    (renameCaptured params body captured).2.size = body.size :=
  size_renameVars _ _

/-- The two ways of a lambda under a substitution. It stays as it is if there is
    nothing to replace; otherwise its captured parameters are renamed first. -/
theorem substitute_lam_cases (params : List Param) (body : Term L) (x : Name) (v : Term L) :
    ((lam params body).occursFree x = false ∧
      (lam params body).substitute x v = lam params body) ∨
    ((lam params body).occursFree x = true ∧
      (lam params body).substitute x v =
        lam (renameCaptured params body v.freeVars).1
          ((renameCaptured params body v.freeVars).2.substitute x v)) := by
  cases h : (lam params body).occursFree x with
  | false => exact .inl ⟨rfl, substitute_lam_of_not_occursFree h v⟩
  | true =>
    obtain ⟨hx, hb⟩ := occursFree_lam_iff.1 h
    refine .inr ⟨rfl, ?_⟩
    rw [substitute_lam, if_neg (by simp [hx, hb])]

theorem freeLaw (e : Term L) : FreeLaw e := by
  induction e using sizeInduction with
  | unit => simp [FreeLaw]
  | lit n => simp [FreeLaw]
  | var z =>
    intro x v y
    rw [substitute_var]
    split <;> simp only [occursFree_var, beq_iff_eq] <;> grind
  | lam params body ih =>
    intro x v y
    rcases substitute_lam_cases params body x v with ⟨hx, heq⟩ | ⟨hx, heq⟩
    · rw [heq]
      grind
    · rw [heq, hx]
      have hlam := occursFree_renameCaptured_of_freeLaw params v.freeVars ih
      rw [occursFree_lam_iff, ih _ (size_renameCaptured _ _ _), ← hlam, occursFree_lam_iff]
      rw [← hlam x, occursFree_lam_iff] at hx
      -- the renamed parameters hide no free variable of `v`
      have hv : v.occursFree y = true → y ∉ paramNames (renameCaptured params body v.freeVars).1 :=
        fun h => notMem_renameCaptured _ _ (mem_freeVars.2 h)
      tauto
  | app callee args ihc iha =>
    intro x v y
    rw [substitute_app, occursFree_app_iff, occursFree_app_iff, occursFree_app_iff, ihc]
    have hargs := exists_mem_map_substitute (P := fun a => a.occursFree y = true ∧ y ≠ x)
      (Q := fun a => a.occursFree y = true) fun a ha => iha a ha x v y
    simp only [← and_assoc, exists_and_right] at hargs
    rw [hargs, or_and_right, or_and_right]
    exact or_or_or_comm
  | binop op lhs rhs ihl ihr =>
    intro x v y
    rw [substitute_binop, occursFree_binop_iff, occursFree_binop_iff, occursFree_binop_iff, ihl,
      ihr]
    tauto

/-- The free variables of a substitution are those of the term other than the
    name, and those of the new term if it is put anywhere. -/
theorem occursFree_substitute {e : Term L} {x : Name} {v : Term L} {y : Name} :
    (e.substitute x v).occursFree y = true ↔
      (e.occursFree y = true ∧ y ≠ x) ∨ (e.occursFree x = true ∧ v.occursFree y = true) :=
  freeLaw e x v y

/-- Renaming captured parameters changes no free variable of a lambda. -/
theorem occursFree_renameCaptured (params : List Param) (body : Term L) (captured : NameSet)
    (y : Name) :
    (lam (renameCaptured params body captured).1
      (renameCaptured params body captured).2).occursFree y = (lam params body).occursFree y :=
  occursFree_renameCaptured_of_freeLaw params captured (fun b _ => freeLaw b) y

/-- What a turn of the renaming loop keeps, the whole loop keeps. -/
theorem renameCaptured_keeps {params : List Param} {body : Term L} {captured : NameSet}
    {motive : List Param → Term L → Prop} (start : motive params body)
    (turn : ∀ (ps : List Param) (b : Term L) (r : Name × Name), b.size = body.size →
      Refreshes captured ps b r → motive ps b →
      motive (ps.map (·.rename [r])) (b.substitute r.1 (.var r.2))) :
    motive (renameCaptured params body captured).1 (renameCaptured params body captured).2 := by
  refine renameCaptured_induction (fun b x y z _ hfree => ?_) start turn
  rcases occursFree_substitute.1 hfree with ⟨hfree, -⟩ | ⟨-, hfree⟩
  · exact .inl hfree
  · exact .inr (by simpa using hfree : y = z).symm

/-- **The free variables of a substitution** are those of the term without the name,
    together with those of the new term if the name is free, and otherwise those of the
    term. Where a lambda lets the new term in, it binds none of its free variables, and
    the fresh names are parameters that are not free in the result. -/
theorem freeVars_substitute (e : Term L) (x : Name) (v : Term L) :
    (e.substitute x v).freeVars =
        (if x ∈ e.freeVars then e.freeVars.erase x ∪ v.freeVars else e.freeVars) ∧
      ∀ params body, e = lam params body → x ∈ e.freeVars →
        ∃ params' body', e.substitute x v = lam params' body' ∧
          (∀ y ∈ v.freeVars, y ∉ paramNames params') ∧
          ∀ r ∈ freshRenaming params body v.freeVars,
            r.2 ∈ paramNames params' ∧ r.2 ∉ (e.substitute x v).freeVars := by
  refine ⟨Std.ExtTreeSet.ext_mem fun y => ?_, ?_⟩
  · rw [mem_freeVars, occursFree_substitute]
    split <;> rename_i hx
    · rw [mem_freeVars] at hx
      rw [Std.ExtTreeSet.mem_union_iff, Std.ExtTreeSet.mem_erase, mem_freeVars, mem_freeVars, hx]
      simp only [ne_eq, Std.LawfulEqCmp.compare_eq_iff_eq, true_and, eq_comm (a := x)]
      tauto
    · rw [mem_freeVars] at hx
      have hne : e.occursFree y = true → y ≠ x := fun hy h => hx (h ▸ hy)
      rw [mem_freeVars]
      tauto
  · rintro params body rfl hx
    rw [mem_freeVars] at hx
    rcases substitute_lam_cases params body x v with ⟨hfree, -⟩ | ⟨-, heq⟩
    · rw [hx] at hfree
      cases hfree
    · refine ⟨_, _, heq, fun y => notMem_renameCaptured params body, fun r hr => ?_⟩
      have hmem := mem_renameCaptured hr
      refine ⟨hmem, fun hfree => ?_⟩
      rw [heq, mem_freeVars, occursFree_lam_iff] at hfree
      exact hfree.1 hmem

/-- `\y: int, y': (). x(y, y', z)`. -/
def passBoth : Term Int64 :=
  .lam [⟨"y", .int⟩, ⟨Name.primed "y", .unit⟩]
    (.app (.var "x") [.var "y", .var (Name.primed "y"), .var "z"])

/-- With `y(y')` put in for `x` both parameters of `passBoth` are captured. They become
    `y''` and `y'''`, and `y` and `y'` are free beside `z`. -/
theorem freeVars_substitute_passBoth :
    let v : Term Int64 := .app (.var "y") [.var (Name.primed "y")]
    (passBoth.substitute "x" v).freeVars = passBoth.freeVars.erase "x" ∪ v.freeVars ∧
      (passBoth.substitute "x" v).freeVars.toList = ["y", Name.primed "y", "z"] ∧
      ∃ params' body', passBoth.substitute "x" v = lam params' body' ∧
        "y" ∉ paramNames params' ∧ Name.primed "y" ∉ paramNames params' ∧
        Name.primes "y" 2 ∈ paramNames params' ∧ Name.primes "y" 3 ∈ paramNames params' := by
  intro v
  have hx : "x" ∈ passBoth.freeVars := by decide +kernel
  obtain ⟨hfree, hlam⟩ := freeVars_substitute passBoth "x" v
  obtain ⟨params', body', heq, hv, hfresh⟩ := hlam _ _ rfl hx
  rw [if_pos hx] at hfree
  refine ⟨hfree, by decide +kernel, params', body', heq, hv _ (by decide +kernel),
    hv _ (by decide +kernel), (hfresh ("y", Name.primes "y" 2) ?_).1,
    (hfresh (Name.primed "y", Name.primes "y" 3) ?_).1⟩ <;> decide +kernel

end Term

end NaryLambda

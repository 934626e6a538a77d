import NaryLambda.Proofs.Substitution.FreeVars
import NaryLambda.Proofs.Typing.Rejection

/-!
# Contexts at free variables

Inference looks up the free variables of a term in the context, and nothing
else. So contexts that agree on them give the same answer, errors included, and
a term with a type has all its free variables in the context. None of them can
be spared: without it the term is rejected for want of that very name.

Results:

* `Term.infer_congr`: inference in contexts that agree on the free variables.
* `Term.mem_of_infer_eq_ok`: the free variables of a term with a type have types.
* `Term.closed_of_infer_eq_ok`: a term with a type in the empty context is closed.
* `Term.infer_erase`: inference after a free variable is taken out of the context.
* `Term.infer_depends_on_freeVars`: all of this, for the set of free variables.
-/

namespace NaryLambda

/-- Contexts that agree on a name agree on it inside a lambda. -/
theorem Context.getElem?_extend_congr {Γ Δ : Context} {params : List Param} {x : Name}
    (h : x ∉ paramNames params → Δ[x]? = Γ[x]?) :
    (Δ.extend params)[x]? = (Γ.extend params)[x]? := by
  by_cases hx : x ∈ paramNames params
  · obtain ⟨t, ht⟩ := exists_paramType? hx
    rw [getElem?_extend, getElem?_extend, ht, Option.some_or, Option.some_or]
  · rw [getElem?_extend_of_notMem Γ hx, getElem?_extend_of_notMem Δ hx, h hx]

/-- A name that a lambda does not bind may be taken out of the context inside the
    lambda as well as outside. -/
theorem Context.extend_erase (Γ : Context) {params : List Param} {x : Name}
    (hx : x ∉ paramNames params) : extend (Γ.erase x) params = (Γ.extend params).erase x := by
  refine Std.ExtTreeMap.ext_getElem? fun y => ?_
  rw [getElem?_extend, Std.ExtTreeMap.getElem?_erase, Std.ExtTreeMap.getElem?_erase,
    getElem?_extend]
  split
  · rename_i h
    obtain rfl : x = y := Std.LawfulEqCmp.eq_of_compare h
    rw [paramType?_eq_none.2 hx, Option.none_or]
  · rfl

namespace Term

variable {L : Type} {ops : Operators L}

/-- Terms that are inferred alike one by one are inferred alike as lists. -/
theorem inferAll_congr {ops' : Operators L} {Γ Δ : Context} {args args' : List (Term L)}
    (h : List.Forall₂ (fun a a' => a.infer ops Γ = a'.infer ops' Δ) args args') :
    inferAll ops Γ args = inferAll ops' Δ args' := by
  induction h with
  | nil => rfl
  | cons ha _ ih => rw [inferAll, inferAll, ha, ih]

theorem inferAll_map_congr {Γ Δ : Context} {f : Term L → Term L} {args : List (Term L)}
    (h : ∀ a ∈ args, (f a).infer ops Δ = a.infer ops Γ) :
    inferAll ops Δ (args.map f) = inferAll ops Γ args :=
  inferAll_congr (List.forall₂_map_left_iff.2 (List.forall₂_same.2 h))

/-- Inference depends on the types of the free variables only. -/
theorem infer_congr {e : Term L} {Γ Δ : Context}
    (h : ∀ x, e.occursFree x = true → Δ[x]? = Γ[x]?) : e.infer ops Δ = e.infer ops Γ := by
  induction e generalizing Γ Δ with
  | unit | lit n => rfl
  | var x => rw [infer, infer, h x (by simp)]
  | lam params body ih =>
    rw [infer, infer, ih fun x hx => Context.getElem?_extend_congr fun hp =>
      h x (occursFree_lam_iff.2 ⟨hp, hx⟩)]
  | app callee args ihc iha =>
    have hargs : inferAll ops Δ args = inferAll ops Γ args :=
      inferAll_congr (List.forall₂_same.2 fun a ha =>
        iha a ha fun x hx => h x (occursFree_app_iff.2 (.inr ⟨a, ha, hx⟩)))
    rw [infer, infer, ihc fun x hx => h x (occursFree_app_iff.2 (.inl hx)), hargs]
  | binop op lhs rhs ihl ihr =>
    rw [infer, infer, ihl fun x hx => h x (occursFree_binop_iff.2 (.inl hx)),
      ihr fun x hx => h x (occursFree_binop_iff.2 (.inr hx))]

/-- The free variables of a term with a type have types in the context. -/
theorem mem_of_infer_eq_ok {e : Term L} {Γ : Context} {t : Ty} {x : Name}
    (h : e.infer ops Γ = .ok t) (hx : e.occursFree x = true) : x ∈ Γ := by
  induction e generalizing Γ t with
  | unit | lit n => simp at hx
  | var y =>
    obtain rfl : y = x := by simpa using hx
    rw [Std.ExtTreeMap.mem_iff_isSome_getElem?, infer_var_eq_ok.1 h]
    rfl
  | lam params body ih =>
    obtain ⟨hp, hx⟩ := occursFree_lam_iff.1 hx
    obtain ⟨range, hbody, -⟩ := infer_lam_eq_ok.1 h
    have := ih hbody hx
    rw [Std.ExtTreeMap.mem_iff_isSome_getElem?] at this ⊢
    rwa [Context.getElem?_extend_of_notMem Γ hp] at this
  | app callee args ihc iha =>
    obtain ⟨domains, hcallee, hargs⟩ := infer_app_eq_ok.1 h
    rcases occursFree_app_iff.1 hx with hx | ⟨a, ha, hx⟩
    · exact ihc hcallee hx
    · obtain ⟨d, -, hd⟩ := exists_mem_of_forall₂ hargs ha
      exact iha a ha hd hx
  | binop op lhs rhs ihl ihr =>
    obtain ⟨hl, hr, -, -⟩ := infer_binop_eq_ok.1 h
    rcases occursFree_binop_iff.1 hx with hx | hx
    · exact ihl hl hx
    · exact ihr hr hx

/-- A term with a type in the empty context is closed. -/
theorem closed_of_infer_eq_ok {e : Term L} {t : Ty} (h : e.infer ops ∅ = .ok t) : e.Closed := by
  intro x
  rw [Bool.eq_false_iff]
  exact fun hx => Std.ExtTreeMap.not_mem_empty (mem_of_infer_eq_ok h hx)

/-! ## A context without a name -/

theorem infer_erase_of_not_occursFree {e : Term L} {x : Name} (hx : e.occursFree x = false)
    (Γ : Context) : e.infer ops (Γ.erase x) = e.infer ops Γ := by
  refine infer_congr fun y hy => ?_
  have hne : x ≠ y := by
    rintro rfl
    rw [hx] at hy
    cases hy
  rw [Std.ExtTreeMap.getElem?_erase, if_neg (by simpa using hne)]

/-- Of terms with types the first one that has the name free fails without it, and
    those before it do not notice. -/
theorem inferAll_erase {Γ : Context} {x : Name} {args : List (Term L)} {types : List Ty}
    (hargs : List.Forall₂ (fun a t => a.infer ops Γ = .ok t) args types)
    (hfail : ∀ a ∈ args, a.occursFree x = true →
      a.infer ops (Γ.erase x) = .error (.unbound x))
    (hx : ∃ a ∈ args, a.occursFree x = true) :
    inferAll ops (Γ.erase x) args = .error (.unbound x) := by
  induction hargs with
  | nil => simp at hx
  | @cons a t args types ha _ ih =>
    obtain ⟨hfirst, hfail⟩ := List.forall_mem_cons.1 hfail
    rw [inferAll, bind_eq_error]
    cases hfree : a.occursFree x with
    | true => exact .inl (hfirst hfree)
    | false =>
      have hrest : ∃ b ∈ args, b.occursFree x = true := by simpa [hfree] using hx
      rw [infer_erase_of_not_occursFree hfree]
      exact .inr ⟨t, ha, bind_eq_error.2 (.inl (ih hfail hrest))⟩

/-- A term with a type is rejected for want of any of its free variables. -/
theorem infer_erase {e : Term L} {Γ : Context} {t : Ty} {x : Name}
    (h : e.infer ops Γ = .ok t) (hx : e.occursFree x = true) :
    e.infer ops (Γ.erase x) = .error (.unbound x) := by
  induction e generalizing Γ t with
  | unit | lit n => simp at hx
  | var y =>
    obtain rfl : y = x := by simpa using hx
    exact infer_var_eq_error.2 ⟨by simp, rfl⟩
  | lam params body ih =>
    obtain ⟨hp, hx⟩ := occursFree_lam_iff.1 hx
    obtain ⟨range, hbody, -⟩ := infer_lam_eq_ok.1 h
    rw [infer_lam_eq_error, Γ.extend_erase hp]
    exact ih hbody hx
  | app callee args ihc iha =>
    obtain ⟨domains, hcallee, hargs⟩ := infer_app_eq_ok.1 h
    rw [infer_app_eq_error]
    cases hfree : callee.occursFree x with
    | true => exact .inl (ihc hcallee hfree)
    | false =>
      -- the callee does not notice, so the failure is left to the arguments
      have hargsx : ∃ a ∈ args, a.occursFree x = true := by
        simpa [hfree] using occursFree_app_iff.1 hx
      have hfail : ∀ a ∈ args, a.occursFree x = true →
          a.infer ops (Γ.erase x) = .error (.unbound x) := fun a ha hax =>
        have ⟨_, _, hd⟩ := exists_mem_of_forall₂ hargs ha
        iha a ha hd hax
      rw [infer_erase_of_not_occursFree hfree]
      exact .inr (.inr ⟨domains, t, hcallee, .inr ⟨hargs.length_eq.symm,
        .inl (inferAll_erase hargs hfail hargsx)⟩⟩)
  | binop op lhs rhs ihl ihr =>
    obtain ⟨hl, hr, -, -⟩ := infer_binop_eq_ok.1 h
    rw [infer_binop_eq_error]
    cases hfree : lhs.occursFree x with
    | true => exact .inl (ihl hl hfree)
    | false =>
      have hrx : rhs.occursFree x = true := by
        simpa [hfree] using occursFree_binop_iff.1 hx
      rw [infer_erase_of_not_occursFree hfree]
      exact .inr (.inr ⟨hl, .inl (ihr hr hrx)⟩)

/-! ## The set of free variables -/

/-- **Inference sees the context at the free variables, and at all of them.** Contexts that
    agree on the free variables of a term give the same type, or the same error. A term
    with a type has them all in the context, and is rejected for want of any one of them.
    So typed names that are not free in a term make no difference to it, and a closed term
    is the same in all contexts. -/
theorem infer_depends_on_freeVars (ops : Operators L) (e : Term L) :
    (∀ Γ Δ : Context, (∀ x ∈ e.freeVars, Γ[x]? = Δ[x]?) → e.infer ops Γ = e.infer ops Δ) ∧
    (∀ Γ t, e.infer ops Γ = .ok t → ∀ x ∈ e.freeVars,
      x ∈ Γ ∧ e.infer ops (Γ.erase x) = .error (.unbound x)) ∧
    (∀ (Γ : Context) (bindings : List Param), (∀ p ∈ bindings, p.name ∉ e.freeVars) →
      e.infer ops (Γ.extend bindings) = e.infer ops Γ) ∧
    (e.freeVars = ∅ → ∀ Γ Δ : Context, e.infer ops Γ = e.infer ops Δ) := by
  have hagree : ∀ Γ Δ : Context, (∀ x ∈ e.freeVars, Γ[x]? = Δ[x]?) →
      e.infer ops Γ = e.infer ops Δ :=
    fun Γ Δ h => infer_congr fun x hx => h x (mem_freeVars.2 hx)
  refine ⟨hagree, fun Γ t ht x hx => ?_, fun Γ bindings hnew => ?_, fun hclosed Γ Δ => ?_⟩
  · rw [mem_freeVars] at hx
    exact ⟨mem_of_infer_eq_ok ht hx, infer_erase ht hx⟩
  · refine hagree _ _ fun x hx => Γ.getElem?_extend_of_notMem fun hmem => ?_
    obtain ⟨p, hp, rfl⟩ := List.mem_map.1 hmem
    exact hnew p hp hx
  · refine hagree Γ Δ fun x hx => ?_
    rw [hclosed] at hx
    exact absurd hx Std.ExtTreeSet.not_mem_empty

/-- `\x: int. f(x) + y`. -/
def addApplied : Term Int64 :=
  .lam [⟨"x", .int⟩] (.binop "+" (.app (.var "f") [.var "x"]) (.var "y"))

/-- What `addApplied` needs: `f: int -> int` and `y: int`. -/
def needed : List Param := [⟨"f", .fn [.int] .int⟩, ⟨"y", .int⟩]

/-- For `addApplied` a binding of its own parameter `x` makes no difference, and without `y`
    it has no type. As the body of a lambda over `f` and `y` it is closed, and has its type
    in every context. -/
theorem infer_addApplied :
    let Γ := Context.ofParams needed
    let Δ := Γ.extend [⟨"x", .unit⟩]
    ((∀ x ∈ addApplied.freeVars, Γ[x]? = Δ[x]?) ∧
      addApplied.infer .standard Γ = addApplied.infer .standard Δ) ∧
    (addApplied.infer .standard Γ = .ok (.fn [.int] .int) ∧ "y" ∈ addApplied.freeVars ∧
      "y" ∈ Γ ∧ addApplied.infer .standard (Γ.erase "y") = .error (.unbound "y")) ∧
    ("x" ∉ addApplied.freeVars ∧
      addApplied.infer .standard Δ = addApplied.infer .standard Γ) ∧
    (lam needed addApplied).freeVars = ∅ ∧
      ∀ Θ, (lam needed addApplied).infer .standard Θ =
        .ok (.fn [.fn [.int] .int, .int] (.fn [.int] .int)) := by
  intro Γ Δ
  obtain ⟨hagree, hneeds, hfurther, -⟩ := infer_depends_on_freeVars .standard addApplied
  obtain ⟨-, -, -, hclosed⟩ := infer_depends_on_freeVars .standard (lam needed addApplied)
  have hsame : ∀ x ∈ addApplied.freeVars, Γ[x]? = Δ[x]? := by
    have hfree : addApplied.freeVars.toList = ["f", "y"] := by decide +kernel
    intro x hx
    rw [← Std.ExtTreeSet.mem_toList, hfree] at hx
    simp only [List.mem_cons, List.not_mem_nil, or_false] at hx
    rcases hx with rfl | rfl <;> decide +kernel
  have ht : addApplied.infer .standard Γ = .ok (.fn [.int] .int) := by decide +kernel
  have hy : "y" ∈ addApplied.freeVars := by decide +kernel
  have hx : "x" ∉ addApplied.freeVars := by decide +kernel
  have hnone : (lam needed addApplied).freeVars = ∅ := by decide +kernel
  have hlam : (lam needed addApplied).infer .standard ∅ =
      .ok (.fn [.fn [.int] .int, .int] (.fn [.int] .int)) := by decide +kernel
  exact ⟨⟨hsame, hagree Γ Δ hsame⟩, ⟨ht, hy, hneeds Γ _ ht "y" hy⟩,
    ⟨hx, hfurther Γ _ fun p hp => List.mem_singleton.1 hp ▸ hx⟩,
    hnone, fun Θ => (hclosed hnone Θ ∅).trans hlam⟩

end Term

end NaryLambda

import NaryLambda.Proofs.Evaluation.Rules
import NaryLambda.Proofs.Substitution.BindValues
import NaryLambda.Proofs.Typing.Substitution

/-!
# Calls and the types they keep

A call is a lambda applied to as many values as it has parameters. Its values
are put into the body one after the other, so a value that stands in the body
already meets the names of the parameters that are still to come. The call is
undisturbed if those names change no type: then the body with all values in it
is inferred like the body under the parameters. A well-typed term all of whose
calls are undisturbed ends with a value of its type, or is stuck on a variable
of the context.

Results:

* `Term.infer_bindValues`: an undisturbed call keeps the type of the body.
* `Term.infer_bindValues_var_ne`: a disturbed call changes the type of a body that
  is one of the parameters.
* `Term.ends_of_undisturbed`: type safety along a run of undisturbed calls.
-/

namespace NaryLambda

/-- A parameter gives no type to other names than its own. -/
theorem Context.getElem?_extend_cons_of_ne {p : Param} {x : Name} (hx : x ≠ p.name)
    (Γ : Context) (params : List Param) :
    (Γ.extend (p :: params))[x]? = (Γ.extend params)[x]? := by
  rw [getElem?_extend, getElem?_extend, paramType?, if_neg hx.symm, Option.or_none]

/-- A parameter that a later one shadows adds nothing to a context. -/
theorem Context.getElem?_extend_cons_of_mem {Γ : Context} {p : Param} {params : List Param}
    (hp : p.name ∈ paramNames params) (x : Name) :
    (Γ.extend (p :: params))[x]? = (Γ.extend params)[x]? := by
  by_cases hx : x = p.name
  · rw [getElem?_extend, getElem?_extend, paramType?_cons_of_mem (hx ▸ hp)]
  · exact getElem?_extend_cons_of_ne hx Γ params

/-- A parameter that no later one shadows has its type. -/
theorem Context.getElem?_extend_cons_self {Γ : Context} {p : Param} {params : List Param}
    (hp : p.name ∉ paramNames params) : (Γ.extend (p :: params))[p.name]? = some p.type := by
  rw [getElem?_extend, paramType?_cons_self hp, Option.some_or]

namespace Term

variable {L : Type} {ops : Operators L} {mode : ArityMode} {Γ : Context}

/-- Every parameter is supplied with a value of its type. -/
def Supplied (ops : Operators L) (Γ : Context) (params : List Param) (values : List (Term L)) :
    Prop :=
  List.Forall₂ (fun p v => v.isValue = true ∧ v.infer ops Γ = .ok p.type) params values

/-- No value changes its type when the parameters after its own come into scope.
    A value whose parameter is shadowed goes to no place and is left out. -/
def Undisturbed (ops : Operators L) (Γ : Context) : List Param → List (Term L) → Prop
  | p :: params, v :: values =>
    (p.name ∉ paramNames params → v.infer ops (Γ.extend params) = v.infer ops Γ) ∧
      Undisturbed ops Γ params values
  | [], _ | _, [] => True

/-- `Calls ops mode e params values`: in the evaluation of `e` a lambda with these
    parameters is applied to these values, one for each parameter. -/
inductive Calls (ops : Operators L) (mode : ArityMode) :
    Term L → List Param → List (Term L) → Prop
  | here {callee body : Term L} {params : List Param} {args values : List (Term L)} :
      Evaluates ops mode callee (.ok (.lam params body)) → params.length = args.length →
      List.Forall₂ (fun a v => Evaluates ops mode a (.ok v)) args values →
      Calls ops mode (.app callee args) params values
  | callee {callee : Term L} {params : List Param} {args values : List (Term L)} :
      Calls ops mode callee params values → Calls ops mode (.app callee args) params values
  | arg {callee body a : Term L} {ps params : List Param}
      {args before after values : List (Term L)} :
      Evaluates ops mode callee (.ok (.lam ps body)) →
      (mode = .strict → ps.length = args.length) → args.take ps.length = before ++ a :: after →
      (∀ b ∈ before, ∃ v, Evaluates ops mode b (.ok v)) →
      Calls ops mode a params values → Calls ops mode (.app callee args) params values
  | body {callee body : Term L} {ps params : List Param} {args vs values : List (Term L)} :
      Evaluates ops mode callee (.ok (.lam ps body)) → ps.length = args.length →
      List.Forall₂ (fun a v => Evaluates ops mode a (.ok v)) args vs →
      Calls ops mode (body.bindValues ps vs) params values →
      Calls ops mode (.app callee args) params values
  | lhs {op : Name} {lhs rhs : Term L} {params : List Param} {values : List (Term L)} :
      op ∈ ops → Calls ops mode lhs params values →
      Calls ops mode (.binop op lhs rhs) params values
  | rhs {op : Name} {lhs rhs : Term L} {m : L} {params : List Param} {values : List (Term L)} :
      op ∈ ops → Evaluates ops mode lhs (.ok (.lit m)) → Calls ops mode rhs params values →
      Calls ops mode (.binop op lhs rhs) params values

/-! ## One call -/

/-- An undisturbed call keeps every result of inference for the body. -/
theorem infer_bindValues {params : List Param} {values : List (Term L)}
    (hs : Supplied ops Γ params values) (hu : Undisturbed ops Γ params values) (body : Term L) :
    (body.bindValues params values).infer ops Γ = body.infer ops (Γ.extend params) := by
  induction hs generalizing body with
  | nil => rfl
  | @cons p v params values hv _ ih =>
    rw [bindValues, ih hu.2]
    split
    · rename_i hp
      exact infer_congr fun x _ => (Context.getElem?_extend_cons_of_mem hp x).symm
    · rename_i hp
      exact typeLaw body p.name v _ _
        (fun x hx _ => (Context.getElem?_extend_cons_of_ne hx Γ params).symm)
        fun _ => ⟨p.type, Context.getElem?_extend_cons_self hp, (hu.1 hp).trans hv.2⟩

/-- In a disturbed call some parameter, taken as the body, ends as a value whose
    type is not the parameter's. -/
theorem infer_bindValues_var_ne {params : List Param} {values : List (Term L)}
    (hs : Supplied ops Γ params values) (hu : ¬ Undisturbed ops Γ params values) :
    ∃ x t, paramType? x params = some t ∧
      ((var x).bindValues params values).isValue = true ∧
      ((var x).bindValues params values).infer ops Γ ≠ .ok t := by
  induction hs with
  | nil => exact absurd trivial hu
  | @cons p v params values hv hs ih =>
    by_cases htail : Undisturbed ops Γ params values
    · -- the value of `p` is the last one to be disturbed
      have hp : p.name ∉ paramNames params ∧ v.infer ops (Γ.extend params) ≠ v.infer ops Γ := by
        by_contra hc
        refine hu ⟨fun hp => ?_, htail⟩
        by_contra hne
        exact hc ⟨hp, hne⟩
      refine ⟨p.name, p.type, paramType?_cons_self hp.1, ?_, ?_⟩
      · rw [bindValues_var_self hp.1]
        exact isValue_bindValues hv.1 _ _
      · rw [bindValues_var_self hp.1, infer_bindValues hs htail, ← hv.2]
        exact hp.2
    · obtain ⟨x, t, ht, hval, hne⟩ := ih htail
      have hx : x ∈ paramNames params := by
        by_contra hx
        rw [paramType?_eq_none.2 hx] at ht
        cases ht
      rw [← paramType?_cons_of_mem hx] at ht
      rw [← bindValues_var_of_mem hx v values] at hval hne
      exact ⟨x, t, ht, hval, hne⟩

/-! ## A whole run -/

/-- The ends that the type of a term allows: a value of the type, or a variable of
    the context that evaluation is stuck on. -/
def EndsWell (ops : Operators L) (Γ : Context) (t : Ty) (r : Result L) : Prop :=
  (∃ v, r = .ok v ∧ v.isValue = true ∧ v.infer ops Γ = .ok t) ∨
    ∃ x, r = .error (.free x) ∧ x ∈ Γ

theorem EndsWell.value {t : Ty} {v : Term L} (h : EndsWell ops Γ t (.ok v)) :
    v.isValue = true ∧ v.infer ops Γ = .ok t := by
  rcases h with ⟨w, hw, h⟩ | ⟨x, hx, -⟩
  · cases hw
    exact h
  · cases hx

theorem EndsWell.lam {domains : List Ty} {range : Ty} {params : List Param} {body : Term L}
    (h : EndsWell ops Γ (.fn domains range) (.ok (.lam params body))) :
    params.map (·.type) = domains ∧ body.infer ops (Γ.extend params) = .ok range := by
  obtain ⟨_, _, heq, h⟩ := eq_lam_of_infer h.value.1 h.value.2
  cases heq
  exact h

/-- A lambda over the types of the arguments has one parameter for each. -/
theorem EndsWell.length_eq_of_lam {domains : List Ty} {range : Ty} {params : List Param}
    {args : List (Term L)} {body : Term L}
    (h : EndsWell ops Γ (.fn domains range) (.ok (.lam params body)))
    (hargs : List.Forall₂ (fun a d => a.infer ops Γ = .ok d) args domains) :
    params.length = args.length := by
  rw [hargs.length_eq, ← h.lam.1, List.length_map]

theorem EndsWell.error {s t : Ty} {reason : StuckReason (Term L)}
    (h : EndsWell ops Γ s (.error reason)) : EndsWell ops Γ t (.error reason) := by
  rcases h with ⟨w, hw, -⟩ | h
  · cases hw
  · exact .inr h

/-- All calls in the evaluation of a term whose values have their types are
    undisturbed. -/
def RunsUndisturbed (ops : Operators L) (mode : ArityMode) (Γ : Context) (e : Term L) : Prop :=
  ∀ params values, Calls ops mode e params values → Supplied ops Γ params values →
    Undisturbed ops Γ params values

theorem RunsUndisturbed.callee {callee : Term L} {args : List (Term L)}
    (h : RunsUndisturbed ops mode Γ (app callee args)) : RunsUndisturbed ops mode Γ callee :=
  fun ps vs hc => h ps vs (.callee hc)

theorem RunsUndisturbed.lhs {op : Name} {lhs rhs : Term L} (hop : op ∈ ops)
    (h : RunsUndisturbed ops mode Γ (binop op lhs rhs)) : RunsUndisturbed ops mode Γ lhs :=
  fun ps vs hc => h ps vs (.lhs hop hc)

theorem RunsUndisturbed.rhs {op : Name} {lhs rhs : Term L} {m : L} (hop : op ∈ ops)
    (hl : Evaluates ops mode lhs (.ok (.lit m)))
    (h : RunsUndisturbed ops mode Γ (binop op lhs rhs)) : RunsUndisturbed ops mode Γ rhs :=
  fun ps vs hc => h ps vs (.rhs hop hl hc)

/-- What an application that gets as far as its call is made of: a lambda over the
    types of the arguments, and values of these types. -/
theorem supplied_of_call {S : Term L → Term L → Prop} {params : List Param}
    {args values : List (Term L)}
    (htypes : List.Forall₂ (fun a d => a.infer ops Γ = .ok d) args (params.map (·.type)))
    (hargs : List.Forall₂ S args values)
    (hends : ∀ a ∈ args, ∀ v, S a v → ∀ t, a.infer ops Γ = .ok t → EndsWell ops Γ t (.ok v)) :
    Supplied ops Γ params values := by
  have := forall₂_of_common htypes hargs fun a ha d v hd hv => (hends a ha v hv d hd).value
  exact List.forall₂_map_left_iff.1 this

/-- A well-typed term whose run is undisturbed ends as its type allows. -/
theorem ends_of_undisturbed {e : Term L} {r : Result L} (h : Evaluates ops mode e r) {t : Ty}
    (ht : e.infer ops Γ = .ok t) (hrun : RunsUndisturbed ops mode Γ e) : EndsWell ops Γ t r := by
  refine Evaluates.induction (motive := fun e r => ∀ t, e.infer ops Γ = .ok t →
    RunsUndisturbed ops mode Γ e → EndsWell ops Γ t r) (fun e r h t ht hrun => ?_) h t ht hrun
  cases h with
  | value hv => exact .inl ⟨_, rfl, hv, ht⟩
  | free => exact .inr ⟨_, rfl, mem_of_infer_eq_ok ht (by simp)⟩
  | callee h =>
    obtain ⟨domains, hcallee, -⟩ := infer_app_eq_ok.1 ht
    exact (h.2 _ hcallee hrun.callee).error
  | notLambda h hne =>
    obtain ⟨domains, hcallee, -⟩ := infer_app_eq_ok.1 ht
    obtain ⟨hval, hinfer⟩ := (h.2 _ hcallee hrun.callee).value
    obtain ⟨params, body, rfl, -⟩ := eq_lam_of_infer hval hinfer
    exact absurd rfl (hne params body)
  | arity h hlen _ =>
    obtain ⟨domains, hcallee, hargs⟩ := infer_app_eq_ok.1 ht
    have hends := h.2 _ hcallee hrun.callee
    exact absurd (hends.length_eq_of_lam hargs) hlen
  | residual h hlen _ _ =>
    obtain ⟨domains, hcallee, hargs⟩ := infer_app_eq_ok.1 ht
    have hends := h.2 _ hcallee hrun.callee
    exact absurd (hends.length_eq_of_lam hargs) hlen
  | @arg callee body a params args before after values reason h hlen htake hbefore ha =>
    obtain ⟨domains, -, hargs⟩ := infer_app_eq_ok.1 ht
    have hmem : a ∈ args := List.mem_of_mem_take (i := params.length) (by simp [htake])
    obtain ⟨d, -, hd⟩ := exists_mem_of_forall₂ hargs hmem
    have hvalues : ∀ b ∈ before, ∃ v, Evaluates ops mode b (.ok v) := fun b hb =>
      (exists_mem_of_forall₂ hbefore hb).imp fun v hv => hv.2.1
    exact (ha.2 d hd fun ps vs hc => hrun ps vs (.arg h.1 hlen htake hvalues hc)).error
  | @call callee body params args values _ h hlen hargs hbody =>
    obtain ⟨domains, hcallee, htypes⟩ := infer_app_eq_ok.1 ht
    have hends := h.2 _ hcallee hrun.callee
    obtain ⟨hdomains, hrange⟩ := hends.lam
    have hvalues := hargs.imp fun _ _ hv => hv.1
    have htake : args.take params.length = args := by rw [hlen, List.take_length]
    have hs : Supplied ops Γ params values := by
      refine supplied_of_call (hdomains ▸ htypes) hargs fun a ha v hv d hd => ?_
      obtain ⟨before, after, rfl⟩ := List.append_of_mem ha
      refine hv.2 d hd fun ps vs hc => hrun ps vs (.arg h.1 (fun _ => hlen) htake ?_ hc)
      exact fun b hb => (exists_mem_of_forall₂ hvalues (by simp [hb])).imp fun v hv => hv.2
    have hu := hrun _ _ (.here h.1 hlen hvalues) hs
    have htbody := (infer_bindValues hs hu body).trans hrange
    exact hbody.2 _ htbody fun ps vs hc => hrun ps vs (.body h.1 hlen hvalues hc)
  | unknownOperator hop => exact absurd (infer_binop_eq_ok.1 ht).2.2.1 hop
  | lhs hop h =>
    obtain ⟨hl, -⟩ := infer_binop_eq_ok.1 ht
    exact (h.2 _ hl (hrun.lhs hop)).error
  | lhsOperand hop h hne =>
    obtain ⟨hl, -⟩ := infer_binop_eq_ok.1 ht
    obtain ⟨hval, hinfer⟩ := (h.2 _ hl (hrun.lhs hop)).value
    obtain ⟨n, rfl⟩ := eq_lit_of_infer hval hinfer
    exact absurd rfl (hne n)
  | rhs hop hl h =>
    obtain ⟨-, hr, -⟩ := infer_binop_eq_ok.1 ht
    exact (h.2 _ hr (hrun.rhs hop hl.1)).error
  | rhsOperand hop hl h hne =>
    obtain ⟨-, hr, -⟩ := infer_binop_eq_ok.1 ht
    obtain ⟨hval, hinfer⟩ := (h.2 _ hr (hrun.rhs hop hl.1)).value
    obtain ⟨n, rfl⟩ := eq_lit_of_infer hval hinfer
    exact absurd rfl (hne n)
  | compute =>
    obtain ⟨-, -, -, rfl⟩ := infer_binop_eq_ok.1 ht
    exact .inl ⟨_, rfl, rfl, rfl⟩

end Term

end NaryLambda

import NaryLambda.Proofs.AlphaEquiv
import NaryLambda.Proofs.Substitution.Nameless
import NaryLambda.Proofs.Typing.FreeVars

/-!
# Inference does not depend on the names of parameters

Inference in alpha-equivalent terms goes through different contexts: at a lambda
either side adds names of its own, which may hide other names on that side only.
But a name means in a context what its binder says. The context inside some
lambdas gives a name the type of the parameter that binds it, by the position of
that parameter, and a name that none of them binds keeps its type from outside.

Results:

* `paramType?_of_lastPosition?`: the type of a name, by its last position.
* `Context.exists_type_of_binder?`, `Context.getElem?_enter_of_unbound`: what a name means
  inside lambdas.
* `Term.infer_of_alphaEquiv`: inference in alpha-equivalent terms.
-/

namespace NaryLambda

/-! ## What a name means inside lambdas -/

/-- A name has the type of the parameter at its last position. -/
theorem paramType?_of_lastPosition? {x : Name} {params : List Param} {i : Nat}
    (h : lastPosition? x (paramNames params) = some i) :
    paramType? x params = (params.map (·.type))[i]? := by
  induction params generalizing i with
  | nil => cases h
  | cons p params ih =>
    rw [paramNames_cons, lastPosition?] at h
    split at h
    · rename_i j hj
      cases h
      have hx : x ∈ paramNames params := by
        by_contra hx
        simp [lastPosition?_eq_none.2 hx] at hj
      rw [paramType?_cons_of_mem hx, ih hj, List.map_cons, List.getElem?_cons_succ]
    · rename_i hx
      split at h
      · rename_i hp
        cases h
        subst hp
        rw [paramType?_cons_self (lastPosition?_eq_none.1 hx), List.map_cons,
          List.getElem?_cons_zero]
      · cases h

namespace Context

/-- The context inside lambdas with the given parameters, innermost first. -/
def enter (Γ : Context) : List (List Param) → Context
  | [] => Γ
  | params :: outer => (Γ.enter outer).extend params

/-- A name that is bound by some lambda has the type at the position of its binder. -/
theorem exists_type_of_binder? (Γ : Context) {lambdas : List (List Param)} {x : Name}
    {b : Nat × Nat} (h : binder? x (lambdas.map paramNames) = some b) :
    ∃ t, (Γ.enter lambdas)[x]? = some t ∧
      (lambdas.map (·.map (·.type)))[b.1]?.bind (·[b.2]?) = some t := by
  induction lambdas generalizing b with
  | nil => cases h
  | cons params outer ih =>
    rw [List.map_cons] at h
    by_cases hx : x ∈ paramNames params
    · obtain ⟨t, ht⟩ := exists_paramType? hx
      rw [binder?_cons_of_mem hx] at h
      obtain ⟨i, hi, rfl⟩ := Option.map_eq_some_iff.1 h
      refine ⟨t, by rw [enter, getElem?_extend, ht, Option.some_or], ?_⟩
      rw [List.map_cons, List.getElem?_cons_zero, Option.bind_some, ← ht,
        paramType?_of_lastPosition? hi]
    · rw [binder?_cons_of_notMem hx] at h
      obtain ⟨c, hc, rfl⟩ := Option.map_eq_some_iff.1 h
      obtain ⟨t, ht, htypes⟩ := ih hc
      refine ⟨t, by rw [enter, getElem?_extend_of_notMem _ hx, ht], ?_⟩
      rwa [List.map_cons, List.getElem?_cons_succ]

/-- A name that no lambda binds keeps its type. -/
theorem getElem?_enter_of_unbound (Γ : Context) {lambdas : List (List Param)} {x : Name}
    (h : binder? x (lambdas.map paramNames) = none) : (Γ.enter lambdas)[x]? = Γ[x]? := by
  induction lambdas with
  | nil => rfl
  | cons params outer ih =>
    have hx : x ∉ paramNames params := fun hx => by
      rw [List.map_cons, binder?_cons_of_mem hx, Option.map_eq_none_iff,
        lastPosition?_eq_none] at h
      exact h hx
    rw [List.map_cons, binder?_cons_of_notMem hx, Option.map_eq_none_iff] at h
    rw [enter, getElem?_extend_of_notMem _ hx, ih h]

end Context

namespace Term

variable {L : Type} {ops : Operators L}

/-- Terms with one nameless form are inferred alike, each inside lambdas of its own
    with the same types of parameters. -/
theorem infer_enter_congr {d e : Term L} {Γ : Context} {lambdas lambdas' : List (List Param)}
    (htypes : lambdas.map (·.map (·.type)) = lambdas'.map (·.map (·.type)))
    (h : d.namelessIn (lambdas.map paramNames) = e.namelessIn (lambdas'.map paramNames)) :
    d.infer ops (Γ.enter lambdas) = e.infer ops (Γ.enter lambdas') := by
  induction d generalizing e lambdas lambdas' with
  | unit | lit n =>
    cases alphaForm_of_namelessIn_eq h
    rfl
  | var x =>
    cases alphaForm_of_namelessIn_eq h with
    | free hx hx' =>
      rw [infer, infer, Γ.getElem?_enter_of_unbound hx, Γ.getElem?_enter_of_unbound hx']
    | bound hx hy =>
      obtain ⟨s, hs, hs'⟩ := Γ.exists_type_of_binder? hx
      obtain ⟨t, ht, ht'⟩ := Γ.exists_type_of_binder? hy
      obtain rfl : s = t := by
        rw [htypes, ht'] at hs'
        exact (Option.some.inj hs').symm
      rw [infer_var_eq_ok.2 hs, infer_var_eq_ok.2 ht]
  | lam params body ih =>
    cases alphaForm_of_namelessIn_eq h with
    | @lam _ params' _ body' hparams hbody =>
      have hlambdas : (params :: lambdas).map (·.map (·.type)) =
          (params' :: lambdas').map (·.map (·.type)) := by
        rw [List.map_cons, List.map_cons, hparams, htypes]
      have := ih hlambdas hbody
      rw [Context.enter, Context.enter] at this
      rw [infer, infer, this, hparams]
  | app callee args ihc iha =>
    cases alphaForm_of_namelessIn_eq h with
    | app hcallee hargs =>
      have hargs' := forall₂_imp_of_mem hargs fun a ha a' haa' => iha a ha htypes haa'
      rw [infer, infer, ihc htypes hcallee, hargs.length_eq, inferAll_congr hargs']
  | binop op lhs rhs ihl ihr =>
    cases alphaForm_of_namelessIn_eq h with
    | binop hl hr => rw [infer, infer, ihl htypes hl, ihr htypes hr]

/-- **Inference does not depend on the names of parameters.** Alpha-equivalent terms,
    open or closed, have the same type in every context, or the same error. -/
theorem infer_of_alphaEquiv {d e : Term L} (h : d.AlphaEquiv e) (ops : Operators L)
    (Γ : Context) : d.infer ops Γ = e.infer ops Γ :=
  @infer_enter_congr L ops d e Γ [] [] rfl h

/-- `\x: int, x: (). \y: int. z(x + y)`: the last parameter hides the first one. -/
def addHidden : Term Int64 :=
  .lam [⟨"x", .int⟩, ⟨"x", .unit⟩]
    (.lam [⟨"y", .int⟩] (.app (.var "z") [.binop "+" (.var "y") (.var "x")]))

/-- `\y: int, x: (). \w: int. z(w + x)`: no parameter hides another. -/
def addApart : Term Int64 :=
  .lam [⟨"y", .int⟩, ⟨"x", .unit⟩]
    (.lam [⟨"w", .int⟩] (.app (.var "z") [.binop "+" (.var "w") (.var "x")]))

/-- `addHidden` and `addApart` differ in names only. With the free `z` a function both fail
    at the same operand, and without it both miss it. -/
theorem infer_addHidden_addApart :
    addHidden.AlphaEquiv addApart ∧
      (∀ Γ, addHidden.infer .standard Γ = addApart.infer .standard Γ) ∧
      addApart.infer .standard (.ofParams [⟨"z", .fn [.int] .int⟩]) =
        .error (.operand "+" .right .unit) ∧
      addApart.infer .standard ∅ = .error (.unbound "z") := by
  have h : addHidden.AlphaEquiv addApart := by
    simp [AlphaEquiv, addHidden, addApart, namelessIn, paramNames, binder?,
      lastPosition?]
  exact ⟨h, infer_of_alphaEquiv h .standard, by decide +kernel, by decide +kernel⟩

end Term

end NaryLambda

import NaryLambda.Proofs.Typing.FreeVars

/-!
# Inference after substitution

A term with a well-typed term put in for a variable is inferred like the term
itself in a context that gives the variable that type. The statement speaks of
results as wholes: the same type, or the same error. It covers its own use
inside the renaming loop, where a new parameter takes the type of the old one.

Results:

* `Term.typeLaw`: inference after substitution, in contexts of their own.
* `Term.infer_renameCaptured`: renaming captured parameters changes no result.
* `Term.infer_substitute`: inference after substitution.
-/

namespace NaryLambda

/-! ## Parameter types after one renaming -/

theorem paramType?_rename_of_ne {x y z : Name} (hx : z ≠ x) (hy : z ≠ y)
    (params : List Param) :
    paramType? z (params.map (·.rename [(x, y)])) = paramType? z params := by
  induction params with
  | nil => rfl
  | cons p params ih =>
    rw [List.map_cons, paramType?, paramType?, ih, Param.name_rename_single, Param.type_rename]
    by_cases hp : p.name = x
    · rw [if_pos hp, if_neg hy.symm, if_neg (fun h => hx (h.symm.trans hp))]
    · rw [if_neg hp]

theorem paramType?_rename_self {x y : Name} {params : List Param}
    (h : y ∉ paramNames params) :
    paramType? y (params.map (·.rename [(x, y)])) = paramType? x params := by
  induction params with
  | nil => rfl
  | cons p params ih =>
    rw [paramNames_cons, List.mem_cons, not_or] at h
    rw [List.map_cons, paramType?, paramType?, ih h.2, Param.name_rename_single, Param.type_rename]
    by_cases hp : p.name = x
    · rw [if_pos hp, if_pos rfl, if_pos hp]
    · rw [if_neg hp, if_neg (Ne.symm h.1), if_neg hp]

namespace Term

variable {L : Type} {ops : Operators L}

/-- A term `v` may take the place of `x` in `e`: the old context gives `x` the type
    that `v` has in the new one, and otherwise they agree. -/
def TypeLaw (ops : Operators L) (e : Term L) : Prop :=
  ∀ (x : Name) (v : Term L) (Γ Δ : Context),
    (∀ y, y ≠ x → e.occursFree y = true → Δ[y]? = Γ[y]?) →
    (e.occursFree x = true → ∃ s, Γ[x]? = some s ∧ v.infer ops Δ = .ok s) →
    (e.substitute x v).infer ops Δ = e.infer ops Γ

/-- A turn of the renaming loop changes no result for the body. -/
theorem infer_turn {captured : NameSet} {params : List Param} {body : Term L}
    {r : Name × Name} (h : Refreshes captured params body r) (hbody : TypeLaw ops body)
    (Γ : Context) :
    (body.substitute r.1 (.var r.2)).infer ops (Γ.extend (params.map (·.rename [r]))) =
      body.infer ops (Γ.extend params) := by
  refine hbody r.1 (.var r.2) _ _ (fun z hz hfree => ?_) fun _ => ?_
  · have hz' : z ≠ r.2 := by
      rintro rfl
      rw [h.new_notFree] at hfree
      exact Bool.false_ne_true hfree
    rw [Context.getElem?_extend, Context.getElem?_extend, paramType?_rename_of_ne hz hz']
  · obtain ⟨t, ht⟩ := exists_paramType? h.old_mem
    refine ⟨t, by rw [Context.getElem?_extend, ht, Option.some_or], ?_⟩
    rw [infer_var_eq_ok, Context.getElem?_extend, paramType?_rename_self h.new_notMem, ht,
      Option.some_or]

theorem infer_renameCaptured_of_typeLaw (params : List Param) {body : Term L}
    (captured : NameSet) (hbody : ∀ b : Term L, b.size = body.size → TypeLaw ops b)
    (Γ : Context) :
    (renameCaptured params body captured).2.infer ops
        (Γ.extend (renameCaptured params body captured).1) =
      body.infer ops (Γ.extend params) := by
  refine renameCaptured_keeps (motive := fun ps b =>
    b.infer ops (Γ.extend ps) = body.infer ops (Γ.extend params)) rfl ?_
  intro ps b r hsize hr h
  rw [infer_turn hr (hbody b hsize), h]

theorem typeLaw (e : Term L) : TypeLaw ops e := by
  induction e using sizeInduction with
  | unit => intro x v Γ Δ _ _; simp [infer]
  | lit n => intro x v Γ Δ _ _; simp [infer]
  | var z =>
    intro x v Γ Δ hne hx
    rw [substitute_var]
    split
    · rename_i hz
      subst hz
      obtain ⟨s, hs, hv⟩ := hx (by simp)
      rw [hv, infer_var_eq_ok.2 hs]
    · rename_i hz
      rw [infer, infer, hne z hz (by simp)]
  | lam params body ih =>
    intro x v Γ Δ hne hx
    rcases substitute_lam_cases params body x v with ⟨hfree, heq⟩ | ⟨hfree, heq⟩
    · rw [heq]
      exact infer_congr fun z hz => hne z (by rintro rfl; simp [hfree] at hz) hz
    · have hlam := occursFree_renameCaptured params body v.freeVars
      obtain ⟨s, hs, hv⟩ := hx hfree
      rw [← hlam, occursFree_lam_iff] at hfree
      have hbody := infer_renameCaptured_of_typeLaw params v.freeVars ih Γ
      have htypes := map_type_renameCaptured params body v.freeVars
      rw [heq, infer, infer, ← hbody, htypes]
      rw [ih _ (size_renameCaptured _ _ _) x v
        (Γ.extend (renameCaptured params body v.freeVars).1) _ (fun z hz hfz => ?_) fun _ => ?_]
      · refine Context.getElem?_extend_congr fun hp => hne z hz ?_
        rw [← hlam]
        exact occursFree_lam_iff.2 ⟨hp, hfz⟩
      · refine ⟨s, ?_, ?_⟩
        · rw [Context.getElem?_extend_of_notMem Γ hfree.1, hs]
        · -- the renamed parameters hide no free variable of `v`
          rw [← hv]
          refine infer_congr fun z hz => ?_
          have hp := notMem_renameCaptured params body (mem_freeVars.2 hz)
          exact Context.getElem?_extend_of_notMem Δ hp
  | app callee args ihc iha =>
    intro x v Γ Δ hne hx
    rw [substitute_app, infer, infer, ihc x v Γ Δ
        (fun z hz h => hne z hz (occursFree_app_iff.2 (.inl h)))
        (fun h => hx (occursFree_app_iff.2 (.inl h))),
      List.length_map, inferAll_map_congr fun a ha => iha a ha x v Γ Δ
        (fun z hz h => hne z hz (occursFree_app_iff.2 (.inr ⟨a, ha, h⟩)))
        (fun h => hx (occursFree_app_iff.2 (.inr ⟨a, ha, h⟩)))]
  | binop op lhs rhs ihl ihr =>
    intro x v Γ Δ hne hx
    rw [substitute_binop, infer, infer,
      ihl x v Γ Δ (fun z hz h => hne z hz (occursFree_binop_iff.2 (.inl h)))
        (fun h => hx (occursFree_binop_iff.2 (.inl h))),
      ihr x v Γ Δ (fun z hz h => hne z hz (occursFree_binop_iff.2 (.inr h)))
        (fun h => hx (occursFree_binop_iff.2 (.inr h)))]

/-- Renaming captured parameters changes no result for the body of a lambda. -/
theorem infer_renameCaptured (params : List Param) (body : Term L) (captured : NameSet)
    (Γ : Context) :
    (renameCaptured params body captured).2.infer ops
        (Γ.extend (renameCaptured params body captured).1) =
      body.infer ops (Γ.extend params) :=
  infer_renameCaptured_of_typeLaw params captured (fun b _ => typeLaw b) Γ

/-- **Substitution commutes with inference.** A term with `v` put in for `x` has the same
    type in a context as the term itself where the context gives `x` the type of `v`, or
    the same error. -/
theorem infer_substitute {e v : Term L} {x : Name} {Γ : Context} {s : Ty}
    (hv : v.infer ops Γ = .ok s) :
    (e.substitute x v).infer ops Γ = e.infer ops (Γ.insert x s) := by
  refine typeLaw e x v _ _ (fun y hy _ => ?_) fun _ => ⟨s, ?_, hv⟩
  · rw [Std.ExtTreeMap.getElem?_insert]
    simp [hy.symm]
  · simp

/-- `\y: int, y: t. x(y)`, where the last parameter hides the first one. -/
def passHidden (t : Ty) : Term Int64 :=
  .lam [⟨"y", .int⟩, ⟨"y", t⟩] (.app (.var "x") [.var "y"])

/-- A free `y` is put in for `x` in `passHidden`, which has both parameters renamed. The
    result has a type if the last of them has the type that `y` needs, and otherwise the
    error of the term before. -/
theorem infer_substitute_passHidden :
    let Γ : Context := .ofParams [⟨"y", .fn [.int] .int⟩]
    (var "y" : Term Int64).infer .standard Γ = .ok (.fn [.int] .int) ∧
      (∀ t, ((passHidden t).substitute "x" (.var "y")).infer .standard Γ =
        (passHidden t).infer .standard (Γ.insert "x" (.fn [.int] .int))) ∧
      ((passHidden .int).substitute "x" (.var "y")).infer .standard Γ =
        .ok (.fn [.int, .int] .int) ∧
      ((passHidden .unit).substitute "x" (.var "y")).infer .standard Γ =
        .error (.argument 0 .int .unit) := by
  intro Γ
  have hy : (var "y" : Term Int64).infer .standard Γ = .ok (.fn [.int] .int) := by
    decide +kernel
  exact ⟨hy, fun t => infer_substitute hy, by decide +kernel, by decide +kernel⟩

end Term

end NaryLambda

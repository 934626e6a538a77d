import NaryLambda.Proofs.Typing.FreeVars
import NaryLambda.Proofs.Typing.Rules

/-!
# Rejection at the first fault

Inference fails with an error iff on the way through the term a subterm is
reached that is at fault for this reason. A failure at the reached subterm is a
failure of the whole term, since all that comes before has the types it needs.
And a term that fails fails in a part of it, or is at fault itself. A term at
fault itself has no reached part at fault, so there is one such place only.

Results:

* `Fault.infer_eq_error`, `Reaches.infer_eq_error`: inference fails at a fault, and
  wherever the fault is reached from.
* `Term.exists_fault`: a term that fails reaches a fault.
* `Reaches.fault_unique`: a term reaches one fault at most.
* `Term.infer_eq_error_iff_fault`: all of this, for every error.
-/

namespace NaryLambda

variable {L : Type} {ops : Operators L} {Γ Δ : Context} {e s : Term L} {error : TypeError}

open Term

/-! ## Reached subterms -/

theorem Reaches.subterm (h : Reaches ops Γ e Δ s) : Subterm s e := by
  induction h with
  | here => exact .refl
  | body _ ih => exact .body ih
  | callee _ ih => exact .callee ih
  | arg _ _ _ _ ih => exact .arg (by simp) ih
  | lhs _ ih => exact .lhs ih
  | rhs _ _ ih => exact .rhs ih

/-- A variable of a reached subterm that has no type there is free in the term, and has no
    type outside either. -/
theorem Reaches.free (h : Reaches ops Γ e Δ s) {x : Name} (hs : s.occursFree x = true)
    (hx : x ∉ Δ) : e.occursFree x = true ∧ x ∉ Γ := by
  induction h with
  | here => exact ⟨hs, hx⟩
  | @body Γ Δ params body s _ ih =>
    obtain ⟨hbody, hx⟩ := ih hs hx
    rw [Std.ExtTreeMap.mem_iff_isSome_getElem?, Context.getElem?_extend, Option.isSome_or] at hx
    have hp : x ∉ paramNames params := fun hp => by
      obtain ⟨t, ht⟩ := exists_paramType? hp
      simp [ht] at hx
    refine ⟨occursFree_lam_iff.2 ⟨hp, hbody⟩, fun hΓ => hx ?_⟩
    rw [Std.ExtTreeMap.mem_iff_isSome_getElem?] at hΓ
    simp [hΓ]
  | callee _ ih =>
    obtain ⟨hc, hx⟩ := ih hs hx
    exact ⟨occursFree_app_iff.2 (.inl hc), hx⟩
  | arg _ _ _ _ ih =>
    obtain ⟨ha, hx⟩ := ih hs hx
    exact ⟨occursFree_app_iff.2 (.inr ⟨_, by simp, ha⟩), hx⟩
  | lhs _ ih =>
    obtain ⟨hl, hx⟩ := ih hs hx
    exact ⟨occursFree_binop_iff.2 (.inl hl), hx⟩
  | rhs _ _ ih =>
    obtain ⟨hr, hx⟩ := ih hs hx
    exact ⟨occursFree_binop_iff.2 (.inr hr), hx⟩

/-! ## A fault is a failure -/

/-- Inference fails at a subterm that is at fault, and says why. -/
theorem Fault.infer_eq_error (h : Fault ops Γ e error) : e.infer ops Γ = .error error := by
  cases h with
  | unbound hx => exact infer_var_eq_error.2 ⟨hx, rfl⟩
  | left hl hne =>
    exact infer_binop_eq_error.2 (.inr (.inl ⟨_, infer_eq_ok_iff_hasType.2 hl, hne, rfl⟩))
  | right hl hr hne =>
    exact infer_binop_eq_error.2 (.inr (.inr ⟨infer_eq_ok_iff_hasType.2 hl,
      .inr (.inl ⟨_, infer_eq_ok_iff_hasType.2 hr, hne, rfl⟩)⟩))
  | unknownOperator hl hr hop =>
    exact infer_binop_eq_error.2 (.inr (.inr ⟨infer_eq_ok_iff_hasType.2 hl,
      .inr (.inr ⟨infer_eq_ok_iff_hasType.2 hr, hop, rfl⟩)⟩))
  | notFunction hcallee hne =>
    exact infer_app_eq_error.2 (.inr (.inl ⟨_, infer_eq_ok_iff_hasType.2 hcallee, hne, rfl⟩))
  | arity hcallee hlen =>
    exact infer_app_eq_error.2 (.inr (.inr ⟨_, _, infer_eq_ok_iff_hasType.2 hcallee,
      .inl ⟨hlen, rfl⟩⟩))
  | @argument _ args _ found _ s t position hcallee hlen hfound hargs hs ht hne hbefore =>
    have hall : inferAll ops Γ args = .ok found :=
      inferAll_eq_ok.2 (List.forall₂_iff_zip.2
        ⟨hfound.symm, fun h => infer_eq_ok_iff_hasType.2 (hargs _ h)⟩)
    exact infer_app_eq_error.2 (.inr (.inr ⟨_, _, infer_eq_ok_iff_hasType.2 hcallee,
      .inr ⟨hlen, .inr ⟨found, hall,
        firstMismatch_eq_some.2 ⟨position, s, t, hs, ht, hne, hbefore, rfl⟩⟩⟩⟩))

/-- A failure at a reached subterm is a failure of the term. -/
theorem Reaches.infer_eq_error (h : Reaches ops Γ e Δ s) (hs : s.infer ops Δ = .error error) :
    e.infer ops Γ = .error error := by
  induction h with
  | here => exact hs
  | body _ ih => exact infer_lam_eq_error.2 (ih hs)
  | callee _ ih => exact infer_app_eq_error.2 (.inl (ih hs))
  | @arg Γ Δ callee a s before after domains range hcallee hlen hbefore _ ih =>
    have hbefore' : ∀ b ∈ before, ∃ t, b.infer ops Γ = .ok t := fun b hb =>
      (hbefore b hb).imp fun t => infer_eq_ok_iff_hasType.2
    exact infer_app_eq_error.2 (.inr (.inr ⟨domains, range, infer_eq_ok_iff_hasType.2 hcallee,
      .inr ⟨hlen, .inl (inferAll_eq_error.2 ⟨before, a, after, rfl, hbefore', ih hs⟩)⟩⟩))
  | lhs _ ih => exact infer_binop_eq_error.2 (.inl (ih hs))
  | rhs hl _ ih =>
    exact infer_binop_eq_error.2 (.inr (.inr ⟨infer_eq_ok_iff_hasType.2 hl, .inl (ih hs)⟩))

/-! ## A failure is a fault -/

/-- A term that fails is at fault, or a subterm is that it reaches. -/
theorem Term.exists_fault (h : e.infer ops Γ = .error error) :
    ∃ Δ s, Reaches ops Γ e Δ s ∧ Fault ops Δ s error := by
  induction e generalizing Γ with
  | unit | lit n => cases h
  | var x =>
    obtain ⟨hx, rfl⟩ := infer_var_eq_error.1 h
    exact ⟨Γ, _, .here, .unbound hx⟩
  | lam params body ih =>
    obtain ⟨Δ, s, hreach, hfault⟩ := ih (infer_lam_eq_error.1 h)
    exact ⟨Δ, s, .body hreach, hfault⟩
  | app callee args ihc iha =>
    rcases infer_app_eq_error.1 h with h | ⟨t, hcallee, hne, rfl⟩ | ⟨domains, range, hcallee, h⟩
    · obtain ⟨Δ, s, hreach, hfault⟩ := ihc h
      exact ⟨Δ, s, .callee hreach, hfault⟩
    · exact ⟨Γ, _, .here, .notFunction (infer_eq_ok_iff_hasType.1 hcallee) hne⟩
    · rw [infer_eq_ok_iff_hasType] at hcallee
      rcases h with ⟨hlen, rfl⟩ | ⟨hlen, h | ⟨found, hargs, hmatch⟩⟩
      · exact ⟨Γ, _, .here, .arity hcallee hlen⟩
      · obtain ⟨before, a, after, rfl, hbefore, ha⟩ := inferAll_eq_error.1 h
        obtain ⟨Δ, s, hreach, hfault⟩ := iha a (by simp) ha
        have hbefore' : ∀ b ∈ before, ∃ t, HasType ops Γ.scope b t := fun b hb =>
          (hbefore b hb).imp fun t => infer_eq_ok_iff_hasType.1
        exact ⟨Δ, s, .arg hcallee hlen hbefore' hreach, hfault⟩
      · obtain ⟨position, s, t, hs, ht, hne, hbefore, rfl⟩ := firstMismatch_eq_some.1 hmatch
        obtain ⟨hfound, hargs⟩ := List.forall₂_iff_zip.1 (inferAll_eq_ok.1 hargs)
        exact ⟨Γ, _, .here, .argument hcallee hlen hfound.symm
          (fun p hp => infer_eq_ok_iff_hasType.1 (hargs hp)) hs ht hne hbefore⟩
  | binop op lhs rhs ihl ihr =>
    rcases infer_binop_eq_error.1 h with h | ⟨t, hl, hne, rfl⟩ | ⟨hl, h⟩
    · obtain ⟨Δ, s, hreach, hfault⟩ := ihl h
      exact ⟨Δ, s, .lhs hreach, hfault⟩
    · exact ⟨Γ, _, .here, .left (infer_eq_ok_iff_hasType.1 hl) hne⟩
    · rw [infer_eq_ok_iff_hasType] at hl
      rcases h with h | ⟨t, hr, hne, rfl⟩ | ⟨hr, hop, rfl⟩
      · obtain ⟨Δ, s, hreach, hfault⟩ := ihr h
        exact ⟨Δ, s, .rhs hl hreach, hfault⟩
      · exact ⟨Γ, _, .here, .right hl (infer_eq_ok_iff_hasType.1 hr) hne⟩
      · exact ⟨Γ, _, .here, .unknownOperator hl (infer_eq_ok_iff_hasType.1 hr) hop⟩

/-! ## The only fault -/

theorem not_hasType_of_infer_eq_error (h : e.infer ops Γ = .error error) (t : Ty) :
    ¬ HasType ops Γ.scope e t := by
  intro ht
  rw [infer_eq_ok_iff_hasType.2 ht] at h
  cases h

/-- A term that is at fault itself reaches no failure in its parts: those that come before
    its own check have types, and the others are not reached. -/
theorem Fault.eq_of_reaches {error' : TypeError} (hfault : Fault ops Γ e error)
    (h : Reaches ops Γ e Δ s) (hs : s.infer ops Δ = .error error') : Δ = Γ ∧ s = e := by
  cases h with
  | here => exact ⟨rfl, rfl⟩
  | body => cases hfault
  | callee hc =>
    have hnone := not_hasType_of_infer_eq_error (hc.infer_eq_error hs)
    cases hfault with
    | notFunction hcallee | arity hcallee | argument hcallee => exact absurd hcallee (hnone _)
  | arg hcallee hlen _ ha =>
    have hnone := not_hasType_of_infer_eq_error (ha.infer_eq_error hs)
    cases hfault with
    | notFunction hcallee' hne => exact absurd (hcallee'.unique hcallee) (hne _ _)
    | arity hcallee' hlen' =>
      obtain ⟨rfl, -⟩ := Ty.fn.inj (hcallee'.unique hcallee)
      exact absurd hlen hlen'
    | argument _ _ hfound hargs =>
      have hall := List.forall₂_iff_zip.2 ⟨hfound.symm, fun h => hargs _ h⟩
      obtain ⟨t, -, hat⟩ := exists_mem_of_forall₂ hall (List.mem_append_right _ (.head _))
      exact absurd hat (hnone t)
  | lhs hl =>
    have hnone := not_hasType_of_infer_eq_error (hl.infer_eq_error hs)
    cases hfault with
    | left hl' | right hl' | unknownOperator hl' => exact absurd hl' (hnone _)
  | rhs hl hr =>
    have hnone := not_hasType_of_infer_eq_error (hr.infer_eq_error hs)
    cases hfault with
    | left hl' hne => exact absurd (hl'.unique hl) hne
    | right _ hr' | unknownOperator _ hr' => exact absurd hr' (hnone _)

/-- A term reaches one fault at most. -/
theorem Reaches.fault_unique {Δ' : Context} {s' : Term L} {error' : TypeError}
    (h : Reaches ops Γ e Δ s) (hfault : Fault ops Δ s error)
    (h' : Reaches ops Γ e Δ' s') (hfault' : Fault ops Δ' s' error') : Δ' = Δ ∧ s' = s := by
  have hs := hfault.infer_eq_error
  have hs' := hfault'.infer_eq_error
  induction h with
  | here => exact hfault.eq_of_reaches h' hs'
  | body _ ih =>
    cases h' with
    | here => cases hfault'
    | body h' => exact ih hfault h' hs
  | callee hc ih =>
    cases h' with
    | here => exact (hfault'.eq_of_reaches (.callee hc) hs).imp Eq.symm Eq.symm
    | callee hc' => exact ih hfault hc' hs
    | arg hcallee =>
      exact absurd hcallee (not_hasType_of_infer_eq_error (hc.infer_eq_error hs) _)
  | @arg Γ Δ callee a s before after domains range hcallee hlen hbefore ha ih =>
    have hnone := not_hasType_of_infer_eq_error (ha.infer_eq_error hs)
    generalize hargs : before ++ a :: after = args at h'
    cases h' with
    | here =>
      subst hargs
      exact (hfault'.eq_of_reaches (.arg hcallee hlen hbefore ha) hs).imp Eq.symm Eq.symm
    | callee hc' =>
      exact absurd hcallee (not_hasType_of_infer_eq_error (hc'.infer_eq_error hs') _)
    | arg _ _ hbefore' ha' =>
      -- the argument that is reached is the first one without a type
      have hnone' := not_hasType_of_infer_eq_error (ha'.infer_eq_error hs')
      obtain ⟨-, rfl, -⟩ := first_unique (p := fun b => ∃ t, HasType ops Γ.scope b t) hbefore
        (not_exists.2 hnone) hbefore' (not_exists.2 hnone') hargs
      exact ih hfault ha' hs
  | lhs hl ih =>
    have hnone := not_hasType_of_infer_eq_error (hl.infer_eq_error hs)
    cases h' with
    | here => exact (hfault'.eq_of_reaches (.lhs hl) hs).imp Eq.symm Eq.symm
    | lhs hl' => exact ih hfault hl' hs
    | rhs hl' => exact absurd hl' (hnone _)
  | rhs hl hr ih =>
    cases h' with
    | here => exact (hfault'.eq_of_reaches (.rhs hl hr) hs).imp Eq.symm Eq.symm
    | lhs hl' => exact absurd hl (not_hasType_of_infer_eq_error (hl'.infer_eq_error hs') _)
    | rhs _ hr' => exact ih hfault hr' hs

/-- **Inference names the first fault.** It fails with an error iff the term has a subterm
    that is reached, in the context of the lambdas around it, after parts that all have the
    types they need, and that is itself at fault for this reason. There is one such place
    at most. And a name that is reported as unbound is free in the term, with no type in
    the context of the term. -/
theorem Term.infer_eq_error_iff_fault (ops : Operators L) (Γ : Context) (e : Term L) :
    (∀ error, e.infer ops Γ = .error error ↔
      ∃ Δ s, Subterm s e ∧ Reaches ops Γ e Δ s ∧ Fault ops Δ s error) ∧
    (∀ Δ s error Δ' s' error', Reaches ops Γ e Δ s → Fault ops Δ s error →
      Reaches ops Γ e Δ' s' → Fault ops Δ' s' error' → Δ' = Δ ∧ s' = s ∧ error' = error) ∧
    ∀ x, e.infer ops Γ = .error (.unbound x) → x ∈ e.freeVars ∧ x ∉ Γ := by
  refine ⟨fun error => ⟨fun h => ?_, ?_⟩, ?_, fun x h => ?_⟩
  · obtain ⟨Δ, s, hreach, hfault⟩ := exists_fault h
    exact ⟨Δ, s, hreach.subterm, hreach, hfault⟩
  · rintro ⟨Δ, s, -, hreach, hfault⟩
    exact hreach.infer_eq_error hfault.infer_eq_error
  · intro Δ s error Δ' s' error' hreach hfault hreach' hfault'
    obtain ⟨rfl, rfl⟩ := hreach.fault_unique hfault hreach' hfault'
    have herror := hfault'.infer_eq_error.symm.trans hfault.infer_eq_error
    exact ⟨rfl, rfl, Except.error.inj herror⟩
  · obtain ⟨Δ, s, hreach, hfault⟩ := exists_fault h
    cases hfault with
    | unbound hx =>
      obtain ⟨hfree, hΓ⟩ := hreach.free (by simp) hx
      exact ⟨mem_freeVars.2 hfree, hΓ⟩

/-- The parameters `f: int -> int, x: ()`. -/
def functionAndUnit : List Param := [⟨"f", .fn [.int] .int⟩, ⟨"x", .unit⟩]

/-- `\f: int -> int, x: (). f(a) / z`, with a term for `a`. -/
def dividedCall (a : Term Int64) : Term Int64 :=
  .lam functionAndUnit (.binop "/" (.app (.var "f") [a]) (.var "z"))

/-- With `x` for `a` there is a wrong argument in `dividedCall`, an unbound `z` and an unknown
    operator. The argument comes first, so it is reported, and it is the only fault that is
    reached. With 1 for `a` the unbound `z` is. -/
theorem infer_dividedCall :
    let Δ := (∅ : Context).extend functionAndUnit
    let s : Term Int64 := .app (.var "f") [.var "x"]
    (Reaches .standard ∅ (dividedCall (.var "x")) Δ s ∧
      Fault .standard Δ s (.argument 0 .int .unit)) ∧
    (dividedCall (.var "x")).infer .standard ∅ = .error (.argument 0 .int .unit) ∧
    (∀ Δ' s' error', Reaches .standard ∅ (dividedCall (.var "x")) Δ' s' →
      Fault .standard Δ' s' error' → Δ' = Δ ∧ s' = s ∧ error' = .argument 0 .int .unit) ∧
    (dividedCall (.lit 1)).infer .standard ∅ = .error (.unbound "z") ∧
      "z" ∈ (dividedCall (.lit 1)).freeVars ∧ "z" ∉ (∅ : Context) := by
  intro Δ s
  obtain ⟨hiff, hunique, -⟩ := Term.infer_eq_error_iff_fault .standard ∅ (dividedCall (.var "x"))
  obtain ⟨-, -, hunbound⟩ := Term.infer_eq_error_iff_fault .standard ∅ (dividedCall (.lit 1))
  have hreach : Reaches .standard ∅ (dividedCall (.var "x")) Δ s := .body (.lhs .here)
  have hcallee : HasType .standard Δ.scope (.var "f") (.fn [.int] .int) :=
    .var (by decide +kernel)
  have harg : HasType .standard Δ.scope (.var "x") .unit := .var (by decide +kernel)
  have hargs : ∀ p ∈ List.zip [.var "x"] [Ty.unit], HasType .standard Δ.scope p.1 p.2 := by
    intro p hp
    obtain rfl : p = (.var "x", .unit) := List.mem_singleton.1 hp
    exact harg
  have hfound : [Ty.unit].length = [(.var "x" : Term Int64)].length := rfl
  have hfault : Fault .standard Δ s (.argument 0 .int .unit) :=
    .argument hcallee rfl hfound hargs rfl rfl (by decide)
      fun i hi => absurd hi (Nat.not_lt_zero i)
  have hz : (dividedCall (.lit 1)).infer .standard ∅ = .error (.unbound "z") := by
    decide +kernel
  exact ⟨⟨hreach, hfault⟩, (hiff _).2 ⟨Δ, s, hreach.subterm, hreach, hfault⟩,
    fun Δ' s' error' => hunique Δ s _ Δ' s' error' hreach hfault, hz, hunbound "z" hz⟩

end NaryLambda

import NaryLambda.Evaluation.Closure
import NaryLambda.Proofs.Evaluation.Lockstep
import NaryLambda.Proofs.Substitution.Instantiate

/-!
# Evaluation with closures reads back as evaluation

A term in an environment stands for the term with the values of the environment
written in. Evaluation of the one in the environment and of the other by
substitution are in step at every depth: values read back as values, and reasons
as reasons. The invariant is that closures have entries for all their free
variables. So the terms that values stand for are closed, parameters are never
renamed, and a call by substitution writes in what the extended environment of a
call with closures holds.

Results:

* `Value.Scoped.closed`: what a value stands for is closed.
* `Environment.lookup_extend`: what a name means in the environment of a call.
* `Term.evalClosure_inStep`: both evaluations at every depth.
* `Term.evaluates_iff_evalClosure`: they have the same results on closed terms.
-/

namespace NaryLambda

variable {L : Type}

/-! ## Values that stand for closed terms -/

/-- Every closure in the value has entries for its free variables. -/
inductive Value.Scoped : Value L → Prop
  | unit : Scoped .unit
  | lit {n : L} : Scoped (.lit n)
  | closure {params : List Param} {body : Term L} {env : List (Name × Value L)} :
      (∀ x, (Term.lam params body).occursFree x = true → ∃ v, env.lookup x = some v) →
      (∀ x v, env.lookup x = some v → v.Scoped) → Scoped (.closure params body env)

namespace Environment

/-- All values of the environment are scoped. -/
def Scoped (env : Environment L) : Prop := ∀ x v, env.lookup x = some v → v.Scoped

/-- The environment has entries for the free variables of the term. -/
def Covers (env : Environment L) (e : Term L) : Prop :=
  ∀ x, e.occursFree x = true → ∃ v, env.lookup x = some v

/-- The terms that the values of the environment stand for. -/
def readBack (env : Environment L) : Assignment L := env.map fun p => (p.1, p.2.readBack)

theorem lookup_readBack (env : Environment L) (x : Name) :
    env.readBack.lookup x = (env.lookup x).map Value.readBack := by
  induction env with
  | nil => rfl
  | cons p env ih =>
    obtain ⟨y, v⟩ := p
    rw [readBack] at ih ⊢
    rw [List.map_cons, lookup_cons_eq_ite, lookup_cons_eq_ite, ih]
    split <;> rfl

theorem closed_readBack {env : Environment L}
    (h : ∀ x v, env.lookup x = some v → v.readBack.Closed) : env.readBack.Closed := by
  intro x e he
  rw [lookup_readBack, Option.map_eq_some_iff] at he
  obtain ⟨v, hv, rfl⟩ := he
  exact h x v hv

end Environment

namespace Value

theorem readBack_unit : (unit : Value L).readBack = .unit := by rw [readBack]

theorem readBack_lit (n : L) : (lit n).readBack = .lit n := by rw [readBack]

theorem readBack_closure (params : List Param) (body : Term L) (env : Environment L) :
    (closure params body env).readBack = (Term.lam params body).instantiate env.readBack := by
  rw [readBack]
  exact congrArg (Term.instantiate · _)
    (List.attach_map_val (l := env) (f := fun p => (p.1, p.2.readBack)))

theorem isValue_readBack (v : Value L) : v.readBack.isValue = true := by
  cases v with
  | unit => rw [readBack_unit]; rfl
  | lit n => rw [readBack_lit]; rfl
  | closure params body env => rw [readBack_closure, Term.instantiate]; rfl

/-- What a scoped value stands for is closed. -/
theorem Scoped.closed {v : Value L} (h : v.Scoped) : v.readBack.Closed := by
  induction h with
  | unit => exact fun x => by rw [readBack_unit, Term.occursFree_unit]
  | lit => exact fun x => by rw [readBack_lit, Term.occursFree_lit]
  | @closure params body env hcovers _ ih =>
    intro x
    rw [readBack_closure, Bool.eq_false_iff, ne_eq,
      Term.occursFree_instantiate (Environment.closed_readBack ih), Environment.lookup_readBack]
    rintro ⟨hx, hnone⟩
    obtain ⟨v, hv⟩ := hcovers x hx
    rw [hv] at hnone
    cases hnone

end Value

namespace Environment

theorem Scoped.closed {env : Environment L} (h : env.Scoped) : env.readBack.Closed :=
  closed_readBack fun x v hv => (h x v hv).closed

/-! ## The environment of a call -/

/-- In the environment of a call a name means the value at its last position among
    the parameters, and what it meant before if there is none. -/
theorem lookup_extend (env : Environment L) {params : List Param} {values : List (Value L)}
    (hlen : params.length = values.length) (x : Name) :
    (env.extend params values).lookup x =
      match lastPosition? x (paramNames params) with
      | some i => values[i]?
      | none => env.lookup x := by
  induction params generalizing env values with
  | nil => cases values <;> rfl
  | cons p params ih =>
    cases values with
    | nil => cases hlen
    | cons v values =>
      rw [extend, ih _ (Nat.succ.inj hlen), paramNames_cons, lastPosition?, lookup_cons_eq_ite]
      cases lastPosition? x (paramNames params) with
      | some i => rfl
      | none =>
        by_cases hx : x = p.name
        · simp [hx]
        · simp [hx, Ne.symm hx]

theorem Scoped.extend {env : Environment L} {params : List Param} {values : List (Value L)}
    (henv : env.Scoped) (hvalues : ∀ v ∈ values, v.Scoped)
    (hlen : params.length = values.length) : (env.extend params values).Scoped := by
  intro x v hv
  rw [lookup_extend env hlen] at hv
  split at hv
  · exact hvalues v (List.mem_of_getElem? hv)
  · exact henv x v hv

theorem Covers.extend {env : Environment L} {params : List Param} {values : List (Value L)}
    {body : Term L} (h : env.Covers (.lam params body)) (hlen : params.length = values.length) :
    (env.extend params values).Covers body := by
  intro x hx
  rw [lookup_extend env hlen]
  cases hi : lastPosition? x (paramNames params) with
  | some i =>
    have hlt := lastPosition?_lt hi
    rw [length_paramNames, hlen] at hlt
    exact ⟨_, List.getElem?_eq_getElem hlt⟩
  | none => exact h x (Term.occursFree_lam_iff.2 ⟨lastPosition?_eq_none.1 hi, hx⟩)

/-- A call by substitution writes in what the environment of the call holds. -/
theorem bindValues_readBack {env : Environment L} {params : List Param} {values : List (Value L)}
    (henv : env.Scoped) (hvalues : ∀ v ∈ values, v.Scoped)
    (hlen : params.length = values.length) (body : Term L) :
    (body.instantiate (env.readBack.hide (paramNames params))).bindValues params
        (values.map Value.readBack) =
      body.instantiate (env.extend params values).readBack := by
  have hclosed : ∀ e ∈ values.map Value.readBack, e.Closed := by
    intro e he
    obtain ⟨v, hv, rfl⟩ := List.mem_map.1 he
    exact (hvalues v hv).closed
  rw [Term.bindValues_instantiate (henv.closed.hide _) params hclosed]
  refine Term.instantiate_congr fun x _ => ?_
  rw [List.lookup_append, Assignment.lookup_hide, lookup_assignment, lookup_readBack,
    lookup_readBack, lookup_extend env hlen]
  cases hi : lastPosition? x (paramNames params) with
  | some i =>
    have hx : x ∈ paramNames params := by
      by_contra hx
      rw [lastPosition?_eq_none.2 hx] at hi
      cases hi
    simp [hx]
  | none => simp [lastPosition?_eq_none.1 hi]

end Environment

namespace Term

open Bounded

variable {ops : Operators L}

/-! ## Evaluation in step -/

/-- The value is scoped and stands for the term. -/
def ReadsAs (e : Term L) (v : Value L) : Prop := v.Scoped ∧ v.readBack = e

theorem eval_succ_of_isValue {v : Term L} (hv : v.isValue = true) (mode : ArityMode)
    (depth : Nat) : v.eval ops mode (depth + 1) = pure v := by
  cases v with
  | unit | lit | lam => rfl
  | var | app | binop => cases hv

theorem asLiteral_inStep (op : Name) {e : Term L} {v : Value L} (h : ReadsAs e v) :
    InStep ReadsAs Eq (e.asLiteral op) (v.asLiteral op) := by
  obtain ⟨hv, rfl⟩ := h
  have hthrow : StuckReason.Rel ReadsAs (.operand op v.readBack) (.operand op v) :=
    .operand ⟨hv, rfl⟩
  cases v with
  | unit => rw [Value.readBack_unit] at hthrow ⊢; exact .throw hthrow
  | lit n => rw [Value.readBack_lit]; exact .pure rfl
  | closure params body env =>
    rw [Value.readBack_closure, instantiate] at hthrow ⊢
    exact .throw hthrow

/-- Lists of values read back member by member. -/
theorem eq_map_of_readsAs {es : List (Term L)} {vs : List (Value L)}
    (h : List.Forall₂ ReadsAs es vs) : (∀ v ∈ vs, v.Scoped) ∧ es = vs.map Value.readBack := by
  induction h with
  | nil => exact ⟨by simp, rfl⟩
  | cons hev _ ih =>
    obtain ⟨hv, rfl⟩ := hev
    obtain ⟨hvs, rfl⟩ := ih
    exact ⟨List.forall_mem_cons.2 ⟨hv, hvs⟩, rfl⟩

/-- At this depth, evaluation by substitution of what a term in an environment
    stands for is in step with evaluation in the environment. -/
def InStepAt (ops : Operators L) (depth : Nat) : Prop :=
  ∀ (env : Environment L) (e : Term L), env.Scoped → env.Covers e →
    InStep ReadsAs ReadsAs ((e.instantiate env.readBack).eval ops .strict depth)
      (e.evalClosure ops depth env)

/-- The call of a closure, whose arguments are evaluated in the environment of the
    call and whose body in its own. -/
theorem InStepAt.app {depth : Nat} (h : InStepAt ops depth) {env : Environment L}
    {callee : Term L} {args : List (Term L)} (henv : env.Scoped)
    (happ : env.Covers (app callee args)) :
    InStep ReadsAs ReadsAs
      (((app callee args).instantiate env.readBack).eval ops .strict (depth + 1))
      ((app callee args).evalClosure ops (depth + 1) env) := by
  have hcallee : env.Covers callee := fun x hx => happ x (occursFree_app_iff.2 (.inl hx))
  have hargs : ∀ a ∈ args, env.Covers a :=
    fun a ha x hx => happ x (occursFree_app_iff.2 (.inr ⟨a, ha, hx⟩))
  simp only [instantiate, eval, evalClosure]
  refine (h env callee henv hcallee).bind fun u v huv => ?_
  obtain ⟨hv, rfl⟩ := huv
  cases hv with
  | unit =>
    rw [Value.readBack_unit]
    exact .throw (.notLambda ⟨.unit, Value.readBack_unit⟩)
  | lit =>
    rw [Value.readBack_lit]
    exact .throw (.notLambda ⟨.lit, Value.readBack_lit _⟩)
  | @closure params body captured hcovers hscoped =>
    rw [Value.readBack_closure, instantiate]
    simp only [List.length_map, and_true]
    split
    · exact .throw .arity
    · rename_i hne
      have hlen : params.length = args.length := not_not.1 hne
      have hvalues : List.Forall₂ (fun e a => InStep ReadsAs ReadsAs (e.eval ops .strict depth)
          (a.evalClosure ops depth env)) (args.map (instantiate env.readBack)) args :=
        List.forall₂_map_left_iff.2 (List.forall₂_same.2 fun a ha => h env a henv (hargs a ha))
      -- With as many arguments as parameters, none is left out.
      have htake : (args.map (instantiate env.readBack)).take args.length =
          args.map (instantiate env.readBack) := List.take_of_length_le (by simp)
      simp only [passArguments_eq_mapM, bind_assoc, pure_bind, hlen, if_true, htake]
      refine (InStep.mapM hvalues).bind fun es vs hvs => ?_
      obtain ⟨hlength, hvs⟩ := hvs
      obtain ⟨hscopedAll, rfl⟩ := eq_map_of_readsAs hvs
      have hlen' : params.length = vs.length := by simpa [hlen] using hlength.symm
      have hbody := Environment.bindValues_readBack hscoped hscopedAll hlen' body
      rw [hbody]
      exact h _ body (Environment.Scoped.extend hscoped hscopedAll hlen')
        (Environment.Covers.extend hcovers hlen')

/-- Both evaluations are in step at every depth. -/
theorem evalClosure_inStep (ops : Operators L) (depth : Nat) : InStepAt ops depth := by
  induction depth with
  | zero => exact fun _ _ _ _ => .unfinished
  | succ depth ih =>
    intro env e henv he
    cases e with
    | unit =>
      rw [instantiate]
      exact .pure ⟨.unit, Value.readBack_unit⟩
    | lit n =>
      rw [instantiate]
      exact .pure ⟨.lit, Value.readBack_lit n⟩
    | var x =>
      -- By substitution the value itself is evaluated, here it is looked up.
      obtain ⟨v, hv⟩ := he x (by simp)
      rw [instantiate, Environment.lookup_readBack, hv, evalClosure, hv, Option.map_some,
        Option.getD_some, eval_succ_of_isValue v.isValue_readBack]
      exact .pure ⟨henv x v hv, rfl⟩
    | lam params body =>
      rw [eval_succ_of_isValue (by rw [instantiate]; rfl)]
      exact .pure ⟨.closure he henv, Value.readBack_closure params body env⟩
    | app callee args => exact ih.app henv he
    | binop op lhs rhs =>
      have hl : env.Covers lhs := fun x hx => he x (occursFree_binop_iff.2 (.inl hx))
      have hr : env.Covers rhs := fun x hx => he x (occursFree_binop_iff.2 (.inr hx))
      simp only [instantiate, eval, evalClosure]
      cases ops[op]? with
      | none => exact .throw .unknownOperator
      | some f =>
        refine (ih env lhs henv hl).bind fun e v hev => ?_
        refine (asLiteral_inStep op hev).bind fun m _ hm => ?_
        refine (ih env rhs henv hr).bind fun e v hev => ?_
        refine (asLiteral_inStep op hev).bind fun n _ hn => ?_
        rw [hm, hn]
        exact .pure ⟨.lit, Value.readBack_lit _⟩

/-! ## Results -/

/-- An end of evaluation with closures reads back as the end that it is related to. -/
theorem readBackResult_of_endRel {r : Result L} {s : Except (StuckReason (Value L)) (Value L)}
    (h : EndRel ReadsAs ReadsAs r s) : Value.readBackResult s = r := by
  cases h with
  | ok h =>
    obtain ⟨-, rfl⟩ := h
    rfl
  | error h =>
    cases h with
    | free | unknownOperator | arity => rfl
    | operand h =>
      obtain ⟨-, rfl⟩ := h
      rfl
    | notLambda h =>
      obtain ⟨-, rfl⟩ := h
      rfl

/-- A closed term evaluates to a result iff evaluation with closures, from the empty
    environment, ends with something that reads back as the result. -/
theorem evaluates_iff_evalClosure {e : Term L} (he : e.Closed) (ops : Operators L)
    (r : Result L) :
    Evaluates ops .strict e r ↔
      ∃ depth s, (e.evalClosure ops depth []).run = some s ∧ Value.readBackResult s = r := by
  have hinStep : ∀ depth, InStep ReadsAs ReadsAs (e.eval ops .strict depth)
      (e.evalClosure ops depth []) := by
    intro depth
    have hcovers : Environment.Covers [] e := fun x hx => absurd hx (by simp [he x])
    have h := evalClosure_inStep ops depth [] e nofun hcovers
    rwa [Environment.readBack, List.map_nil, instantiate_nil] at h
  constructor
  · rintro ⟨depth, hr⟩
    obtain ⟨s, hs, hrs⟩ := (hinStep depth).exists_right hr
    exact ⟨depth, s, hs, readBackResult_of_endRel hrs⟩
  · rintro ⟨depth, s, hs, rfl⟩
    obtain ⟨r, hr, hrs⟩ := (hinStep depth).exists_left hs
    rw [readBackResult_of_endRel hrs]
    exact ⟨depth, hr⟩

/-- `addShadowed` ends in a closure that holds both values of `x`, and the last one is
    written in. -/
theorem evalClosure_addShadowed :
    addShadowed.Closed ∧
      (addShadowed.evalClosure .standard 3 []).run = some (.ok (.closure [⟨"y", .int⟩]
        (.binop "+" (.var "x") (.var "y")) [("x", .lit 2), ("x", .lit 1)])) ∧
      Evaluates .standard .strict addShadowed
        (.ok (.lam [⟨"y", .int⟩] (.binop "+" (.lit 2) (.var "y")))) := by
  have hclosed : addShadowed.Closed := by decide +kernel
  have hrun : (addShadowed.evalClosure .standard 3 []).run = some (.ok (.closure [⟨"y", .int⟩]
      (.binop "+" (.var "x") (.var "y")) [("x", .lit 2), ("x", .lit 1)])) := rfl
  refine ⟨hclosed, hrun, (evaluates_iff_evalClosure hclosed .standard _).2 ⟨3, _, hrun, ?_⟩⟩
  decide +kernel

end Term

end NaryLambda

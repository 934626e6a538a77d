import Mathlib.Tactic.Tauto
import NaryLambda.Evaluation.Eval
import NaryLambda.Evaluation.Reduction
import NaryLambda.Proofs.Pointwise

/-!
# Evaluation by rules

What one level of evaluation does, as a list of rules over any relation for the
parts of a term. The evaluator with one more level of depth is these rules over
the evaluator with one level less, and evaluation without a bound is these rules
over itself. An induction over a whole evaluation is packaged once, so that
later proofs go through the rules and never open the evaluator.

Results:

* `Term.run_eval_succ`: one level of the evaluator is one rule.
* `Term.evaluates_iff`: evaluation obeys the rules, and only them.
* `Term.Evaluates.induction`: what every rule keeps holds of all evaluations.
-/

namespace NaryLambda

variable {L : Type}

/-- One rule of evaluation. `R` says how the parts of the term evaluate. -/
inductive EvalRule (ops : Operators L) (mode : ArityMode) (R : Term L → Result L → Prop) :
    Term L → Result L → Prop
  | value {v : Term L} : v.isValue = true → EvalRule ops mode R v (.ok v)
  | free {x : Name} : EvalRule ops mode R (.var x) (.error (.free x))
  | callee {callee : Term L} {args : List (Term L)} {reason : StuckReason (Term L)} :
      R callee (.error reason) → EvalRule ops mode R (.app callee args) (.error reason)
  | notLambda {callee found : Term L} {args : List (Term L)} :
      R callee (.ok found) → (∀ params body, found ≠ .lam params body) →
      EvalRule ops mode R (.app callee args) (.error (.notLambda found))
  | arity {callee body : Term L} {params : List Param} {args : List (Term L)} :
      R callee (.ok (.lam params body)) → params.length ≠ args.length → mode = .strict →
      EvalRule ops mode R (.app callee args) (.error (.arity params.length args.length))
  | arg {callee body a : Term L} {params : List Param} {args before after values : List (Term L)}
      {reason : StuckReason (Term L)} :
      R callee (.ok (.lam params body)) → (mode = .strict → params.length = args.length) →
      args.take params.length = before ++ a :: after →
      List.Forall₂ (fun b v => R b (.ok v)) before values → R a (.error reason) →
      EvalRule ops mode R (.app callee args) (.error reason)
  | call {callee body : Term L} {params : List Param} {args values : List (Term L)}
      {r : Result L} :
      R callee (.ok (.lam params body)) → params.length = args.length →
      List.Forall₂ (fun b v => R b (.ok v)) args values →
      R (body.bindValues params values) r → EvalRule ops mode R (.app callee args) r
  | residual {callee body : Term L} {params : List Param} {args values : List (Term L)} :
      R callee (.ok (.lam params body)) → params.length ≠ args.length → mode = .truncate →
      List.Forall₂ (fun b v => R b (.ok v)) (args.take params.length) values →
      EvalRule ops mode R (.app callee args) (.ok (body.bindValues params values))
  | unknownOperator {op : Name} {lhs rhs : Term L} :
      op ∉ ops → EvalRule ops mode R (.binop op lhs rhs) (.error (.unknownOperator op))
  | lhs {op : Name} {lhs rhs : Term L} {reason : StuckReason (Term L)} :
      op ∈ ops → R lhs (.error reason) → EvalRule ops mode R (.binop op lhs rhs) (.error reason)
  | lhsOperand {op : Name} {lhs rhs found : Term L} :
      op ∈ ops → R lhs (.ok found) → (∀ n, found ≠ .lit n) →
      EvalRule ops mode R (.binop op lhs rhs) (.error (.operand op found))
  | rhs {op : Name} {lhs rhs : Term L} {m : L} {reason : StuckReason (Term L)} :
      op ∈ ops → R lhs (.ok (.lit m)) → R rhs (.error reason) →
      EvalRule ops mode R (.binop op lhs rhs) (.error reason)
  | rhsOperand {op : Name} {lhs rhs found : Term L} {m : L} :
      op ∈ ops → R lhs (.ok (.lit m)) → R rhs (.ok found) → (∀ n, found ≠ .lit n) →
      EvalRule ops mode R (.binop op lhs rhs) (.error (.operand op found))
  | compute {op : Name} {lhs rhs : Term L} {f : L → L → L} {m n : L} :
      ops[op]? = some f → R lhs (.ok (.lit m)) → R rhs (.ok (.lit n)) →
      EvalRule ops mode R (.binop op lhs rhs) (.ok (.lit (f m n)))

/-- A rule holds over every larger relation for the parts. -/
theorem EvalRule.mono {ops : Operators L} {mode : ArityMode} {R S : Term L → Result L → Prop}
    (hRS : ∀ e r, R e r → S e r) {e : Term L} {r : Result L} (h : EvalRule ops mode R e r) :
    EvalRule ops mode S e r := by
  have hlist : ∀ {es vs : List (Term L)}, List.Forall₂ (fun b v => R b (.ok v)) es vs →
      List.Forall₂ (fun b v => S b (.ok v)) es vs :=
    fun h => h.imp fun b v => hRS b (.ok v)
  cases h with
  | value hv => exact .value hv
  | free => exact .free
  | callee h => exact .callee (hRS _ _ h)
  | notLambda h hne => exact .notLambda (hRS _ _ h) hne
  | arity h hlen hmode => exact .arity (hRS _ _ h) hlen hmode
  | arg h hlen htake hbefore ha => exact .arg (hRS _ _ h) hlen htake (hlist hbefore) (hRS _ _ ha)
  | call h hlen hargs hbody => exact .call (hRS _ _ h) hlen (hlist hargs) (hRS _ _ hbody)
  | residual h hlen hmode hargs => exact .residual (hRS _ _ h) hlen hmode (hlist hargs)
  | unknownOperator hop => exact .unknownOperator hop
  | lhs hop h => exact .lhs hop (hRS _ _ h)
  | lhsOperand hop h hne => exact .lhsOperand hop (hRS _ _ h) hne
  | rhs hop hl h => exact .rhs hop (hRS _ _ hl) (hRS _ _ h)
  | rhsOperand hop hl h hne => exact .rhsOperand hop (hRS _ _ hl) (hRS _ _ h) hne
  | compute hf hl hr => exact .compute hf (hRS _ _ hl) (hRS _ _ hr)

namespace Term

open Bounded

/-! ## Arguments -/

/-- Passing arguments ends with all supplied values in the body, or with the first
    argument that is stuck. -/
theorem run_passArguments {eval : Term L → Bounded (Term L) (Term L)} {params : List Param}
    {args : List (Term L)} {body : Term L} {r : Result L} :
    (passArguments eval params args body).run = some r ↔
      (∃ values, List.Forall₂ (fun a v => (eval a).run = some (.ok v))
          (args.take params.length) values ∧ r = .ok (body.bindValues params values)) ∨
      (∃ before a after values reason, args.take params.length = before ++ a :: after ∧
        List.Forall₂ (fun a v => (eval a).run = some (.ok v)) before values ∧
        (eval a).run = some (.error reason) ∧ r = .error reason) := by
  induction params generalizing args body with
  | nil =>
    simp only [passArguments, List.length_nil, List.take_zero]
    constructor
    · intro h
      cases h
      exact .inl ⟨[], .nil, rfl⟩
    · rintro (⟨values, ⟨⟩, rfl⟩ | ⟨before, a, after, values, reason, h, -⟩)
      · rfl
      · simp at h
  | cons p params ih =>
    cases args with
    | nil =>
      simp only [passArguments, List.take_nil]
      constructor
      · intro h
        cases h
        exact .inl ⟨[], .nil, rfl⟩
      · rintro (⟨values, ⟨⟩, rfl⟩ | ⟨before, a, after, values, reason, h, -⟩)
        · rfl
        · simp at h
    | cons a args =>
      simp only [passArguments, List.length_cons, List.take_succ_cons]
      rw [run_bind_eq_some]
      constructor
      · rintro (⟨v, hv, hrest⟩ | ⟨reason, ha, rfl⟩)
        · rcases ih.1 hrest with ⟨values, hvalues, rfl⟩ |
            ⟨before, b, after, values, reason, htake, hbefore, hb, rfl⟩
          · exact .inl ⟨v :: values, .cons hv hvalues, rfl⟩
          · exact .inr ⟨a :: before, b, after, v :: values, reason, by rw [htake]; rfl,
              .cons hv hbefore, hb, rfl⟩
        · exact .inr ⟨[], a, _, [], reason, rfl, .nil, ha, rfl⟩
      · rintro (⟨values, hvalues, rfl⟩ |
          ⟨before, b, after, values, reason, htake, hbefore, hb, rfl⟩)
        · cases hvalues with
          | cons hv hvalues => exact .inl ⟨_, hv, ih.2 (.inl ⟨_, hvalues, rfl⟩)⟩
        · cases hbefore with
          | nil =>
            obtain ⟨rfl, -⟩ := List.cons.inj htake
            exact .inr ⟨reason, hb, rfl⟩
          | cons hv hbefore =>
            obtain ⟨rfl, htail⟩ := List.cons.inj htake
            exact .inl ⟨_, hv, ih.2 (.inr ⟨_, b, after, _, reason, htail, hbefore, hb, rfl⟩)⟩

/-- An operand that is no literal is reported. -/
theorem run_asLiteral {op : Name} {found : Term L} {r : Except (StuckReason (Term L)) L} :
    (asLiteral op found).run = some r ↔
      (∃ n, found = .lit n ∧ r = .ok n) ∨
      ((∀ n, found ≠ .lit n) ∧ r = .error (.operand op found)) := by
  cases found with
  | lit n => simp [asLiteral, eq_comm]
  | unit | var | lam | app | binop => simp [asLiteral, eq_comm]

/-! ## One level of depth -/

/-- The evaluator ends with the result within the depth. -/
def AnswersAt (ops : Operators L) (mode : ArityMode) (depth : Nat) (e : Term L) (r : Result L) :
    Prop := (eval ops mode depth e).run = some r

variable {ops : Operators L} {mode : ArityMode} {depth : Nat}

theorem mem_operators_of_getElem? {op : Name} {f : L → L → L} (h : ops[op]? = some f) :
    op ∈ ops := by
  rw [Std.ExtTreeMap.mem_iff_isSome_getElem?, h]
  rfl

theorem exists_operator {op : Name} (h : op ∈ ops) : ∃ f, ops[op]? = some f := by
  rwa [Std.ExtTreeMap.mem_iff_isSome_getElem?, Option.isSome_iff_exists] at h

/-- An application ends as one of its rules says. -/
theorem evalRule_of_run_app {callee : Term L} {args : List (Term L)} {r : Result L}
    (h : AnswersAt ops mode (depth + 1) (.app callee args) r) :
    EvalRule ops mode (AnswersAt ops mode depth) (.app callee args) r := by
  rw [AnswersAt, eval, run_bind_eq_some] at h
  rcases h with ⟨found, hcallee, h⟩ | ⟨reason, hcallee, rfl⟩
  · split at h
    · rename_i params body
      split at h
      · rename_i hlen
        cases h
        exact .arity hcallee hlen.1 hlen.2
      · rename_i hlen
        have hstrict : mode = .strict → params.length = args.length := by tauto
        rw [run_bind_eq_some] at h
        rcases h with ⟨b, hpass, h⟩ | ⟨reason, hpass, rfl⟩
        · rcases run_passArguments.1 hpass with ⟨values, hvalues, hb⟩ |
            ⟨_, _, _, _, _, _, _, _, hb⟩ <;> cases hb
          split at h
          · rename_i hsat
            rw [hsat, List.take_length] at hvalues
            exact .call hcallee hsat hvalues h
          · rename_i hsat
            cases h
            have htrunc : mode = .truncate := by cases mode <;> tauto
            exact .residual hcallee hsat htrunc hvalues
        · rcases run_passArguments.1 hpass with ⟨_, _, hb⟩ |
            ⟨before, a, after, values, reason, htake, hbefore, ha, hb⟩ <;> cases hb
          exact .arg hcallee hstrict htake hbefore ha
    · rename_i hne
      cases h
      exact .notLambda hcallee hne
  · exact .callee hcallee

/-- A binary operation ends as one of its rules says. -/
theorem evalRule_of_run_binop {op : Name} {lhs rhs : Term L} {r : Result L}
    (h : AnswersAt ops mode (depth + 1) (.binop op lhs rhs) r) :
    EvalRule ops mode (AnswersAt ops mode depth) (.binop op lhs rhs) r := by
  rw [AnswersAt, eval] at h
  split at h
  · rename_i hop
    cases h
    refine .unknownOperator ?_
    rw [Std.ExtTreeMap.mem_iff_isSome_getElem?, hop]
    exact Bool.false_ne_true
  · rename_i f hf
    have hop := mem_operators_of_getElem? hf
    rw [run_bind_eq_some] at h
    rcases h with ⟨found, hl, h⟩ | ⟨reason, hl, rfl⟩
    · rw [run_bind_eq_some] at h
      rcases h with ⟨m, hm, h⟩ | ⟨reason, hm, rfl⟩
      · rcases run_asLiteral.1 hm with ⟨m, rfl, hm⟩ | ⟨_, hm⟩ <;> cases hm
        rw [run_bind_eq_some] at h
        rcases h with ⟨found, hr, h⟩ | ⟨reason, hr, rfl⟩
        · rw [run_bind_eq_some] at h
          rcases h with ⟨n, hn, h⟩ | ⟨reason, hn, rfl⟩
          · rcases run_asLiteral.1 hn with ⟨n, rfl, hn⟩ | ⟨_, hn⟩ <;> cases hn
            cases h
            exact .compute hf hl hr
          · rcases run_asLiteral.1 hn with ⟨n, _, hn⟩ | ⟨hne, hn⟩ <;> cases hn
            exact .rhsOperand hop hl hr hne
        · exact .rhs hop hl hr
      · rcases run_asLiteral.1 hm with ⟨n, _, hm⟩ | ⟨hne, hm⟩ <;> cases hm
        exact .lhsOperand hop hl hne
    · exact .lhs hop hl

theorem run_eval_app {callee : Term L} {args : List (Term L)} {params : List Param} {body : Term L}
    (h : AnswersAt ops mode depth callee (.ok (.lam params body))) :
    (eval ops mode (depth + 1) (.app callee args)).run =
      (if params.length ≠ args.length ∧ mode = .strict then
        throw (.arity params.length args.length)
      else do
        let body ← passArguments (eval ops mode depth) params args body
        if params.length = args.length then eval ops mode depth body else return body :
        Bounded (Term L) (Term L)).run := by
  rw [eval, ExceptT.run_bind, h]
  rfl

theorem run_eval_binop {op : Name} {lhs rhs found : Term L} {f : L → L → L}
    (hf : ops[op]? = some f) (h : AnswersAt ops mode depth lhs (.ok found)) :
    (eval ops mode (depth + 1) (.binop op lhs rhs)).run =
      (do
        let m ← asLiteral op found
        let n ← asLiteral op (← eval ops mode depth rhs)
        return .lit (f m n) : Bounded (Term L) (Term L)).run := by
  rw [eval, hf]
  simp only
  rw [ExceptT.run_bind, h]
  rfl

theorem run_eval_binop_lit {op : Name} {lhs rhs : Term L} {m : L} {f : L → L → L}
    (hf : ops[op]? = some f) (h : AnswersAt ops mode depth lhs (.ok (.lit m))) :
    (eval ops mode (depth + 1) (.binop op lhs rhs)).run =
      (do
        let n ← asLiteral op (← eval ops mode depth rhs)
        return .lit (f m n) : Bounded (Term L) (Term L)).run := by
  rw [run_eval_binop hf h]
  rfl

/-- The evaluator obeys every rule. -/
theorem run_of_evalRule {e : Term L} {r : Result L}
    (h : EvalRule ops mode (AnswersAt ops mode depth) e r) :
    AnswersAt ops mode (depth + 1) e r := by
  rw [AnswersAt]
  cases h with
  | value hv => cases e <;> first | rfl | cases hv
  | free => rfl
  | callee h =>
    rw [eval, run_bind_eq_some]
    exact .inr ⟨_, h, rfl⟩
  | notLambda h hne =>
    rw [eval, run_bind_eq_some]
    refine .inl ⟨_, h, ?_⟩
    split
    · exact absurd rfl (hne _ _)
    · rfl
  | arity h hlen hmode =>
    rw [run_eval_app h, if_pos ⟨hlen, hmode⟩]
    rfl
  | arg h hlen htake hbefore ha =>
    rw [run_eval_app h, if_neg (by tauto), run_bind_eq_some]
    exact .inr ⟨_, run_passArguments.2 (.inr ⟨_, _, _, _, _, htake, hbefore, ha, rfl⟩), rfl⟩
  | @call callee body params args values _ h hlen hargs hbody =>
    rw [run_eval_app h, if_neg (by tauto), run_bind_eq_some]
    have htake : args.take params.length = args := by rw [hlen, List.take_length]
    refine .inl ⟨_, run_passArguments.2 (.inl ⟨values, ?_, rfl⟩), ?_⟩
    · rwa [htake]
    · rwa [if_pos hlen]
  | residual h hlen hmode hargs =>
    rw [run_eval_app h, if_neg (by rw [hmode]; simp), run_bind_eq_some]
    refine .inl ⟨_, run_passArguments.2 (.inl ⟨_, hargs, rfl⟩), ?_⟩
    rw [if_neg hlen]
    rfl
  | @unknownOperator op lhs rhs hop =>
    have hf : ops[op]? = none := Std.ExtTreeMap.getElem?_eq_none hop
    rw [eval, hf]
    rfl
  | lhs hop h =>
    obtain ⟨f, hf⟩ := exists_operator hop
    rw [eval, hf]
    exact run_bind_eq_some.2 (.inr ⟨_, h, rfl⟩)
  | lhsOperand hop h hne =>
    obtain ⟨f, hf⟩ := exists_operator hop
    rw [run_eval_binop hf h, run_bind_eq_some]
    exact .inr ⟨_, run_asLiteral.2 (.inr ⟨hne, rfl⟩), rfl⟩
  | rhs hop hl h =>
    obtain ⟨f, hf⟩ := exists_operator hop
    rw [run_eval_binop_lit hf hl]
    exact run_bind_eq_some.2 (.inr ⟨_, h, rfl⟩)
  | rhsOperand hop hl h hne =>
    obtain ⟨f, hf⟩ := exists_operator hop
    rw [run_eval_binop_lit hf hl]
    exact run_bind_eq_some.2 (.inl ⟨_, h, run_bind_eq_some.2
      (.inr ⟨_, run_asLiteral.2 (.inr ⟨hne, rfl⟩), rfl⟩)⟩)
  | compute hf hl hr =>
    rw [run_eval_binop_lit hf hl]
    exact run_bind_eq_some.2 (.inl ⟨_, hr, rfl⟩)

/-- The evaluator with one more level of depth obeys the rules over the evaluator
    with one level less, and only them. -/
theorem run_eval_succ {e : Term L} {r : Result L} :
    AnswersAt ops mode (depth + 1) e r ↔ EvalRule ops mode (AnswersAt ops mode depth) e r := by
  refine ⟨fun h => ?_, run_of_evalRule⟩
  cases e with
  | unit | lit n | lam params body => cases h; exact .value rfl
  | var x => cases h; exact .free
  | app callee args => exact evalRule_of_run_app h
  | binop op lhs rhs => exact evalRule_of_run_binop h

/-! ## Evaluation without a bound -/

theorem not_answersAt_zero {e : Term L} {r : Result L} : ¬ AnswersAt ops mode 0 e r := by
  simp [AnswersAt, eval, unfinished]

/-- How evaluation ends is the answer at all great depths. -/
theorem Evaluates.eventually {e : Term L} {r : Result L} (h : Evaluates ops mode e r) :
    ∃ d, ∀ depth ≥ d, AnswersAt ops mode depth e r := by
  obtain ⟨d, hd⟩ := h
  exact ⟨d, fun depth hle => eval_mono hle hd⟩

/-- Terms that have values have them at all great depths. -/
theorem eventually_of_forall₂ {es vs : List (Term L)}
    (h : List.Forall₂ (fun b v => Evaluates ops mode b (.ok v)) es vs) :
    ∃ d, ∀ depth ≥ d, List.Forall₂ (fun b v => AnswersAt ops mode depth b (.ok v)) es vs := by
  induction h with
  | nil => exact ⟨0, fun _ _ => .nil⟩
  | cons hb _ ih =>
    obtain ⟨c, hc⟩ := hb.eventually
    obtain ⟨d, hd⟩ := ih
    exact ⟨max c d, fun depth hle => .cons (hc depth (by omega)) (hd depth (by omega))⟩

/-- A rule over evaluation is a rule over the evaluator with enough depth. -/
theorem exists_depth_of_evalRule {e : Term L} {r : Result L}
    (h : EvalRule ops mode (Evaluates ops mode) e r) :
    ∃ d, EvalRule ops mode (AnswersAt ops mode d) e r := by
  cases h with
  | value hv => exact ⟨0, .value hv⟩
  | free => exact ⟨0, .free⟩
  | callee h => exact h.imp fun d h => .callee h
  | notLambda h hne => exact h.imp fun d h => .notLambda h hne
  | arity h hlen hmode => exact h.imp fun d h => .arity h hlen hmode
  | arg h hlen htake hbefore ha =>
    obtain ⟨c, hc⟩ := h.eventually
    obtain ⟨d, hd⟩ := eventually_of_forall₂ hbefore
    obtain ⟨d', hd'⟩ := ha.eventually
    exact ⟨max c (max d d'),
      .arg (hc _ (by omega)) hlen htake (hd _ (by omega)) (hd' _ (by omega))⟩
  | call h hlen hargs hbody =>
    obtain ⟨c, hc⟩ := h.eventually
    obtain ⟨d, hd⟩ := eventually_of_forall₂ hargs
    obtain ⟨d', hd'⟩ := hbody.eventually
    exact ⟨max c (max d d'), .call (hc _ (by omega)) hlen (hd _ (by omega)) (hd' _ (by omega))⟩
  | residual h hlen hmode hargs =>
    obtain ⟨c, hc⟩ := h.eventually
    obtain ⟨d, hd⟩ := eventually_of_forall₂ hargs
    exact ⟨max c d, .residual (hc _ (by omega)) hlen hmode (hd _ (by omega))⟩
  | unknownOperator hop => exact ⟨0, .unknownOperator hop⟩
  | lhs hop h => exact h.imp fun d h => .lhs hop h
  | lhsOperand hop h hne => exact h.imp fun d h => .lhsOperand hop h hne
  | rhs hop hl h =>
    obtain ⟨c, hc⟩ := hl.eventually
    obtain ⟨d, hd⟩ := h.eventually
    exact ⟨max c d, .rhs hop (hc _ (by omega)) (hd _ (by omega))⟩
  | rhsOperand hop hl h hne =>
    obtain ⟨c, hc⟩ := hl.eventually
    obtain ⟨d, hd⟩ := h.eventually
    exact ⟨max c d, .rhsOperand hop (hc _ (by omega)) (hd _ (by omega)) hne⟩
  | compute hf hl hr =>
    obtain ⟨c, hc⟩ := hl.eventually
    obtain ⟨d, hd⟩ := hr.eventually
    exact ⟨max c d, .compute hf (hc _ (by omega)) (hd _ (by omega))⟩

/-- Evaluation obeys the rules, and only them. -/
theorem evaluates_iff {e : Term L} {r : Result L} :
    Evaluates ops mode e r ↔ EvalRule ops mode (Evaluates ops mode) e r := by
  constructor
  · rintro ⟨d, hd⟩
    cases d with
    | zero => exact absurd hd not_answersAt_zero
    | succ d => exact (run_eval_succ.1 hd).mono fun e r h => ⟨d, h⟩
  · intro h
    obtain ⟨d, hd⟩ := exists_depth_of_evalRule h
    exact ⟨d + 1, run_eval_succ.2 hd⟩

/-- What every rule keeps holds of all evaluations. -/
theorem Evaluates.induction {motive : Term L → Result L → Prop}
    (rule : ∀ e r, EvalRule ops mode (fun e r => Evaluates ops mode e r ∧ motive e r) e r →
      motive e r) {e : Term L} {r : Result L} (h : Evaluates ops mode e r) : motive e r := by
  obtain ⟨d, hd⟩ := h
  induction d generalizing e r with
  | zero => exact absurd hd not_answersAt_zero
  | succ d ih => exact rule e r ((run_eval_succ.1 hd).mono fun e r h => ⟨⟨d, h⟩, ih h⟩)

/-- A value evaluates to itself. -/
theorem evaluates_of_isValue {v : Term L} (hv : v.isValue = true) : Evaluates ops mode v (.ok v) :=
  evaluates_iff.2 (.value hv)

/-- A value evaluates to nothing else. -/
theorem eq_of_evaluates_value {v w : Term L} (hv : v.isValue = true)
    (h : Evaluates ops mode v (.ok w)) : w = v :=
  Except.ok.inj (h.unique (evaluates_of_isValue hv))

theorem eq_of_evaluate_values {values ws : List (Term L)} (hvalues : ∀ v ∈ values, v.isValue = true)
    (h : List.Forall₂ (fun v w => Evaluates ops mode v (.ok w)) values ws) : ws = values := by
  induction h with
  | nil => rfl
  | cons hv _ ih =>
    rw [eq_of_evaluates_value (hvalues _ (.head _)) hv, ih fun v hv => hvalues v (.tail _ hv)]

end Term

end NaryLambda

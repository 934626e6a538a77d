import Mathlib.Logic.Function.Iterate
import Mathlib.Logic.Relation
import NaryLambda.Proofs.Evaluation.Rules
import NaryLambda.Proofs.Reduction.Progress

/-!
# Evaluation and reduction

Evaluation in the strict arity mode ends as reduction does: with the value that
reduction comes to, or stuck for the reason for which reduction is. It does not
end iff reduction goes on forever.

From evaluation to reduction the proof is by induction on the evaluation: each
rule is a sequence of steps in one part of the term after the other. For the way
back one step is enough, since a term ends in every way in which the term after
its first step ends.

Results:

* `Term.evaluates_app_congr`, `Term.evaluates_binop_congr`: parts that end in more
  ways make terms that end in more ways.
* `Term.reduces_of_evaluates`: an evaluation as a sequence of steps.
* `Term.evaluates_of_step`: a step backwards keeps the result.
* `Term.evaluates_iff_reduces`: the three ends of evaluation and of reduction.
-/

namespace NaryLambda

variable {L : Type} {ops : Operators L}

/-- Any number of steps. -/
abbrev Reduces (ops : Operators L) : Term L → Term L → Prop := Relation.ReflTransGen (Step ops)

/-- The term is the value of the result, or is stuck for its reason. -/
def HaltsWith (ops : Operators L) (e : Term L) : Result L → Prop
  | .ok v => e = v ∧ v.isValue = true
  | .error reason => Stuck ops e reason

theorem HaltsWith.not_step {e e' : Term L} {r : Result L} (h : HaltsWith ops e r) :
    ¬ Step ops e e' := by
  cases r with
  | ok v =>
    obtain ⟨rfl, hv⟩ := h
    exact not_step_of_isValue hv
  | error reason => exact Stuck.not_step h

/-! ## Steps in a part of a term -/

/-- If a step of a part is a step of the term, then so are any number of steps. -/
theorem Reduces.congr {f : Term L → Term L} (hf : ∀ e e', Step ops e e' → Step ops (f e) (f e'))
    {e e' : Term L} (h : Reduces ops e e') : Reduces ops (f e) (f e') := by
  induction h with
  | refl => exact .refl
  | tail _ hstep ih => exact ih.tail (hf _ _ hstep)

theorem Reduces.callee {callee callee' : Term L} (h : Reduces ops callee callee')
    (args : List (Term L)) : Reduces ops (.app callee args) (.app callee' args) :=
  h.congr (f := fun c => .app c args) fun _ _ => .callee

theorem Reduces.lhs {op : Name} {lhs lhs' : Term L} (hop : op ∈ ops) (h : Reduces ops lhs lhs')
    (rhs : Term L) : Reduces ops (.binop op lhs rhs) (.binop op lhs' rhs) :=
  h.congr (f := fun l => .binop op l rhs) fun _ _ => .lhs hop

theorem Reduces.rhs {op : Name} {rhs rhs' : Term L} (hop : op ∈ ops) (h : Reduces ops rhs rhs')
    (m : L) : Reduces ops (.binop op (.lit m) rhs) (.binop op (.lit m) rhs') :=
  h.congr (f := fun r => .binop op (.lit m) r) fun _ _ => .rhs hop

theorem Reduces.arg {params : List Param} {body a a' : Term L} {values after : List (Term L)}
    (hlen : params.length = (values ++ a :: after).length)
    (hvalues : ∀ v ∈ values, v.isValue = true) (h : Reduces ops a a') :
    Reduces ops (.app (.lam params body) (values ++ a :: after))
      (.app (.lam params body) (values ++ a' :: after)) :=
  h.congr (f := fun b => .app (.lam params body) (values ++ b :: after)) fun _ _ =>
    .arg (by simpa using hlen) hvalues

/-- Every term reduces to the value in its place. -/
def ReducesAll (ops : Operators L) (es vs : List (Term L)) : Prop :=
  List.Forall₂ (fun e v => Reduces ops e v ∧ v.isValue = true) es vs

theorem ReducesAll.isValue {es vs : List (Term L)} (h : ReducesAll ops es vs) :
    ∀ v ∈ vs, v.isValue = true := by
  intro v hv
  obtain ⟨e, -, -, hval⟩ := exists_mem_of_forall₂_right h hv
  exact hval

/-- Arguments come to their values from left to right, after those that are values
    already and before the others. -/
theorem Reduces.args {params : List Param} {body : Term L} {before values : List (Term L)}
    (done after : List (Term L)) (hlen : params.length = (done ++ before ++ after).length)
    (hdone : ∀ v ∈ done, v.isValue = true) (h : ReducesAll ops before values) :
    Reduces ops (.app (.lam params body) (done ++ before ++ after))
      (.app (.lam params body) (done ++ values ++ after)) := by
  induction h generalizing done with
  | nil => exact .refl
  | @cons a v before values ha _ ih =>
    have hdone' : ∀ w ∈ done ++ [v], w.isValue = true := by
      simpa [or_imp, forall_and] using ⟨hdone, ha.2⟩
    have hrest := ih (done ++ [v]) (by simpa using hlen) hdone'
    simp only [List.append_assoc, List.cons_append, List.nil_append] at hlen hrest ⊢
    exact (Reduces.arg hlen hdone ha.1).trans hrest

/-- A call comes to its body after its callee and all its arguments. -/
theorem Reduces.call {callee body : Term L} {params : List Param} {args values : List (Term L)}
    (hcallee : Reduces ops callee (.lam params body)) (hlen : params.length = args.length)
    (hargs : ReducesAll ops args values) :
    Reduces ops (.app callee args) (body.bindValues params values) := by
  have hvalues : Reduces ops (.app (.lam params body) args) (.app (.lam params body) values) := by
    simpa using Reduces.args [] [] (by simpa using hlen) (by simp) hargs
  have hbeta : Step ops (.app (.lam params body) values) (body.bindValues params values) :=
    .beta (hlen.trans hargs.length_eq) hargs.isValue
  exact ((hcallee.callee args).trans hvalues).tail hbeta

/-! ## Evaluation as reduction -/

namespace Term

/-- Every evaluation is a sequence of steps to the value, or to a term that is
    stuck for the reason. -/
theorem reduces_of_evaluates {e : Term L} {r : Result L} (h : Evaluates ops .strict e r) :
    ∃ e', Reduces ops e e' ∧ HaltsWith ops e' r := by
  refine Evaluates.induction (motive := fun e r => ∃ e', Reduces ops e e' ∧ HaltsWith ops e' r)
    (fun e r h => ?_) h
  have hall : ∀ {es vs : List (Term L)},
      List.Forall₂ (fun b v => Evaluates ops .strict b (.ok v) ∧
        ∃ e', Reduces ops b e' ∧ HaltsWith ops e' (.ok v)) es vs → ReducesAll ops es vs := by
    refine fun h => h.imp ?_
    rintro b v ⟨-, _, hb, rfl, hv⟩
    exact ⟨hb, hv⟩
  cases h with
  | value hv => exact ⟨_, .refl, rfl, hv⟩
  | free => exact ⟨_, .refl, .free⟩
  | callee h =>
    obtain ⟨-, callee', hcallee, hstuck⟩ := h
    exact ⟨_, hcallee.callee _, .callee hstuck⟩
  | notLambda h hne =>
    obtain ⟨-, _, hcallee, rfl, hv⟩ := h
    exact ⟨_, hcallee.callee _, .notLambda hv hne⟩
  | arity h hlen =>
    obtain ⟨-, _, hcallee, rfl, -⟩ := h
    exact ⟨_, hcallee.callee _, .arity hlen⟩
  | @arg callee body a params args before after values reason h hlen htake hbefore ha =>
    obtain ⟨-, _, hcallee, rfl, -⟩ := h
    obtain ⟨-, a', ha', hstuck⟩ := ha
    have hlen := hlen rfl
    obtain rfl : args = before ++ a :: after := by rwa [hlen, List.take_length] at htake
    have hvalues := hall hbefore
    have hlen' : ∀ b, params.length = (values ++ b :: after).length := fun b => by
      simpa [hbefore.length_eq] using hlen
    have hargs : Reduces ops (app (lam params body) (before ++ a :: after))
        (app (lam params body) (values ++ a :: after)) :=
      Reduces.args [] (a :: after) hlen (by simp) hvalues
    have hargs' : Reduces ops (app (lam params body) (values ++ a :: after))
        (app (lam params body) (values ++ a' :: after)) :=
      Reduces.arg (hlen' a) hvalues.isValue ha'
    exact ⟨_, ((hcallee.callee _).trans hargs).trans hargs',
      .arg (hlen' a') hvalues.isValue hstuck⟩
  | call h hlen hargs hbody =>
    obtain ⟨-, _, hcallee, rfl, -⟩ := h
    obtain ⟨-, e', hbody, hhalts⟩ := hbody
    exact ⟨e', (Reduces.call hcallee hlen (hall hargs)).trans hbody, hhalts⟩
  | residual _ _ hmode => cases hmode
  | unknownOperator hop => exact ⟨_, .refl, .unknownOperator hop⟩
  | lhs hop h =>
    obtain ⟨-, lhs', hl, hstuck⟩ := h
    exact ⟨_, hl.lhs hop _, .lhs hop hstuck⟩
  | lhsOperand hop h hne =>
    obtain ⟨-, _, hl, rfl, hv⟩ := h
    exact ⟨_, hl.lhs hop _, .lhsOperand hop hv hne⟩
  | rhs hop hl h =>
    obtain ⟨-, _, hl, rfl, -⟩ := hl
    obtain ⟨-, rhs', hr, hstuck⟩ := h
    exact ⟨_, (hl.lhs hop _).trans (hr.rhs hop _), .rhs hop hstuck⟩
  | rhsOperand hop hl h hne =>
    obtain ⟨-, _, hl, rfl, -⟩ := hl
    obtain ⟨-, _, hr, rfl, hv⟩ := h
    exact ⟨_, (hl.lhs hop _).trans (hr.rhs hop _), .rhsOperand hop hv hne⟩
  | compute hf hl hr =>
    obtain ⟨-, _, hl, rfl, -⟩ := hl
    obtain ⟨-, _, hr, rfl, -⟩ := hr
    have hop := mem_operators_of_getElem? hf
    exact ⟨_, ((hl.lhs hop _).trans (hr.rhs hop _)).tail (.compute hf), rfl, rfl⟩

/-! ## Reduction as evaluation -/

variable {mode : ArityMode}

/-- The second term ends in no way in which the first one does not end. -/
def EndsAs (ops : Operators L) (mode : ArityMode) (e e' : Term L) : Prop :=
  ∀ r, Evaluates ops mode e' r → Evaluates ops mode e r

theorem EndsAs.refl (e : Term L) : EndsAs ops mode e e := fun _ => id

theorem evaluates_app_congr {callee callee' : Term L} {args args' : List (Term L)}
    (hcallee : EndsAs ops mode callee callee') (hargs : List.Forall₂ (EndsAs ops mode) args args') :
    EndsAs ops mode (app callee args) (app callee' args') := by
  have hvalues : ∀ {es es' vs : List (Term L)}, List.Forall₂ (EndsAs ops mode) es es' →
      List.Forall₂ (fun e v => Evaluates ops mode e (.ok v)) es' vs →
      List.Forall₂ (fun e v => Evaluates ops mode e (.ok v)) es vs := fun h hvs =>
    forall₂_of_common h.flip hvs fun _ _ _ _ he hv => he _ hv
  intro r h
  rw [evaluates_iff] at h ⊢
  cases h with
  | callee h => exact .callee (hcallee _ h)
  | notLambda h hne => exact .notLambda (hcallee _ h) hne
  | arity h hlen hmode =>
    rw [← hargs.length_eq] at hlen ⊢
    exact .arity (hcallee _ h) hlen hmode
  | @arg _ _ _ params _ _ _ _ _ h hlen htake hbefore ha =>
    rw [← hargs.length_eq] at hlen
    have htaken := List.forall₂_take params.length hargs
    rw [htake] at htaken
    obtain ⟨before, a, after, htake', hsplit, ha'⟩ := exists_split_of_forall₂ htaken
    exact .arg (hcallee _ h) hlen htake' (hvalues hsplit hbefore) (ha' _ ha)
  | call h hlen hvs hbody =>
    rw [← hargs.length_eq] at hlen
    exact .call (hcallee _ h) hlen (hvalues hargs hvs) hbody
  | residual h hlen hmode hvs =>
    rw [← hargs.length_eq] at hlen
    exact .residual (hcallee _ h) hlen hmode (hvalues (List.forall₂_take _ hargs) hvs)
  | value hv => cases hv

theorem evaluates_binop_congr (op : Name) {lhs lhs' rhs rhs' : Term L}
    (hl : EndsAs ops mode lhs lhs') (hr : EndsAs ops mode rhs rhs') :
    EndsAs ops mode (binop op lhs rhs) (binop op lhs' rhs') := by
  intro r h
  rw [evaluates_iff] at h ⊢
  cases h with
  | unknownOperator hop => exact .unknownOperator hop
  | lhs hop h => exact .lhs hop (hl _ h)
  | lhsOperand hop h hne => exact .lhsOperand hop (hl _ h) hne
  | rhs hop h h' => exact .rhs hop (hl _ h) (hr _ h')
  | rhsOperand hop h h' hne => exact .rhsOperand hop (hl _ h) (hr _ h') hne
  | compute hf h h' => exact .compute hf (hl _ h) (hr _ h')
  | value hv => cases hv

theorem evaluate_values {values : List (Term L)} (h : ∀ v ∈ values, v.isValue = true) :
    List.Forall₂ (fun e v => Evaluates ops mode e (.ok v)) values values :=
  List.forall₂_same.2 fun v hv => evaluates_of_isValue (h v hv)

/-- A term ends in every way in which the term after a step ends. -/
theorem evaluates_of_step {e e' : Term L} (h : Step ops e e') : EndsAs ops .strict e e' := by
  induction h with
  | callee _ ih => exact evaluates_app_congr ih (List.forall₂_same.2 fun a _ => .refl a)
  | @arg params body a a' values args _ _ _ ih =>
    have hbefore : List.Forall₂ (EndsAs ops .strict) values values :=
      List.forall₂_same.2 fun v _ => .refl v
    have hafter : List.Forall₂ (EndsAs ops .strict) args args :=
      List.forall₂_same.2 fun a _ => .refl a
    exact evaluates_app_congr (.refl _) (List.rel_append hbefore (.cons ih hafter))
  | beta hlen hvalues =>
    exact fun r hr => evaluates_iff.2
      (.call (evaluates_of_isValue rfl) hlen (evaluate_values hvalues) hr)
  | lhs _ _ ih => exact evaluates_binop_congr _ ih (.refl _)
  | rhs _ _ ih => exact evaluates_binop_congr _ (.refl _) ih
  | compute hf =>
    intro r hr
    obtain rfl := hr.unique (evaluates_of_isValue rfl)
    exact evaluates_iff.2 (.compute hf (evaluates_of_isValue rfl) (evaluates_of_isValue rfl))

/-- A term ends in every way in which the term after any number of steps ends. -/
theorem evaluates_of_reduces {e e' : Term L} (h : Reduces ops e e') :
    EndsAs ops .strict e e' := by
  induction h with
  | refl => exact .refl _
  | tail _ hstep ih => exact fun r hr => ih r (evaluates_of_step hstep r hr)

/-- Evaluation of a stuck term ends with the reason. -/
theorem evaluates_of_stuck {e : Term L} {reason : StuckReason (Term L)}
    (h : Stuck ops e reason) : Evaluates ops .strict e (.error reason) := by
  induction h with
  | free => exact evaluates_iff.2 .free
  | callee _ ih => exact evaluates_iff.2 (.callee ih)
  | notLambda hv hne => exact evaluates_iff.2 (.notLambda (evaluates_of_isValue hv) hne)
  | arity hlen => exact evaluates_iff.2 (.arity (evaluates_of_isValue rfl) hlen rfl)
  | arg hlen hvalues _ ih =>
    exact evaluates_iff.2 (.arg (evaluates_of_isValue rfl) (fun _ => hlen)
      (by rw [hlen, List.take_length]) (evaluate_values hvalues) ih)
  | unknownOperator hop => exact evaluates_iff.2 (.unknownOperator hop)
  | lhs hop _ ih => exact evaluates_iff.2 (.lhs hop ih)
  | lhsOperand hop hv hne => exact evaluates_iff.2 (.lhsOperand hop (evaluates_of_isValue hv) hne)
  | rhs hop _ ih => exact evaluates_iff.2 (.rhs hop (evaluates_of_isValue rfl) ih)
  | rhsOperand hop hv hne =>
    exact evaluates_iff.2
      (.rhsOperand hop (evaluates_of_isValue rfl) (evaluates_of_isValue hv) hne)

/-! ## Reduction without end -/

/-- Steps follow one another forever from the term on. -/
def ReducesForever (ops : Operators L) (e : Term L) : Prop :=
  ∃ f : ℕ → Term L, f 0 = e ∧ ∀ n, Step ops (f n) (f (n + 1))

theorem ReducesForever.of_step {e e' : Term L} (h : ReducesForever ops e) (hstep : Step ops e e') :
    ReducesForever ops e' := by
  obtain ⟨f, rfl, hf⟩ := h
  exact ⟨fun n => f (n + 1), (hf 0).unique hstep, fun n => hf (n + 1)⟩

theorem ReducesForever.of_reduces {e e' : Term L} (h : ReducesForever ops e)
    (hsteps : Reduces ops e e') : ReducesForever ops e' := by
  induction hsteps with
  | refl => exact h
  | tail _ hstep ih => exact ih.of_step hstep

/-- A term whose evaluation does not end has a step after which it does not end
    either. -/
theorem exists_step_of_not_evaluates {e : Term L} (h : ¬ ∃ r, Evaluates ops .strict e r) :
    ∃ e', Step ops e e' ∧ ¬ ∃ r, Evaluates ops .strict e' r := by
  rcases isValue_or_step_or_stuck ops e with hv | ⟨e', hstep⟩ | ⟨reason, hstuck⟩
  · exact absurd ⟨_, evaluates_of_isValue hv⟩ h
  · refine ⟨e', hstep, ?_⟩
    rintro ⟨r, hr⟩
    exact h ⟨r, evaluates_of_step hstep r hr⟩
  · exact absurd ⟨_, evaluates_of_stuck hstuck⟩ h

/-- Evaluation does not end iff reduction goes on forever. -/
theorem not_evaluates_iff_reducesForever {e : Term L} :
    (¬ ∃ r, Evaluates ops .strict e r) ↔ ReducesForever ops e := by
  constructor
  · intro h
    -- Terms whose evaluation does not end step to such terms: iterate a choice of them.
    have next : ∀ d : { d : Term L // ¬ ∃ r, Evaluates ops .strict d r },
        ∃ d' : { d : Term L // ¬ ∃ r, Evaluates ops .strict d r }, Step ops d.1 d'.1 := by
      rintro ⟨d, hd⟩
      obtain ⟨d', hstep, hd'⟩ := exists_step_of_not_evaluates hd
      exact ⟨⟨d', hd'⟩, hstep⟩
    choose f hf using next
    refine ⟨fun n => (f^[n] ⟨e, h⟩).1, rfl, fun n => ?_⟩
    simp only [Function.iterate_succ_apply']
    exact hf _
  · rintro hforever ⟨r, hr⟩
    obtain ⟨e', hsteps, hhalts⟩ := reduces_of_evaluates hr
    obtain ⟨f, rfl, hf⟩ := hforever.of_reduces hsteps
    exact hhalts.not_step (hf 0)

/-! ## Agreement -/

/-- Evaluation ends with a value iff reduction comes to that value. It is stuck for
    a reason iff reduction comes to a term that makes no step and is stuck for that
    reason. It does not end iff reduction goes on forever. -/
theorem evaluates_iff_reduces (ops : Operators L) (e : Term L) :
    (∀ v, Evaluates ops .strict e (.ok v) ↔
      Relation.ReflTransGen (Step ops) e v ∧ v.isValue = true) ∧
    (∀ reason, Evaluates ops .strict e (.error reason) ↔
      ∃ e', Relation.ReflTransGen (Step ops) e e' ∧ (∀ e'', ¬ Step ops e' e'') ∧
        Stuck ops e' reason) ∧
    ((¬ ∃ r, Evaluates ops .strict e r) ↔
      ∃ f : ℕ → Term L, f 0 = e ∧ ∀ n, Step ops (f n) (f (n + 1))) := by
  refine ⟨fun v => ⟨fun h => ?_, ?_⟩, fun reason => ⟨fun h => ?_, ?_⟩,
    not_evaluates_iff_reducesForever⟩
  · obtain ⟨e', hsteps, rfl, hv⟩ := reduces_of_evaluates h
    exact ⟨hsteps, hv⟩
  · rintro ⟨hsteps, hv⟩
    exact evaluates_of_reduces hsteps _ (evaluates_of_isValue hv)
  · obtain ⟨e', hsteps, hstuck⟩ := reduces_of_evaluates h
    exact ⟨e', hsteps, fun _ => hstuck.not_step, hstuck⟩
  · rintro ⟨e', hsteps, -, hstuck⟩
    exact evaluates_of_reduces hsteps _ (evaluates_of_stuck hstuck)

end Term

end NaryLambda

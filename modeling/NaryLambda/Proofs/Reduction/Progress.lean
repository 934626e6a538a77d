import NaryLambda.Evaluation.Reduction
import NaryLambda.Proofs.Pointwise

/-!
# One step of reduction

Every term is a value, makes a step, or is stuck, and never two of these at
once. A term makes one step at most: its active argument is the first one that
is no value.

Results:

* `isValue_or_step_or_stuck`: every term is a value, makes a step, or is stuck.
* `Step.unique`: a term makes one step at most.
* `Stuck.not_step`: a stuck term makes no step.
-/

namespace NaryLambda

variable {L : Type} {ops : Operators L}

/-! ## Values -/

theorem not_step_of_isValue {v e : Term L} (hv : v.isValue = true) : ¬ Step ops v e := by
  intro h
  cases h <;> cases hv

theorem Step.not_isValue {e e' : Term L} (h : Step ops e e') : ¬ e.isValue = true :=
  fun hv => not_step_of_isValue hv h

theorem Stuck.not_isValue {e : Term L} {reason : StuckReason (Term L)}
    (h : Stuck ops e reason) : ¬ e.isValue = true := by
  intro hv
  cases h <;> cases hv

/-! ## Applications -/

/-- An application makes a step in its callee, in its first argument that is no
    value, or as a call. -/
theorem Step.app_cases {callee e : Term L} {args : List (Term L)}
    (h : Step ops (.app callee args) e) :
    (∃ callee', Step ops callee callee' ∧ e = .app callee' args) ∨
      ∃ params body, callee = .lam params body ∧ params.length = args.length ∧
        ((∃ before a a' after, args = before ++ a :: after ∧ (∀ v ∈ before, v.isValue = true) ∧
            Step ops a a' ∧ e = .app callee (before ++ a' :: after)) ∨
          (∀ v ∈ args, v.isValue = true) ∧ e = body.bindValues params args) := by
  cases h with
  | callee h => exact .inl ⟨_, h, rfl⟩
  | arg hlen hvalues h =>
    exact .inr ⟨_, _, rfl, hlen, .inl ⟨_, _, _, _, rfl, hvalues, h, rfl⟩⟩
  | beta hlen hvalues => exact .inr ⟨_, _, rfl, hlen, .inr ⟨hvalues, rfl⟩⟩

/-- A term makes one step at most. -/
theorem Step.unique {e e₁ e₂ : Term L} (h₁ : Step ops e e₁) (h₂ : Step ops e e₂) : e₁ = e₂ := by
  induction h₁ generalizing e₂ with
  | callee h ih =>
    rcases h₂.app_cases with ⟨callee', h', rfl⟩ | ⟨params, body, rfl, -⟩
    · rw [ih h']
    · exact absurd h (not_step_of_isValue rfl)
  | arg hlen hvalues h ih =>
    rcases h₂.app_cases with ⟨callee', h', -⟩ |
      ⟨params, body, -, -, ⟨before, a, a', after, heq, hbefore, h', rfl⟩ | ⟨hall, -⟩⟩
    · exact absurd h' (not_step_of_isValue rfl)
    · obtain ⟨rfl, rfl, rfl⟩ := first_unique hvalues h.not_isValue hbefore h'.not_isValue heq
      rw [ih h']
    · exact absurd (hall _ (by simp)) h.not_isValue
  | beta hlen hvalues =>
    rcases h₂.app_cases with ⟨callee', h', -⟩ |
      ⟨params, body, heq, -, ⟨before, a, a', after, rfl, -, h', -⟩ | ⟨-, rfl⟩⟩
    · exact absurd h' (not_step_of_isValue rfl)
    · exact absurd (hvalues a (by simp)) h'.not_isValue
    · cases heq
      rfl
  | lhs hop h ih =>
    cases h₂ with
    | lhs _ h' => rw [ih h']
    | rhs | compute => exact absurd h (not_step_of_isValue rfl)
  | rhs hop h ih =>
    cases h₂ with
    | lhs _ h' => exact absurd h' (not_step_of_isValue rfl)
    | rhs _ h' => rw [ih h']
    | compute => exact absurd h (not_step_of_isValue rfl)
  | compute hf =>
    cases h₂ with
    | lhs _ h' | rhs _ h' => exact absurd h' (not_step_of_isValue rfl)
    | compute hf' =>
      rw [hf] at hf'
      cases hf'
      rfl

/-! ## Stuck terms -/

/-- A stuck term makes no step. -/
theorem Stuck.not_step {e e' : Term L} {reason : StuckReason (Term L)}
    (h : Stuck ops e reason) : ¬ Step ops e e' := by
  intro hstep
  induction h generalizing e' with
  | free => cases hstep
  | callee h ih =>
    rcases hstep.app_cases with ⟨callee', h', -⟩ | ⟨params, body, rfl, -⟩
    · exact ih h'
    · exact h.not_isValue rfl
  | notLambda hv hne =>
    rcases hstep.app_cases with ⟨callee', h', -⟩ | ⟨params, body, heq, -⟩
    · exact not_step_of_isValue hv h'
    · exact hne params body heq
  | arity hlen =>
    rcases hstep.app_cases with ⟨callee', h', -⟩ | ⟨params, body, heq, hlen', -⟩
    · exact not_step_of_isValue rfl h'
    · cases heq
      exact hlen hlen'
  | arg hlen hvalues h ih =>
    rcases hstep.app_cases with ⟨callee', h', -⟩ |
      ⟨params, body, -, -, ⟨before, a, a', after, heq, hbefore, h', -⟩ | ⟨hall, -⟩⟩
    · exact not_step_of_isValue rfl h'
    · obtain ⟨rfl, rfl, rfl⟩ := first_unique hvalues h.not_isValue hbefore h'.not_isValue heq
      exact ih h'
    · exact h.not_isValue (hall _ (by simp))
  | unknownOperator hop =>
    cases hstep with
    | lhs hop' | rhs hop' => exact hop hop'
    | compute hf => exact hop (by simp [Std.ExtTreeMap.mem_iff_isSome_getElem?, hf])
  | lhs hop h ih =>
    cases hstep with
    | lhs _ h' => exact ih h'
    | rhs | compute => exact h.not_isValue rfl
  | lhsOperand hop hv hne =>
    cases hstep with
    | lhs _ h' => exact not_step_of_isValue hv h'
    | rhs | compute => exact hne _ rfl
  | rhs hop h ih =>
    cases hstep with
    | lhs _ h' => exact not_step_of_isValue rfl h'
    | rhs _ h' => exact ih h'
    | compute => exact h.not_isValue rfl
  | rhsOperand hop hv hne =>
    cases hstep with
    | lhs _ h' => exact not_step_of_isValue rfl h'
    | rhs _ h' => exact not_step_of_isValue hv h'
    | compute => exact hne _ rfl

/-! ## Progress -/

/-- The three states of a term. -/
def Progresses (ops : Operators L) (e : Term L) : Prop :=
  e.isValue = true ∨ (∃ e', Step ops e e') ∨ ∃ reason, Stuck ops e reason

theorem progresses_app {callee : Term L} {args : List (Term L)} (hcallee : Progresses ops callee)
    (hargs : ∀ a ∈ args, Progresses ops a) : Progresses ops (.app callee args) := by
  rcases hcallee with hv | ⟨callee', h⟩ | ⟨reason, h⟩
  · by_cases hlam : ∃ params body, callee = .lam params body
    · obtain ⟨params, body, rfl⟩ := hlam
      by_cases hlen : params.length = args.length
      · rcases forall_or_exists_first (·.isValue = true) args with
          hall | ⟨before, a, after, rfl, hbefore, ha⟩
        · exact .inr (.inl ⟨_, .beta hlen hall⟩)
        · rcases hargs a (by simp) with hv | ⟨a', h⟩ | ⟨reason, h⟩
          · exact absurd hv ha
          · exact .inr (.inl ⟨_, .arg hlen hbefore h⟩)
          · exact .inr (.inr ⟨_, .arg hlen hbefore h⟩)
      · exact .inr (.inr ⟨_, .arity hlen⟩)
    · exact .inr (.inr ⟨_, .notLambda hv fun params body h => hlam ⟨params, body, h⟩⟩)
  · exact .inr (.inl ⟨_, .callee h⟩)
  · exact .inr (.inr ⟨_, .callee h⟩)

theorem progresses_binop (op : Name) {lhs rhs : Term L} (hl : Progresses ops lhs)
    (hr : Progresses ops rhs) : Progresses ops (.binop op lhs rhs) := by
  by_cases hop : op ∈ ops
  · rcases hl with hv | ⟨lhs', h⟩ | ⟨reason, h⟩
    · by_cases hlit : ∃ m, lhs = .lit m
      · obtain ⟨m, rfl⟩ := hlit
        rcases hr with hv | ⟨rhs', h⟩ | ⟨reason, h⟩
        · by_cases hlit : ∃ n, rhs = .lit n
          · obtain ⟨n, rfl⟩ := hlit
            exact .inr (.inl ⟨_, .compute (Std.ExtTreeMap.getElem?_eq_some_getElem hop)⟩)
          · exact .inr (.inr ⟨_, .rhsOperand hop hv fun n h => hlit ⟨n, h⟩⟩)
        · exact .inr (.inl ⟨_, .rhs hop h⟩)
        · exact .inr (.inr ⟨_, .rhs hop h⟩)
      · exact .inr (.inr ⟨_, .lhsOperand hop hv fun m h => hlit ⟨m, h⟩⟩)
    · exact .inr (.inl ⟨_, .lhs hop h⟩)
    · exact .inr (.inr ⟨_, .lhs hop h⟩)
  · exact .inr (.inr ⟨_, .unknownOperator hop⟩)

/-- Every term is a value, makes a step, or is stuck. -/
theorem isValue_or_step_or_stuck (ops : Operators L) (e : Term L) : Progresses ops e := by
  induction e with
  | unit | lit | lam => exact .inl rfl
  | var x => exact .inr (.inr ⟨_, .free⟩)
  | app callee args ihc iha => exact progresses_app ihc iha
  | binop op lhs rhs ihl ihr => exact progresses_binop op ihl ihr

end NaryLambda

import NaryLambda.Evaluation.Eval
import NaryLambda.Evaluation.Reduction
import NaryLambda.Proofs.Pointwise

/-!
# Computations in step

Two computations are in step if neither has an answer, or both are stuck for
reasons of one kind, or both have results, and then what they end with is
related. Two evaluators with bounds on their depth are compared at equal bounds,
so that one induction on the bound serves both directions.

A relation between terms is a simulation if related terms have the same form and
related parts, and related lambdas called on related values have related bodies.
Evaluation of related terms is in step.

Results:

* `Bounded.InStep.bind`, `Bounded.InStep.mapM`: computations in several steps.
* `Term.passArguments_eq_mapM`: all arguments first, then the body.
* `Term.Simulation.eval_inStep`: evaluation keeps a simulation at every depth.
* `Term.Simulation.evaluates`: related terms end alike.
-/

namespace NaryLambda

/-! ## Ends of one kind -/

/-- Reasons of one kind: the same names and counts, and related values. -/
inductive StuckReason.Rel {V W : Type} (S : V → W → Prop) : StuckReason V → StuckReason W → Prop
  | free {name : Name} : Rel S (.free name) (.free name)
  | unknownOperator {op : Name} : Rel S (.unknownOperator op) (.unknownOperator op)
  | operand {op : Name} {v : V} {w : W} : S v w → Rel S (.operand op v) (.operand op w)
  | notLambda {v : V} {w : W} : S v w → Rel S (.notLambda v) (.notLambda w)
  | arity {params args : Nat} : Rel S (.arity params args) (.arity params args)

/-- Ends of one kind: related results, or reasons of one kind. -/
inductive EndRel {V W α β : Type} (S : V → W → Prop) (R : α → β → Prop) :
    Except (StuckReason V) α → Except (StuckReason W) β → Prop
  | ok {a : α} {b : β} : R a b → EndRel S R (.ok a) (.ok b)
  | error {e : StuckReason V} {f : StuckReason W} :
      StuckReason.Rel S e f → EndRel S R (.error e) (.error f)

theorem StuckReason.Rel.mono {V W : Type} {S T : V → W → Prop} (hST : ∀ v w, S v w → T v w)
    {e : StuckReason V} {f : StuckReason W} (h : Rel S e f) : Rel T e f := by
  cases h with
  | free => exact .free
  | unknownOperator => exact .unknownOperator
  | operand h => exact .operand (hST _ _ h)
  | notLambda h => exact .notLambda (hST _ _ h)
  | arity => exact .arity

theorem EndRel.mono {V W α β : Type} {S T : V → W → Prop} {R Q : α → β → Prop}
    (hST : ∀ v w, S v w → T v w) (hRQ : ∀ a b, R a b → Q a b) {r : Except (StuckReason V) α}
    {s : Except (StuckReason W) β} (h : EndRel S R r s) : EndRel T Q r s := by
  cases h with
  | ok h => exact .ok (hRQ _ _ h)
  | error h => exact .error (h.mono hST)

namespace Bounded

variable {V W α β γ δ : Type} {S : V → W → Prop} {R : α → β → Prop} {Q : γ → δ → Prop}

/-- Both computations have no answer, or both end, and the ends are of one kind. -/
def InStep (S : V → W → Prop) (R : α → β → Prop) (x : Bounded V α) (y : Bounded W β) : Prop :=
  Option.Rel (EndRel S R) x.run y.run

theorem InStep.unfinished :
    InStep S R (NaryLambda.unfinished : Bounded V α) (NaryLambda.unfinished : Bounded W β) :=
  .none

theorem InStep.pure {a : α} {b : β} (h : R a b) :
    InStep S R (Pure.pure a : Bounded V α) (Pure.pure b : Bounded W β) :=
  .some (.ok h)

theorem InStep.throw {e : StuckReason V} {f : StuckReason W} (h : StuckReason.Rel S e f) :
    InStep S R (MonadExcept.throw e : Bounded V α) (MonadExcept.throw f : Bounded W β) :=
  .some (.error h)

/-- Computations in two steps are in step if the first steps are, and the second
    steps are from related results. -/
theorem InStep.bind {x : Bounded V α} {y : Bounded W β} {f : α → Bounded V γ}
    {g : β → Bounded W δ} (h : InStep S R x y) (hfg : ∀ a b, R a b → InStep S Q (f a) (g b)) :
    InStep S Q (x >>= f) (y >>= g) := by
  unfold InStep at h ⊢
  rw [ExceptT.run_bind, ExceptT.run_bind]
  generalize x.run = r at h
  generalize y.run = s at h
  cases h with
  | none => exact .none
  | some h =>
    cases h with
    | ok h => exact hfg _ _ h
    | error h => exact .some (.error h)

/-- Computations for the members of two lists, from left to right. -/
theorem InStep.mapM {f : γ → Bounded V α} {g : δ → Bounded W β} {cs : List γ} {ds : List δ}
    (h : List.Forall₂ (fun c d => InStep S R (f c) (g d)) cs ds) :
    InStep S (fun as bs => as.length = cs.length ∧ List.Forall₂ R as bs)
      (cs.mapM f) (ds.mapM g) := by
  induction h with
  | nil =>
    rw [List.mapM_nil, List.mapM_nil]
    exact .pure ⟨rfl, .nil⟩
  | cons hcd _ ih =>
    rw [List.mapM_cons, List.mapM_cons]
    refine hcd.bind fun a b hab => ih.bind fun as bs habs => ?_
    exact .pure ⟨congrArg (· + 1) habs.1, .cons hab habs.2⟩

/-- An answer of the first computation comes with an answer of the second. -/
theorem InStep.exists_right {x : Bounded V α} {y : Bounded W β} (h : InStep S R x y)
    {r : Except (StuckReason V) α} (hr : x.run = some r) :
    ∃ s, y.run = some s ∧ EndRel S R r s := by
  unfold InStep at h
  rw [hr] at h
  generalize y.run = s at h
  cases h with
  | some h => exact ⟨_, rfl, h⟩

/-- An answer of the second computation comes with an answer of the first. -/
theorem InStep.exists_left {x : Bounded V α} {y : Bounded W β} (h : InStep S R x y)
    {s : Except (StuckReason W) β} (hs : y.run = some s) :
    ∃ r, x.run = some r ∧ EndRel S R r s := by
  unfold InStep at h
  rw [hs] at h
  generalize x.run = r at h
  cases h with
  | some h => exact ⟨_, rfl, h⟩

/-- Computations in step are the same if related ends are. -/
theorem InStep.eq {S : V → V → Prop} {R : α → α → Prop} {x y : Bounded V α}
    (h : InStep S R x y) (hS : ∀ v w, S v w → v = w) (hR : ∀ a b, R a b → a = b) : x = y := by
  refine ExceptT.ext ?_
  unfold InStep at h
  generalize x.run = r at h
  generalize y.run = s at h
  cases h with
  | none => rfl
  | some h =>
    cases h.mono hS hR with
    | ok hab => rw [hab]
    | error hreason =>
      cases hreason with
      | free | unknownOperator | arity => rfl
      | operand hv | notLambda hv => rw [hv]

end Bounded

namespace Term

open Bounded

/-- Evaluating each argument and putting its value into the body is the same as
    evaluating all of them before. -/
theorem passArguments_eq_mapM {L : Type} (eval : Term L → Bounded (Term L) (Term L))
    (params : List Param) (args : List (Term L)) (body : Term L) :
    passArguments eval params args body = (do
      let values ← (args.take params.length).mapM eval
      return body.bindValues params values) := by
  induction params generalizing args body with
  | nil => simp [passArguments, bindValues]
  | cons p params ih =>
    cases args with
    | nil => simp [passArguments, bindValues]
    | cons a args =>
      rw [passArguments, List.length_cons, List.take_succ_cons, List.mapM_cons]
      simp only [ih, bind_assoc, pure_bind, bindValues]

/-! ## Simulations -/

variable {K L : Type}

/-- Operators that take related numbers to related numbers, or none. -/
def OperatorRel (Q : K → L → Prop) : Option (K → K → K) → Option (L → L → L) → Prop :=
  Option.Rel fun f g => ∀ m n m' n', Q m n → Q m' n' → Q (f m m') (g n n')

theorem operatorRel_refl (f : Option (L → L → L)) : OperatorRel Eq f f := by
  cases f with
  | none => exact .none
  | some f =>
    refine .some ?_
    rintro m n _ _ rfl rfl
    rfl

/-- Terms of one form: literals are related by `Q`, and parts by `R`. Of lambdas it
    is only asked that they have as many parameters. -/
inductive SameForm (ops : Operators K) (ops' : Operators L) (Q : K → L → Prop)
    (R : Term K → Term L → Prop) : Term K → Term L → Prop
  | unit : SameForm ops ops' Q R .unit .unit
  | lit {m : K} {n : L} : Q m n → SameForm ops ops' Q R (.lit m) (.lit n)
  | var {x : Name} : SameForm ops ops' Q R (.var x) (.var x)
  | lam {params params' : List Param} {body : Term K} {body' : Term L} :
      params.length = params'.length →
      SameForm ops ops' Q R (.lam params body) (.lam params' body')
  | app {callee : Term K} {callee' : Term L} {args : List (Term K)} {args' : List (Term L)} :
      R callee callee' → List.Forall₂ R args args' →
      SameForm ops ops' Q R (.app callee args) (.app callee' args')
  | binop {op : Name} {lhs rhs : Term K} {lhs' rhs' : Term L} :
      OperatorRel Q ops[op]? ops'[op]? → R lhs lhs' → R rhs rhs' →
      SameForm ops ops' Q R (.binop op lhs rhs) (.binop op lhs' rhs')

/-- A relation between terms that evaluation keeps. -/
structure Simulation (ops : Operators K) (ops' : Operators L) (mode : ArityMode)
    (Q : K → L → Prop) (R : Term K → Term L → Prop) : Prop where
  /-- Related terms have the same form. -/
  form {e : Term K} {e' : Term L} : R e e' → SameForm ops ops' Q R e e'
  /-- Related numbers are related literals. -/
  lit {m : K} {n : L} : Q m n → R (.lit m) (.lit n)
  /-- Related lambdas have related bodies, with related values in them. -/
  call {params params' : List Param} {body : Term K} {body' : Term L} {values : List (Term K)}
      {values' : List (Term L)} :
    R (.lam params body) (.lam params' body') → List.Forall₂ R values values' →
      (mode = .strict → params.length = values.length) →
      R (body.bindValues params values) (body'.bindValues params' values')

namespace Simulation

variable {ops : Operators K} {ops' : Operators L} {mode : ArityMode} {Q : K → L → Prop}
  {R : Term K → Term L → Prop}

theorem asLiteral (h : Simulation ops ops' mode Q R) (op : Name) {v : Term K} {w : Term L}
    (hvw : R v w) : InStep R Q (v.asLiteral op) (w.asLiteral op) := by
  cases h.form hvw with
  | lit hmn => exact .pure hmn
  | unit | var | lam | app | binop => exact .throw (.operand hvw)

/-- Evaluation keeps the relation at every depth. -/
theorem eval_inStep (h : Simulation ops ops' mode Q R) (depth : Nat) {e : Term K} {e' : Term L}
    (he : R e e') : InStep R R (e.eval ops mode depth) (e'.eval ops' mode depth) := by
  induction depth generalizing e e' with
  | zero => exact .unfinished
  | succ depth ih =>
    cases h.form he with
    | unit | lit | lam => exact .pure he
    | var => exact .throw .free
    | app hcallee hargs =>
      simp only [eval]
      refine (ih hcallee).bind fun v w hvw => ?_
      cases h.form hvw with
      | unit | lit | var | app | binop => exact .throw (.notLambda hvw)
      | @lam params params' body body' hlen =>
        -- Both lambdas have as many parameters, so both calls pass the same check.
        simp only [← hlen, ← hargs.length_eq]
        split
        · exact .throw .arity
        · rename_i hstuck
          simp only [passArguments_eq_mapM, bind_assoc, pure_bind, ← hlen]
          have hvalues := InStep.mapM ((List.forall₂_take params.length hargs).imp fun a b => ih)
          refine hvalues.bind fun vs ws hvs => ?_
          have hbody := h.call hvw hvs.2 fun hmode => ?_
          · split
            · exact ih hbody
            · exact .pure hbody
          · have hargs : params.length = _ := not_not.1 fun hne => hstuck ⟨hne, hmode⟩
            rw [hvs.1, hargs, List.take_length]
    | @binop op _ _ _ _ hop hl hr =>
      simp only [eval]
      generalize ops[op]? = f at hop
      generalize ops'[op]? = g at hop
      cases hop with
      | none => exact .throw .unknownOperator
      | some hfg =>
        exact (ih hl).bind fun v w hvw => (h.asLiteral op hvw).bind fun m n hmn =>
          (ih hr).bind fun v' w' hvw' => (h.asLiteral op hvw').bind fun m' n' hmn' =>
            .pure (h.lit (hfg m n m' n' hmn hmn'))

/-- Of related terms one ends iff the other does, and the ends are of one kind. -/
theorem evaluates (h : Simulation ops ops' mode Q R) {e : Term K} {e' : Term L} (he : R e e') :
    ((∃ r, Evaluates ops mode e r) ↔ ∃ s, Evaluates ops' mode e' s) ∧
      ∀ r s, Evaluates ops mode e r → Evaluates ops' mode e' s → EndRel R R r s := by
  have hright : ∀ r, Evaluates ops mode e r →
      ∃ s, Evaluates ops' mode e' s ∧ EndRel R R r s := by
    rintro r ⟨depth, hr⟩
    obtain ⟨s, hs, hrs⟩ := (h.eval_inStep depth he).exists_right hr
    exact ⟨s, ⟨depth, hs⟩, hrs⟩
  refine ⟨⟨?_, ?_⟩, fun r s hr hs => ?_⟩
  · rintro ⟨r, hr⟩
    obtain ⟨s, hs, -⟩ := hright r hr
    exact ⟨s, hs⟩
  · rintro ⟨s, depth, hs⟩
    obtain ⟨r, hr, -⟩ := (h.eval_inStep depth he).exists_left hs
    exact ⟨r, depth, hr⟩
  · obtain ⟨s', hs', hrs⟩ := hright r hr
    rwa [hs.unique hs']

end Simulation

end Term

end NaryLambda

import NaryLambda.Proofs.Evaluation.Rules
import NaryLambda.Proofs.Substitution.BindValues

/-!
# Where the parts of an end come from

A property of terms comes from the parts if a term has it as soon as a part does,
and if what a call makes of a body has it only where the lambda or a value does.
Then evaluation never brings it up: whatever shows it at the end, a value or the
reason why evaluation is stuck, has it from the term at the start.

To have a free variable is such a property in the strict arity mode. So evaluation
brings no free variable up that the term does not have: neither in the value, nor as
the variable it is stuck on, nor in the term that it is stuck on.

Results:

* `Term.FromParts.of_evaluates`: what an end shows, the term has.
* `Term.occursFree_of_freeInEnd`: what may be free in an end.
* `Term.Evaluates.closed`: the values of a closed term.
* `Term.occursFree_of_evaluates`: what may be free in a value, or be stuck on.
-/

namespace NaryLambda

namespace Term

variable {L : Type} {ops : Operators L} {mode : ArityMode}

/-- Terms have the property `P` from their parts, and evaluation brings it up in no other
    way. An end of evaluation that is `Shown` has it from a term that evaluation met. -/
structure FromParts (mode : ArityMode) (P : Term L → Prop) (Shown : Result L → Prop) : Prop where
  callee {callee : Term L} {args : List (Term L)} : P callee → P (.app callee args)
  arg {callee a : Term L} {args : List (Term L)} : a ∈ args → P a → P (.app callee args)
  lhs {op : Name} {lhs rhs : Term L} : P lhs → P (.binop op lhs rhs)
  rhs {op : Name} {lhs rhs : Term L} : P rhs → P (.binop op lhs rhs)
  /-- Numbers are results of operators, so they must not have the property. -/
  lit {n : L} : ¬ P (.lit n)
  call {params : List Param} {body : Term L} {values : List (Term L)} :
    (mode = .strict → params.length = values.length) → P (body.bindValues params values) →
      P (.lam params body) ∨ ∃ v ∈ values, P v
  ok {v : Term L} : Shown (.ok v) ↔ P v
  free {x : Name} : Shown (.error (.free x)) → P (.var x)
  notLambda {found : Term L} : Shown (.error (.notLambda found)) → P found
  arity {params : List Param} {body callee : Term L} {args : List (Term L)} :
    Shown (.error (.arity params.length args.length)) → P (.lam params body) ∨ P (.app callee args)
  unknownOperator {op : Name} {lhs rhs : Term L} :
    Shown (.error (.unknownOperator op)) → P (.binop op lhs rhs)
  operand {op : Name} {found lhs rhs : Term L} :
    Shown (.error (.operand op found)) → P found ∨ P (.binop op lhs rhs)

namespace FromParts

variable {P : Term L → Prop} {Shown : Result L → Prop}

/-- What a call makes of a lambda's body has the property only if the callee or an argument
    has it. -/
theorem app_of_call (h : FromParts mode P Shown) {callee body : Term L} {params : List Param}
    {args supplied values : List (Term L)} (hsupplied : ∀ a ∈ supplied, a ∈ args)
    (hlen : mode = .strict → params.length = values.length)
    (hcallee : Shown (.ok (.lam params body)) → P callee)
    (hvalues : List.Forall₂ (fun a v => Shown (.ok v) → P a) supplied values)
    (hbody : P (body.bindValues params values)) : P (.app callee args) := by
  rcases h.call hlen hbody with hlam | ⟨v, hv, hPv⟩
  · exact h.callee (hcallee (h.ok.2 hlam))
  · obtain ⟨a, ha, hav⟩ := exists_mem_of_forall₂_right hvalues hv
    exact h.arg (hsupplied a ha) (hav (h.ok.2 hPv))

/-- What an end of evaluation shows, the term has. -/
theorem of_evaluates (h : FromParts mode P Shown) {e : Term L} {r : Result L}
    (he : Evaluates ops mode e r) (hr : Shown r) : P e := by
  refine Evaluates.induction (motive := fun e r => Shown r → P e) (fun e r he hr => ?_) he hr
  cases he with
  | value => exact h.ok.1 hr
  | free => exact h.free hr
  | callee hc => exact h.callee (hc.2 hr)
  | notLambda hc => exact h.callee (hc.2 (h.ok.2 (h.notLambda hr)))
  | arity hc =>
    rcases h.arity hr with hlam | happ
    · exact h.callee (hc.2 (h.ok.2 hlam))
    · exact happ
  | @arg callee body a params args before after values reason _ _ htake _ ha =>
    have hmem : a ∈ args.take params.length := by simp [htake]
    exact h.arg (List.mem_of_mem_take hmem) (ha.2 hr)
  | call hc hlen hargs hbody =>
    exact h.app_of_call (fun a => id) (fun _ => hlen.trans hargs.length_eq) hc.2
      (hargs.imp fun a v hav => hav.2) (hbody.2 hr)
  | residual hc _ hmode hargs =>
    refine h.app_of_call (fun a => List.mem_of_mem_take) (fun hstrict => ?_) hc.2
      (hargs.imp fun a v hav => hav.2) (h.ok.1 hr)
    rw [hmode] at hstrict
    cases hstrict
  | unknownOperator => exact h.unknownOperator hr
  | lhs _ hl => exact h.lhs (hl.2 hr)
  | lhsOperand _ hl =>
    rcases h.operand hr with hfound | hop
    · exact h.lhs (hl.2 (h.ok.2 hfound))
    · exact hop
  | rhs _ _ hr' => exact h.rhs (hr'.2 hr)
  | rhsOperand _ _ hr' =>
    rcases h.operand hr with hfound | hop
    · exact h.rhs (hr'.2 (h.ok.2 hfound))
    · exact hop
  | compute => exact absurd (h.ok.1 hr) h.lit

end FromParts

/-! ## Free variables -/

/-- The variables that are free in an end of evaluation: in the value, or in the term that
    evaluation is stuck on. -/
def FreeInEnd (x : Name) : Result L → Prop
  | .ok v => v.occursFree x = true
  | .error (.free y) => y = x
  | .error (.operand _ found) | .error (.notLambda found) => found.occursFree x = true
  | .error (.unknownOperator _) | .error (.arity _ _) => False

/-- In the strict mode terms have their free variables from their parts. -/
theorem fromParts_occursFree (x : Name) :
    FromParts .strict (fun e : Term L => e.occursFree x = true) (FreeInEnd x) where
  callee h := occursFree_app_iff.2 (.inl h)
  arg ha h := occursFree_app_iff.2 (.inr ⟨_, ha, h⟩)
  lhs h := occursFree_binop_iff.2 (.inl h)
  rhs h := occursFree_binop_iff.2 (.inr h)
  lit := by simp
  call hlen h := occursFree_bindValues (hlen rfl) h
  ok := .rfl
  free := by
    rintro _ ⟨⟩
    simp
  notLambda := id
  arity := False.elim
  unknownOperator := False.elim
  operand := .inl

/-- Free in an end are free variables of the term only. -/
theorem occursFree_of_freeInEnd {e : Term L} {r : Result L} {x : Name}
    (h : Evaluates ops .strict e r) (hx : FreeInEnd x r) : e.occursFree x = true :=
  (fromParts_occursFree x).of_evaluates h hx

/-- A closed term has closed values only. -/
theorem Evaluates.closed {e v : Term L} (h : Evaluates ops .strict e (.ok v)) (he : e.Closed) :
    v.Closed := by
  intro x
  rw [Bool.eq_false_iff]
  intro hx
  have hex : e.occursFree x = true := occursFree_of_freeInEnd h hx
  rw [he x] at hex
  cases hex

/-- The variables that a result shows: those free in the value, or the one that
    evaluation is stuck on. -/
def ShowsFree (x : Name) : Result L → Prop
  | .ok v => v.occursFree x = true
  | .error reason => reason = .free x

/-- A result shows free variables of the term only. -/
theorem occursFree_of_evaluates {e : Term L} {r : Result L} {x : Name}
    (h : Evaluates ops .strict e r) (hx : ShowsFree x r) : e.occursFree x = true := by
  refine occursFree_of_freeInEnd h ?_
  cases r with
  | ok v => exact hx
  | error reason =>
    obtain rfl : reason = .free x := hx
    rfl

end Term

end NaryLambda

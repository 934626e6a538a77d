import NaryLambda.Proofs.Evaluation.Origin
import NaryLambda.Proofs.Substitution.Shapes

/-!
# What an end of evaluation says about the term

The reason why evaluation is stuck is about a term that came up on the way,
however far from the term at the start. It is a genuine reason there: an operand
that is reported is a value and no literal, a callee that is reported is a value
and no lambda, and the numbers of an arity mismatch differ. And what it shows the
term at the start has: free variables, operators, and lambdas and applications
of these sizes. The same goes for values.

Results:

* `Term.genuine_of_evaluates`: an end says what is the case where it came up.
* `Term.hasShape_of_evaluates`: an end shows shapes of the term only.
* `Term.accounted_of_evaluates`: all of this, for each kind of end.
-/

namespace NaryLambda

namespace Term

variable {L : Type} {ops : Operators L}

/-! ## What is the case where the end came up -/

/-- An end that is what it says: a value, or a reason that holds of what it carries. -/
def Genuine (ops : Operators L) : Result L → Prop
  | .ok v => v.isValue = true
  | .error (.free _) => True
  | .error (.unknownOperator op) => op ∉ ops
  | .error (.operand op found) => op ∈ ops ∧ found.isValue = true ∧ ∀ n, found ≠ .lit n
  | .error (.notLambda found) => found.isValue = true ∧ ∀ params body, found ≠ .lam params body
  | .error (.arity params args) => params ≠ args

/-- In the strict mode every end is what it says. -/
theorem genuine_of_evaluates {e : Term L} {r : Result L} (h : Evaluates ops .strict e r) :
    Genuine ops r := by
  refine Evaluates.induction (motive := fun _ r => Genuine ops r) (fun e r h => ?_) h
  cases h with
  | value hv => exact hv
  | free => trivial
  | callee hc => exact hc.2
  | notLambda hc hne => exact ⟨hc.2, hne⟩
  | arity _ hlen => exact hlen
  | arg _ _ _ _ ha => exact ha.2
  | call _ _ _ hbody => exact hbody.2
  | residual _ _ hmode => cases hmode
  | unknownOperator hop => exact hop
  | lhs _ hl => exact hl.2
  | lhsOperand hop hl hne => exact ⟨hop, hl.2, hne⟩
  | rhs _ _ hr => exact hr.2
  | rhsOperand hop _ hr hne => exact ⟨hop, hr.2, hne⟩
  | compute => rfl

/-! ## Shapes -/

/-- The shapes that an end shows, in a term or by their numbers and operators. -/
def ShowsShape (k : Shape) : Result L → Prop
  | .ok v => HasShape k v
  | .error (.free _) => False
  | .error (.unknownOperator op) => k = .binop op
  | .error (.operand op found) => k = .binop op ∨ HasShape k found
  | .error (.notLambda found) => HasShape k found
  | .error (.arity params args) => k = .lam params ∨ k = .app args

/-- In both arity modes terms have their shapes from their parts, or by being of the
    shape. -/
theorem fromParts_hasShape (mode : ArityMode) (k : Shape) :
    FromParts mode (fun e : Term L => HasShape k e) (ShowsShape k) where
  callee h := hasShape_app_iff.2 (.inr (.inl h))
  arg ha h := hasShape_app_iff.2 (.inr (.inr ⟨_, ha, h⟩))
  lhs h := hasShape_binop_iff.2 (.inr (.inl h))
  rhs h := hasShape_binop_iff.2 (.inr (.inr h))
  lit := not_hasShape_lit _
  call _ h := (hasShape_bindValues h).imp_left fun h => hasShape_lam_iff.2 (.inr h)
  ok := .rfl
  free := False.elim
  notLambda := id
  arity h := h.imp (fun h => hasShape_lam_iff.2 (.inl h)) fun h => hasShape_app_iff.2 (.inl h)
  unknownOperator h := hasShape_binop_iff.2 (.inl h)
  operand h := h.symm.imp_right fun h => hasShape_binop_iff.2 (.inl h)

/-- An end shows shapes of the term only. -/
theorem hasShape_of_evaluates {mode : ArityMode} {e : Term L} {r : Result L} {k : Shape}
    (h : Evaluates ops mode e r) (hk : ShowsShape k r) : HasShape k e :=
  (fromParts_hasShape mode k).of_evaluates h hk

theorem exists_lam_of_hasShape {e : Term L} {n : Nat} (h : HasShape (.lam n) e) :
    ∃ params body, Subterm (lam params body) e ∧ params.length = n := by
  obtain ⟨s, hs, hk⟩ := h
  cases s with
  | lam params body =>
    cases hk
    exact ⟨params, body, hs, rfl⟩
  | unit | lit | var | app | binop => cases hk

theorem exists_app_of_hasShape {e : Term L} {n : Nat} (h : HasShape (.app n) e) :
    ∃ callee args, Subterm (app callee args) e ∧ args.length = n := by
  obtain ⟨s, hs, hk⟩ := h
  cases s with
  | app callee args =>
    cases hk
    exact ⟨callee, args, hs, rfl⟩
  | unit | lit | var | lam | binop => cases hk

/-! ## All together -/

/-- All free variables of the first term are free in the second one. -/
def FreeWithin (found e : Term L) : Prop := ∀ x ∈ found.freeVars, x ∈ e.freeVars

/-- The end is accounted for by the term at the start. -/
def Accounted (ops : Operators L) (e : Term L) : Result L → Prop
  | .ok v => v.isValue = true ∧ FreeWithin v e ∧ Evaluates ops .strict v (.ok v)
  | .error (.free x) => x ∈ e.freeVars
  | .error (.unknownOperator op) => op ∈ e.opNames ∧ op ∉ ops
  | .error (.operand op found) =>
    op ∈ e.opNames ∧ op ∈ ops ∧ found.isValue = true ∧ (∀ n, found ≠ .lit n) ∧ FreeWithin found e
  | .error (.notLambda found) =>
    found.isValue = true ∧ (∀ params body, found ≠ .lam params body) ∧ FreeWithin found e
  | .error (.arity params args) =>
    params ≠ args ∧ (∃ ps body, Subterm (.lam ps body) e ∧ ps.length = params) ∧
      ∃ callee as, Subterm (.app callee as) e ∧ as.length = args

/-- **Values and reasons are accounted for by the term.** Evaluation in the strict mode ends
    with a value that evaluates to itself, or for a reason that was the case where evaluation
    got stuck. Free variables, operators, lambdas and applications that the end shows are
    those of the term, so a closed term is never stuck on a variable. -/
theorem accounted_of_evaluates {e : Term L} {r : Result L} (h : Evaluates ops .strict e r) :
    Accounted ops e r ∧ (e.Closed → ∀ x, r ≠ .error (.free x)) := by
  have hgenuine := genuine_of_evaluates h
  have hfree : ∀ x, FreeInEnd x r → x ∈ e.freeVars := fun x hx =>
    mem_freeVars.2 (occursFree_of_freeInEnd h hx)
  have hshape : ∀ k, ShowsShape k r → HasShape k e := fun k => hasShape_of_evaluates h
  constructor
  · match r with
    | .ok v =>
      exact ⟨hgenuine, fun x hx => hfree x (mem_freeVars.1 hx), evaluates_of_isValue hgenuine⟩
    | .error (.free x) => exact hfree x rfl
    | .error (.unknownOperator op) =>
      exact ⟨mem_opNames_iff_hasShape.2 (hshape _ rfl), hgenuine⟩
    | .error (.operand op found) =>
      obtain ⟨hop, hvalue, hne⟩ := hgenuine
      exact ⟨mem_opNames_iff_hasShape.2 (hshape _ (.inl rfl)), hop, hvalue, hne,
        fun x hx => hfree x (mem_freeVars.1 hx)⟩
    | .error (.notLambda found) =>
      obtain ⟨hvalue, hne⟩ := hgenuine
      exact ⟨hvalue, hne, fun x hx => hfree x (mem_freeVars.1 hx)⟩
    | .error (.arity params args) =>
      exact ⟨hgenuine, exists_lam_of_hasShape (hshape _ (.inl rfl)),
        exists_app_of_hasShape (hshape _ (.inr rfl))⟩
  · rintro hclosed x rfl
    have hx := hfree x rfl
    rw [mem_freeVars, hclosed x] at hx
    cases hx

/-- `(\f: int. f(1, 2))[a]`, with a term for `a`. -/
def calledOnTwo (a : Term Int64) : Term Int64 :=
  .app (.lam [⟨"f", .int⟩] (.app (.var "f") [.lit 1, .lit 2])) [a]

/-- `(\f: int. 1 + f)[a]`, with a term for `a`. -/
def addedToOne (a : Term Int64) : Term Int64 :=
  .app (.lam [⟨"f", .int⟩] (.binop "+" (.lit 1) (.var "f"))) [a]

/-- A lambda of one parameter meets an application to two arguments in `calledOnTwo` only
    after a call, and the `\z: int. z(y)` that `addedToOne` cannot add brings its free `y`
    along. What the reasons show was there from the start. -/
theorem evaluates_calledOnTwo_addedToOne :
    let identity : Term Int64 := .lam [⟨"x", .int⟩] (.var "x")
    let applied : Term Int64 := .lam [⟨"z", .int⟩] (.app (.var "z") [.var "y"])
    (Evaluates .standard .strict (calledOnTwo identity) (.error (.arity 1 2)) ∧
      ((∃ ps body, Subterm (.lam ps body) (calledOnTwo identity) ∧ ps.length = 1) ∧
        ∃ callee as, Subterm (.app callee as) (calledOnTwo identity) ∧ as.length = 2) ∧
      (calledOnTwo identity).Closed ∧
      ∀ x, (.error (.arity 1 2) : Result Int64) ≠ .error (.free x)) ∧
    Evaluates .standard .strict (addedToOne applied) (.error (.operand "+" applied)) ∧
      "+" ∈ (addedToOne applied).opNames ∧ "y" ∈ applied.freeVars ∧
      "y" ∈ (addedToOne applied).freeVars := by
  intro identity applied
  have harity : Evaluates .standard .strict (calledOnTwo identity) (.error (.arity 1 2)) :=
    ⟨3, by decide +kernel⟩
  have hclosed : (calledOnTwo identity).Closed := by decide +kernel
  have hoperand : Evaluates .standard .strict (addedToOne applied)
      (.error (.operand "+" applied)) := ⟨3, by decide +kernel⟩
  have hy : "y" ∈ applied.freeVars := by decide +kernel
  obtain ⟨⟨-, hparts⟩, hfree⟩ := accounted_of_evaluates harity
  obtain ⟨⟨hop, -, -, -, hwithin⟩, -⟩ := accounted_of_evaluates hoperand
  exact ⟨⟨harity, hparts, hclosed, hfree hclosed⟩, hoperand, hop, hy, hwithin _ hy⟩

end Term

end NaryLambda

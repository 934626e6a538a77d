import NaryLambda.Proofs.Evaluation.Ends
import NaryLambda.Proofs.Evaluation.Lockstep
import NaryLambda.Proofs.Interpreter
import NaryLambda.Proofs.Typing.FreeVars

/-!
# Only the operators that a term names matter

Inference asks a registry whether the operators of a term are there, evaluation asks
what they do. The terms that come up during evaluation name no other operators than
the term at its start: substitution copies names, renaming puts in variables, and what
an application leaves of a body is a part of it with values in. So registries that
agree on the names in a term are as one for it. A term with a type has all its
operators registered, and so registering others changes nothing for it.

Results:

* `Term.infer_congr_operators`: inference with registries of the same names.
* `Term.mem_operators_of_infer_eq_ok`: the operators of a term with a type are
  registered.
* `Term.mem_opNames_of_evaluates`: an end of evaluation names operators of the term.
* `Term.eval_congr_operators`: evaluation with registries that agree on the term.
* `Term.outcome_depends_on_opNames`: all of this, for whole runs.
-/

namespace NaryLambda

variable {L : Type}

/-! ## The operators in an end -/

/-- The operators that a reason names, itself or in the term that it carries. -/
def StuckReason.opNames : StuckReason (Term L) → List Name
  | .free _ | .arity _ _ => []
  | .unknownOperator op => [op]
  | .operand op found => op :: found.opNames
  | .notLambda found => found.opNames

/-- The operators that an end of evaluation names. -/
def Result.opNames : Result L → List Name
  | .ok v => v.opNames
  | .error reason => reason.opNames

namespace Term

variable {ops ops' : Operators L}

/-- The operators that an end names are among the shapes that it shows. -/
theorem showsShape_of_mem_opNames {r : Result L} {op : Name} (h : op ∈ r.opNames) :
    ShowsShape (.binop op) r := by
  match r with
  | .ok v | .error (.notLambda found) => exact mem_opNames_iff_hasShape.1 h
  | .error (.free x) | .error (.arity params args) => cases h
  | .error (.unknownOperator o) => exact congrArg Shape.binop (List.mem_singleton.1 h)
  | .error (.operand o found) =>
    exact (List.mem_cons.1 h).imp (congrArg Shape.binop) mem_opNames_iff_hasShape.1

/-- An end of evaluation names operators of the term only. -/
theorem mem_opNames_of_evaluates {mode : ArityMode} {e : Term L} {r : Result L} {op : Name}
    (h : Evaluates ops mode e r) (hop : op ∈ r.opNames) : op ∈ e.opNames :=
  mem_opNames_iff_hasShape.2 (hasShape_of_evaluates h (showsShape_of_mem_opNames hop))

/-! ## Inference -/

/-- Of a registry inference sees only which of the term's operators are there. -/
theorem infer_congr_operators {e : Term L} (h : ∀ op ∈ e.opNames, (op ∈ ops ↔ op ∈ ops'))
    (Γ : Context) : e.infer ops Γ = e.infer ops' Γ := by
  induction e generalizing Γ with
  | unit | lit n | var x => rw [infer, infer]
  | lam params body ih => rw [infer, infer, ih (by simpa using h)]
  | app callee args ihc iha =>
    have hargs : inferAll ops Γ args = inferAll ops' Γ args :=
      inferAll_congr (List.forall₂_same.2 fun a ha =>
        iha a ha (fun op hop => h op (mem_opNames_app.2 (.inr ⟨a, ha, hop⟩))) Γ)
    rw [infer, infer, ihc (fun op hop => h op (mem_opNames_app.2 (.inl hop))), hargs]
  | binop op lhs rhs ihl ihr =>
    have hop := h op (mem_opNames_binop.2 (.inl rfl))
    rw [infer, infer, ihl fun o ho => h o (mem_opNames_binop.2 (.inr (.inl ho))),
      ihr fun o ho => h o (mem_opNames_binop.2 (.inr (.inr ho)))]
    simp only [hop]

/-- The operators of a term with a type are registered. -/
theorem mem_operators_of_infer_eq_ok {e : Term L} {Γ : Context} {t : Ty} {op : Name}
    (h : e.infer ops Γ = .ok t) (hop : op ∈ e.opNames) : op ∈ ops := by
  induction e generalizing Γ t with
  | unit | lit n | var x => simp at hop
  | lam params body ih =>
    obtain ⟨range, hbody, -⟩ := infer_lam_eq_ok.1 h
    exact ih hbody (by simpa using hop)
  | app callee args ihc iha =>
    obtain ⟨domains, hcallee, hargs⟩ := infer_app_eq_ok.1 h
    rcases mem_opNames_app.1 hop with hop | ⟨a, ha, hop⟩
    · exact ihc hcallee hop
    · obtain ⟨d, -, hd⟩ := exists_mem_of_forall₂ hargs ha
      exact iha a ha hd hop
  | binop o lhs rhs ihl ihr =>
    obtain ⟨hl, hr, ho, -⟩ := infer_binop_eq_ok.1 h
    rcases mem_opNames_binop.1 hop with rfl | hop | hop
    · exact ho
    · exact ihl hl hop
    · exact ihr hr hop

/-! ## Evaluation -/

/-- The registries have the same operators under the names in the term. -/
def AgreeOn (ops ops' : Operators L) (e : Term L) : Prop :=
  ∀ op ∈ e.opNames, ops[op]? = ops'[op]?

/-- Being the same term, on which the registries agree, is a simulation. -/
theorem simulation_agreeOn (ops ops' : Operators L) (mode : ArityMode) :
    Simulation ops ops' mode Eq (fun d e => d = e ∧ AgreeOn ops ops' d) where
  form := by
    rintro e _ ⟨rfl, he⟩
    cases e with
    | unit => exact .unit
    | lit n => exact .lit rfl
    | var x => exact .var
    | lam params body => exact .lam rfl
    | app callee args =>
      refine .app ⟨rfl, fun op hop => he op (mem_opNames_app.2 (.inl hop))⟩ ?_
      exact List.forall₂_same.2 fun a ha =>
        ⟨rfl, fun op hop => he op (mem_opNames_app.2 (.inr ⟨a, ha, hop⟩))⟩
    | binop op lhs rhs =>
      have hop : OperatorRel Eq ops[op]? ops'[op]? :=
        he op (mem_opNames_binop.2 (.inl rfl)) ▸ operatorRel_refl _
      exact .binop hop ⟨rfl, fun o ho => he o (mem_opNames_binop.2 (.inr (.inl ho)))⟩
        ⟨rfl, fun o ho => he o (mem_opNames_binop.2 (.inr (.inr ho)))⟩
  lit := by
    rintro m _ rfl
    exact ⟨rfl, fun op hop => by simp at hop⟩
  call := by
    intro params params' body body' values values' hlam hvalues _
    obtain ⟨heq, hbody⟩ := hlam
    obtain ⟨rfl, rfl⟩ := lam.inj heq
    obtain rfl : values = values' :=
      List.forall₂_eq_eq_eq ▸ hvalues.imp fun _ _ h => h.1
    refine ⟨rfl, fun op hop => ?_⟩
    rcases mem_opNames_bindValues hop with hop | ⟨v, hv, hop⟩
    · exact hbody op (by rwa [opNames_lam])
    · obtain ⟨w, -, hvw⟩ := exists_mem_of_forall₂ hvalues hv
      exact hvw.2 op hop

/-- Registries that agree on a term evaluate it alike, at every depth. -/
theorem eval_congr_operators {e : Term L} (h : AgreeOn ops ops' e) (mode : ArityMode)
    (depth : Nat) : e.eval ops mode depth = e.eval ops' mode depth :=
  ((simulation_agreeOn ops ops' mode).eval_inStep depth ⟨rfl, h⟩).eq
    (fun _ _ h => h.1) (fun _ _ h => h.1)

end Term

/-! ## Whole runs -/

namespace Interpreter

/-- Two interpreters find the same type for a term, or the same error, and evaluate and
    run it to the same end, or both to none. -/
structure SameOutcome (I J : Interpreter L) (e : Term L) : Prop where
  infer : ∀ Γ, I.infer Γ e = J.infer Γ e
  evaluates : ∀ r, Term.Evaluates I.operators I.arity e r ↔ Term.Evaluates J.operators J.arity e r
  run : ∀ depth, I.run depth e = J.run depth e

/-- Registries that agree on a term have the same outcome for it. -/
theorem sameOutcome_of_agreeOn {I J : Interpreter L} {e : Term L} (harity : I.arity = J.arity)
    (h : Term.AgreeOn I.operators J.operators e) : SameOutcome I J e := by
  have hmem : ∀ op ∈ e.opNames, (op ∈ I.operators ↔ op ∈ J.operators) := by
    intro op hop
    rw [Std.ExtTreeMap.mem_iff_isSome_getElem?, Std.ExtTreeMap.mem_iff_isSome_getElem?, h op hop]
  have hinfer : ∀ Γ, I.infer Γ e = J.infer Γ e := by
    intro Γ
    rw [infer, infer, Term.infer_congr_operators hmem]
  have heval : ∀ depth, e.eval I.operators I.arity depth = e.eval J.operators J.arity depth := by
    intro depth
    rw [harity, Term.eval_congr_operators h]
  refine ⟨hinfer, fun r => ?_, fun depth => ?_⟩
  · exact exists_congr fun depth => by rw [heval]
  · rw [run, run, hinfer, eval, eval, heval]

/-- Registers operators, one after another. -/
def registerAll (I : Interpreter L) (entries : List (Name × (L → L → L))) : Interpreter L :=
  entries.foldl (fun I entry => I.register entry.1 entry.2) I

@[simp] theorem registerAll_cons (I : Interpreter L) (entry : Name × (L → L → L))
    (entries : List (Name × (L → L → L))) :
    I.registerAll (entry :: entries) = (I.register entry.1 entry.2).registerAll entries := rfl

@[simp] theorem arity_registerAll (I : Interpreter L) (entries : List (Name × (L → L → L))) :
    (I.registerAll entries).arity = I.arity := by
  induction entries generalizing I with
  | nil => rfl
  | cons entry entries ih => exact ih _

/-- Registering operators leaves those of other names as they are. -/
theorem getElem?_registerAll {I : Interpreter L} {entries : List (Name × (L → L → L))} {op : Name}
    (h : ∀ entry ∈ entries, entry.1 ≠ op) :
    (I.registerAll entries).operators[op]? = I.operators[op]? := by
  induction entries generalizing I with
  | nil => rfl
  | cons entry entries ih =>
    rw [registerAll_cons, ih fun entry hentry => h entry (.tail _ hentry), register,
      Std.ExtTreeMap.getElem?_insert]
    simp [h entry (.head _)]

/-- Registering operators of other names than the registry has changes no outcome of a
    term with a type. -/
theorem sameOutcome_registerAll {I : Interpreter L} {Γ : Context} {e : Term L} {t : Ty}
    {entries : List (Name × (L → L → L))} (he : e.infer I.operators Γ = .ok t)
    (hentries : ∀ entry ∈ entries, entry.1 ∉ I.operators) :
    SameOutcome I (I.registerAll entries) e := by
  refine sameOutcome_of_agreeOn (arity_registerAll I entries).symm fun op hop => ?_
  refine (getElem?_registerAll fun entry hentry heq => hentries entry hentry ?_).symm
  exact heq ▸ Term.mem_operators_of_infer_eq_ok he hop

end Interpreter

namespace Term

open Interpreter

/-- **Only the operators that a term names matter.** Registries with the same ones of
    them infer alike, whatever the operators do. Registries with equal operators under
    these names have the same outcome in both arity modes. All operators in an end of
    evaluation are among them. And for a term with a type, registering further operators
    changes nothing. -/
theorem outcome_depends_on_opNames (e : Term L) :
    (∀ ops ops' : Operators L, (∀ op ∈ e.opNames, (op ∈ ops ↔ op ∈ ops')) →
      ∀ Γ, e.infer ops Γ = e.infer ops' Γ) ∧
    (∀ ops ops' : Operators L, AgreeOn ops ops' e →
      ∀ mode, SameOutcome ⟨ops, mode⟩ ⟨ops', mode⟩ e) ∧
    (∀ (ops : Operators L) mode r, Evaluates ops mode e r → ∀ op ∈ r.opNames, op ∈ e.opNames) ∧
    ∀ (I : Interpreter L) Γ t entries, e.infer I.operators Γ = .ok t →
      (∀ entry ∈ entries, entry.1 ∉ I.operators) → SameOutcome I (I.registerAll entries) e := by
  refine ⟨fun ops ops' hsame Γ => ?_, fun ops ops' hagree mode => ?_,
    fun ops mode r hr op hop => ?_, fun I Γ t entries ht hentries => ?_⟩
  · exact infer_congr_operators hsame Γ
  · exact sameOutcome_of_agreeOn rfl hagree
  · exact mem_opNames_of_evaluates hr hop
  · exact sameOutcome_registerAll ht hentries

/-- `\y: int. n - y`. -/
def minuend (n : Term Int64) : Term Int64 :=
  .lam [⟨"y", .int⟩] (.binop "-" n (.var "y"))

/-- `(\x: int. \y: int. x - y)[1]`. -/
def subtractFromOne : Term Int64 := .app (.lam [⟨"x", .int⟩] (minuend (.var "x"))) [.lit 1]

/-- A single operator, under the name `-`. -/
def minusAs (f : Int64 → Int64 → Int64) : Operators Int64 := (∅ : Operators Int64).insert "-" f

/-- For `subtractFromOne` only `-` matters: not what it does, for the type, and for the
    outcome nothing beside it, neither `+` and `*` nor a further operator. -/
theorem outcome_subtractFromOne :
    ((∀ op ∈ subtractFromOne.opNames, (op ∈ Operators.standard ↔ op ∈ minusAs (· + ·))) ∧
      ∀ Γ, subtractFromOne.infer .standard Γ = subtractFromOne.infer (minusAs (· + ·)) Γ) ∧
    (AgreeOn .standard (minusAs (· - ·)) subtractFromOne ∧
      SameOutcome ⟨.standard, .truncate⟩ ⟨minusAs (· - ·), .truncate⟩ subtractFromOne) ∧
    (Evaluates .standard .strict subtractFromOne (.ok (minuend (.lit 1))) ∧
      "-" ∈ Result.opNames (.ok (minuend (.lit 1))) ∧ "-" ∈ subtractFromOne.opNames) ∧
    subtractFromOne.infer .standard ∅ = .ok (.fn [.int] .int) ∧
      "max" ∉ Operators.standard ∧
      SameOutcome .standard (Interpreter.standard.registerAll [("max", max)]) subtractFromOne := by
  obtain ⟨hinfer, hagree, hnames, hfurther⟩ := outcome_depends_on_opNames subtractFromOne
  have hops : ∀ op ∈ subtractFromOne.opNames, op = "-" := by decide +kernel
  have hsame : ∀ op ∈ subtractFromOne.opNames,
      (op ∈ Operators.standard ↔ op ∈ minusAs (· + ·)) := by decide +kernel
  have heq : AgreeOn .standard (minusAs (· - ·)) subtractFromOne := by
    intro op hop
    rw [hops op hop]
    rfl
  have heval : Evaluates .standard .strict subtractFromOne (.ok (minuend (.lit 1))) :=
    ⟨2, by decide +kernel⟩
  have hminus : "-" ∈ Result.opNames (.ok (minuend (.lit 1))) := by decide +kernel
  have ht : subtractFromOne.infer Interpreter.standard.operators ∅ = .ok (.fn [.int] .int) := by
    decide +kernel
  have hmax : "max" ∉ Operators.standard := by decide +kernel
  exact ⟨⟨hsame, hinfer _ _ hsame⟩, ⟨heq, hagree _ _ heq _⟩,
    ⟨heval, hminus, hnames _ _ _ heval _ hminus⟩, ht, hmax,
    hfurther _ _ _ [("max", max)] ht fun _ h => List.mem_singleton.1 h ▸ hmax⟩

end Term

end NaryLambda

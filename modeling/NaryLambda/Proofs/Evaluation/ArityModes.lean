import NaryLambda.Proofs.Normalization

/-!
# The two arity modes

The modes differ in one rule: where a lambda gets a wrong number of arguments, the
strict mode is stuck and the other one goes on with what is left of the body. A
run of the strict mode that meets such a lambda ends there, with that reason. So
every other run of the strict mode uses only rules that both modes have.

Results:

* `EvalRule.truncate`: the rules of the strict mode that the other mode has.
* `Term.arityModes_agree`: the two modes agree unless the strict one is stuck on a
  wrong number of arguments, and on all programs.
-/

namespace NaryLambda

variable {L : Type} {ops : Operators L}

/-- The result says that a lambda got a wrong number of arguments. -/
def ArityError (r : Result L) : Prop := ∃ params args, r = .error (.arity params args)

theorem not_arityError_ok (v : Term L) : ¬ ArityError (.ok v) := nofun

/-- A rule of the strict mode with any other result than an arity error is a rule of
    the truncating mode. -/
theorem EvalRule.truncate {R S : Term L → Result L → Prop}
    (hRS : ∀ e r, R e r → ¬ ArityError r → S e r) {e : Term L} {r : Result L}
    (h : EvalRule ops .strict R e r) (hr : ¬ ArityError r) : EvalRule ops .truncate S e r := by
  have hok : ∀ {e v : Term L}, R e (.ok v) → S e (.ok v) :=
    fun h => hRS _ _ h (not_arityError_ok _)
  cases h with
  | value hv => exact .value hv
  | free => exact .free
  | callee h => exact .callee (hRS _ _ h hr)
  | notLambda h hne => exact .notLambda (hok h) hne
  | arity => exact absurd ⟨_, _, rfl⟩ hr
  | arg h _ htake hbefore ha =>
    exact .arg (hok h) nofun htake (hbefore.imp fun _ _ => hok) (hRS _ _ ha hr)
  | call h hlen hargs hbody =>
    exact .call (hok h) hlen (hargs.imp fun _ _ => hok) (hRS _ _ hbody hr)
  | residual _ _ hmode => cases hmode
  | unknownOperator hop => exact .unknownOperator hop
  | lhs hop h => exact .lhs hop (hRS _ _ h hr)
  | lhsOperand hop h hne => exact .lhsOperand hop (hok h) hne
  | rhs hop hl h => exact .rhs hop (hok hl) (hRS _ _ h hr)
  | rhsOperand hop hl h hne => exact .rhsOperand hop (hok hl) (hok h) hne
  | compute hf hm hn => exact .compute hf (hok hm) (hok hn)

namespace Term

/-- A run of the strict mode is one of the truncating mode, unless it ends in an arity
    error. -/
theorem Evaluates.truncate {e : Term L} {r : Result L} (h : Evaluates ops .strict e r)
    (hr : ¬ ArityError r) : Evaluates ops .truncate e r := by
  refine Evaluates.induction (motive := fun e r => ¬ ArityError r → Evaluates ops .truncate e r)
    (fun e r h hr => ?_) h hr
  exact evaluates_iff.2 (h.truncate (fun _ _ h => h.2) hr)

/-- The truncating mode has no arity errors. -/
theorem not_arityError_of_truncate {e : Term L} {r : Result L}
    (h : Evaluates ops .truncate e r) : ¬ ArityError r := by
  refine Evaluates.induction (motive := fun _ r => ¬ ArityError r) (fun e r h => ?_) h
  cases h with
  | callee h | lhs _ h | rhs _ _ h | arg _ _ _ _ h | call _ _ _ h => exact h.2
  | arity _ _ hmode => cases hmode
  | value | residual | compute => exact not_arityError_ok _
  | free | notLambda | unknownOperator | lhsOperand | rhsOperand => exact nofun

/-- **The arity modes agree.** What the strict mode ends with, unless it is an arity
    error, the truncating mode ends with too, and the latter has no arity errors.
    Programs have one value in both modes. -/
theorem arityModes_agree (ops : Operators L) (e : Term L) :
    (∀ r, Evaluates ops .strict e r → ¬ ArityError r → Evaluates ops .truncate e r) ∧
    (∀ r, Evaluates ops .truncate e r → ¬ ArityError r) ∧
    ∀ t, e.infer ops ∅ = .ok t →
      ∃ v, Evaluates ops .strict e (.ok v) ∧ Evaluates ops .truncate e (.ok v) := by
  refine ⟨fun r h hr => h.truncate hr, fun r h => not_arityError_of_truncate h, fun t ht => ?_⟩
  obtain ⟨v, hv, -⟩ : EndsIn ops .strict t e := endsIn_of_infer ht
  exact ⟨v, hv, hv.truncate (not_arityError_ok v)⟩

/-- `(\f: () -> int, x: int. x + y)[\. (\. 1)[2], 3]`: the first argument would be an
    arity error if it were called. -/
def uncalled : Term Int64 :=
  .app (.lam [⟨"f", .fn [] .int⟩, ⟨"x", .int⟩] (.binop "+" (.var "x") (.var "y")))
    [.lam [] (.app (.lam [] (.lit 1)) [.lit 2]), .lit 3]

/-- Both modes are stuck on the free variable of `uncalled`, and run a program to 41. -/
theorem arityModes_agree_uncalled :
    (Evaluates .standard .strict uncalled (.error (.free "y")) ∧
      Evaluates .standard .truncate uncalled (.error (.free "y")) ∧
      ¬ ArityError (.error (.free "y") : Result Int64)) ∧
    Interpreter.succOfDouble.infer .standard ∅ = .ok .int ∧
      ∃ v, Evaluates .standard .strict Interpreter.succOfDouble (.ok v) ∧
        Evaluates .standard .truncate Interpreter.succOfDouble (.ok v) := by
  obtain ⟨hstrict, htruncate, -⟩ := arityModes_agree .standard uncalled
  have hs : Evaluates .standard .strict uncalled (.error (.free "y")) := ⟨4, by decide +kernel⟩
  have ht := hstrict _ hs nofun
  have hinfer : Interpreter.succOfDouble.infer .standard ∅ = .ok .int := by decide +kernel
  exact ⟨⟨hs, ht, htruncate _ ht⟩, hinfer, (arityModes_agree .standard _).2.2 _ hinfer⟩

/-- `(\x: int, y: int. x + y)[1]`, on which the modes differ. -/
example :
    let e : Term Int64 :=
      .app (.lam [⟨"x", .int⟩, ⟨"y", .int⟩] (.binop "+" (.var "x") (.var "y"))) [.lit 1]
    (e.eval .standard .strict 2).run = some (.error (.arity 2 1)) ∧
      (e.eval .standard .truncate 2).run = some (.ok (.binop "+" (.lit 1) (.var "y"))) := by
  decide +kernel

end Term

end NaryLambda

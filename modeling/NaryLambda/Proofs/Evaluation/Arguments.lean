import NaryLambda.Proofs.Evaluation.Rules
import NaryLambda.Proofs.Substitution.Instantiate

/-!
# Passing arguments

An application passes its arguments one after the other, and decides for each value
by the names of all later parameters whether it goes anywhere, supplied with an
argument or not. So the loop over the arguments can be left and taken up again: the
rest of the parameters over what is then left of the body is all it needs to go on.
And closed values, none of which changes what another one did, go in all at once.

Results:

* `Term.passArguments_congr`: surplus arguments are not evaluated.
* `Term.passArguments_append`: arguments passed in two goes.
* `Term.evaluates_app_iff_instantiate`: what an application to arguments with closed
  values evaluates to.
* `Term.evaluates_residual_app`: a residual applied to the other arguments.
-/

namespace NaryLambda

namespace Term

open Bounded

variable {L : Type} {ops : Operators L} {mode : ArityMode}

/-! ## The loop over the arguments -/

/-- Arguments beyond the last parameter are not evaluated: only what the evaluator makes
    of the others counts. -/
theorem passArguments_congr {eval eval' : Term L → Bounded (Term L) (Term L)}
    {params : List Param} {args : List (Term L)}
    (h : ∀ a ∈ args.take params.length, eval a = eval' a) (body : Term L) :
    passArguments eval params args body = passArguments eval' params args body := by
  induction params generalizing args body with
  | nil => rfl
  | cons p params ih =>
    cases args with
    | nil => rfl
    | cons a args =>
      rw [List.length_cons, List.take_succ_cons, List.forall_mem_cons] at h
      simp only [passArguments, h.1, ih h.2]

/-- The loop may be left after some arguments and taken up again with the parameters
    and arguments that remain. -/
theorem passArguments_append (eval : Term L → Bounded (Term L) (Term L)) {params : List Param}
    {first : List (Term L)} (h : first.length ≤ params.length) (rest : List (Term L))
    (body : Term L) :
    passArguments eval params (first ++ rest) body = (do
      let residual ← passArguments eval params first body
      passArguments eval (params.drop first.length) rest residual) := by
  induction first generalizing params body with
  | nil =>
    have hnone : passArguments eval params [] body = pure body := by cases params <;> rfl
    rw [hnone, pure_bind]
    rfl
  | cons a first ih =>
    cases params with
    | nil => simp at h
    | cons p params =>
      have hlen : first.length ≤ params.length := by simpa using h
      -- a value is put in unless a later parameter has the name, and all of them are still
      -- listed in the loop that stops early
      simp only [List.cons_append, passArguments, bind_assoc, ih hlen, List.length_cons,
        List.drop_succ_cons]

/-- Arguments that have values are passed, at all great depths. -/
theorem eventually_passArguments {params : List Param} {args values : List (Term L)}
    (hvalues : List.Forall₂ (fun a v => Evaluates ops mode a (.ok v))
      (args.take params.length) values) (body : Term L) :
    ∃ d, ∀ depth ≥ d, (passArguments (eval ops mode depth) params args body).run =
      some (.ok (body.bindValues params values)) := by
  obtain ⟨d, hd⟩ := eventually_of_forall₂ hvalues
  exact ⟨d, fun depth hle => run_passArguments.2 (.inl ⟨values, hd depth hle, rfl⟩)⟩

/-! ## Applications -/

/-- Terms whose evaluations agree at all great depths, be it some levels apart, end
    alike. -/
theorem evaluates_congr_of_run {e e' : Term L} {m n d : Nat}
    (h : ∀ depth ≥ d, (eval ops mode (depth + m) e).run = (eval ops mode (depth + n) e').run)
    (r : Result L) : Evaluates ops mode e r ↔ Evaluates ops mode e' r := by
  constructor
  · rintro ⟨c, hc⟩
    refine ⟨max c d + n, ?_⟩
    rw [← h _ (Nat.le_max_right c d)]
    exact eval_mono (by omega) hc
  · rintro ⟨c, hc⟩
    refine ⟨max c d + m, ?_⟩
    rw [h _ (Nat.le_max_right c d)]
    exact eval_mono (by omega) hc

/-- An application that is not stuck on the number of arguments passes them, and goes on
    with the body if there is one for each parameter. -/
theorem run_eval_app_of_passes {depth : Nat} {callee body : Term L} {params : List Param}
    {args : List (Term L)} (hcallee : AnswersAt ops mode depth callee (.ok (.lam params body)))
    (hmode : mode = .strict → params.length = args.length) :
    (eval ops mode (depth + 1) (.app callee args)).run = (do
      let passed ← passArguments (eval ops mode depth) params args body
      if params.length = args.length then eval ops mode depth passed else return passed :
      Bounded (Term L) (Term L)).run := by
  have hpasses : ¬ (params.length ≠ args.length ∧ mode = .strict) := fun h => h.1 (hmode h.2)
  rw [run_eval_app hcallee, if_neg hpasses]

/-- With as many arguments as parameters, an application ends as the body does with the
    values in it. -/
theorem evaluates_app_iff_bindValues {callee body : Term L} {params : List Param}
    {args values : List (Term L)} (hcallee : Evaluates ops mode callee (.ok (.lam params body)))
    (hvalues : List.Forall₂ (fun a v => Evaluates ops mode a (.ok v)) args values)
    (hlen : params.length = args.length) (r : Result L) :
    Evaluates ops mode (.app callee args) r ↔
      Evaluates ops mode (body.bindValues params values) r := by
  obtain ⟨c, hc⟩ := hcallee.eventually
  rw [← List.take_length (l := args), ← hlen] at hvalues
  obtain ⟨d, hd⟩ := eventually_passArguments hvalues body
  refine evaluates_congr_of_run (m := 1) (n := 0) (d := max c d) (fun depth hle => ?_) r
  rw [run_eval_app_of_passes (hc depth (by omega)) fun _ => hlen, ExceptT.run_bind,
    hd depth (by omega)]
  simp only [if_pos hlen]
  rfl

/-- **The values of a call are put in all at once.** Let the first arguments, up to the
    number of parameters, have closed values. What the loop over the arguments makes of
    the body is the body with every free name of a parameter replaced by the value at its
    last position among all parameters, or left if that has no argument, and with no
    parameter in it renamed. An application to as many arguments as parameters ends as
    this term does. To any other number it gives the term itself, or is stuck in the
    strict mode. Surplus arguments are not evaluated. -/
theorem evaluates_app_iff_instantiate {callee body : Term L} {params : List Param}
    {args values : List (Term L)} (hcallee : Evaluates ops mode callee (.ok (.lam params body)))
    (hvalues : List.Forall₂ (fun a v => Evaluates ops mode a (.ok v))
      (args.take params.length) values) (hclosed : ∀ v ∈ values, v.Closed) :
    let passed := body.instantiate (assignment params values)
    (∀ x, (assignment params values).lookup x =
      (lastPosition? x (paramNames params)).bind (values[·]?)) ∧
    (∃ d, ∀ depth ≥ d,
      (passArguments (eval ops mode depth) params args body).run = some (.ok passed)) ∧
    (params.length = args.length →
      ∀ r, Evaluates ops mode (.app callee args) r ↔ Evaluates ops mode passed r) ∧
    (params.length ≠ args.length → ∀ r, Evaluates ops mode (.app callee args) r ↔
      r = match mode with
        | .strict => .error (.arity params.length args.length)
        | .truncate => .ok passed) ∧
    ∀ eval eval' : Term L → Bounded (Term L) (Term L),
      (∀ a ∈ args.take params.length, eval a = eval' a) →
        passArguments eval params args body = passArguments eval' params args body := by
  intro passed
  have hpassed : body.bindValues params values = passed :=
    bindValues_eq_instantiate params hclosed body
  refine ⟨lookup_assignment params values, ?_, fun hlen r => ?_, fun hlen r => ?_,
    fun eval eval' h => passArguments_congr h body⟩
  · rw [← hpassed]
    exact eventually_passArguments hvalues body
  · rw [← hpassed]
    rw [hlen, List.take_length] at hvalues
    exact evaluates_app_iff_bindValues hcallee hvalues hlen r
  · have hend : Evaluates ops mode (.app callee args) (match mode with
        | .strict => .error (.arity params.length args.length)
        | .truncate => .ok passed) := by
      cases mode with
      | strict => exact evaluates_iff.2 (.arity hcallee hlen rfl)
      | truncate => exact hpassed ▸ evaluates_iff.2 (.residual hcallee hlen rfl hvalues)
    exact ⟨fun h => h.unique hend, fun h => h ▸ hend⟩

/-- The body of `sumOfLast` with terms for `x` and `y`. -/
def sumUnder (x y : Term Int64) : Term Int64 := .lam [⟨"z", .int⟩] (.binop "+" x y)

/-- The parameters `x: int, y: int, x: int`. -/
def firstShadowed : List Param := [⟨"x", .int⟩, ⟨"y", .int⟩, ⟨"x", .int⟩]

/-- `\x: int, y: int, x: int. \z: int. x + y`. -/
def sumOfLast : Term Int64 := .lam firstShadowed (sumUnder (.var "x") (.var "y"))

/-- `(\f: (). f(f))[\f: (). f(f)]`, which has no end. -/
def selfApplied : Term Int64 :=
  .app (.lam [⟨"f", .unit⟩] (.app (.var "f") [.var "f"]))
    [.lam [⟨"f", .unit⟩] (.app (.var "f") [.var "f"])]

/-- The last `x` counts in `sumOfLast`. With two arguments it is left, and an argument too
    many need not end. -/
theorem evaluates_app_sumOfLast :
    (∀ r, Evaluates .standard .strict (.app sumOfLast [.lit 1, .lit 2, .lit 3]) r ↔
      Evaluates .standard .strict (sumUnder (.lit 3) (.lit 2)) r) ∧
    (∀ r, Evaluates .standard .truncate (.app sumOfLast [.lit 1, .lit 2]) r ↔
      r = .ok (sumUnder (.var "x") (.lit 2))) ∧
    ∀ r, Evaluates .standard .truncate (.app sumOfLast [.lit 1, .lit 2, .lit 3, selfApplied]) r ↔
      r = .ok (sumUnder (.lit 3) (.lit 2)) := by
  have hlam : ∀ mode, Evaluates .standard mode sumOfLast (.ok sumOfLast) :=
    fun mode => evaluates_of_isValue rfl
  have hlit : ∀ mode (n : Int64), Evaluates .standard mode (lit n) (.ok (lit n)) :=
    fun mode n => evaluates_of_isValue rfl
  have hthree : ∀ mode surplus, List.Forall₂ (fun a v => Evaluates .standard mode a (.ok v))
      (List.take firstShadowed.length (.lit 1 :: .lit 2 :: .lit 3 :: surplus))
      [.lit 1, .lit 2, .lit 3] :=
    fun mode _ => .cons (hlit mode 1) (.cons (hlit mode 2) (.cons (hlit mode 3) .nil))
  have htwo : List.Forall₂ (fun a v => Evaluates .standard .truncate a (.ok v))
      (List.take firstShadowed.length [.lit 1, .lit 2]) [.lit 1, .lit 2] :=
    .cons (hlit .truncate 1) (.cons (hlit .truncate 2) .nil)
  have hall : (sumUnder (.var "x") (.var "y")).instantiate
      (assignment firstShadowed [.lit 1, .lit 2, .lit 3]) = sumUnder (.lit 3) (.lit 2) := by
    decide +kernel
  have hleft : (sumUnder (.var "x") (.var "y")).instantiate
      (assignment firstShadowed [.lit 1, .lit 2]) = sumUnder (.var "x") (.lit 2) := by
    decide +kernel
  obtain ⟨-, -, hcall, -⟩ :=
    evaluates_app_iff_instantiate (hlam .strict) (hthree .strict []) (by decide +kernel)
  obtain ⟨-, -, -, hfew, -⟩ :=
    evaluates_app_iff_instantiate (hlam .truncate) htwo (by decide +kernel)
  obtain ⟨-, -, -, hmany, -⟩ :=
    evaluates_app_iff_instantiate (hlam .truncate) (hthree .truncate [selfApplied])
      (by decide +kernel)
  rw [hall] at hcall hmany
  rw [hleft] at hfew
  exact ⟨hcall rfl, hfew (by decide), hmany (by decide)⟩

/-! ## Residuals -/

/-- With too few arguments a lambda gives what the loop makes of its body. -/
theorem exists_values_of_residual {params : List Param} {body residual : Term L}
    {args : List (Term L)} (hlt : args.length < params.length)
    (h : Evaluates ops .truncate (.app (.lam params body) args) (.ok residual)) :
    ∃ values, List.Forall₂ (fun a v => Evaluates ops .truncate a (.ok v))
      (args.take params.length) values ∧ residual = body.bindValues params values := by
  rw [evaluates_iff] at h
  cases h with
  | value hv => cases hv
  | call hcallee hlen =>
    cases eq_of_evaluates_value rfl hcallee
    omega
  | residual hcallee _ _ hvalues =>
    cases eq_of_evaluates_value rfl hcallee
    exact ⟨_, hvalues, rfl⟩

/-- **A residual can be resumed.** In the truncating mode let a lambda with too few
    arguments give a residual. The parameters that are left, over the residual, end on
    any other arguments as the lambda does on all of them: with the same value, stuck for
    the same reason, or not at all. -/
theorem evaluates_residual_app {params : List Param} {body residual : Term L}
    {first : List (Term L)} (hlt : first.length < params.length)
    (h : Evaluates ops .truncate (.app (.lam params body) first) (.ok residual))
    (rest : List (Term L)) (r : Result L) :
    Evaluates ops .truncate (.app (.lam (params.drop first.length) residual) rest) r ↔
      Evaluates ops .truncate (.app (.lam params body) (first ++ rest)) r := by
  obtain ⟨values, hvalues, rfl⟩ := exists_values_of_residual hlt h
  obtain ⟨d, hd⟩ := eventually_passArguments hvalues body
  have hlam : ∀ ps b, Evaluates ops .truncate (.lam ps b) (.ok (.lam ps b)) :=
    fun ps b => evaluates_of_isValue rfl
  obtain ⟨c, hc⟩ := (hlam params body).eventually
  obtain ⟨c', hc'⟩ :=
    (hlam (params.drop first.length) (body.bindValues params values)).eventually
  refine evaluates_congr_of_run (m := 1) (n := 1) (d := max d (max c c')) (fun depth hle => ?_) r
  -- both applications have as many arguments as parameters, or neither has
  have hlen : (params.drop first.length).length = rest.length ↔
      params.length = (first ++ rest).length := by
    rw [List.length_drop, List.length_append]
    omega
  rw [run_eval_app_of_passes (hc depth (by omega)) nofun,
    run_eval_app_of_passes (hc' depth (by omega)) nofun,
    passArguments_append _ (Nat.le_of_lt hlt), bind_assoc,
    ExceptT.run_bind (passArguments _ _ first _), hd depth (by omega)]
  simp only [hlen]
  rfl

/-- The parameters `f: () -> int, y: int, x: int, y: int`. -/
def secondShadowed : List Param :=
  [⟨"f", .fn [] .int⟩, ⟨"y", .int⟩, ⟨"x", .int⟩, ⟨"y", .int⟩]

/-- `f() + y`, with a term for `f`. -/
def addToCall (f : Term Int64) : Term Int64 := .binop "+" (.app f []) (.var "y")

/-- The first two arguments are `\. x`, which is open, and a number that goes nowhere, since
    a later parameter has the name. The residual over the last two parameters ends on 2 and
    3 as the lambda does on all four arguments: with 5. -/
theorem evaluates_residual_app_addToCall :
    let first : List (Term Int64) := [.lam [] (.var "x"), .lit 1]
    let residual := addToCall (.lam [] (.var "x"))
    first.length < secondShadowed.length ∧
      Evaluates .standard .truncate (.app (.lam secondShadowed (addToCall (.var "f"))) first)
        (.ok residual) ∧
      Evaluates .standard .truncate
        (.app (.lam [⟨"x", .int⟩, ⟨"y", .int⟩] residual) [.lit 2, .lit 3]) (.ok (.lit 5)) ∧
      Evaluates .standard .truncate
        (.app (.lam secondShadowed (addToCall (.var "f"))) (first ++ [.lit 2, .lit 3]))
        (.ok (.lit 5)) := by
  intro first residual
  have hlt : first.length < secondShadowed.length := by decide
  have hfirst : Evaluates .standard .truncate
      (.app (.lam secondShadowed (addToCall (.var "f"))) first) (.ok residual) :=
    ⟨2, by decide +kernel⟩
  have hrest : Evaluates .standard .truncate
      (.app (.lam [⟨"x", .int⟩, ⟨"y", .int⟩] residual) [.lit 2, .lit 3]) (.ok (.lit 5)) :=
    ⟨4, by decide +kernel⟩
  exact ⟨hlt, hfirst, hrest, (evaluates_residual_app hlt hfirst [.lit 2, .lit 3] _).1 hrest⟩

end Term

end NaryLambda

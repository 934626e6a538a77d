import NaryLambda.Proofs.Interpreter
import NaryLambda.Proofs.Safety.Calls

/-!
# Safety of programs

A program has a type in the empty context, so every value in its run is closed:
no parameter that is still to come can change the type of such a value, and
there is no variable to be stuck on.

Results:

* `Term.undisturbed_of_closed`: a call on closed values is undisturbed.
* `Term.exists_value_of_evaluates`: a program that ends has a value of its type.
* `Interpreter.run_safe`: no run is stuck, and the value has the type that comes
  with it.
-/

namespace NaryLambda

namespace Term

variable {L : Type} {ops : Operators L} {mode : ArityMode} {Γ : Context}

/-- A call on closed values is undisturbed. -/
theorem undisturbed_of_closed {params : List Param} {values : List (Term L)}
    (h : ∀ v ∈ values, v.Closed) : Undisturbed ops Γ params values := by
  induction params generalizing values with
  | nil => trivial
  | cons p params ih =>
    cases values with
    | nil => trivial
    | cons v values =>
      have hv : v.infer ops (Γ.extend params) = v.infer ops Γ := by
        refine infer_congr fun x hx => ?_
        rw [h v (.head _) x] at hx
        cases hx
      exact ⟨fun _ => hv, ih fun w hw => h w (.tail _ hw)⟩

/-- The values that a call in a program is supplied with are closed. -/
theorem closed_of_supplied {params : List Param} {values : List (Term L)}
    (h : Supplied ops ∅ params values) {v : Term L} (hv : v ∈ values) : v.Closed := by
  obtain ⟨p, -, hp⟩ := exists_mem_of_forall₂_right h hv
  exact closed_of_infer_eq_ok hp.2

/-- A program that ends has a value, closed and of the type of the program. -/
theorem exists_value_of_evaluates {e : Term L} {t : Ty} {r : Result L}
    (ht : e.infer ops ∅ = .ok t) (h : Evaluates ops mode e r) :
    ∃ v, r = .ok v ∧ v.isValue = true ∧ v.Closed ∧ v.infer ops ∅ = .ok t := by
  have hrun : RunsUndisturbed ops mode ∅ e := by
    intro params values _ hs
    exact undisturbed_of_closed fun v hv => closed_of_supplied hs hv
  rcases ends_of_undisturbed h ht hrun with ⟨v, rfl, hval, hv⟩ | ⟨x, -, hx⟩
  · exact ⟨v, rfl, hval, closed_of_infer_eq_ok hv, hv⟩
  · exact absurd hx Std.ExtTreeMap.not_mem_empty

end Term

namespace Interpreter

open Term

variable {L : Type}

/-- Programs are safe: evaluation of a program ends only with a closed value of the
    type of the program, so that no run of any term is stuck, and every value that
    a run ends with has the type that comes with it. -/
theorem run_safe (I : Interpreter L) (e : Term L) :
    (∀ t r, e.infer I.operators ∅ = .ok t → Evaluates I.operators I.arity e r →
      ∃ v, r = .ok v ∧ v.isValue = true ∧ v.Closed ∧ v.infer I.operators ∅ = .ok t) ∧
    ∀ depth r, (I.run depth e).run = some r →
      (∀ reason, r ≠ .error (.evaluation reason)) ∧
      ∀ v t, r = .ok (v, t) → v.infer I.operators ∅ = .ok t := by
  constructor
  · intro t r ht h
    exact exists_value_of_evaluates ht h
  · intro depth r hr
    rcases ht : e.infer I.operators ∅ with error | t
    · rw [run_of_infer_error ht] at hr
      cases hr
      exact ⟨nofun, nofun⟩
    · rcases (run_eq_some_iff ht).1 hr with ⟨v, hv, rfl⟩ | ⟨reason, hv, rfl⟩
      · obtain ⟨w, hw, -, -, hinfer⟩ := exists_value_of_evaluates ht ⟨depth, hv⟩
        cases hw
        refine ⟨nofun, ?_⟩
        intro v' t' heq
        cases heq
        exact hinfer
      · -- a program that is stuck would have no value
        obtain ⟨w, hw, -⟩ := exists_value_of_evaluates ht ⟨depth, hv⟩
        cases hw

/-- `succOfDouble` runs to 41, and 41 is an integer. -/
theorem run_safe_succOfDouble :
    succOfDouble.infer standard.operators ∅ = .ok .int ∧
      Evaluates standard.operators standard.arity succOfDouble (.ok (.lit 41)) ∧
      (standard.run 5 succOfDouble).run = some (.ok (.lit 41, .int)) ∧
      (lit 41 : Term Int64).Closed ∧
      (lit 41 : Term Int64).infer standard.operators ∅ = .ok .int := by
  have ht : succOfDouble.infer standard.operators ∅ = .ok .int := by decide +kernel
  have he : Evaluates standard.operators standard.arity succOfDouble (.ok (.lit 41)) :=
    ⟨5, by decide +kernel⟩
  have hr : (standard.run 5 succOfDouble).run = some (.ok (.lit 41, .int)) := by decide +kernel
  obtain ⟨hsafe, hruns⟩ := run_safe standard succOfDouble
  obtain ⟨v, hv, -, hclosed, -⟩ := hsafe .int _ ht he
  cases hv
  exact ⟨ht, he, hr, hclosed, (hruns 5 _ hr).2 _ _ rfl⟩

end Interpreter

end NaryLambda

import NaryLambda.Proofs.Evaluation.Rules
import NaryLambda.Proofs.Interpreter
import NaryLambda.Proofs.Substitution.BindValues
import NaryLambda.Proofs.Typing.FreeVars
import NaryLambda.Proofs.Typing.Inversion

/-!
# Programs have values

A call evaluates the lambda's body with values in it, which may be larger than
the application was, so no measure of terms goes down. Instead each type is read
as a set of values. A value of a function type is a closed lambda that, called on
values of the domains, ends with a value of the range. By induction on the term,
every term ends with a value of its type once values of the parameters' types
are put in for its free variables.

Results:

* `Term.endsIn_bindValues`: a term with a type ends in a value of the type.
* `Interpreter.run_terminates`: programs have values, and every run ends.
-/

namespace NaryLambda

namespace Term

variable {L : Type} {ops : Operators L} {mode : ArityMode}

mutual

/-- The values of a type: the unit, the literals, and the closed lambdas that end
    with a value of the range when they are called on values of the domains. -/
def Reducible (ops : Operators L) (mode : ArityMode) : Ty → Term L → Prop
  | .unit, v => v = .unit
  | .int, v => ∃ n, v = .lit n
  | .fn domains range, v =>
    v.Closed ∧ ∃ params body, v = .lam params body ∧ params.length = domains.length ∧
      ∀ values, ReducibleAll ops mode domains values →
        ∃ w, Evaluates ops mode (body.bindValues params values) (.ok w) ∧
          Reducible ops mode range w

/-- The lists of values of a list of types. -/
def ReducibleAll (ops : Operators L) (mode : ArityMode) : List Ty → List (Term L) → Prop
  | [], values => values = []
  | t :: ts, values =>
    ∃ v vs, values = v :: vs ∧ Reducible ops mode t v ∧ ReducibleAll ops mode ts vs

end

/-- Evaluation ends with a value of the type. -/
def EndsIn (ops : Operators L) (mode : ArityMode) (t : Ty) (e : Term L) : Prop :=
  ∃ v, Evaluates ops mode e (.ok v) ∧ Reducible ops mode t v

/-! ## The values of a type -/

theorem reducibleAll_iff {ts : List Ty} {values : List (Term L)} :
    ReducibleAll ops mode ts values ↔ List.Forall₂ (Reducible ops mode) ts values := by
  induction ts generalizing values with
  | nil => simp [ReducibleAll]
  | cons t ts ih =>
    simp only [ReducibleAll, ih, List.forall₂_cons_left_iff]
    grind

theorem Reducible.isValue {t : Ty} {v : Term L} (h : Reducible ops mode t v) :
    v.isValue = true := by
  cases t with
  | unit =>
    cases h
    rfl
  | int =>
    obtain ⟨n, rfl⟩ := h
    rfl
  | fn domains range =>
    obtain ⟨-, params, body, rfl, -⟩ := h
    rfl

theorem Reducible.closed {t : Ty} {v : Term L} (h : Reducible ops mode t v) : v.Closed := by
  cases t with
  | unit =>
    cases h
    exact fun x => by simp
  | int =>
    obtain ⟨n, rfl⟩ := h
    exact fun x => by simp
  | fn domains range => exact h.1

/-- A value of the type ends in itself. -/
theorem Reducible.endsIn {t : Ty} {v : Term L} (h : Reducible ops mode t v) :
    EndsIn ops mode t v :=
  ⟨v, evaluates_of_isValue h.isValue, h⟩

/-! ## Values for the free variables -/

/-- The values are those of the parameters' types. -/
def Fits (ops : Operators L) (mode : ArityMode) (params : List Param) (values : List (Term L)) :
    Prop :=
  List.Forall₂ (fun p v => Reducible ops mode p.type v) params values

theorem Fits.closed {params : List Param} {values : List (Term L)}
    (h : Fits ops mode params values) : ∀ v ∈ values, v.Closed := by
  intro v hv
  obtain ⟨p, -, hp⟩ := exists_mem_of_forall₂_right h hv
  exact hp.closed

theorem Fits.append {params more : List Param} {values vs : List (Term L)}
    (h : Fits ops mode params values) (hmore : ReducibleAll ops mode (more.map (·.type)) vs) :
    Fits ops mode (params ++ more) (values ++ vs) :=
  List.rel_append h (List.forall₂_map_left_iff.1 (reducibleAll_iff.1 hmore))

/-- In place of a parameter stands a value of the parameter's type. -/
theorem Fits.reducible {params : List Param} {values : List (Term L)}
    (h : Fits ops mode params values) {x : Name} {t : Ty} (ht : paramType? x params = some t) :
    Reducible ops mode t ((var x).bindValues params values) := by
  induction h with
  | nil => cases ht
  | @cons p v params values hv _ ih =>
    by_cases hx : x ∈ paramNames params
    · rw [paramType?_cons_of_mem hx] at ht
      rw [bindValues_var_of_mem hx]
      exact ih ht
    · by_cases hp : p.name = x
      · subst hp
        rw [paramType?_cons_self hx] at ht
        cases ht
        rw [bindValues_var_self hx, bindValues_of_closed hv.closed]
        exact hv
      · rw [paramType?, paramType?_eq_none.2 hx, if_neg hp] at ht
        cases ht

/-- A lambda with a type is a value of it, if its body ends in the range for all
    values of its parameters' types. -/
theorem reducible_lam {outer params : List Param} {values : List (Term L)} {body : Term L}
    {range : Ty} (h : Fits ops mode outer values)
    (hclosed : ((lam params body).bindValues outer values).Closed)
    (hbody : ∀ vs, Fits ops mode (outer ++ params) (values ++ vs) →
      EndsIn ops mode range (body.bindValues (outer ++ params) (values ++ vs))) :
    Reducible ops mode (.fn (params.map (·.type)) range)
      ((lam params body).bindValues outer values) := by
  obtain ⟨b, hlam, hb⟩ := exists_bindValues_lam h.length_eq h.closed params body
  have hlen : params.length = (params.map (·.type)).length := by rw [List.length_map]
  refine ⟨hclosed, params, b, hlam, hlen, ?_⟩
  intro vs hvs
  rw [hb]
  exact hbody vs (h.append hvs)

/-- Values of the parameters' types close every term that has a type under the
    parameters. -/
theorem closed_bindValues {params : List Param} {values : List (Term L)} {e : Term L} {t : Ty}
    (h : Fits ops mode params values) (ht : e.infer ops (.ofParams params) = .ok t) :
    (e.bindValues params values).Closed := by
  have hlam : (lam params e).infer ops ∅ = .ok (.fn (params.map (·.type)) t) :=
    infer_lam_eq_ok.2 ⟨t, ht, rfl⟩
  exact (closed_of_infer_eq_ok hlam).bindValues h.closed h.length_eq

/-- If the callee ends in a function type and the arguments in its domains, the
    application ends in the range. -/
theorem EndsIn.app {callee : Term L} {args : List (Term L)} {domains : List Ty} {range : Ty}
    (hcallee : EndsIn ops mode (.fn domains range) callee)
    (hargs : List.Forall₂ (EndsIn ops mode) domains args) :
    EndsIn ops mode range (app callee args) := by
  obtain ⟨-, hf, -, params, body, rfl, hlen, hcall⟩ := hcallee
  obtain ⟨values, hvalues, hdomains⟩ := exists_forall₂_of_forall₂ hargs
  obtain ⟨w, hw, hr⟩ := hcall values (reducibleAll_iff.2 hdomains)
  refine ⟨w, evaluates_iff.2 (.call hf (hlen.trans hargs.length_eq) hvalues hw), hr⟩

theorem EndsIn.binop {op : Name} {lhs rhs : Term L} (hop : op ∈ ops)
    (hl : EndsIn ops mode .int lhs) (hr : EndsIn ops mode .int rhs) :
    EndsIn ops mode .int (binop op lhs rhs) := by
  obtain ⟨f, hf⟩ := exists_operator hop
  obtain ⟨-, hl, m, rfl⟩ := hl
  obtain ⟨-, hr, n, rfl⟩ := hr
  exact ⟨_, evaluates_iff.2 (.compute hf hl hr), f m n, rfl⟩

/-- A term with a type under the parameters ends in a value of the type, when values
    of the parameters' types are put in. -/
theorem endsIn_bindValues {e : Term L} {t : Ty} {params : List Param} {values : List (Term L)}
    (ht : e.infer ops (.ofParams params) = .ok t) (h : Fits ops mode params values) :
    EndsIn ops mode t (e.bindValues params values) := by
  induction e generalizing t params values with
  | unit =>
    cases ht
    rw [bindValues_unit]
    exact Reducible.endsIn rfl
  | lit n =>
    cases ht
    rw [bindValues_lit]
    exact Reducible.endsIn ⟨n, rfl⟩
  | var x =>
    rw [infer_var_eq_ok, Context.ofParams, Context.getElem?_extend,
      Std.ExtTreeMap.getElem?_empty, Option.or_none] at ht
    exact (h.reducible ht).endsIn
  | lam inner body ih =>
    obtain ⟨range, hbody, rfl⟩ := infer_lam_eq_ok.1 ht
    rw [Context.ofParams, ← Context.extend_append] at hbody
    exact (reducible_lam h (closed_bindValues h ht) fun vs hvs => ih hbody hvs).endsIn
  | app callee args ihc iha =>
    obtain ⟨domains, hcallee, hargs⟩ := infer_app_eq_ok.1 ht
    rw [bindValues_app]
    have hmap : List.Forall₂ (fun a b => b = a.bindValues params values) args
        (args.map (bindValues params values)) :=
      List.forall₂_map_right_iff.2 (List.forall₂_same.2 fun a _ => rfl)
    refine (ihc hcallee h).app (forall₂_of_common hargs hmap fun a ha d b hd hb => ?_)
    rw [hb]
    exact iha a ha hd h
  | binop op lhs rhs ihl ihr =>
    obtain ⟨hl, hr, hop, rfl⟩ := infer_binop_eq_ok.1 ht
    rw [bindValues_binop]
    exact .binop hop (ihl hl h) (ihr hr h)

/-- A program ends in a value of its type. -/
theorem endsIn_of_infer {e : Term L} {t : Ty} (ht : e.infer ops ∅ = .ok t) :
    EndsIn ops mode t e :=
  endsIn_bindValues ht .nil

end Term

namespace Interpreter

open Term

variable {L : Type}

/-- Evaluation of a program ends, and so does the run of every term, with the same
    answer at all depths from some depth on. -/
theorem run_terminates (I : Interpreter L) (e : Term L) :
    (∀ t, e.infer I.operators ∅ = .ok t → ∃ r, Evaluates I.operators I.arity e r) ∧
      ∃ depth r, ∀ d, depth ≤ d → (I.run d e).run = some r := by
  constructor
  · intro t ht
    obtain ⟨v, hv, -⟩ : EndsIn I.operators I.arity t e := endsIn_of_infer ht
    exact ⟨_, hv⟩
  · rcases ht : e.infer I.operators ∅ with error | t
    · exact ⟨0, _, fun d _ => run_of_infer_error ht d⟩
    · obtain ⟨v, ⟨depth, hv⟩, -⟩ : EndsIn I.operators I.arity t e := endsIn_of_infer ht
      exact ⟨depth, _, fun d hd => (run_eq_some_iff ht).2 (.inl ⟨v, eval_mono hd hv, rfl⟩)⟩

/-- `succOfDouble` is a program, so its evaluation ends, and so does its run: with 41. -/
theorem exists_evaluates_succOfDouble :
    succOfDouble.infer standard.operators ∅ = .ok .int ∧
      (∃ r, Evaluates standard.operators standard.arity succOfDouble r ∧ r = .ok (.lit 41)) ∧
      ∃ depth r, (∀ d, depth ≤ d → (standard.run d succOfDouble).run = some r) ∧
        r = .ok (.lit 41, .int) := by
  have ht : succOfDouble.infer standard.operators ∅ = .ok .int := by decide +kernel
  have hvalue : Evaluates standard.operators standard.arity succOfDouble (.ok (.lit 41)) :=
    ⟨5, by decide +kernel⟩
  obtain ⟨hends, depth, r, hrun⟩ := run_terminates standard succOfDouble
  obtain ⟨s, hs⟩ := hends .int ht
  refine ⟨ht, ⟨s, hs, hs.unique hvalue⟩, depth, r, hrun, ?_⟩
  have hdepth := hrun depth (Nat.le_refl depth)
  rcases (run_eq_some_iff ht).1 hdepth with ⟨v, hv, rfl⟩ | ⟨reason, hreason, -⟩
  · obtain rfl : v = .lit 41 := Except.ok.inj (Evaluates.unique ⟨depth, hv⟩ hvalue)
    rfl
  · cases Evaluates.unique ⟨depth, hreason⟩ hvalue

end Interpreter

end NaryLambda

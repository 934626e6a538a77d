import NaryLambda.Proofs.Evaluation.Origin
import NaryLambda.Proofs.Safety.Calls

/-!
# Safety of open terms

A term with free variables may be stuck on one of them. Apart from that it is
safe as long as its calls are undisturbed, and this is all that can be asked of
a call: a disturbed one, made by a term that does nothing else, ends with a
value of another type. Disturbed calls exist. The value of an argument may be a
lambda with a free variable, and a later parameter of that name captures it.

Where no parameter of a term is a free variable of the term, nothing can be captured:
evaluation makes no new parameters then, and brings no new free variables up, so all
calls are undisturbed.

Results:

* `Term.undisturbed_of_notFree`: calls that are undisturbed by the names in them.
* `Term.Apart.of_calls`: in a term whose parameters are no free variables, so are those
  of all calls.
* `Term.safeEnd_of_binders_notFree`: safety of such terms.
* `Term.safeEnd_and_undisturbed_iff`: safety of undisturbed runs, and the calls
  that are undisturbed.
* `Term.capturing_not_safeEnd`: a well-typed term that is stuck on an operand.
-/

namespace NaryLambda

namespace Term

variable {L : Type} {ops : Operators L} {mode : ArityMode} {Γ : Context}

/-- The safe ends of a term of a type: a value of the type, or a free variable of
    the term that the context binds. -/
def SafeEnd (ops : Operators L) (Γ : Context) (e : Term L) (t : Ty) (r : Result L) : Prop :=
  (∃ v, r = .ok v ∧ v.isValue = true ∧ v.infer ops Γ = .ok t) ∨
    ∃ x, r = .error (.free x) ∧ x ∈ Γ ∧ e.occursFree x = true

/-- A well-typed term whose run is undisturbed has a safe end. -/
theorem safeEnd_of_undisturbed {e : Term L} {t : Ty} {r : Result L}
    (ht : e.infer ops Γ = .ok t) (h : Evaluates ops .strict e r)
    (hrun : RunsUndisturbed ops .strict Γ e) : SafeEnd ops Γ e t r := by
  rcases ends_of_undisturbed h ht hrun with hv | ⟨x, rfl, hx⟩
  · exact .inl hv
  · exact .inr ⟨x, rfl, hx, occursFree_of_evaluates (x := x) h rfl⟩

/-! ## Names apart -/

/-- A call is undisturbed if no parameter is free in a value before its own. -/
theorem undisturbed_of_notFree {params : List Param} {values : List (Term L)}
    (h : ∀ (i j : Nat) (v : Term L) (p : Param), i < j → values[i]? = some v →
      params[j]? = some p → v.occursFree p.name = false) : Undisturbed ops Γ params values := by
  induction params generalizing values with
  | nil => trivial
  | cons p params ih =>
    cases values with
    | nil => trivial
    | cons v values =>
      refine ⟨fun _ => infer_congr fun x hx => Context.getElem?_extend_of_notMem Γ fun hmem => ?_,
        ih fun i j w q hlt hw hq => h (i + 1) (j + 1) w q (Nat.succ_lt_succ hlt) hw hq⟩
      obtain ⟨q, hq, rfl⟩ := List.mem_map.1 hmem
      obtain ⟨j, hj⟩ := List.mem_iff_getElem?.1 hq
      rw [h 0 (j + 1) v q (Nat.succ_pos j) rfl hj] at hx
      cases hx

theorem mem_binders_lam {x : Name} {params : List Param} {body : Term L} :
    x ∈ (lam params body).binders ↔ x ∈ paramNames params ∨ x ∈ body.binders := by
  rw [binders, List.mem_append]

theorem mem_binders_app {x : Name} {callee : Term L} {args : List (Term L)} :
    x ∈ (app callee args).binders ↔ x ∈ callee.binders ∨ ∃ a ∈ args, x ∈ a.binders := by
  rw [binders, List.mem_append, List.mem_flatMap]

theorem mem_binders_binop {x op : Name} {lhs rhs : Term L} :
    x ∈ (binop op lhs rhs).binders ↔ x ∈ lhs.binders ∨ x ∈ rhs.binders := by
  rw [binders, List.mem_append]

/-- No parameter is renamed when a term is put in none of whose free variables is a
    parameter. So the parameters afterwards are those of both terms. -/
theorem mem_binders_substitute {e : Term L} {x : Name} {v : Term L}
    (hv : ∀ y ∈ e.binders, v.occursFree y = false) {y : Name}
    (hy : y ∈ (e.substitute x v).binders) : y ∈ e.binders ∨ y ∈ v.binders := by
  induction e with
  | unit | lit n => simp [binders] at hy
  | var z =>
    rw [substitute_var] at hy
    split at hy
    · exact .inr hy
    · exact .inl hy
  | lam params body ih =>
    simp only [mem_binders_lam] at hv ⊢
    by_cases hx : x ∈ paramNames params
    · rw [substitute_of_not_occursFree (by simp [hx]), mem_binders_lam] at hy
      exact .inl hy
    · rw [substitute_lam_of_disjoint (fun y hy => hv y (.inl hy)) hx, mem_binders_lam] at hy
      rw [or_assoc]
      exact hy.imp_right (ih fun y hy => hv y (.inr hy))
  | app callee args ihc iha =>
    simp only [mem_binders_app] at hv ⊢
    rw [substitute_app, mem_binders_app] at hy
    rcases hy with hy | ⟨b, hb, hy⟩
    · exact (ihc (fun y hy => hv y (.inl hy)) hy).imp_left .inl
    · obtain ⟨a, ha, rfl⟩ := List.mem_map.1 hb
      exact (iha a ha (fun y hy => hv y (.inr ⟨a, ha, hy⟩)) hy).imp_left
        fun hy => .inr ⟨a, ha, hy⟩
  | binop op lhs rhs ihl ihr =>
    simp only [mem_binders_binop] at hv ⊢
    rw [substitute_binop, mem_binders_binop] at hy
    rcases hy with hy | hy
    · exact (ihl (fun y hy => hv y (.inl hy)) hy).imp_left .inl
    · exact (ihr (fun y hy => hv y (.inr hy)) hy).imp_left .inr

/-- All free variables of a term are among the names, and none of its parameters is. -/
structure Apart (names : NameSet) (e : Term L) : Prop where
  free : ∀ x, e.occursFree x = true → x ∈ names
  binders : ∀ x ∈ e.binders, x ∉ names

namespace Apart

variable {names : NameSet}

theorem callee {callee : Term L} {args : List (Term L)} (h : Apart names (app callee args)) :
    Apart names callee where
  free x hx := h.free x (occursFree_app_iff.2 (.inl hx))
  binders x hx := h.binders x (mem_binders_app.2 (.inl hx))

theorem arg {callee a : Term L} {args : List (Term L)} (h : Apart names (app callee args))
    (ha : a ∈ args) : Apart names a where
  free x hx := h.free x (occursFree_app_iff.2 (.inr ⟨a, ha, hx⟩))
  binders x hx := h.binders x (mem_binders_app.2 (.inr ⟨a, ha, hx⟩))

theorem lhs {op : Name} {lhs rhs : Term L} (h : Apart names (binop op lhs rhs)) :
    Apart names lhs where
  free x hx := h.free x (occursFree_binop_iff.2 (.inl hx))
  binders x hx := h.binders x (mem_binders_binop.2 (.inl hx))

theorem rhs {op : Name} {lhs rhs : Term L} (h : Apart names (binop op lhs rhs)) :
    Apart names rhs where
  free x hx := h.free x (occursFree_binop_iff.2 (.inr hx))
  binders x hx := h.binders x (mem_binders_binop.2 (.inr hx))

/-- No parameter of a body with values in it is among the names, if none was in the body. -/
theorem binders_bindValues {params : List Param} {values : List (Term L)} {body : Term L}
    (hbody : ∀ x ∈ body.binders, x ∉ names) (hvalues : ∀ v ∈ values, Apart names v) :
    ∀ x ∈ (body.bindValues params values).binders, x ∉ names := by
  induction params generalizing values body with
  | nil => exact hbody
  | cons p params ih =>
    cases values with
    | nil => exact hbody
    | cons v values =>
      obtain ⟨hv, hvalues⟩ := List.forall_mem_cons.1 hvalues
      rw [bindValues]
      refine ih ?_ hvalues
      split
      · exact hbody
      · intro x hx
        refine (mem_binders_substitute (fun y hy => ?_) hx).elim (hbody x) (hv.binders x)
        rw [Bool.eq_false_iff]
        exact fun hfree => hbody y hy (hv.free y hfree)

theorem bindValues {params : List Param} {values : List (Term L)} {body : Term L}
    (hlam : Apart names (lam params body)) (hvalues : ∀ v ∈ values, Apart names v)
    (hlen : params.length = values.length) : Apart names (body.bindValues params values) where
  free x hx := by
    rcases occursFree_bindValues hlen hx with hx | ⟨v, hv, hx⟩
    · exact hlam.free x hx
    · exact (hvalues v hv).free x hx
  binders := binders_bindValues (fun x hx => hlam.binders x (mem_binders_lam.2 (.inr hx))) hvalues

/-- Terms that are not apart from the names have it from their parts. -/
theorem fromParts_not (names : NameSet) :
    FromParts .strict (fun e : Term L => ¬ Apart names e)
      fun r => ∃ v, r = .ok v ∧ ¬ Apart names v where
  callee h happ := h happ.callee
  arg ha h happ := h (happ.arg ha)
  lhs h hop := h hop.lhs
  rhs h hop := h hop.rhs
  lit h := h ⟨by simp, by simp [Term.binders]⟩
  call hlen h := by
    by_contra hc
    rw [not_or, not_not] at hc
    refine h (hc.1.bindValues (fun v hv => ?_) (hlen rfl))
    by_contra hne
    exact hc.2 ⟨v, hv, hne⟩
  ok := by simp
  free := by simp
  notLambda := by simp
  arity := by simp
  unknownOperator := by simp
  operand := by simp

/-- The values of a term that is apart from the names are apart from them, too. -/
theorem of_evaluates {e v : Term L} (h : Apart names e) (he : Evaluates ops .strict e (.ok v)) :
    Apart names v := by
  by_contra hv
  exact (fromParts_not names).of_evaluates he ⟨v, rfl, hv⟩ h

theorem of_args {callee : Term L} {args values : List (Term L)} (h : Apart names (app callee args))
    (hargs : List.Forall₂ (fun a v => Evaluates ops .strict a (.ok v)) args values) :
    ∀ v ∈ values, Apart names v := by
  intro v hv
  obtain ⟨a, ha, hav⟩ := exists_mem_of_forall₂_right hargs hv
  exact (h.arg ha).of_evaluates hav

/-- All that is called and supplied in the evaluation of a term is apart from the names, if
    the term is. -/
theorem of_calls {e : Term L} {params : List Param} {values : List (Term L)}
    (hc : Calls ops .strict e params values) (h : Apart names e) :
    (∀ x ∈ paramNames params, x ∉ names) ∧ ∀ v ∈ values, Apart names v := by
  induction hc with
  | @here callee body params args values hcallee _ hargs =>
    have hlam := h.callee.of_evaluates hcallee
    exact ⟨fun x hx => hlam.binders x (mem_binders_lam.2 (.inl hx)), h.of_args hargs⟩
  | callee _ ih => exact ih h.callee
  | @arg callee body a ps params args before after values _ _ htake _ _ ih =>
    exact ih (h.arg (List.mem_of_mem_take (i := ps.length) (by simp [htake])))
  | @body callee body ps params args vs values hcallee hlen hargs _ ih =>
    have hlam := h.callee.of_evaluates hcallee
    exact ih (hlam.bindValues (h.of_args hargs) (hlen.trans hargs.length_eq))
  | lhs _ _ ih => exact ih h.lhs
  | rhs _ _ _ ih => exact ih h.rhs

end Apart

/-- A well-typed term none of whose parameters is a free variable of it has a safe end. -/
theorem safeEnd_of_binders_notFree {e : Term L} {t : Ty} {r : Result L}
    (ht : e.infer ops Γ = .ok t) (h : Evaluates ops .strict e r)
    (hnames : ∀ x ∈ e.binders, e.occursFree x = false) : SafeEnd ops Γ e t r := by
  have hapart : Apart e.freeVars e := by
    refine ⟨fun x hx => mem_freeVars.2 hx, fun x hx hfree => ?_⟩
    rw [mem_freeVars, hnames x hx] at hfree
    cases hfree
  refine safeEnd_of_undisturbed ht h fun params values hc _ => ?_
  obtain ⟨hparams, hvalues⟩ := hapart.of_calls hc
  refine undisturbed_of_notFree fun i j v p _ hv hp => ?_
  rw [Bool.eq_false_iff]
  intro hfree
  have hname : p.name ∈ paramNames params := List.mem_map_of_mem (List.mem_of_getElem? hp)
  exact hparams p.name hname ((hvalues v (List.mem_of_getElem? hv)).free p.name hfree)

/-! ## Terms that make one call -/

/-- A value makes no call. -/
theorem not_calls_of_isValue {v : Term L} (hv : v.isValue = true) {params : List Param}
    {values : List (Term L)} : ¬ Calls ops mode v params values := by
  intro h
  cases h <;> cases hv

/-- A lambda on values makes one call, if its body with the values in it is a value. -/
theorem eq_of_calls {params ps : List Param} {values vs : List (Term L)} {body : Term L}
    (hvalues : ∀ v ∈ values, v.isValue = true)
    (hbody : (body.bindValues params values).isValue = true)
    (h : Calls ops mode (app (lam params body) values) ps vs) : ps = params ∧ vs = values := by
  cases h with
  | here hcallee _ hargs =>
    cases eq_of_evaluates_value rfl hcallee
    exact ⟨rfl, eq_of_evaluate_values hvalues hargs⟩
  | callee h => exact absurd h (not_calls_of_isValue rfl)
  | @arg _ _ a _ _ _ _ _ _ _ _ htake _ h =>
    have ha : a ∈ values := List.mem_of_mem_take (by rw [htake]; simp)
    exact absurd h (not_calls_of_isValue (hvalues a ha))
  | body hcallee _ hargs h =>
    cases eq_of_evaluates_value rfl hcallee
    cases eq_of_evaluate_values hvalues hargs
    exact absurd h (not_calls_of_isValue hbody)

/-- A lambda on values of the parameters' types has the type of its body. -/
theorem infer_call {params : List Param} {values : List (Term L)} {body : Term L} {t : Ty}
    (hs : Supplied ops Γ params values) (hbody : body.infer ops (Γ.extend params) = .ok t) :
    (app (lam params body) values).infer ops Γ = .ok t := by
  refine infer_app_eq_ok.2 ⟨params.map (·.type), infer_lam_eq_ok.2 ⟨t, hbody, rfl⟩, ?_⟩
  exact List.forall₂_map_right_iff.2 (hs.flip.imp fun v p hv => hv.2)

/-- A lambda on values ends as its body with the values in it. -/
theorem evaluates_call {params : List Param} {values : List (Term L)} {body : Term L}
    {r : Result L} (hs : Supplied ops Γ params values)
    (h : Evaluates ops mode (body.bindValues params values) r) :
    Evaluates ops mode (app (lam params body) values) r := by
  have hvalues : List.Forall₂ (fun v w => Evaluates ops mode v (.ok w)) values values := by
    refine List.forall₂_same.2 fun v hv => ?_
    obtain ⟨p, -, hp⟩ := exists_mem_of_forall₂_right hs hv
    exact evaluates_of_isValue hp.1
  exact evaluates_iff.2 (.call (evaluates_of_isValue rfl) hs.length_eq hvalues h)

/-- A disturbed call is the only call of a well-typed term that ends with a value of
    another type. -/
theorem exists_not_safeEnd {params : List Param} {values : List (Term L)}
    (hs : Supplied ops Γ params values) (hu : ¬ Undisturbed ops Γ params values) :
    ∃ e t r, e.infer ops Γ = .ok t ∧ Evaluates ops mode e r ∧
      (∀ ps vs, Calls ops mode e ps vs → ps = params ∧ vs = values) ∧ ¬ SafeEnd ops Γ e t r := by
  obtain ⟨x, t, hx, hval, hne⟩ := infer_bindValues_var_ne hs hu
  have hbody : (var x : Term L).infer ops (Γ.extend params) = .ok t := by
    rw [infer_var_eq_ok, Context.getElem?_extend, hx, Option.some_or]
  have hvalues : ∀ v ∈ values, v.isValue = true := by
    intro v hv
    obtain ⟨p, -, hp⟩ := exists_mem_of_forall₂_right hs hv
    exact hp.1
  refine ⟨_, t, _, infer_call hs hbody, evaluates_call hs (evaluates_of_isValue hval),
    fun ps vs h => eq_of_calls hvalues hval h, ?_⟩
  rintro (⟨v, hv, -, hinfer⟩ | ⟨y, hy, -⟩)
  · cases hv
    exact hne hinfer
  · cases hy

/-! ## Safety -/

/-- A well-typed term whose calls are all undisturbed has a safe end. A call of
    values of the parameters' types is undisturbed iff all well-typed terms that make
    no other call have safe ends. -/
theorem safeEnd_and_undisturbed_iff (ops : Operators L) (Γ : Context) :
    (∀ e t r, e.infer ops Γ = .ok t → Evaluates ops .strict e r →
      RunsUndisturbed ops .strict Γ e → SafeEnd ops Γ e t r) ∧
    ∀ params values, Supplied ops Γ params values →
      (Undisturbed ops Γ params values ↔
        ∀ e t r, e.infer ops Γ = .ok t → Evaluates ops .strict e r →
          (∀ ps vs, Calls ops .strict e ps vs → ps = params ∧ vs = values) →
          SafeEnd ops Γ e t r) := by
  constructor
  · intro e t r ht he hrun
    exact safeEnd_of_undisturbed ht he hrun
  · intro params values hs
    constructor
    · intro hu e t r ht he hcalls
      have hrun : RunsUndisturbed ops .strict Γ e := by
        intro ps vs hc _
        obtain ⟨rfl, rfl⟩ := hcalls ps vs hc
        exact hu
      exact safeEnd_of_undisturbed ht he hrun
    · intro h
      by_contra hu
      obtain ⟨e, t, r, ht, he, hcalls, hne⟩ := exists_not_safeEnd hs hu
      exact hne (h e t r ht he hcalls)

/-- A context with one variable, an integer. -/
def oneInt : Context := (∅ : Context).extend [⟨"x", .int⟩]

/-- `(\g: (int) -> int, y: (). g)[\z: int. x, ()]`: the second parameter is not the
    free variable of the first argument. -/
def constant : Term Int64 :=
  .app (.lam [⟨"g", .fn [.int] .int⟩, ⟨"y", .unit⟩] (.var "g"))
    [.lam [⟨"z", .int⟩] (.var "x"), .unit]

/-- The one call of `constant` is undisturbed, and its end is safe. -/
theorem safeEnd_constant :
    constant.infer .standard oneInt = .ok (.fn [.int] .int) ∧
      Evaluates .standard .strict constant (.ok (.lam [⟨"z", .int⟩] (.var "x"))) ∧
      RunsUndisturbed .standard .strict oneInt constant ∧
      SafeEnd .standard oneInt constant (.fn [.int] .int)
        (.ok (.lam [⟨"z", .int⟩] (.var "x"))) := by
  have ht : constant.infer .standard oneInt = .ok (.fn [.int] .int) := by decide +kernel
  have he : Evaluates .standard .strict constant (.ok (.lam [⟨"z", .int⟩] (.var "x"))) :=
    ⟨3, by decide +kernel⟩
  have hrun : RunsUndisturbed .standard .strict oneInt constant := by
    intro ps vs hc _
    obtain ⟨rfl, rfl⟩ := eq_of_calls (by decide) (by decide +kernel) hc
    exact ⟨fun _ => by decide +kernel, fun _ => by decide +kernel, trivial⟩
  exact ⟨ht, he, hrun, (safeEnd_and_undisturbed_iff .standard oneInt).1 _ _ _ ht he hrun⟩

/-- `(\f: () -> int, x: (). f() + 1)[\. x, ()]`: the second parameter is the free
    variable of the first argument. -/
def capturing : Term Int64 :=
  .app (.lam [⟨"f", .fn [] .int⟩, ⟨"x", .unit⟩] (.binop "+" (.app (.var "f") []) (.lit 1)))
    [.lam [] (.var "x"), .unit]

/-- Not every well-typed term has a safe end: `capturing` has the integer type and is
    stuck on an operand. -/
theorem capturing_not_safeEnd :
    capturing.infer .standard oneInt = .ok .int ∧
      Evaluates .standard .strict capturing (.error (.operand "+" .unit)) ∧
      ¬ SafeEnd .standard oneInt capturing .int (.error (.operand "+" .unit)) := by
  refine ⟨by decide +kernel, ⟨4, by decide +kernel⟩, ?_⟩
  rintro (⟨v, hv, -⟩ | ⟨x, hx, -⟩)
  · cases hv
  · cases hx

end Term

end NaryLambda

import NaryLambda.Proofs.Evaluation.Arguments
import NaryLambda.Proofs.Evaluation.Origin
import NaryLambda.Proofs.Reduction.Evaluation
import NaryLambda.Proofs.Typing.Inversion
import NaryLambda.Term.Transform

/-!
# Curried forms

A lambda of several parameters, applied to as many arguments, against lambdas of
one parameter each, applied to one argument after another. Both have the same
types, since a context extended by the parameters in one go is the context
extended by each in turn. And with closed arguments both end alike: the value of
the first argument goes into the body, past all parameters that remain, unless
one of these has the name. On the one side the rest of the loop over the
arguments remains, on the other side the rest of the applications.

Results:

* `Term.infer_curriedLam`, `Term.infer_curriedApp`: the types of curried forms.
* `Term.substitute_curriedLam`: a closed term put in past curried parameters.
* `Term.evaluates_app_cons`: a call after its first argument.
* `Term.curried_agrees`: the types and the ends of the two forms.
-/

namespace NaryLambda

/-! ## Curried types -/

/-- Nested function types of one domain each, the first one outermost. -/
def Ty.curried (domains : List Ty) (range : Ty) : Ty :=
  domains.foldr (fun d t => .fn [d] t) range

@[simp] theorem Ty.curried_nil (range : Ty) : curried [] range = range := rfl

@[simp] theorem Ty.curried_cons (d : Ty) (domains : List Ty) (range : Ty) :
    curried (d :: domains) range = .fn [d] (curried domains range) := rfl

/-- Curried types of as many domains are the same only if their parts are. -/
theorem Ty.curried_inj {ds es : List Ty} {t u : Ty} (hlen : ds.length = es.length)
    (h : curried ds t = curried es u) : ds = es ∧ t = u := by
  induction ds generalizing es with
  | nil =>
    obtain rfl := List.length_eq_zero_iff.1 hlen.symm
    exact ⟨rfl, h⟩
  | cons d ds ih =>
    cases es with
    | nil => cases hlen
    | cons e es =>
      obtain ⟨hd, h⟩ := Ty.fn.inj h
      obtain ⟨rfl, rfl⟩ := ih (Nat.succ.inj hlen) h
      exact ⟨by rw [List.singleton_inj.1 hd], rfl⟩

namespace Term

variable {L : Type} {ops : Operators L} {mode : ArityMode}

@[simp] theorem curriedLam_nil (body : Term L) : curriedLam [] body = body := rfl

@[simp] theorem curriedLam_cons (p : Param) (params : List Param) (body : Term L) :
    curriedLam (p :: params) body = lam [p] (curriedLam params body) := rfl

@[simp] theorem curriedApp_nil (callee : Term L) : curriedApp callee [] = callee := rfl

@[simp] theorem curriedApp_cons (callee a : Term L) (args : List (Term L)) :
    curriedApp callee (a :: args) = curriedApp (app callee [a]) args := rfl

/-! ## Types -/

theorem infer_curriedLam {Γ : Context} {params : List Param} {body : Term L} {t : Ty} :
    (curriedLam params body).infer ops Γ = .ok t ↔
      ∃ range, body.infer ops (Γ.extend params) = .ok range ∧
        t = Ty.curried (params.map (·.type)) range := by
  induction params generalizing Γ t with
  | nil => simp
  | cons p params ih =>
    rw [curriedLam_cons, infer_lam_eq_ok]
    constructor
    · rintro ⟨_, hlam, rfl⟩
      obtain ⟨range, hbody, rfl⟩ := ih.1 hlam
      exact ⟨range, hbody, rfl⟩
    · rintro ⟨range, hbody, rfl⟩
      exact ⟨_, ih.2 ⟨range, hbody, rfl⟩, rfl⟩

theorem infer_curriedApp {Γ : Context} {callee : Term L} {args : List (Term L)} {t : Ty} :
    (curriedApp callee args).infer ops Γ = .ok t ↔
      ∃ domains, callee.infer ops Γ = .ok (Ty.curried domains t) ∧
        List.Forall₂ (fun a d => a.infer ops Γ = .ok d) args domains := by
  induction args generalizing callee with
  | nil => simp
  | cons a args ih =>
    rw [curriedApp_cons, ih]
    constructor
    · rintro ⟨domains, happ, hargs⟩
      obtain ⟨_, hcallee, ha⟩ := infer_app_eq_ok.1 happ
      cases ha with
      | @cons _ d _ _ had hnil =>
        cases hnil
        exact ⟨d :: domains, hcallee, .cons had hargs⟩
    · rintro ⟨_, hcallee, _ | ⟨had, hargs⟩⟩
      exact ⟨_, infer_app_eq_ok.2 ⟨_, hcallee, .cons had .nil⟩, hargs⟩

/-- A lambda applied to arguments has the type of its body, if the arguments have the
    types of its parameters. -/
theorem infer_app_lam_eq_ok {Γ : Context} {params : List Param} {body : Term L}
    {args : List (Term L)} {t : Ty} :
    (app (lam params body) args).infer ops Γ = .ok t ↔
      body.infer ops (Γ.extend params) = .ok t ∧
        List.Forall₂ (fun a d => a.infer ops Γ = .ok d) args (params.map (·.type)) := by
  rw [infer_app_eq_ok]
  constructor
  · rintro ⟨domains, hlam, hargs⟩
    obtain ⟨range, hbody, h⟩ := infer_lam_eq_ok.1 hlam
    obtain ⟨rfl, rfl⟩ := Ty.fn.inj h
    exact ⟨hbody, hargs⟩
  · rintro ⟨hbody, hargs⟩
    exact ⟨_, infer_lam_eq_ok.2 ⟨t, hbody, rfl⟩, hargs⟩

/-- Curried lambdas applied to as many arguments have the type of the body, under the same
    condition. -/
theorem infer_curried_eq_ok {Γ : Context} {params : List Param} {body : Term L}
    {args : List (Term L)} {t : Ty} (hlen : params.length = args.length) :
    (curriedApp (curriedLam params body) args).infer ops Γ = .ok t ↔
      body.infer ops (Γ.extend params) = .ok t ∧
        List.Forall₂ (fun a d => a.infer ops Γ = .ok d) args (params.map (·.type)) := by
  rw [infer_curriedApp]
  constructor
  · rintro ⟨domains, hlam, hargs⟩
    obtain ⟨range, hbody, h⟩ := infer_curriedLam.1 hlam
    have hdomains : domains.length = (params.map (·.type)).length := by
      rw [List.length_map, hlen, hargs.length_eq]
    obtain ⟨rfl, rfl⟩ := Ty.curried_inj hdomains h
    exact ⟨hbody, hargs⟩
  · rintro ⟨hbody, hargs⟩
    exact ⟨_, infer_curriedLam.2 ⟨t, hbody, rfl⟩, hargs⟩

/-! ## Terms without a value -/

/-- An application whose callee has no value ends as the callee does. -/
theorem evaluates_app_of_callee {callee : Term L} (hnone : ∀ v, ¬ Evaluates ops mode callee (.ok v))
    (args : List (Term L)) (r : Result L) :
    Evaluates ops mode (app callee args) r ↔ Evaluates ops mode callee r := by
  constructor
  · intro h
    rw [evaluates_iff] at h
    cases h with
    | value hv => cases hv
    | callee hc => exact hc
    | notLambda hc | arity hc | arg hc | call hc | residual hc => exact absurd hc (hnone _)
  · intro h
    cases r with
    | ok v => exact absurd h (hnone v)
    | error reason => exact evaluates_iff.2 (.callee h)

/-- Applications one after another end as the innermost callee does, if it has no value. -/
theorem evaluates_curriedApp_of_callee {callee : Term L}
    (hnone : ∀ v, ¬ Evaluates ops mode callee (.ok v)) (args : List (Term L)) (r : Result L) :
    Evaluates ops mode (curriedApp callee args) r ↔ Evaluates ops mode callee r := by
  induction args generalizing callee with
  | nil => rfl
  | cons a args ih =>
    have happ := evaluates_app_of_callee hnone [a]
    rw [curriedApp_cons, ih fun v hv => hnone v ((happ _).1 hv), happ]

/-- A call whose first argument has no value ends as this argument does. -/
theorem evaluates_app_of_first {p : Param} {params : List Param} {body a : Term L}
    {args : List (Term L)} (hnone : ∀ v, ¬ Evaluates ops mode a (.ok v))
    (hlen : params.length = args.length) (r : Result L) :
    Evaluates ops mode (app (lam (p :: params) body) (a :: args)) r ↔ Evaluates ops mode a r := by
  have hlam : Evaluates ops mode (lam (p :: params) body) (.ok (lam (p :: params) body)) :=
    evaluates_of_isValue rfl
  have hfirst : ∀ {n : Nat} {values : List (Term L)}, ¬ List.Forall₂
      (fun a v => Evaluates ops mode a (.ok v)) (List.take (n + 1) (a :: args)) values := by
    intro n values h
    cases h with
    | cons ha => exact hnone _ ha
  constructor
  · intro h
    rw [evaluates_iff] at h
    cases h with
    | value hv => cases hv
    | callee hc => cases hc.unique hlam
    | notLambda hc hne =>
      cases hc.unique hlam
      exact absurd rfl (hne _ _)
    | arity hc hne =>
      cases hc.unique hlam
      exact absurd (congrArg (· + 1) hlen) hne
    | @arg _ _ _ _ _ before _ _ _ hc _ htake hbefore ha =>
      cases hc.unique hlam
      cases before with
      | nil =>
        obtain ⟨rfl, -⟩ := List.cons.inj htake
        exact ha
      | cons b before =>
        obtain ⟨rfl, -⟩ := List.cons.inj htake
        cases hbefore with
        | cons hb => exact absurd hb (hnone _)
    | call hc _ hargs =>
      rw [← List.take_length (l := a :: args)] at hargs
      exact absurd hargs hfirst
    | residual hc _ _ hargs =>
      cases hc.unique hlam
      exact absurd hargs hfirst
  · intro h
    cases r with
    | ok v => exact absurd h (hnone v)
    | error reason =>
      have htake : List.take (p :: params).length (a :: args) = [] ++ a :: args := by
        rw [List.length_cons, hlen, ← List.length_cons (a := a), List.take_length]
        rfl
      exact evaluates_iff.2 (.arg hlam (fun _ => congrArg (· + 1) hlen) htake .nil h)

/-! ## One argument at a time -/

/-- A closed term goes past curried parameters into the body, if none of them has the
    name. -/
theorem substitute_curriedLam {v : Term L} (hv : v.Closed) (x : Name) (params : List Param)
    (body : Term L) :
    (curriedLam params body).substitute x v =
      curriedLam params (if x ∈ paramNames params then body else body.substitute x v) := by
  induction params with
  | nil => rfl
  | cons p params ih =>
    rw [curriedLam_cons, curriedLam_cons]
    by_cases hx : x = p.name
    · have hbound : (lam [p] (curriedLam params body)).occursFree x = false := by simp [hx]
      rw [substitute_of_not_occursFree hbound, if_pos (by simp [hx])]
    · have hne : x ∉ paramNames [p] := by simpa using hx
      rw [substitute_lam_of_closed hv hne, ih]
      simp only [paramNames_cons, List.mem_cons, hx, false_or]

/-- After its first argument a call goes on as a call of the parameters that remain, over
    the body with the value in it. -/
theorem evaluates_app_cons {p : Param} {params : List Param} {body a v : Term L}
    {args : List (Term L)} (ha : Evaluates ops mode a (.ok v))
    (hlen : params.length = args.length) (r : Result L) :
    Evaluates ops mode (app (lam (p :: params) body) (a :: args)) r ↔
      Evaluates ops mode (app (lam params
        (if p.name ∈ paramNames params then body else body.substitute p.name v)) args) r := by
  have hlam : ∀ ps b, Evaluates ops mode (lam ps b) (.ok (lam ps b)) :=
    fun ps b => evaluates_of_isValue rfl
  obtain ⟨c, hc⟩ := (hlam (p :: params) body).eventually
  obtain ⟨c', hc'⟩ := (hlam params
    (if p.name ∈ paramNames params then body else body.substitute p.name v)).eventually
  obtain ⟨d, hd⟩ := ha.eventually
  refine evaluates_congr_of_run (m := 1) (n := 1) (d := max d (max c c')) (fun depth hle => ?_) r
  rw [run_eval_app_of_passes (hc depth (by omega)) fun _ => congrArg (· + 1) hlen,
    run_eval_app_of_passes (hc' depth (by omega)) fun _ => hlen, passArguments, bind_assoc,
    ExceptT.run_bind (eval ops mode depth a), hd depth (by omega)]
  simp only [List.length_cons, hlen]
  rfl

/-- A call of one parameter ends as its body does with the value in it. -/
theorem evaluates_app_single {p : Param} {body a v : Term L} (ha : Evaluates ops mode a (.ok v))
    (r : Result L) :
    Evaluates ops mode (app (lam [p] body) [a]) r ↔
      Evaluates ops mode (body.substitute p.name v) r := by
  rw [evaluates_app_iff_bindValues (evaluates_of_isValue rfl) (.cons ha .nil) rfl]
  rfl

/-- Applications one after another end alike if their innermost callees do. -/
theorem evaluates_curriedApp_congr {callee callee' : Term L}
    (h : ∀ r, Evaluates ops mode callee r ↔ Evaluates ops mode callee' r) (args : List (Term L))
    (r : Result L) :
    Evaluates ops mode (curriedApp callee args) r ↔
      Evaluates ops mode (curriedApp callee' args) r := by
  induction args generalizing callee callee' with
  | nil => exact h r
  | cons a args ih =>
    have hself : List.Forall₂ (EndsAs ops mode) [a] [a] := .cons (.refl a) .nil
    exact ih fun s => ⟨evaluates_app_congr (fun r => (h r).1) hself s,
      evaluates_app_congr (fun r => (h r).2) hself s⟩

/-! ## The two forms -/

/-- With closed arguments a call of several parameters ends as calls of one parameter one
    after another do. -/
theorem evaluates_curried {params : List Param} {args : List (Term L)}
    (hlen : params.length = args.length) (hclosed : ∀ a ∈ args, a.Closed) (body : Term L)
    (r : Result L) :
    Evaluates ops .strict (app (lam params body) args) r ↔
      Evaluates ops .strict (curriedApp (curriedLam params body) args) r := by
  induction params generalizing args body with
  | nil =>
    obtain rfl := List.length_eq_zero_iff.1 hlen.symm
    exact evaluates_app_iff_bindValues (evaluates_of_isValue rfl) .nil rfl r
  | cons p params ih =>
    cases args with
    | nil => cases hlen
    | cons a args =>
      have hlen : params.length = args.length := Nat.succ.inj hlen
      obtain ⟨hca, hclosed⟩ := List.forall_mem_cons.1 hclosed
      rw [curriedLam_cons, curriedApp_cons]
      by_cases hvalue : ∃ v, Evaluates ops .strict a (.ok v)
      · obtain ⟨v, ha⟩ := hvalue
        have hcurried : ∀ s,
            Evaluates ops .strict (app (lam [p] (curriedLam params body)) [a]) s ↔
              Evaluates ops .strict ((curriedLam params body).substitute p.name v) s :=
          evaluates_app_single ha
        rw [substitute_curriedLam (ha.closed hca)] at hcurried
        rw [evaluates_app_cons ha hlen, ih hlen hclosed]
        exact (evaluates_curriedApp_congr hcurried args r).symm
      · -- the first argument is the end of both forms
        have hnone := not_exists.1 hvalue
        have hcallee : ∀ s, Evaluates ops .strict (app (lam [p] (curriedLam params body)) [a]) s ↔
            Evaluates ops .strict a s := evaluates_app_of_first hnone rfl
        rw [evaluates_app_of_first hnone hlen,
          evaluates_curriedApp_of_callee fun v hv => hnone v ((hcallee _).1 hv), hcallee]

/-- **Several parameters are parameters one after another.** A lambda applied to as many
    arguments as it has parameters has the types of its curried form, in every context. And
    if the arguments are closed, both end alike in the strict mode: with the same value,
    stuck for the same reason, or not at all. -/
theorem curried_agrees {params : List Param} {args : List (Term L)}
    (hlen : params.length = args.length) (body : Term L) (ops : Operators L) :
    (∀ Γ t, (app (lam params body) args).infer ops Γ = .ok t ↔
      (curriedApp (curriedLam params body) args).infer ops Γ = .ok t) ∧
    ((∀ a ∈ args, a.Closed) → ∀ r, Evaluates ops .strict (app (lam params body) args) r ↔
      Evaluates ops .strict (curriedApp (curriedLam params body) args) r) :=
  ⟨fun _ _ => infer_app_lam_eq_ok.trans (infer_curried_eq_ok hlen).symm,
    fun hclosed r => evaluates_curried hlen hclosed body r⟩

/-- `\. f(y - x)`, with terms for `y` and `x`. -/
def delayedDifference (y x : Term Int64) : Term Int64 :=
  .lam [] (.app (.var "f") [.binop "-" y x])

/-- The body keeps its free `f`, and both forms forget the first argument, since the third
    parameter is another `x`. With an unknown operator and an application of a number for the
    last two arguments, both forms stop at the operator. -/
theorem curried_agrees_delayedDifference :
    let body := delayedDifference (.var "y") (.var "x")
    let Γ := (∅ : Context).extend [⟨"f", .fn [.int] .unit⟩]
    let sums : List (Term Int64) := [.lit 1, .binop "+" (.lit 2) (.lit 2), .lit 3]
    let faults : List (Term Int64) := [.lit 1, .binop "%" (.lit 2) (.lit 2), .app (.lit 3) []]
    (firstShadowed.length = sums.length ∧ (∀ a ∈ sums, a.Closed) ∧
      (app (lam firstShadowed body) sums).infer .standard Γ = .ok (.fn [] .unit) ∧
      (curriedApp (curriedLam firstShadowed body) sums).infer .standard Γ = .ok (.fn [] .unit) ∧
      Evaluates .standard .strict (app (lam firstShadowed body) sums)
        (.ok (delayedDifference (.lit 4) (.lit 3))) ∧
      Evaluates .standard .strict (curriedApp (curriedLam firstShadowed body) sums)
        (.ok (delayedDifference (.lit 4) (.lit 3)))) ∧
    firstShadowed.length = faults.length ∧ (∀ a ∈ faults, a.Closed) ∧
      Evaluates .standard .strict (app (lam firstShadowed body) faults)
        (.error (.unknownOperator "%")) ∧
      Evaluates .standard .strict (curriedApp (curriedLam firstShadowed body) faults)
        (.error (.unknownOperator "%")) := by
  intro body Γ sums faults
  have hthree : firstShadowed.length = sums.length := rfl
  have hthree' : firstShadowed.length = faults.length := rfl
  have hsums : ∀ a ∈ sums, a.Closed := by decide +kernel
  have hfaults : ∀ a ∈ faults, a.Closed := by decide +kernel
  have ht : (app (lam firstShadowed body) sums).infer .standard Γ = .ok (.fn [] .unit) := by
    decide +kernel
  have hok : Evaluates .standard .strict (app (lam firstShadowed body) sums)
      (.ok (delayedDifference (.lit 4) (.lit 3))) := ⟨3, by decide +kernel⟩
  have herror : Evaluates .standard .strict (app (lam firstShadowed body) faults)
      (.error (.unknownOperator "%")) := ⟨3, by decide +kernel⟩
  obtain ⟨htypes, hends⟩ := curried_agrees hthree body .standard
  obtain ⟨-, hstops⟩ := curried_agrees hthree' body .standard
  exact ⟨⟨hthree, hsums, ht, (htypes Γ _).1 ht, hok, (hends hsums _).1 hok⟩,
    hthree', hfaults, herror, (hstops hfaults _).1 herror⟩

end Term

end NaryLambda

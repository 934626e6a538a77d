import NaryLambda.Proofs.Evaluation.Rules
import NaryLambda.Proofs.Substitution.Instantiate
import NaryLambda.Proofs.Typing.AlphaEquiv

/-!
# Inlining

A lambda of one parameter, applied to a program, may be replaced by its body with
the program itself, unevaluated, in place of the parameter. The application runs
the program once, before the body. The body with the program in it runs it wherever
the parameter is needed: in the body of a lambda that is called many times, or
never at all. So the two runs go through different terms, and lambdas that they end
with are not the same.

What the runs have in common is given by the type. Values of a base type are alike
if they are the same. Lambdas are alike if calls on values that are alike end in
values that are alike. What is put in for a free variable need not be a value: two
closed terms will do that end in values that are alike, such as a program and its
value. By induction on the term, a term with such terms put in ends alike on both
sides.

Results:

* `Term.endsAlike_instantiate`: a term with terms put in that end alike.
* `Term.EndsAlike.substitute`: terms that end alike take each other's place.
* `Term.endsAlike_inlined`: inlining, at every type.
* `Term.evaluates_inlined`: inlining in programs of a base type.
-/

namespace NaryLambda

variable {L : Type} {ops : Operators L} {mode : ArityMode}

/-- All terms that a call puts in are closed, if its values are. -/
theorem Assignment.closed_assignment {params : List Param} {values : List (Term L)}
    (h : ∀ v ∈ values, v.Closed) : Closed (assignment params values) := by
  intro x v hv
  rw [lookup_assignment, Option.bind_eq_some_iff] at hv
  obtain ⟨i, -, hi⟩ := hv
  exact h v (List.mem_of_getElem? hi)

namespace Term

/-- With closed terms for all names of a context, a term that has a type in it gets
    closed. -/
theorem closed_instantiate_of_infer {e : Term L} {Γ : Context} {t : Ty} {σ : Assignment L}
    (ht : e.infer ops Γ = .ok t) (hσ : σ.Closed) (hlookup : ∀ x ∈ Γ, σ.lookup x ≠ none) :
    (e.instantiate σ).Closed := by
  intro x
  rw [Bool.eq_false_iff, ne_eq, occursFree_instantiate hσ]
  rintro ⟨hx, hnone⟩
  exact hlookup x (mem_of_infer_eq_ok ht hx) hnone

/-! ## Values that are alike -/

/-- Evaluation of both terms ends, and the values are related. -/
def EndBoth (ops : Operators L) (mode : ArityMode) (R : Term L → Term L → Prop)
    (d e : Term L) : Prop :=
  ∃ v w, Evaluates ops mode d (.ok v) ∧ Evaluates ops mode e (.ok w) ∧ R v w

mutual

/-- Values of a type that are alike: the unit, the same literal, or closed lambdas
    whose calls on values that are alike end in values that are alike. -/
def Alike (ops : Operators L) (mode : ArityMode) : Ty → Term L → Term L → Prop
  | .unit, v, w => v = .unit ∧ w = .unit
  | .int, v, w => ∃ n, v = .lit n ∧ w = .lit n
  | .fn domains range, v, w =>
    (v.Closed ∧ w.Closed) ∧ ∃ params params' body body',
      v = .lam params body ∧ w = .lam params' body' ∧
      params.length = domains.length ∧ params'.length = domains.length ∧
      ∀ pairs, AlikeAll ops mode domains pairs →
        EndBoth ops mode (Alike ops mode range) (body.bindValues params (pairs.map (·.1)))
          (body'.bindValues params' (pairs.map (·.2)))

/-- Pairs of values that are alike, for a list of types. -/
def AlikeAll (ops : Operators L) (mode : ArityMode) :
    List Ty → List (Term L × Term L) → Prop
  | [], pairs => pairs = []
  | t :: ts, pairs =>
    ∃ v w rest, pairs = (v, w) :: rest ∧ Alike ops mode t v w ∧ AlikeAll ops mode ts rest

end

/-- Both terms end in values that are alike. -/
def EndsAlike (ops : Operators L) (mode : ArityMode) (t : Ty) : Term L → Term L → Prop :=
  EndBoth ops mode (Alike ops mode t)

theorem alikeAll_iff {ts : List Ty} {pairs : List (Term L × Term L)} :
    AlikeAll ops mode ts pairs ↔ List.Forall₂ (fun t p => Alike ops mode t p.1 p.2) ts pairs := by
  induction ts generalizing pairs with
  | nil => simp [AlikeAll]
  | cons t ts ih =>
    simp only [AlikeAll, ih, List.forall₂_cons_left_iff]
    grind

theorem Alike.isValue {t : Ty} {v w : Term L} (h : Alike ops mode t v w) :
    v.isValue = true ∧ w.isValue = true := by
  cases t with
  | unit =>
    obtain ⟨rfl, rfl⟩ := h
    exact ⟨rfl, rfl⟩
  | int =>
    obtain ⟨n, rfl, rfl⟩ := h
    exact ⟨rfl, rfl⟩
  | fn domains range =>
    obtain ⟨-, params, params', body, body', rfl, rfl, -⟩ := h
    exact ⟨rfl, rfl⟩

theorem Alike.closed {t : Ty} {v w : Term L} (h : Alike ops mode t v w) :
    v.Closed ∧ w.Closed := by
  cases t with
  | unit =>
    obtain ⟨rfl, rfl⟩ := h
    exact ⟨fun x => by simp, fun x => by simp⟩
  | int =>
    obtain ⟨n, rfl, rfl⟩ := h
    exact ⟨fun x => by simp, fun x => by simp⟩
  | fn domains range => exact h.1

/-- Values of a base type are alike only if they are the same, a value of the type. -/
theorem Alike.eq_of_base {t : Ty} {v w : Term L} (h : Alike ops mode t v w)
    (ht : t = .int ∨ t = .unit) :
    v = w ∧ ((t = .int ∧ ∃ n, v = .lit n) ∨ (t = .unit ∧ v = .unit)) := by
  rcases ht with rfl | rfl
  · obtain ⟨n, rfl, rfl⟩ := h
    exact ⟨rfl, .inl ⟨rfl, n, rfl⟩⟩
  · obtain ⟨rfl, rfl⟩ := h
    exact ⟨rfl, .inr ⟨rfl, rfl⟩⟩

/-- The values of a call are closed on both sides. -/
theorem AlikeAll.closed {ts : List Ty} {pairs : List (Term L × Term L)}
    (h : AlikeAll ops mode ts pairs) :
    (∀ v ∈ pairs.map (·.1), v.Closed) ∧ ∀ w ∈ pairs.map (·.2), w.Closed := by
  have hpair : ∀ p ∈ pairs, p.1.Closed ∧ p.2.Closed := by
    intro p hp
    obtain ⟨t, -, ht⟩ := exists_mem_of_forall₂_right (alikeAll_iff.1 h) hp
    exact ht.closed
  exact ⟨List.forall_mem_map.2 fun p hp => (hpair p hp).1,
    List.forall_mem_map.2 fun p hp => (hpair p hp).2⟩

/-- In a call on values that are alike, the name of a parameter gets values that are
    alike. -/
theorem AlikeAll.exists_entry {params : List Param} {pairs : List (Term L × Term L)}
    (h : AlikeAll ops mode (params.map (·.type)) pairs) {x : Name} {t : Ty}
    (ht : paramType? x params = some t) :
    ∃ v w, (assignment params (pairs.map (·.1))).lookup x = some v ∧
      (assignment params (pairs.map (·.2))).lookup x = some w ∧ Alike ops mode t v w := by
  obtain ⟨i, hi⟩ : ∃ i, lastPosition? x (paramNames params) = some i := by
    rw [← Option.isSome_iff_exists, ← Option.ne_none_iff_isSome, ne_eq, lastPosition?_eq_none,
      ← paramType?_eq_none, ht]
    exact Option.some_ne_none t
  rw [paramType?_of_lastPosition? hi] at ht
  obtain ⟨p, hp, halike⟩ := exists_getElem?_of_forall₂ (alikeAll_iff.1 h) ht
  refine ⟨p.1, p.2, ?_, ?_, halike⟩
  · rw [lookup_assignment, hi, Option.bind_some, List.getElem?_map, hp, Option.map_some]
  · rw [lookup_assignment, hi, Option.bind_some, List.getElem?_map, hp, Option.map_some]

/-- Values that are alike end alike. -/
theorem Alike.endsAlike {t : Ty} {v w : Term L} (h : Alike ops mode t v w) :
    EndsAlike ops mode t v w :=
  ⟨v, w, evaluates_of_isValue h.isValue.1, evaluates_of_isValue h.isValue.2, h⟩

/-! ## Terms for the free variables -/

/-- Two assignments of closed terms to the names of a context, at each name terms of
    its type that end alike. -/
structure AlikeIn (ops : Operators L) (mode : ArityMode) (Γ : Context) (σ τ : Assignment L) :
    Prop where
  closed_left : σ.Closed
  closed_right : τ.Closed
  entry {x : Name} {t : Ty} : Γ[x]? = some t →
    ∃ d e, σ.lookup x = some d ∧ τ.lookup x = some e ∧ EndsAlike ops mode t d e

namespace AlikeIn

variable {Γ : Context} {σ τ : Assignment L}

theorem nil : AlikeIn ops mode ∅ ([] : Assignment L) [] where
  closed_left := Assignment.closed_nil
  closed_right := Assignment.closed_nil
  entry h := by simp at h

/-- Closed terms that end alike, as the one entry of a context. -/
theorem singleton {d e : Term L} {s : Ty} (hd : d.Closed) (he : e.Closed)
    (h : EndsAlike ops mode s d e) (x : Name) :
    AlikeIn ops mode ((∅ : Context).insert x s) [(x, d)] [(x, e)] where
  closed_left := Assignment.closed_singleton hd
  closed_right := Assignment.closed_singleton he
  entry {y t} hy := by
    rw [Std.ExtTreeMap.getElem?_insert, Std.ExtTreeMap.getElem?_empty] at hy
    split at hy
    · rename_i hxy
      cases hy
      obtain rfl : x = y := by simpa using hxy
      exact ⟨d, e, by simp, by simp, h⟩
    · cases hy

/-- A term with a type in the context gets closed on both sides. -/
theorem closed_instantiate (h : AlikeIn ops mode Γ σ τ) {e : Term L} {t : Ty}
    (ht : e.infer ops Γ = .ok t) : (e.instantiate σ).Closed ∧ (e.instantiate τ).Closed := by
  have hentry : ∀ x ∈ Γ, σ.lookup x ≠ none ∧ τ.lookup x ≠ none := by
    intro x hx
    rw [Std.ExtTreeMap.mem_iff_isSome_getElem?, Option.isSome_iff_exists] at hx
    obtain ⟨s, hs⟩ := hx
    obtain ⟨d, e, hd, he, -⟩ := h.entry hs
    simp [hd, he]
  exact ⟨closed_instantiate_of_infer ht h.closed_left fun x hx => (hentry x hx).1,
    closed_instantiate_of_infer ht h.closed_right fun x hx => (hentry x hx).2⟩

/-- A call on values that are alike adds entries that are alike, and hides the entries
    of its parameters' names. -/
theorem call (h : AlikeIn ops mode Γ σ τ) {params : List Param}
    {pairs : List (Term L × Term L)} (hpairs : AlikeAll ops mode (params.map (·.type)) pairs) :
    AlikeIn ops mode (Γ.extend params)
      (σ.hide (paramNames params) ++ assignment params (pairs.map (·.1)))
      (τ.hide (paramNames params) ++ assignment params (pairs.map (·.2))) where
  closed_left := (h.closed_left.hide _).append (Assignment.closed_assignment hpairs.closed.1)
  closed_right := (h.closed_right.hide _).append (Assignment.closed_assignment hpairs.closed.2)
  entry {x t} hx := by
    rw [List.lookup_append, List.lookup_append, Assignment.lookup_hide, Assignment.lookup_hide]
    by_cases hp : x ∈ paramNames params
    · -- The entry of `σ` or `τ` is hidden, so that of the call is the first one left.
      obtain ⟨s, hs⟩ := exists_paramType? hp
      rw [Context.getElem?_extend, hs, Option.some_or] at hx
      cases hx
      obtain ⟨v, w, hv, hw, hvw⟩ := hpairs.exists_entry hs
      refine ⟨v, w, ?_, ?_, hvw.endsAlike⟩
      · rw [if_pos hp, hv, Option.none_or]
      · rw [if_pos hp, hw, Option.none_or]
    · rw [Context.getElem?_extend_of_notMem Γ hp] at hx
      obtain ⟨d, e, hd, he, hde⟩ := h.entry hx
      refine ⟨d, e, ?_, ?_, hde⟩
      · rw [if_neg hp, hd, Option.some_or]
      · rw [if_neg hp, he, Option.some_or]

end AlikeIn

/-! ## Terms with a type -/

/-- A lambda with a type ends alike, if its body does in every call on values that are
    alike. -/
theorem AlikeIn.endsAlike_lam {Γ : Context} {σ τ : Assignment L} (h : AlikeIn ops mode Γ σ τ)
    {params : List Param} {body : Term L} {range : Ty}
    (hbody : body.infer ops (Γ.extend params) = .ok range)
    (ih : ∀ {σ τ : Assignment L}, AlikeIn ops mode (Γ.extend params) σ τ →
      EndsAlike ops mode range (body.instantiate σ) (body.instantiate τ)) :
    EndsAlike ops mode (.fn (params.map (·.type)) range) ((lam params body).instantiate σ)
      ((lam params body).instantiate τ) := by
  have hlam : (lam params body).infer ops Γ = .ok (.fn (params.map (·.type)) range) :=
    infer_lam_eq_ok.2 ⟨range, hbody, rfl⟩
  have hclosed := h.closed_instantiate hlam
  have hlen : params.length = (params.map (·.type)).length := by rw [List.length_map]
  -- Both sides are lambdas, so they are their own values.
  rw [instantiate, instantiate] at hclosed ⊢
  refine Alike.endsAlike ⟨hclosed, params, params, _, _, rfl, rfl, hlen, hlen, ?_⟩
  intro pairs hpairs
  rw [bindValues_instantiate (h.closed_left.hide _) params hpairs.closed.1,
    bindValues_instantiate (h.closed_right.hide _) params hpairs.closed.2]
  exact ih (h.call hpairs)

/-- Applications end alike, if their callees do at a function type and their arguments
    at its domains. -/
theorem EndsAlike.app {callee callee' : Term L} {args : List (Term L × Term L)}
    {domains : List Ty} {range : Ty}
    (hcallee : EndsAlike ops mode (.fn domains range) callee callee')
    (hargs : List.Forall₂ (fun t p => EndsAlike ops mode t p.1 p.2) domains args) :
    EndsAlike ops mode range (app callee (args.map (·.1))) (app callee' (args.map (·.2))) := by
  obtain ⟨-, -, hf, hf', -, params, params', body, body', rfl, rfl, hlen, hlen', hcall⟩ := hcallee
  obtain ⟨pairs, hvalues, hpairs⟩ : ∃ pairs : List (Term L × Term L),
      List.Forall₂ (fun p q => Evaluates ops mode p.1 (.ok q.1) ∧ Evaluates ops mode p.2 (.ok q.2))
        args pairs ∧
      List.Forall₂ (fun t q => Alike ops mode t q.1 q.2) domains pairs := by
    refine exists_forall₂_of_forall₂ (hargs.imp fun t p hp => ?_)
    obtain ⟨v, w, hv, hw, hvw⟩ := hp
    exact ⟨(v, w), ⟨hv, hw⟩, hvw⟩
  obtain ⟨v, w, hv, hw, hvw⟩ := hcall pairs (alikeAll_iff.2 hpairs)
  have hleft : List.Forall₂ (fun a v => Evaluates ops mode a (.ok v)) (args.map (·.1))
      (pairs.map (·.1)) :=
    List.forall₂_map_left_iff.2 (List.forall₂_map_right_iff.2 (hvalues.imp fun p q h => h.1))
  have hright : List.Forall₂ (fun a w => Evaluates ops mode a (.ok w)) (args.map (·.2))
      (pairs.map (·.2)) :=
    List.forall₂_map_left_iff.2 (List.forall₂_map_right_iff.2 (hvalues.imp fun p q h => h.2))
  have hsat : params.length = (args.map (·.1)).length := by
    rw [hlen, hargs.length_eq, List.length_map]
  have hsat' : params'.length = (args.map (·.2)).length := by
    rw [hlen', hargs.length_eq, List.length_map]
  exact ⟨v, w, evaluates_iff.2 (.call hf hsat hleft hv),
    evaluates_iff.2 (.call hf' hsat' hright hw),
    hvw⟩

theorem EndsAlike.binop {op : Name} {lhs lhs' rhs rhs' : Term L} (hop : op ∈ ops)
    (hl : EndsAlike ops mode .int lhs lhs') (hr : EndsAlike ops mode .int rhs rhs') :
    EndsAlike ops mode .int (binop op lhs rhs) (binop op lhs' rhs') := by
  obtain ⟨f, hf⟩ := exists_operator hop
  obtain ⟨-, -, hl, hl', m, rfl, rfl⟩ := hl
  obtain ⟨-, -, hr, hr', n, rfl, rfl⟩ := hr
  exact ⟨_, _, evaluates_iff.2 (.compute hf hl hr), evaluates_iff.2 (.compute hf hl' hr'),
    f m n, rfl, rfl⟩

/-- A term with a type in a context ends alike, with terms put in that end alike. -/
theorem endsAlike_instantiate {e : Term L} {Γ : Context} {t : Ty} {σ τ : Assignment L}
    (ht : e.infer ops Γ = .ok t) (h : AlikeIn ops mode Γ σ τ) :
    EndsAlike ops mode t (e.instantiate σ) (e.instantiate τ) := by
  induction e generalizing Γ t σ τ with
  | unit =>
    cases ht
    rw [instantiate, instantiate]
    exact Alike.endsAlike ⟨rfl, rfl⟩
  | lit n =>
    cases ht
    rw [instantiate, instantiate]
    exact Alike.endsAlike ⟨n, rfl, rfl⟩
  | var x =>
    obtain ⟨d, e, hd, he, hde⟩ := h.entry (infer_var_eq_ok.1 ht)
    rw [instantiate, instantiate, hd, he]
    exact hde
  | lam params body ih =>
    obtain ⟨range, hbody, rfl⟩ := infer_lam_eq_ok.1 ht
    exact h.endsAlike_lam hbody fun h => ih hbody h
  | app callee args ihc iha =>
    obtain ⟨domains, hcallee, hargs⟩ := infer_app_eq_ok.1 ht
    have hpairs : List.Forall₂ (fun t p => EndsAlike ops mode t p.1 p.2) domains
        (args.map fun a => (a.instantiate σ, a.instantiate τ)) := by
      refine List.forall₂_map_right_iff.2 (List.Forall₂.flip ?_)
      exact forall₂_imp_of_mem hargs fun a ha d hd => iha a ha hd h
    have happ := (ihc hcallee h).app hpairs
    rw [List.map_map, List.map_map] at happ
    rw [instantiate, instantiate]
    exact happ
  | binop op lhs rhs ihl ihr =>
    obtain ⟨hl, hr, hop, rfl⟩ := infer_binop_eq_ok.1 ht
    rw [instantiate, instantiate]
    exact .binop hop (ihl hl h) (ihr hr h)

/-! ## Inlining -/

/-- A program has a value that ends like the program itself, and like itself. -/
theorem exists_value_endsAlike {e : Term L} {t : Ty} (ht : e.infer ops ∅ = .ok t) :
    ∃ v, Evaluates ops mode e (.ok v) ∧ v.Closed ∧ EndsAlike ops mode t v e := by
  have h : EndsAlike ops mode t (e.instantiate []) (e.instantiate []) :=
    endsAlike_instantiate ht .nil
  rw [instantiate_nil] at h
  obtain ⟨v, w, hv, hw, hvw⟩ := h
  obtain rfl : v = w := Except.ok.inj (hv.unique hw)
  exact ⟨v, hv, hvw.closed.1, v, v, evaluates_of_isValue hvw.isValue.1, hv, hvw⟩

/-- Closed terms that end alike may take each other's place. -/
theorem EndsAlike.substitute {x : Name} {s t : Ty} {p d e : Term L}
    (hp : p.infer ops ((∅ : Context).insert x s) = .ok t) (hd : d.Closed) (he : e.Closed)
    (h : EndsAlike ops mode s d e) :
    EndsAlike ops mode t (p.substitute x d) (p.substitute x e) := by
  rw [substitute_eq_instantiate x hd, substitute_eq_instantiate x he]
  exact endsAlike_instantiate hp (.singleton hd he h x)

/-- A lambda of one parameter, applied to a program, ends like its body with the
    program in place of the parameter. -/
theorem endsAlike_inlined {x : Name} {s t : Ty} {p e : Term L}
    (hp : p.infer ops ((∅ : Context).insert x s) = .ok t) (he : e.infer ops ∅ = .ok s) :
    EndsAlike ops mode t (app (lam [⟨x, s⟩] p) [e]) (p.substitute x e) := by
  obtain ⟨v, hv, hclosed, hve⟩ : ∃ v, Evaluates ops mode e (.ok v) ∧ v.Closed ∧
      EndsAlike ops mode s v e := exists_value_endsAlike he
  have hbodies : EndsAlike ops mode t (p.substitute x v) (p.substitute x e) :=
    hve.substitute hp hclosed (closed_of_infer_eq_ok he)
  obtain ⟨w, w', hw, hw', halike⟩ := hbodies
  have hbind : p.bindValues [⟨x, s⟩] [v] = p.substitute x v := by
    rw [bindValues, if_neg (by simp), bindValues]
  have happ : Evaluates ops mode (app (lam [⟨x, s⟩] p) [e]) (.ok w) := by
    refine evaluates_iff.2 (.call (evaluates_of_isValue rfl) rfl (.cons hv .nil) ?_)
    rwa [hbind]
  exact ⟨w, w', happ, hw', halike⟩

/-- **Inlining.** In a program of a base type, a lambda of one parameter that is applied
    to a program may be replaced by its body with that program, unevaluated, in place of
    the parameter. Both end in the same literal, or both in the unit. -/
theorem evaluates_inlined {x : Name} {s t : Ty} {p e : Term L} (ht : t = .int ∨ t = .unit)
    (hp : p.infer ops ((∅ : Context).insert x s) = .ok t) (he : e.infer ops ∅ = .ok s)
    (mode : ArityMode) :
    ∃ v, Evaluates ops mode (app (lam [⟨x, s⟩] p) [e]) (.ok v) ∧
      Evaluates ops mode (p.substitute x e) (.ok v) ∧
      ((t = .int ∧ ∃ n, v = .lit n) ∨ (t = .unit ∧ v = .unit)) := by
  obtain ⟨v, w, hv, hw, hvw⟩ : EndsAlike ops mode t (app (lam [⟨x, s⟩] p) [e]) (p.substitute x e) :=
    endsAlike_inlined hp he
  obtain ⟨rfl, hbase⟩ := hvw.eq_of_base ht
  exact ⟨v, hv, hw, hbase⟩

/-- `g(g(3)) + (\. g(1))[]`, with a call of `g` under a lambda. -/
def threeCalls : Term Int64 :=
  .binop "+" (.app (.var "g") [.app (.var "g") [.lit 3]])
    (.app (.lam [] (.app (.var "g") [.lit 1])) [])

/-- `(\k: int. \n: int. n + k)[1 + 1]`, an application that ends in a lambda. -/
def addTwo : Term Int64 :=
  .app (.lam [⟨"k", .int⟩] (.lam [⟨"n", .int⟩] (.binop "+" (.var "n") (.var "k"))))
    [.binop "+" (.lit 1) (.lit 1)]

/-- With the application `addTwo` in place of `g`, `threeCalls` ends in 10, as it does
    with the value of `addTwo`. -/
theorem evaluates_inlined_addTwo :
    (threeCalls.infer .standard ((∅ : Context).insert "g" (.fn [.int] .int)) = .ok .int ∧
      addTwo.infer .standard ∅ = .ok (.fn [.int] .int)) ∧
    Evaluates .standard .strict (.app (.lam [⟨"g", .fn [.int] .int⟩] threeCalls) [addTwo])
        (.ok (.lit 10)) ∧
      Evaluates .standard .strict (threeCalls.substitute "g" addTwo) (.ok (.lit 10)) := by
  have hp : threeCalls.infer .standard ((∅ : Context).insert "g" (.fn [.int] .int)) = .ok .int := by
    decide +kernel
  have he : addTwo.infer .standard ∅ = .ok (.fn [.int] .int) := by decide +kernel
  have happ : Evaluates .standard .strict
      (.app (.lam [⟨"g", .fn [.int] .int⟩] threeCalls) [addTwo]) (.ok (.lit 10)) :=
    ⟨6, by decide +kernel⟩
  obtain ⟨v, hv, hsubst, -⟩ := evaluates_inlined (.inl rfl) hp he .strict
  cases hv.unique happ
  exact ⟨⟨hp, he⟩, happ, hsubst⟩

end Term

end NaryLambda

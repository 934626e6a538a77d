import NaryLambda.Proofs.AlphaEquiv
import NaryLambda.Proofs.Evaluation.Lockstep
import NaryLambda.Proofs.Substitution.Instantiate

/-!
# Evaluation does not depend on the names of parameters

Names decide which parameters are shadowed and which values of a call are left
out, so alpha-equivalent terms are evaluated along different branches. On nameless
forms the differences are gone: a call of closed values replaces the references to
its lambda by the values at their positions. So the nameless form of the result is
given by those of the parts, and closed alpha-equivalent terms are related by a
simulation.

Results:

* `Term.nameless_bindValues`: a call on nameless forms.
* `Term.simulation_closedAlphaEquiv`: evaluation keeps alpha-equivalence.
* `Term.evaluates_of_alphaEquiv`: the ends of alpha-equivalent terms.
-/

namespace NaryLambda

variable {L : Type}

/-! ## Binders in a scope and around it -/

theorem binder?_lt {x : Name} {scope : List (List Name)} {b : Nat × Nat}
    (h : binder? x scope = some b) : b.1 < scope.length := by
  induction scope generalizing b with
  | nil => cases h
  | cons names scope ih =>
    rw [List.length_cons]
    rw [binder?] at h
    split at h
    · cases h
      exact Nat.succ_pos _
    · obtain ⟨c, hc, rfl⟩ := Option.map_eq_some_iff.1 h
      exact Nat.succ_lt_succ (ih hc)

/-- A name that no lambda of the scope binds may be bound by one more lambda around it. -/
theorem binder?_append_singleton (x : Name) (inner : List (List Name)) (names : List Name) :
    binder? x (inner ++ [names]) =
      (binder? x inner).or ((lastPosition? x names).map fun i => (inner.length, i)) := by
  induction inner with
  | nil =>
    simp only [List.nil_append, binder?]
    cases lastPosition? x names <;> rfl
  | cons ns inner ih =>
    rw [List.cons_append, binder?, binder?, ih]
    cases lastPosition? x ns with
    | some i => rfl
    | none => cases binder? x inner <;> cases lastPosition? x names <;> rfl

/-- No lambda of a scope binds a name iff neither the innermost one nor the others do. -/
theorem binder?_cons_eq_none {x : Name} {names : List Name} {scope : List (List Name)} :
    binder? x (names :: scope) = none ↔ x ∉ names ∧ binder? x scope = none := by
  by_cases hx : x ∈ names
  · simp [binder?_cons_of_mem hx, lastPosition?_eq_none, hx]
  · simp [binder?_cons_of_notMem hx, hx]

/-! ## A call without names -/

namespace Nameless

/-- The body of a lambda with values for its parameters. The lambda is `depth` lambdas
    out of the place, and the references of the values stay within them, so nothing is
    shifted. -/
def bindValues (values : List (Nameless L)) (depth : Nat) : Nameless L → Nameless L
  | .unit => .unit
  | .lit n => .lit n
  | .free x => .free x
  | .bound d position =>
    if d = depth then values.getD position (.bound d position) else .bound d position
  | .lam types body => .lam types (bindValues values (depth + 1) body)
  | .app callee args => .app (bindValues values depth callee) (args.map (bindValues values depth))
  | .binop op lhs rhs => .binop op (bindValues values depth lhs) (bindValues values depth rhs)
termination_by e => sizeOf e

end Nameless

namespace Term

/-- In a body, under the lambdas of `inner`, the entries that a call makes and that
    these lambdas do not hide replace the references to the lambda that is called. -/
theorem namelessIn_instantiate {params : List Param} {values : List (Term L)}
    (hlen : params.length = values.length) (hvalues : ∀ v ∈ values, v.Closed) {e : Term L}
    {inner : List (List Name)} {σ : Assignment L}
    (hσ : ∀ x, e.occursFree x = true →
      σ.lookup x = if binder? x inner = none then (assignment params values).lookup x else none) :
    (e.instantiate σ).namelessIn inner =
      Nameless.bindValues (values.map nameless) inner.length
        (e.namelessIn (inner ++ [paramNames params])) := by
  induction e generalizing inner σ with
  | unit | lit n => simp only [instantiate, namelessIn, Nameless.bindValues]
  | var x =>
    have hx := hσ x (by simp)
    rw [lookup_assignment] at hx
    rw [instantiate, namelessIn, binder?_append_singleton]
    cases hb : binder? x inner with
    | some b =>
      -- Bound under a lambda of `inner`: there is no entry, and the reference stays.
      rw [hb, if_neg (Option.some_ne_none b)] at hx
      have hne : b.1 ≠ inner.length := Nat.ne_of_lt (binder?_lt hb)
      simp [hx, namelessIn, hb, Nameless.bindValues, hne]
    | none =>
      rw [if_pos hb] at hx
      cases hi : lastPosition? x (paramNames params) with
      | none =>
        rw [hi] at hx
        simp [hx, namelessIn, hb, Nameless.bindValues]
      | some i =>
        have hlt := lastPosition?_lt hi
        rw [length_paramNames, hlen] at hlt
        have hclosed : (values[i]).Closed := hvalues _ (List.getElem_mem hlt)
        have hinner : (values[i]).namelessIn inner = (values[i]).nameless :=
          namelessIn_of_unbound fun y hy => absurd hy (by simp [hclosed y])
        -- Bound by the lambda that is called: both sides put in the value.
        rw [hi, Option.bind_some, List.getElem?_eq_getElem hlt] at hx
        simp [hx, hinner, Nameless.bindValues, hlt]
  | lam params' body ih =>
    simp only [instantiate, namelessIn, Nameless.bindValues]
    rw [← List.cons_append, ← List.length_cons, ih fun x hx => ?_]
    rw [Assignment.lookup_hide]
    by_cases hp : x ∈ paramNames params'
    · rw [if_pos hp, if_neg fun h => (binder?_cons_eq_none.1 h).1 hp]
    · rw [if_neg hp, hσ x (occursFree_lam_iff.2 ⟨hp, hx⟩)]
      simp only [binder?_cons_eq_none, hp, not_false_eq_true, true_and]
  | app callee args ihc iha =>
    simp only [instantiate, namelessIn, Nameless.bindValues, List.map_map]
    rw [ihc fun x hx => hσ x (occursFree_app_iff.2 (.inl hx))]
    exact congrArg _ (List.map_congr_left fun a ha =>
      iha a ha fun x hx => hσ x (occursFree_app_iff.2 (.inr ⟨a, ha, hx⟩)))
  | binop op lhs rhs ihl ihr =>
    simp only [instantiate, namelessIn, Nameless.bindValues]
    rw [ihl fun x hx => hσ x (occursFree_binop_iff.2 (.inl hx)),
      ihr fun x hx => hσ x (occursFree_binop_iff.2 (.inr hx))]

/-- **A call on nameless forms.** The values take the places of the references to the
    lambda, each by its position. -/
theorem nameless_bindValues {params : List Param} {values : List (Term L)}
    (hlen : params.length = values.length) (hvalues : ∀ v ∈ values, v.Closed) (body : Term L) :
    (body.bindValues params values).nameless =
      Nameless.bindValues (values.map nameless) 0 (body.namelessIn [paramNames params]) := by
  rw [bindValues_eq_instantiate params hvalues]
  exact namelessIn_instantiate hlen hvalues fun x _ => (if_pos rfl).symm

/-! ## Closed alpha-equivalent terms -/

/-- Alpha-equivalent terms without free variables. -/
structure ClosedAlphaEquiv (d e : Term L) : Prop where
  closed_left : d.Closed
  closed_right : e.Closed
  alphaEquiv : d.AlphaEquiv e

namespace ClosedAlphaEquiv

/-- Lists of closed alpha-equivalent terms have the same nameless forms. -/
theorem forall₂_iff {ds es : List (Term L)} :
    List.Forall₂ ClosedAlphaEquiv ds es ↔
      (∀ d ∈ ds, d.Closed) ∧ (∀ e ∈ es, e.Closed) ∧ ds.map nameless = es.map nameless := by
  constructor
  · intro h
    induction h with
    | nil => simp
    | cons h _ ih =>
      exact ⟨List.forall_mem_cons.2 ⟨h.closed_left, ih.1⟩,
        List.forall_mem_cons.2 ⟨h.closed_right, ih.2.1⟩,
        by rw [List.map_cons, List.map_cons, h.alphaEquiv, ih.2.2]⟩
  · rintro ⟨hds, hes, h⟩
    induction ds generalizing es with
    | nil =>
      rw [List.map_nil, eq_comm, List.map_eq_nil_iff] at h
      rw [h]
      exact .nil
    | cons d ds ih =>
      cases es with
      | nil => cases h
      | cons e es =>
        obtain ⟨hde, h⟩ := List.cons.inj h
        rw [List.forall_mem_cons] at hds hes
        exact .cons ⟨hds.1, hes.1, hde⟩ (ih hds.2 hes.2 h)

variable {ops : Operators L} {d e : Term L}

theorem sameForm (h : ClosedAlphaEquiv d e) : SameForm ops ops Eq ClosedAlphaEquiv d e := by
  obtain ⟨hd, he, h⟩ := h
  cases alphaForm_of_namelessIn_eq h with
  | unit => exact .unit
  | lit => exact .lit rfl
  | @free x => simpa using hd x
  | bound hx => cases hx
  | lam hparams => exact .lam (by simpa using congrArg List.length hparams)
  | app hcallee hargs =>
    rw [closed_app_iff] at hd he
    exact .app ⟨hd.1, he.1, hcallee⟩ (forall₂_iff.2 ⟨hd.2, he.2, forall₂_iff_map_eq.1 hargs⟩)
  | binop hl hr =>
    rw [closed_binop_iff] at hd he
    exact .binop (operatorRel_refl _) ⟨hd.1, he.1, hl⟩ ⟨hd.2, he.2, hr⟩

/-- Calls with as many values as parameters keep closed terms alpha-equivalent. -/
theorem call {params params' : List Param} {body body' : Term L} {values values' : List (Term L)}
    (h : ClosedAlphaEquiv (.lam params body) (.lam params' body'))
    (hvalues : List.Forall₂ ClosedAlphaEquiv values values')
    (hlen : params.length = values.length) :
    ClosedAlphaEquiv (body.bindValues params values) (body'.bindValues params' values') := by
  have hform := h.alphaEquiv
  rw [AlphaEquiv, nameless_lam, nameless_lam, Nameless.lam.injEq] at hform
  have hparams : params.length = params'.length := by simpa using congrArg List.length hform.1
  have hlen' : params'.length = values'.length := by rw [← hparams, hlen, hvalues.length_eq]
  obtain ⟨hclosed, hclosed', hmap⟩ := forall₂_iff.1 hvalues
  refine ⟨h.closed_left.bindValues hclosed hlen, h.closed_right.bindValues hclosed' hlen', ?_⟩
  rw [AlphaEquiv, nameless_bindValues hlen hclosed, nameless_bindValues hlen' hclosed', hmap,
    hform.2]

end ClosedAlphaEquiv

/-- Evaluation of closed terms keeps alpha-equivalence. -/
theorem simulation_closedAlphaEquiv (ops : Operators L) :
    Simulation ops ops .strict Eq ClosedAlphaEquiv where
  form := ClosedAlphaEquiv.sameForm
  lit h := h ▸ ⟨fun x => occursFree_lit x _, fun x => occursFree_lit x _, rfl⟩
  call h hvalues hlen := h.call hvalues (hlen rfl)

/-- **Evaluation does not depend on the names of parameters.** Of two closed
    alpha-equivalent terms one ends iff the other does. Both then end in
    alpha-equivalent values, or stuck for the same kind of reason, with the same
    operator and counts and with alpha-equivalent terms in it. -/
theorem evaluates_of_alphaEquiv {d e : Term L} (hd : d.Closed) (he : e.Closed)
    (h : d.AlphaEquiv e) (ops : Operators L) :
    ((∃ r, Evaluates ops .strict d r) ↔ ∃ s, Evaluates ops .strict e s) ∧
      ∀ r s, Evaluates ops .strict d r → Evaluates ops .strict e s →
        EndRel AlphaEquiv AlphaEquiv r s := by
  obtain ⟨hiff, hends⟩ := (simulation_closedAlphaEquiv ops).evaluates ⟨hd, he, h⟩
  exact ⟨hiff, fun r s hr hs => (hends r s hr hs).mono (fun _ _ h => h.alphaEquiv)
    fun _ _ h => h.alphaEquiv⟩

/-- `(\a: int, b: int. \x: int. b + x)[1, 2]`, where both values are put in. -/
def addDistinct : Term Int64 :=
  .app (.lam [⟨"a", .int⟩, ⟨"b", .int⟩] (.lam [⟨"x", .int⟩] (.binop "+" (.var "b") (.var "x"))))
    [.lit 1, .lit 2]

/-- `addShadowed` and `addDistinct` differ in names only, and end in lambdas that do. -/
theorem evaluates_addShadowed_addDistinct :
    (addShadowed.Closed ∧ addDistinct.Closed ∧ addShadowed.AlphaEquiv addDistinct) ∧
      Evaluates .standard .strict addShadowed
        (.ok (.lam [⟨"y", .int⟩] (.binop "+" (.lit 2) (.var "y")))) ∧
      Evaluates .standard .strict addDistinct
        (.ok (.lam [⟨"x", .int⟩] (.binop "+" (.lit 2) (.var "x")))) ∧
      EndRel AlphaEquiv AlphaEquiv
        (.ok (.lam [⟨"y", .int⟩] (.binop "+" (.lit 2) (.var "y"))) : Result Int64)
        (.ok (.lam [⟨"x", .int⟩] (.binop "+" (.lit 2) (.var "x")))) := by
  have hd : addShadowed.Closed := by decide +kernel
  have he : addDistinct.Closed := by decide +kernel
  have h : addShadowed.AlphaEquiv addDistinct := by
    simp [AlphaEquiv, addShadowed, addDistinct, namelessIn, paramNames, binder?, lastPosition?]
  have hr : Evaluates .standard .strict addShadowed
      (.ok (.lam [⟨"y", .int⟩] (.binop "+" (.lit 2) (.var "y")))) := ⟨3, by decide +kernel⟩
  have hs : Evaluates .standard .strict addDistinct
      (.ok (.lam [⟨"x", .int⟩] (.binop "+" (.lit 2) (.var "x")))) := ⟨3, by decide +kernel⟩
  exact ⟨⟨hd, he, h⟩, hr, hs, (evaluates_of_alphaEquiv hd he h .standard).2 _ _ hr hs⟩

end Term

end NaryLambda

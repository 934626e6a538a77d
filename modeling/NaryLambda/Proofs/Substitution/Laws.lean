import NaryLambda.Proofs.AlphaEquiv
import NaryLambda.Proofs.Substitution.Instantiate

/-!
# Laws of substitution

When a substitution changes nothing, and what becomes of two substitutions in the
other order. On terms both questions are about fresh names, which are chosen
differently on the two sides. On nameless forms nothing is renamed, so the laws are
proved there, and alpha-equivalence is what comes back. Where no parameter is
renamed, the terms themselves are equal.

Results:

* `Term.eq_var_of_alphaEquiv_substitute`: what is replaced by another term shows, even
  up to names of parameters.
* `Term.substitute_eq_self_iff`: exactly when a substitution changes nothing.
* `Nameless.substitute_exchange`: two replacements of free variables.
* `Term.substitute_substitute`: two substitutions, up to names of parameters, and on
  the nose for closed terms.
-/

namespace NaryLambda

variable {L : Type}

namespace Term

/-! ## A substitution that changes nothing -/

/-- A variable put in for itself is captured nowhere and changes nothing. -/
theorem substitute_var_self (e : Term L) (x : Name) : e.substitute x (var x) = e := by
  induction e with
  | unit => rw [substitute_unit]
  | lit n => rw [substitute_lit]
  | var y =>
    rw [substitute_var]
    split
    · rename_i hy
      rw [hy]
    · rfl
  | lam params body ih =>
    by_cases hx : x ∈ paramNames params
    · have hfree : (lam params body).occursFree x = false := by simp [hx]
      exact substitute_lam_of_not_occursFree hfree _
    · have hparams : ∀ y ∈ paramNames params, (var x : Term L).occursFree y = false := by
        intro y hy
        have hne : x ≠ y := fun h => hx (h ▸ hy)
        simpa using hne
      rw [substitute_lam_of_disjoint hparams hx, ih]
  | app callee args ihc iha =>
    rw [substitute_app, ihc, List.map_congr_left iha, List.map_id']
  | binop op lhs rhs ihl ihr => rw [substitute_binop, ihl, ihr]

/-- A nameless term for a free variable leaves the term the same only if it is that
    variable. -/
theorem eq_free_of_substitute_namelessIn {e : Term L} {x : Name} {w : Nameless L}
    {scope : List (List Name)} (hx : e.occursFree x = true) (hscope : binder? x scope = none)
    (h : Nameless.substitute x w (e.namelessIn scope) = e.namelessIn scope) : w = .free x := by
  induction e generalizing scope with
  | unit | lit n => simp at hx
  | var z =>
    obtain rfl : z = x := by simpa using hx
    have hz : (var z : Term L).namelessIn scope = .free z := by rw [namelessIn, hscope]
    rw [hz, Nameless.substitute, if_pos rfl] at h
    exact h
  | lam params body ih =>
    obtain ⟨hparams, hbody⟩ := occursFree_lam_iff.1 hx
    rw [namelessIn, Nameless.substitute, Nameless.lam.injEq] at h
    -- the occurrence below is not bound by this lambda either, so it is still replaced
    have hinner : binder? x (paramNames params :: scope) = none := by
      rw [binder?_cons_of_notMem hparams, hscope]
      rfl
    exact ih hbody hinner h.2
  | app callee args ihc iha =>
    rw [namelessIn, Nameless.substitute, Nameless.app.injEq, List.map_map] at h
    obtain ⟨hcallee, hargs⟩ := h
    rcases occursFree_app_iff.1 hx with hx | ⟨a, ha, hx⟩
    · exact ihc hx hscope hcallee
    · exact iha a ha hx hscope (List.map_inj_left.1 hargs a ha)
  | binop op lhs rhs ihl ihr =>
    rw [namelessIn, Nameless.substitute, Nameless.binop.injEq] at h
    rcases occursFree_binop_iff.1 hx with hx | hx
    · exact ihl hx hscope h.2.1
    · exact ihr hx hscope h.2.2

/-- Only the variable itself has the nameless form of a free variable. -/
theorem eq_var_of_nameless_eq {v : Term L} {x : Name} (h : v.nameless = .free x) : v = var x := by
  have hform : (var x).nameless = v.nameless := by rw [h, nameless_var]
  obtain ⟨y, rfl⟩ := exists_var_of_namelessIn_eq hform
  rw [nameless_var, nameless_var, Nameless.free.injEq] at hform
  rw [hform]

/-- Where a free variable is replaced by another term, the result is not even
    alpha-equivalent to the term. -/
theorem eq_var_of_alphaEquiv_substitute {e : Term L} {x : Name} {v : Term L}
    (h : (e.substitute x v).AlphaEquiv e) (hx : e.occursFree x = true) : v = var x := by
  rw [AlphaEquiv, nameless_substitute] at h
  exact eq_var_of_nameless_eq (eq_free_of_substitute_namelessIn hx rfl h)

/-- **When a substitution changes nothing.** A substitution gives the same term, names of
    parameters included, iff the name is not free in it or is replaced by itself. In all
    other cases the result is not even alpha-equivalent to the term. -/
theorem substitute_eq_self_iff (e : Term L) (x : Name) (v : Term L) :
    (e.substitute x v = e ↔ e.occursFree x = false ∨ v = var x) ∧
      ((e.substitute x v).AlphaEquiv e ↔ e.substitute x v = e) := by
  have hsame : e.occursFree x = false ∨ v = var x → e.substitute x v = e := by
    rintro (hx | rfl)
    · exact substitute_of_not_occursFree hx v
    · exact substitute_var_self e x
  have halpha : (e.substitute x v).AlphaEquiv e → e.occursFree x = false ∨ v = var x := by
    intro h
    cases hx : e.occursFree x with
    | false => exact .inl rfl
    | true => exact .inr (eq_var_of_alphaEquiv_substitute h hx)
  have hrefl : e.substitute x v = e → (e.substitute x v).AlphaEquiv e := congrArg nameless
  exact ⟨⟨fun h => halpha (hrefl h), hsame⟩, ⟨fun h => hsame (halpha h), hrefl⟩⟩

end Term

/-! ## Two substitutions -/

/-- A replacement after another one may be done before it, if it is done in the new term
    as well and what it puts in is not touched by the other one. -/
theorem Nameless.substitute_exchange {x y : Name} (hxy : x ≠ y) {w : Nameless L}
    (hw : ∀ u, substitute x u w = w) (v e : Nameless L) :
    substitute y w (substitute x v e) = substitute x (substitute y w v) (substitute y w e) := by
  induction e with
  | unit | lit n | bound depth position => simp only [substitute]
  | free z =>
    by_cases hx : z = x
    · have hy : z ≠ y := fun h => hxy (hx.symm.trans h)
      simp only [substitute, if_pos hx, if_neg hy]
    · by_cases hy : z = y
      · simp only [substitute, if_neg hx, if_pos hy, hw]
      · simp only [substitute, if_neg hx, if_neg hy]
  | lam types body ih => simp only [substitute, ih]
  | app callee args ihc iha =>
    simp only [substitute, ihc, List.map_map]
    exact congrArg _ (List.map_congr_left iha)
  | binop op lhs rhs ihl ihr => simp only [substitute, ihl, ihr]

namespace Term

/-- Closed terms for two names can be put in in either order, since neither changes the
    other one. -/
theorem substitute_comm_of_closed {x y : Name} (hxy : x ≠ y) {v w : Term L} (hv : v.Closed)
    (hw : w.Closed) (e : Term L) :
    (e.substitute x v).substitute y w = (e.substitute y w).substitute x v := by
  have hx := Assignment.closed_singleton (x := x) hv
  have hy := Assignment.closed_singleton (x := y) hw
  rw [substitute_eq_instantiate x hv e, substitute_eq_instantiate y hw e,
    substitute_instantiate hx hw, substitute_instantiate hy hv]
  refine instantiate_congr fun z _ => ?_
  -- the two assignments have the same entries in two orders
  simp only [List.singleton_append, lookup_cons_eq_ite]
  by_cases hzx : z = x
  · have hzy : z ≠ y := fun h => hxy (hzx.symm.trans h)
    simp only [if_pos hzx, if_neg hzy]
  · simp only [if_neg hzx, List.lookup_nil]

/-- **The substitution lemma.** A substitution after another one may be done before it,
    if it is done in the new term as well and its own new term does not have the other
    name free. The two results differ in names of parameters only; with closed terms to
    put in they are the same, and the first new term needs no substitution. -/
theorem substitute_substitute {x y : Name} (hxy : x ≠ y) {w : Term L}
    (hw : w.occursFree x = false) (e v : Term L) :
    ((e.substitute x v).substitute y w).AlphaEquiv
        ((e.substitute y w).substitute x (v.substitute y w)) ∧
      (v.Closed → w.Closed →
        (e.substitute x v).substitute y w = (e.substitute y w).substitute x (v.substitute y w) ∧
        (e.substitute x v).substitute y w = (e.substitute y w).substitute x v) := by
  constructor
  · have hkeep : ∀ u, Nameless.substitute x u w.nameless = w.nameless :=
      fun u => substitute_namelessIn_of_bound (by simp [hw]) u
    show ((e.substitute x v).substitute y w).nameless =
      ((e.substitute y w).substitute x (v.substitute y w)).nameless
    simp only [nameless_substitute]
    exact Nameless.substitute_exchange hxy hkeep v.nameless e.nameless
  · intro hv hwc
    have hcomm := substitute_comm_of_closed hxy hv hwc e
    rw [substitute_of_not_occursFree (hv y)]
    exact ⟨hcomm, hcomm⟩

/-- `\a: int. x(a', a)`. -/
def passPrimed : Term Int64 :=
  .lam [⟨"a", .int⟩] (.app (.var "x") [.var (Name.primed "a"), .var "a"])

/-- With `a` for `x` and `z` for `a'` the parameter of `passPrimed` becomes `a''` in one
    order and `a'` in the other, since only in the first order `a'` is still free when it
    is renamed. With closed terms it stays `a` in both. -/
theorem substitute_substitute_passPrimed :
    let y := Name.primed "a"
    let left : Term Int64 := (passPrimed.substitute "x" (.var "a")).substitute y (.var "z")
    let right : Term Int64 :=
      (passPrimed.substitute y (.var "z")).substitute "x" ((var "a").substitute y (.var "z"))
    let identity : Term Int64 := .lam [⟨"a", .int⟩] (.var "a")
    "x" ≠ y ∧
      ((var "z" : Term Int64).occursFree "x" = false ∧ left ≠ right ∧ left.AlphaEquiv right) ∧
      (lit 2 : Term Int64).occursFree "x" = false ∧ identity.Closed ∧
      (lit 2 : Term Int64).Closed ∧
      (passPrimed.substitute "x" identity).substitute y (.lit 2) =
        (passPrimed.substitute y (.lit 2)).substitute "x" identity := by
  intro y left right identity
  have hxy : "x" ≠ y := by decide
  have hz : (var "z" : Term Int64).occursFree "x" = false := by decide +kernel
  have hne : left ≠ right := by decide +kernel
  have htwo : (lit 2 : Term Int64).occursFree "x" = false := by decide +kernel
  have hidentity : identity.Closed := by decide +kernel
  have hclosed : (lit 2 : Term Int64).Closed := by decide +kernel
  have hopen := substitute_substitute hxy hz passPrimed (.var "a")
  have hsame := substitute_substitute hxy htwo passPrimed identity
  exact ⟨hxy, ⟨hz, hne, hopen.1⟩, htwo, hidentity, hclosed, (hsame.2 hidentity hclosed).2⟩

end Term

end NaryLambda

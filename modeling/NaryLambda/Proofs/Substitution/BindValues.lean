import NaryLambda.Evaluation.Reduction
import NaryLambda.Proofs.Substitution.FreeVars

/-!
# Values in a body

A call puts its values into the body one after the other. What is free
afterwards, and what becomes of each form of term. If the values are closed, no
parameter is renamed, and putting values into the body of a lambda and then the
lambda's own is putting in all of them in one go.

Results:

* `Term.occursFree_bindValues`: what may be free after values are put in.
* `Term.bindValues_of_closed`: closed terms stay as they are.
* `Term.exists_bindValues_lam`: closed values under a lambda.
-/

namespace NaryLambda

namespace Term

variable {L : Type}

/-- After values are put in for all parameters, what is free comes from the values,
    or is free in the lambda. -/
theorem occursFree_bindValues {params : List Param} {values : List (Term L)} {body : Term L}
    {x : Name} (hlen : params.length = values.length)
    (h : (body.bindValues params values).occursFree x = true) :
    (lam params body).occursFree x = true ∨ ∃ v ∈ values, v.occursFree x = true := by
  rw [occursFree_lam_iff]
  induction params generalizing values body with
  | nil => exact .inl ⟨List.not_mem_nil, h⟩
  | cons p params ih =>
    cases values with
    | nil => cases hlen
    | cons v values =>
      rw [bindValues] at h
      rcases ih (Nat.succ.inj hlen) h with ⟨hx, hb⟩ | ⟨w, hw, hfree⟩
      · split at hb
        · rename_i hp
          have hne : x ≠ p.name := fun h => hx (h ▸ hp)
          exact .inl ⟨by rw [paramNames_cons, List.mem_cons, not_or]; exact ⟨hne, hx⟩, hb⟩
        · rcases occursFree_substitute.1 hb with ⟨hb, hne⟩ | ⟨-, hv⟩
          · exact .inl ⟨by rw [paramNames_cons, List.mem_cons, not_or]; exact ⟨hne, hx⟩, hb⟩
          · exact .inr ⟨v, .head _, hv⟩
      · exact .inr ⟨w, .tail _ hw, hfree⟩

/-- The body of a closed lambda is closed after closed values are put in for all its
    parameters. -/
theorem Closed.bindValues {params : List Param} {values : List (Term L)} {body : Term L}
    (h : (lam params body).Closed) (hvalues : ∀ v ∈ values, v.Closed)
    (hlen : params.length = values.length) : (body.bindValues params values).Closed := by
  intro x
  rw [Bool.eq_false_iff, ne_eq]
  intro hx
  rcases occursFree_bindValues hlen hx with hbody | ⟨v, hv, hfree⟩
  · rw [h x] at hbody
    cases hbody
  · rw [hvalues v hv x] at hfree
    cases hfree

/-- Putting a value into a value gives a value. -/
theorem isValue_substitute {v : Term L} (hv : v.isValue = true) (x : Name) (w : Term L) :
    (v.substitute x w).isValue = true := by
  cases v with
  | unit => simp [isValue]
  | lit n => simp [isValue]
  | lam params body =>
    rcases substitute_lam_cases params body x w with ⟨-, heq⟩ | ⟨-, heq⟩ <;> rw [heq] <;> rfl
  | var | app | binop => cases hv

theorem isValue_bindValues {v : Term L} (hv : v.isValue = true) (params : List Param)
    (values : List (Term L)) : (v.bindValues params values).isValue = true := by
  induction params generalizing v values with
  | nil => exact hv
  | cons p params ih =>
    cases values with
    | nil => exact hv
    | cons w values =>
      rw [bindValues]
      split
      · exact ih hv values
      · exact ih (isValue_substitute hv p.name w) values

/-! ## Every form of term -/

@[simp] theorem bindValues_unit (params : List Param) (values : List (Term L)) :
    (unit : Term L).bindValues params values = unit := by
  induction params generalizing values with
  | nil => rfl
  | cons p params ih => cases values <;> simp [bindValues, ih]

@[simp] theorem bindValues_lit (n : L) (params : List Param) (values : List (Term L)) :
    (lit n).bindValues params values = lit n := by
  induction params generalizing values with
  | nil => rfl
  | cons p params ih => cases values <;> simp [bindValues, ih]

/-- A value goes to no place that a later parameter takes. -/
theorem bindValues_var_of_mem {p : Param} {params : List Param} {x : Name}
    (hx : x ∈ paramNames params) (v : Term L) (values : List (Term L)) :
    (var x).bindValues (p :: params) (v :: values) = (var x).bindValues params values := by
  rw [bindValues]
  split
  · rfl
  · rename_i hp
    have hne : x ≠ p.name := by
      rintro rfl
      exact hp hx
    rw [substitute_var, if_neg hne]

/-- A value stands for its parameter, if no later one has the name. -/
theorem bindValues_var_self {p : Param} {params : List Param} (hp : p.name ∉ paramNames params)
    (v : Term L) (values : List (Term L)) :
    (var p.name).bindValues (p :: params) (v :: values) = v.bindValues params values := by
  rw [bindValues, if_neg hp, substitute_var, if_pos rfl]

@[simp] theorem bindValues_app (callee : Term L) (args : List (Term L)) (params : List Param)
    (values : List (Term L)) :
    (app callee args).bindValues params values =
      app (callee.bindValues params values) (args.map (bindValues params values)) := by
  induction params generalizing callee args values with
  | nil => simp [bindValues]
  | cons p params ih =>
    cases values with
    | nil => simp [bindValues]
    | cons v values =>
      simp only [bindValues]
      split
      · rw [ih]
      · rw [substitute_app, ih, List.map_map]
        rfl

@[simp] theorem bindValues_binop (op : Name) (lhs rhs : Term L) (params : List Param)
    (values : List (Term L)) :
    (binop op lhs rhs).bindValues params values =
      binop op (lhs.bindValues params values) (rhs.bindValues params values) := by
  induction params generalizing lhs rhs values with
  | nil => rfl
  | cons p params ih =>
    cases values with
    | nil => rfl
    | cons v values =>
      simp only [bindValues]
      split
      · rw [ih]
      · rw [substitute_binop, ih]

/-! ## Closed values -/

/-- Nothing happens to a term without the variable. -/
theorem substitute_of_not_occursFree {e : Term L} {x : Name} (h : e.occursFree x = false)
    (v : Term L) : e.substitute x v = e := by
  induction e with
  | unit => rw [substitute_unit]
  | lit n => rw [substitute_lit]
  | var y =>
    have hne : y ≠ x := by simpa using h
    rw [substitute_var, if_neg hne]
  | lam params body => exact substitute_lam_of_not_occursFree h v
  | app callee args ihc iha =>
    simp only [occursFree_app, Bool.or_eq_false_iff, List.any_eq_false, Bool.not_eq_true] at h
    rw [substitute_app, ihc h.1, List.map_congr_left fun a ha => iha a ha (h.2 a ha), List.map_id']
  | binop op lhs rhs ihl ihr =>
    simp only [occursFree_binop, Bool.or_eq_false_iff] at h
    rw [substitute_binop, ihl h.1, ihr h.2]

/-- Putting values in does nothing to a closed term. -/
theorem bindValues_of_closed {e : Term L} (h : e.Closed) (params : List Param)
    (values : List (Term L)) : e.bindValues params values = e := by
  induction params generalizing values with
  | nil => rfl
  | cons p params ih =>
    cases values with
    | nil => rfl
    | cons v values =>
      rw [bindValues]
      split
      · exact ih values
      · rw [substitute_of_not_occursFree (h p.name), ih]

/-- A term goes under a lambda as it is, if the lambda binds neither the name nor a free
    variable of the term. -/
theorem substitute_lam_of_disjoint {params : List Param} {x : Name} {v : Term L}
    (hv : ∀ y ∈ paramNames params, v.occursFree y = false) (hx : x ∉ paramNames params)
    (body : Term L) :
    (lam params body).substitute x v = lam params (body.substitute x v) := by
  have hcaptured : ∀ y ∈ paramNames params, y ∉ v.freeVars := fun y hy => by
    rw [mem_freeVars, hv y hy]
    exact Bool.false_ne_true
  rw [substitute_lam]
  split
  · rename_i h
    rw [substitute_of_not_occursFree (h.resolve_left hx)]
  · rw [renameCaptured_of_notMem hcaptured]

/-- A closed term goes under a lambda that does not bind the name. -/
theorem substitute_lam_of_closed {params : List Param} {x : Name} {v : Term L} (hv : v.Closed)
    (hx : x ∉ paramNames params) (body : Term L) :
    (lam params body).substitute x v = lam params (body.substitute x v) :=
  substitute_lam_of_disjoint (fun y _ => hv y) hx body

/-- Closed values go under a lambda, and to no place where one of its parameters has
    the name. Its own values then complete theirs. -/
theorem exists_bindValues_lam {outer : List Param} {vs : List (Term L)}
    (hlen : outer.length = vs.length) (hvs : ∀ v ∈ vs, v.Closed) (params : List Param)
    (body : Term L) :
    ∃ b, (lam params body).bindValues outer vs = lam params b ∧
      ∀ values, b.bindValues params values = body.bindValues (outer ++ params) (vs ++ values) := by
  induction outer generalizing vs body with
  | nil =>
    cases vs with
    | nil => exact ⟨body, rfl, fun values => rfl⟩
    | cons v vs => cases hlen
  | cons p outer ih =>
    cases vs with
    | nil => cases hlen
    | cons v vs =>
      have ih := ih (Nat.succ.inj hlen) fun w hw => hvs w (.tail _ hw)
      have happ : p.name ∈ paramNames (outer ++ params) ↔
          p.name ∈ paramNames outer ∨ p.name ∈ paramNames params := by
        simp [paramNames]
      simp only [bindValues, List.cons_append, happ]
      by_cases hp : p.name ∈ paramNames outer
      · simpa only [if_pos hp, if_pos (Or.inl hp)] using ih body
      · rw [if_neg hp]
        by_cases hq : p.name ∈ paramNames params
        · have hlam : (lam params body).occursFree p.name = false := by simp [hq]
          simpa only [if_pos (Or.inr hq), substitute_of_not_occursFree hlam] using ih body
        · rw [substitute_lam_of_closed (hvs v (.head _)) hq]
          simpa only [if_neg (not_or.2 ⟨hp, hq⟩)] using ih (body.substitute p.name v)

end Term

end NaryLambda

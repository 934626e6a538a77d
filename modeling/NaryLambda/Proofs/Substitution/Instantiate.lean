import NaryLambda.Proofs.Substitution.BindValues
import NaryLambda.Proofs.Substitution.Nameless
import NaryLambda.Term.Transform

/-!
# Closed values all at once

Simultaneous replacement depends on the entries of the free variables only. With
closed terms in the entries, one more substitution is one more entry at the end,
where older entries go first. So the values of a call, put into the body one
after the other, are put in at once by the assignment that gives each name the
value at its last occurrence among the parameters.

Results:

* `Term.occursFree_instantiate`: the free variables that are left.
* `Term.substitute_instantiate`: a substitution after a replacement.
* `Term.bindValues_instantiate`: the values of a call after a replacement.
* `lookup_assignment`: the value that a name gets in a call.
-/

namespace NaryLambda

/-! ## Entries -/

/-- The first entry is that of its own name. -/
theorem lookup_cons_eq_ite {α : Type} (x y : Name) (a : α) (entries : List (Name × α)) :
    ((y, a) :: entries).lookup x = if x = y then some a else entries.lookup x := by
  rw [List.lookup_cons]
  by_cases h : x = y
  · simp [h]
  · rw [if_neg h, beq_eq_false_iff_ne.2 h]

variable {L : Type}

namespace Assignment

/-- All terms that names stand for are closed. -/
def Closed (σ : Assignment L) : Prop := ∀ x v, σ.lookup x = some v → v.Closed

theorem closed_nil : Closed ([] : Assignment L) := nofun

/-- The names that are hidden have no entry, and the others keep theirs. -/
theorem lookup_hide (σ : Assignment L) (names : List Name) (x : Name) :
    (σ.hide names).lookup x = if x ∈ names then none else σ.lookup x := by
  induction σ with
  | nil => simp [hide]
  | cons p σ ih =>
    obtain ⟨y, v⟩ := p
    rw [hide] at ih ⊢
    rw [lookup_cons_eq_ite]
    by_cases hy : y ∈ names
    · rw [List.filter_cons_of_neg (by simpa using hy), ih]
      grind
    · rw [List.filter_cons_of_pos (by simpa using hy), lookup_cons_eq_ite, ih]
      grind

theorem hide_append (σ τ : Assignment L) (names : List Name) :
    (σ ++ τ : Assignment L).hide names = σ.hide names ++ τ.hide names :=
  List.filter_append _ _

theorem Closed.hide {σ : Assignment L} (h : σ.Closed) (names : List Name) :
    (σ.hide names).Closed := by
  intro x v hv
  rw [lookup_hide] at hv
  split at hv
  · cases hv
  · exact h x v hv

theorem Closed.append {σ τ : Assignment L} (hσ : σ.Closed) (hτ : τ.Closed) :
    Closed (σ ++ τ) := by
  intro x v hv
  rw [List.lookup_append, Option.or_eq_some_iff] at hv
  rcases hv with hv | ⟨-, hv⟩
  · exact hσ x v hv
  · exact hτ x v hv

theorem closed_singleton {x : Name} {v : Term L} (hv : v.Closed) : Closed [(x, v)] := by
  intro y w hw
  rw [lookup_cons_eq_ite] at hw
  split at hw
  · cases hw
    exact hv
  · cases hw

end Assignment

theorem lastPosition?_lt {x : Name} {names : List Name} {i : Nat}
    (h : lastPosition? x names = some i) : i < names.length := by
  induction names generalizing i with
  | nil => cases h
  | cons y names ih =>
    rw [lastPosition?] at h
    rw [List.length_cons]
    split at h
    · rename_i j hj
      cases h
      have := ih hj
      omega
    · split at h
      · cases h
        omega
      · cases h

/-- In a call a name gets the value at its last position among the parameters, and
    none if the values end before that. -/
theorem lookup_assignment (params : List Param) (values : List (Term L)) (x : Name) :
    (assignment params values).lookup x =
      (lastPosition? x (paramNames params)).bind (values[·]?) := by
  induction params generalizing values with
  | nil => cases values <;> rfl
  | cons p params ih =>
    cases values with
    | nil => simp [assignment]
    | cons v values =>
      rw [assignment, paramNames_cons, lastPosition?]
      split
      · rename_i hp
        rw [ih]
        cases hx : lastPosition? x (paramNames params) with
        | some i => rfl
        | none =>
          have hne : p.name ≠ x := by
            rintro rfl
            exact lastPosition?_eq_none.1 hx hp
          simp [hne]
      · rename_i hp
        rw [lookup_cons_eq_ite, ih]
        by_cases hx : x = p.name
        · subst hx
          simp [lastPosition?_eq_none.2 hp]
        · rw [if_neg hx, if_neg (Ne.symm hx)]
          cases lastPosition? x (paramNames params) <;> rfl

namespace Term

/-! ## Replacement -/

/-- Replacement depends on the entries of the free variables only. -/
theorem instantiate_congr {e : Term L} {σ τ : Assignment L}
    (h : ∀ x, e.occursFree x = true → τ.lookup x = σ.lookup x) :
    e.instantiate τ = e.instantiate σ := by
  induction e generalizing σ τ with
  | unit | lit n => simp only [instantiate]
  | var x => simp only [instantiate, h x (by simp)]
  | lam params body ih =>
    simp only [instantiate]
    rw [ih fun x hx => ?_]
    rw [Assignment.lookup_hide, Assignment.lookup_hide]
    split
    · rfl
    · rename_i hp
      exact h x (occursFree_lam_iff.2 ⟨hp, hx⟩)
  | app callee args ihc iha =>
    simp only [instantiate]
    rw [ihc fun x hx => h x (occursFree_app_iff.2 (.inl hx)), List.map_congr_left fun a ha =>
      iha a ha fun x hx => h x (occursFree_app_iff.2 (.inr ⟨a, ha, hx⟩))]
  | binop op lhs rhs ihl ihr =>
    simp only [instantiate]
    rw [ihl fun x hx => h x (occursFree_binop_iff.2 (.inl hx)),
      ihr fun x hx => h x (occursFree_binop_iff.2 (.inr hx))]

theorem instantiate_nil (e : Term L) : e.instantiate [] = e := by
  induction e with
  | unit | lit n | var x => simp [instantiate]
  | lam params body ih => simp only [instantiate, Assignment.hide, List.filter_nil, ih]
  | app callee args ihc iha =>
    simp only [instantiate]
    rw [ihc, List.map_congr_left iha, List.map_id']
  | binop op lhs rhs ihl ihr => simp only [instantiate, ihl, ihr]

/-- What is free after a replacement by closed terms: the variables without an
    entry. -/
theorem occursFree_instantiate {e : Term L} {σ : Assignment L} (hσ : σ.Closed) {x : Name} :
    (e.instantiate σ).occursFree x = true ↔ e.occursFree x = true ∧ σ.lookup x = none := by
  induction e generalizing σ with
  | unit | lit n => simp [instantiate]
  | var y =>
    simp only [instantiate]
    cases hy : σ.lookup y with
    | none =>
      simp only [Option.getD_none, occursFree_var, beq_iff_eq]
      grind
    | some v =>
      simp only [Option.getD_some, hσ y v hy x, occursFree_var, beq_iff_eq]
      grind
  | lam params body ih =>
    simp only [instantiate]
    rw [occursFree_lam_iff, occursFree_lam_iff, ih (hσ.hide _), Assignment.lookup_hide]
    grind
  | app callee args ihc iha =>
    simp only [instantiate]
    rw [occursFree_app_iff, occursFree_app_iff, ihc hσ, or_and_right]
    refine or_congr_right ?_
    constructor
    · rintro ⟨b, hb, hx⟩
      obtain ⟨a, ha, rfl⟩ := List.mem_map.1 hb
      obtain ⟨hx, hnone⟩ := (iha a ha hσ).1 hx
      exact ⟨⟨a, ha, hx⟩, hnone⟩
    · rintro ⟨⟨a, ha, hx⟩, hnone⟩
      exact ⟨_, List.mem_map_of_mem ha, (iha a ha hσ).2 ⟨hx, hnone⟩⟩
  | binop op lhs rhs ihl ihr =>
    simp only [instantiate]
    rw [occursFree_binop_iff, occursFree_binop_iff, ihl hσ, ihr hσ, or_and_right]

/-- A substitution after a replacement is one more entry, behind the others. -/
theorem substitute_instantiate {σ : Assignment L} (hσ : σ.Closed) {x : Name} {v : Term L}
    (hv : v.Closed) (e : Term L) :
    (e.instantiate σ).substitute x v = e.instantiate (σ ++ [(x, v)]) := by
  induction e generalizing σ with
  | unit | lit n => simp [instantiate]
  | var y =>
    simp only [instantiate]
    cases hy : σ.lookup y with
    | none =>
      rw [List.lookup_append, hy, lookup_cons_eq_ite]
      by_cases hyx : y = x <;> simp [hyx]
    | some w =>
      rw [List.lookup_append, hy]
      exact substitute_of_not_occursFree (hσ y w hy x) v
  | lam params body ih =>
    simp only [instantiate, Assignment.hide_append]
    by_cases hx : x ∈ paramNames params
    · have hhide : Assignment.hide (paramNames params) [(x, v)] = [] := by
        simp [Assignment.hide, hx]
      rw [hhide, List.append_nil, substitute_of_not_occursFree (by simp [hx])]
    · have hhide : Assignment.hide (paramNames params) [(x, v)] = [(x, v)] := by
        simp [Assignment.hide, hx]
      rw [hhide, substitute_lam_of_closed hv hx, ih (hσ.hide _)]
  | app callee args ihc iha =>
    simp only [instantiate, substitute_app, List.map_map]
    rw [ihc hσ]
    exact congrArg _ (List.map_congr_left fun a ha => iha a ha hσ)
  | binop op lhs rhs ihl ihr =>
    simp only [instantiate, substitute_binop]
    rw [ihl hσ, ihr hσ]

/-- The substitution of a closed term is a replacement with one entry. -/
theorem substitute_eq_instantiate (x : Name) {v : Term L} (hv : v.Closed) (e : Term L) :
    e.substitute x v = e.instantiate [(x, v)] := by
  have h := substitute_instantiate Assignment.closed_nil hv e (x := x)
  rwa [instantiate_nil, List.nil_append] at h

/-- The values of a call after a replacement are the entries that the call makes,
    behind the others. -/
theorem bindValues_instantiate {σ : Assignment L} (hσ : σ.Closed) (params : List Param)
    {values : List (Term L)} (hvalues : ∀ v ∈ values, v.Closed) (e : Term L) :
    (e.instantiate σ).bindValues params values =
      e.instantiate (σ ++ assignment params values) := by
  induction params generalizing σ values with
  | nil => cases values <;> simp [bindValues, assignment]
  | cons p params ih =>
    cases values with
    | nil => simp [bindValues, assignment]
    | cons v values =>
      obtain ⟨hv, hvalues⟩ := List.forall_mem_cons.1 hvalues
      rw [bindValues, assignment]
      split
      · exact ih hσ hvalues
      · rw [substitute_instantiate hσ hv,
          ih (hσ.append (Assignment.closed_singleton hv)) hvalues, List.append_assoc,
          List.singleton_append]

/-- The values of a call are put in all at once. -/
theorem bindValues_eq_instantiate (params : List Param) {values : List (Term L)}
    (hvalues : ∀ v ∈ values, v.Closed) (e : Term L) :
    e.bindValues params values = e.instantiate (assignment params values) := by
  have h := bindValues_instantiate Assignment.closed_nil params hvalues e
  rwa [instantiate_nil, List.nil_append] at h

/-- `(\x: int, x: int. \y: int. x + y)[1, 2]`, where the first value is left out. -/
def addShadowed : Term Int64 :=
  .app (.lam [⟨"x", .int⟩, ⟨"x", .int⟩] (.lam [⟨"y", .int⟩] (.binop "+" (.var "x") (.var "y"))))
    [.lit 1, .lit 2]

end Term

end NaryLambda

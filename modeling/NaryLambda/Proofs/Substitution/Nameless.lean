import NaryLambda.Proofs.Substitution.FreeVars
import NaryLambda.Term.Nameless

/-!
# Substitution without names

Substitution on terms, which renames parameters on its way, is replacement of a
free variable on nameless terms, where there is nothing to rename. First a
variable put in for a variable: if the two refer to the same binder, in scopes
that otherwise agree, the nameless form stays as it is. This covers each turn of
the renaming loop. Then any term, in scopes that bind none of its free
variables.

Results:

* `Term.namelessIn_renameCaptured`: renaming captured parameters keeps the
  nameless form of a lambda.
* `Term.nameless_substitute`: the nameless form of a substitution.
-/

namespace NaryLambda

/-! ## Binders -/

theorem lastPosition?_eq_none {x : Name} {names : List Name} :
    lastPosition? x names = none ↔ x ∉ names := by
  induction names with
  | nil => simp [lastPosition?]
  | cons y names ih =>
    rw [lastPosition?, List.mem_cons, not_or, ← ih]
    cases lastPosition? x names with
    | none => by_cases h : y = x <;> simp [h, Ne.symm]
    | some i => simp

/-- The innermost lambda binds a name that is one of its parameters. -/
theorem binder?_cons_of_mem {x : Name} {names : List Name} (h : x ∈ names)
    (scope : List (List Name)) :
    binder? x (names :: scope) = (lastPosition? x names).map fun i => (0, i) := by
  rw [binder?]
  cases hi : lastPosition? x names with
  | none => exact absurd h (lastPosition?_eq_none.1 hi)
  | some i => rfl

/-- Past a lambda without the name, its binder is one lambda further away. -/
theorem binder?_cons_of_notMem {x : Name} {names : List Name} (h : x ∉ names)
    (scope : List (List Name)) :
    binder? x (names :: scope) = (binder? x scope).map fun b => (b.1 + 1, b.2) := by
  rw [binder?, lastPosition?_eq_none.2 h]

/-- Scopes that agree on a name outside the parameters agree on it inside. -/
theorem binder?_cons_congr {x : Name} {names : List Name} {scope scope' : List (List Name)}
    (h : x ∉ names → binder? x scope' = binder? x scope) :
    binder? x (names :: scope') = binder? x (names :: scope) := by
  by_cases hx : x ∈ names
  · rw [binder?_cons_of_mem hx, binder?_cons_of_mem hx]
  · rw [binder?_cons_of_notMem hx, binder?_cons_of_notMem hx, h hx]

/-- Renaming a parameter moves no other parameter. -/
theorem lastPosition?_rename_of_ne {x y z : Name} (hx : z ≠ x) (hy : z ≠ y)
    (params : List Param) :
    lastPosition? z (paramNames (params.map (·.rename [(x, y)]))) =
      lastPosition? z (paramNames params) := by
  induction params with
  | nil => rfl
  | cons p params ih =>
    rw [List.map_cons, paramNames_cons, paramNames_cons, lastPosition?, lastPosition?, ih,
      Param.name_rename_single]
    by_cases hp : p.name = x
    · rw [if_pos hp, if_neg hy.symm, if_neg (fun h => hx (h.symm.trans hp))]
    · rw [if_neg hp]

/-- The new name of a parameter stands where the old one stood. -/
theorem lastPosition?_rename_self {x y : Name} {params : List Param}
    (h : y ∉ paramNames params) :
    lastPosition? y (paramNames (params.map (·.rename [(x, y)]))) =
      lastPosition? x (paramNames params) := by
  induction params with
  | nil => rfl
  | cons p params ih =>
    rw [paramNames_cons, List.mem_cons, not_or] at h
    rw [List.map_cons, paramNames_cons, paramNames_cons, lastPosition?, lastPosition?, ih h.2,
      Param.name_rename_single]
    by_cases hp : p.name = x
    · rw [if_pos hp, if_pos rfl, if_pos hp]
    · rw [if_neg hp, if_neg (Ne.symm h.1), if_neg hp]

namespace Term

variable {L : Type}

/-! ## Scopes that agree -/

/-- The nameless form depends on the binders of the free variables only. -/
theorem namelessIn_congr {e : Term L} {scope scope' : List (List Name)}
    (h : ∀ y, e.occursFree y = true → binder? y scope' = binder? y scope) :
    e.namelessIn scope' = e.namelessIn scope := by
  induction e generalizing scope scope' with
  | unit | lit n => simp [namelessIn]
  | var x => simp [namelessIn, h x (by simp)]
  | lam params body ih =>
    simp only [namelessIn]
    rw [ih fun y hy => binder?_cons_congr fun hp => h y (occursFree_lam_iff.2 ⟨hp, hy⟩)]
  | app callee args ihc iha =>
    simp only [namelessIn]
    rw [ihc fun y hy => h y (occursFree_app_iff.2 (.inl hy)), List.map_congr_left fun a ha =>
      iha a ha fun y hy => h y (occursFree_app_iff.2 (.inr ⟨a, ha, hy⟩))]
  | binop op lhs rhs ihl ihr =>
    simp only [namelessIn]
    rw [ihl fun y hy => h y (occursFree_binop_iff.2 (.inl hy)),
      ihr fun y hy => h y (occursFree_binop_iff.2 (.inr hy))]

/-! ## A variable for a variable -/

/-- A variable `y` may take the place of `x`: in the new scope `y` refers to the
    binder of `x` in the old one, and all else refers to what it did. -/
def RenameLaw (e : Term L) : Prop :=
  ∀ (x y : Name) (scope scope' : List (List Name)),
    (∀ z, z ≠ x → e.occursFree z = true → binder? z scope' = binder? z scope) →
    (e.occursFree x = true → ∃ b, binder? x scope = some b ∧ binder? y scope' = some b) →
    (e.substitute x (.var y)).namelessIn scope' = e.namelessIn scope

/-- A turn of the renaming loop keeps the nameless form of the body. -/
theorem namelessIn_turn {captured : NameSet} {params : List Param} {body : Term L}
    {r : Name × Name} (h : Refreshes captured params body r) (hbody : RenameLaw body)
    (scope : List (List Name)) :
    (body.substitute r.1 (.var r.2)).namelessIn
        (paramNames (params.map (·.rename [r])) :: scope) =
      body.namelessIn (paramNames params :: scope) := by
  refine hbody r.1 r.2 _ _ (fun z hz hfree => ?_) fun _ => ?_
  · have hz' : z ≠ r.2 := by
      rintro rfl
      rw [h.new_notFree] at hfree
      exact Bool.false_ne_true hfree
    have hmem : z ∈ paramNames (params.map (·.rename [r])) ↔ z ∈ paramNames params := by
      rw [mem_paramNames_rename]
      simp [hz, hz']
    by_cases hp : z ∈ paramNames params
    · rw [binder?_cons_of_mem hp, binder?_cons_of_mem (hmem.2 hp),
        lastPosition?_rename_of_ne hz hz']
    · rw [binder?_cons_of_notMem hp, binder?_cons_of_notMem (mt hmem.1 hp)]
  · have hnew : r.2 ∈ paramNames (params.map (·.rename [r])) :=
      mem_paramNames_rename.2 (.inr ⟨rfl, h.old_mem⟩)
    rw [binder?_cons_of_mem h.old_mem, binder?_cons_of_mem hnew,
      lastPosition?_rename_self h.new_notMem]
    cases hi : lastPosition? r.1 (paramNames params) with
    | none => exact absurd h.old_mem (lastPosition?_eq_none.1 hi)
    | some i => exact ⟨_, rfl, rfl⟩

theorem namelessIn_renameCaptured_of_renameLaw {params : List Param} {body : Term L}
    (captured : NameSet) (hbody : ∀ b : Term L, b.size = body.size → RenameLaw b)
    (scope : List (List Name)) :
    (renameCaptured params body captured).2.namelessIn
        (paramNames (renameCaptured params body captured).1 :: scope) =
      body.namelessIn (paramNames params :: scope) := by
  refine renameCaptured_keeps (motive := fun ps b =>
    b.namelessIn (paramNames ps :: scope) = body.namelessIn (paramNames params :: scope)) rfl ?_
  intro ps b r hsize hr h
  rw [namelessIn_turn hr (hbody b hsize), h]

theorem renameLaw (e : Term L) : RenameLaw e := by
  induction e using sizeInduction with
  | unit => intro x y scope scope' _ _; simp [namelessIn]
  | lit n => intro x y scope scope' _ _; simp [namelessIn]
  | var z =>
    intro x y scope scope' hne hx
    rw [substitute_var]
    split
    · rename_i hz
      subst hz
      obtain ⟨b, hb, hb'⟩ := hx (by simp)
      simp [namelessIn, hb, hb']
    · rename_i hz
      simp [namelessIn, hne z hz (by simp)]
  | lam params body ih =>
    intro x y scope scope' hne hx
    rcases substitute_lam_cases params body x (.var y) with ⟨hfree, heq⟩ | ⟨hfree, heq⟩
    · rw [heq]
      exact namelessIn_congr fun z hz => hne z (by rintro rfl; simp [hfree] at hz) hz
    · have hlam := occursFree_renameCaptured params body (var y : Term L).freeVars
      have hy : y ∉ paramNames (renameCaptured params body (var y : Term L).freeVars).1 :=
        notMem_renameCaptured _ _ (mem_freeVars.2 (by simp))
      obtain ⟨b, hb, hb'⟩ := hx hfree
      rw [← hlam, occursFree_lam_iff] at hfree
      rw [heq]
      simp only [namelessIn, map_type_renameCaptured]
      rw [ih _ (size_renameCaptured _ _ _) x y
          (paramNames (renameCaptured params body (var y : Term L).freeVars).1 :: scope) _
          (fun z hz hfz => binder?_cons_congr fun hp => hne z hz ?_)
          (fun _ => ?_),
        namelessIn_renameCaptured_of_renameLaw _ ih]
      · rw [← hlam]
        exact occursFree_lam_iff.2 ⟨hp, hfz⟩
      · rw [binder?_cons_of_notMem hfree.1, binder?_cons_of_notMem hy, hb, hb']
        exact ⟨_, rfl, rfl⟩
  | app callee args ihc iha =>
    intro x y scope scope' hne hx
    rw [substitute_app]
    simp only [namelessIn, List.map_map]
    rw [ihc x y scope scope' (fun z hz h => hne z hz (occursFree_app_iff.2 (.inl h)))
      (fun h => hx (occursFree_app_iff.2 (.inl h)))]
    refine congrArg _ (List.map_congr_left fun a ha => ?_)
    exact iha a ha x y scope scope'
      (fun z hz h => hne z hz (occursFree_app_iff.2 (.inr ⟨a, ha, h⟩)))
      (fun h => hx (occursFree_app_iff.2 (.inr ⟨a, ha, h⟩)))
  | binop op lhs rhs ihl ihr =>
    intro x y scope scope' hne hx
    rw [substitute_binop]
    simp only [namelessIn]
    rw [ihl x y scope scope' (fun z hz h => hne z hz (occursFree_binop_iff.2 (.inl h)))
        (fun h => hx (occursFree_binop_iff.2 (.inl h))),
      ihr x y scope scope' (fun z hz h => hne z hz (occursFree_binop_iff.2 (.inr h)))
        (fun h => hx (occursFree_binop_iff.2 (.inr h)))]

/-- Renaming captured parameters keeps the nameless form of a lambda. -/
theorem namelessIn_renameCaptured (params : List Param) (body : Term L) (captured : NameSet)
    (scope : List (List Name)) :
    (lam (renameCaptured params body captured).1
        (renameCaptured params body captured).2).namelessIn scope =
      (lam params body).namelessIn scope := by
  simp only [namelessIn, map_type_renameCaptured]
  rw [namelessIn_renameCaptured_of_renameLaw captured fun b _ => renameLaw b]

/-! ## A term for a variable -/

/-- A name that no lambda around binds has a free variable as its nameless form. -/
theorem namelessIn_of_unbound {e : Term L} {scope : List (List Name)}
    (h : ∀ y, e.occursFree y = true → binder? y scope = none) :
    e.namelessIn scope = e.nameless :=
  namelessIn_congr fun y hy => (h y hy).trans rfl

/-- Where a name is not free, or bound by a lambda around, the nameless term has
    nothing to replace. -/
theorem substitute_namelessIn_of_bound {e : Term L} {x : Name} {scope : List (List Name)}
    (h : e.occursFree x = true → binder? x scope ≠ none) (w : Nameless L) :
    Nameless.substitute x w (e.namelessIn scope) = e.namelessIn scope := by
  induction e generalizing scope with
  | unit | lit n => simp only [namelessIn, Nameless.substitute]
  | var z =>
    rw [namelessIn]
    cases hb : binder? z scope with
    | none =>
      have hz : z ≠ x := by
        rintro rfl
        exact h (by simp) hb
      simp only [Nameless.substitute, if_neg hz]
    | some b => simp only [Nameless.substitute]
  | lam params body ih =>
    simp only [namelessIn, Nameless.substitute]
    rw [ih fun hx => ?_]
    by_cases hp : x ∈ paramNames params
    · rw [binder?_cons_of_mem hp, ne_eq, Option.map_eq_none_iff, lastPosition?_eq_none]
      exact not_not_intro hp
    · rw [binder?_cons_of_notMem hp, ne_eq, Option.map_eq_none_iff]
      exact h (occursFree_lam_iff.2 ⟨hp, hx⟩)
  | app callee args ihc iha =>
    simp only [namelessIn, Nameless.substitute, List.map_map]
    rw [ihc fun hx => h (occursFree_app_iff.2 (.inl hx))]
    exact congrArg _ (List.map_congr_left fun a ha =>
      iha a ha fun hx => h (occursFree_app_iff.2 (.inr ⟨a, ha, hx⟩)))
  | binop op lhs rhs ihl ihr =>
    simp only [namelessIn, Nameless.substitute]
    rw [ihl fun hx => h (occursFree_binop_iff.2 (.inl hx)),
      ihr fun hx => h (occursFree_binop_iff.2 (.inr hx))]

/-- In a scope that binds neither the name nor a free variable of the new term,
    the nameless form of a substitution is the nameless term with the free
    variable replaced. -/
theorem namelessIn_substitute {e : Term L} {x : Name} {v : Term L} {scope : List (List Name)}
    (hx : binder? x scope = none) (hv : ∀ y, v.occursFree y = true → binder? y scope = none) :
    (e.substitute x v).namelessIn scope =
      Nameless.substitute x v.nameless (e.namelessIn scope) := by
  induction e using sizeInduction generalizing scope with
  | unit | lit n => simp [namelessIn, Nameless.substitute]
  | var z =>
    rw [substitute_var]
    split
    · rename_i hz
      subst hz
      rw [namelessIn_of_unbound hv]
      simp [namelessIn, hx, Nameless.substitute]
    · rename_i hz
      exact (substitute_namelessIn_of_bound (by simp [hz]) _).symm
  | lam params body ih =>
    rcases substitute_lam_cases params body x v with ⟨hfree, heq⟩ | ⟨hfree, heq⟩
    · rw [heq]
      exact (substitute_namelessIn_of_bound (by simp [hfree]) _).symm
    · rw [← occursFree_renameCaptured params body v.freeVars, occursFree_lam_iff] at hfree
      rw [heq, ← namelessIn_renameCaptured params body v.freeVars]
      simp only [namelessIn, Nameless.substitute]
      rw [ih _ (size_renameCaptured _ _ _)]
      · rw [binder?_cons_of_notMem hfree.1, hx]
        rfl
      · intro y hy
        rw [binder?_cons_of_notMem (notMem_renameCaptured _ _ (mem_freeVars.2 hy)), hv y hy]
        rfl
  | app callee args ihc iha =>
    rw [substitute_app]
    simp only [namelessIn, Nameless.substitute, List.map_map]
    rw [ihc hx hv]
    exact congrArg _ (List.map_congr_left fun a ha => iha a ha hx hv)
  | binop op lhs rhs ihl ihr =>
    rw [substitute_binop]
    simp only [namelessIn, Nameless.substitute]
    rw [ihl hx hv, ihr hx hv]

/-- **Substitution avoids capture.** On nameless forms it is the replacement of a
    free variable, in which the free variables of the new term stay free under
    every lambda. -/
theorem nameless_substitute (e : Term L) (x : Name) (v : Term L) :
    (e.substitute x v).nameless = Nameless.substitute x v.nameless e.nameless :=
  namelessIn_substitute rfl fun _ _ => rfl

end Term

end NaryLambda

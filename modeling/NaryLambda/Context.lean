import NaryLambda.Term.Occurrences

/-!
# Contexts

A context gives types to finitely many names. It is extended by typed names one
after another, so of several with the same name the last one counts; it is the
map that counts, not the order in which it came about.

Results:

* `getElem?_extend`: what a name means in an extended context.
* `extend_append`: extending twice is extending once by both lists.
-/

namespace NaryLambda

/-- The type of the last parameter of the name, if there is one. -/
def paramType? (x : Name) : List Param → Option Ty
  | [] => none
  | p :: params => (paramType? x params).or (if p.name = x then some p.type else none)

theorem paramType?_eq_none {params : List Param} {x : Name} :
    paramType? x params = none ↔ x ∉ paramNames params := by
  induction params with
  | nil => simp [paramType?]
  | cons p params ih =>
    rw [paramNames_cons, List.mem_cons, not_or, ← ih, paramType?, Option.or_eq_none_iff, and_comm,
      eq_comm (a := x)]
    by_cases h : p.name = x <;> simp [h]

theorem exists_paramType? {x : Name} {params : List Param} (h : x ∈ paramNames params) :
    ∃ t, paramType? x params = some t := by
  cases ht : paramType? x params with
  | none => exact absurd h (paramType?_eq_none.1 ht)
  | some t => exact ⟨t, rfl⟩

/-- A parameter does not count for the names of those after it. -/
theorem paramType?_cons_of_mem {p : Param} {params : List Param} {x : Name}
    (hx : x ∈ paramNames params) : paramType? x (p :: params) = paramType? x params := by
  obtain ⟨t, ht⟩ := exists_paramType? hx
  rw [paramType?, ht, Option.some_or]

/-- A parameter counts for its own name, if none after it has the name. -/
theorem paramType?_cons_self {p : Param} {params : List Param} (hp : p.name ∉ paramNames params) :
    paramType? p.name (p :: params) = some p.type := by
  rw [paramType?, paramType?_eq_none.2 hp, if_pos rfl, Option.none_or]

/-- The types of the names in scope (`Env`). -/
abbrev Context := NameMap Ty

namespace Context

/-- The context with typed names added in order (`extend`). -/
def extend (Γ : Context) (params : List Param) : Context :=
  params.foldl (fun Γ p => Γ.insert p.name p.type) Γ

/-- The context made of typed names alone (`from_iter`). -/
def ofParams (params : List Param) : Context := extend ∅ params

@[simp] theorem extend_nil (Γ : Context) : Γ.extend [] = Γ := rfl

@[simp] theorem extend_cons (Γ : Context) (p : Param) (params : List Param) :
    Γ.extend (p :: params) = extend (Γ.insert p.name p.type) params := rfl

theorem extend_append (Γ : Context) (params more : List Param) :
    Γ.extend (params ++ more) = (Γ.extend params).extend more := List.foldl_append

/-- In an extended context a name has the type of its last parameter, and keeps
    its old type if there is none. -/
theorem getElem?_extend (Γ : Context) (params : List Param) (x : Name) :
    (Γ.extend params)[x]? = (paramType? x params).or Γ[x]? := by
  induction params generalizing Γ with
  | nil => simp [paramType?]
  | cons p params ih =>
    rw [extend_cons, ih, paramType?, Std.ExtTreeMap.getElem?_insert]
    cases paramType? x params <;> by_cases h : p.name = x <;> simp [h]

/-- Names other than the parameters' keep their types. -/
theorem getElem?_extend_of_notMem (Γ : Context) {params : List Param} {x : Name}
    (hx : x ∉ paramNames params) : (Γ.extend params)[x]? = Γ[x]? := by
  rw [getElem?_extend, paramType?_eq_none.2 hx, Option.none_or]

end Context

end NaryLambda

import NaryLambda.Evaluation.Reduction
import NaryLambda.Proofs.Substitution.FreeVars
import NaryLambda.Term.Transform

/-!
# Other literals and types

A change of literals and of parameter types leaves the names in a term alone. Names
alone decide where a substitution puts its term, which parameters are renamed for
it and to what. So the change commutes with substitution, and with putting in the
values of a call.

Results:

* `Term.map_substitute`: a change of literals and types after a substitution.
* `Term.map_bindValues`: a change of literals and types after a call.
-/

namespace NaryLambda

variable {K L : Type} {f : K → L} {g : Ty → Ty}

/-- The parameter with a function applied to its type. -/
def Param.mapType (g : Ty → Ty) (p : Param) : Param := { p with type := g p.type }

@[simp] theorem Param.name_mapType (g : Ty → Ty) (p : Param) : (p.mapType g).name = p.name := rfl

@[simp] theorem paramNames_mapType (g : Ty → Ty) (params : List Param) :
    paramNames (params.map (·.mapType g)) = paramNames params := by
  rw [paramNames, List.map_map]
  rfl

namespace Term

/-- The term with a function applied to every literal and another one to the type of
    every parameter. -/
def map (f : K → L) (g : Ty → Ty) : Term K → Term L
  | .unit => .unit
  | .lit n => .lit (f n)
  | .var x => .var x
  | .lam params body => .lam (params.map (·.mapType g)) (body.map f g)
  | .app callee args => .app (callee.map f g) (args.map (map f g))
  | .binop op lhs rhs => .binop op (lhs.map f g) (rhs.map f g)
termination_by e => sizeOf e

/-- Erasing types changes the types only. -/
theorem eraseTypes_eq_map (e : Term L) : e.eraseTypes = e.map id fun _ => .unit := by
  induction e with
  | unit | lit n | var x => simp only [eraseTypes, map, id]
  | lam params body ih =>
    simp only [eraseTypes, map, ih]
    rfl
  | app callee args ihc iha =>
    simp only [eraseTypes, map, ihc]
    rw [List.map_congr_left iha]
  | binop op lhs rhs ihl ihr => simp only [eraseTypes, map, ihl, ihr]

/-- Changing literals changes the literals only. -/
theorem mapLit_eq_map (f : K → L) (e : Term K) : e.mapLit f = e.map f id := by
  induction e with
  | unit | lit n | var x => simp only [mapLit, map]
  | lam params body ih =>
    have hparams : params.map (·.mapType id) = params := List.map_id params
    simp only [mapLit, map, ih, hparams]
  | app callee args ihc iha =>
    simp only [mapLit, map, ihc]
    rw [List.map_congr_left iha]
  | binop op lhs rhs ihl ihr => simp only [mapLit, map, ihl, ihr]

/-! ## Names -/

@[simp] theorem occursFree_map (x : Name) (e : Term K) :
    (e.map f g).occursFree x = e.occursFree x := by
  induction e with
  | unit | lit n | var y => simp [map]
  | lam params body ih => simp [map, ih]
  | app callee args ihc iha =>
    rw [Bool.eq_iff_iff, map, occursFree_app_iff, occursFree_app_iff, ihc]
    simp only [List.mem_map, exists_exists_and_eq_and]
    exact or_congr_right (exists_congr fun a => and_congr_right fun ha => by rw [iha a ha])
  | binop op lhs rhs ihl ihr => simp [map, ihl, ihr]

@[simp] theorem freeVars_map (e : Term K) : (e.map f g).freeVars = e.freeVars := by
  refine Std.ExtTreeSet.ext_mem fun x => ?_
  simp

/-- The fresh names for the parameters of a lambda are the same. -/
theorem freshRenaming_map (params : List Param) (body : Term K) (captured : NameSet) :
    freshRenaming (params.map (·.mapType g)) (body.map f g) captured =
      freshRenaming params body captured := by
  simp only [freshRenaming, capturedNames, freeVars_map, paramNames_mapType]

/-! ## Substitution -/

/-- A change of literals and types commutes with substitution in the term. -/
def MapLaw (f : K → L) (g : Ty → Ty) (e : Term K) : Prop :=
  ∀ (x : Name) (v : Term K), (e.substitute x v).map f g = (e.map f g).substitute x (v.map f g)

theorem map_renameVars_of_mapLaw (names : Renaming) {e : Term K}
    (h : ∀ b : Term K, b.size = e.size → MapLaw f g b) :
    (e.renameVars names).map f g = (e.map f g).renameVars names := by
  induction names generalizing e with
  | nil => rfl
  | cons r names ih =>
    have hsize : (e.substitute r.1 (.var r.2)).size = e.size := size_substitute _ _ (by simp [size])
    have hturn : (e.substitute r.1 (.var r.2)).map f g = (e.map f g).substitute r.1 (.var r.2) := by
      rw [h e rfl, map]
    rw [renameVars, List.foldl_cons, ← renameVars, ih (hsize ▸ h), hturn]
    rfl

theorem map_renameCaptured_of_mapLaw (params : List Param) {body : Term K} (captured : NameSet)
    (h : ∀ b : Term K, b.size = body.size → MapLaw f g b) :
    renameCaptured (params.map (·.mapType g)) (body.map f g) captured =
      ((renameCaptured params body captured).1.map (·.mapType g),
        (renameCaptured params body captured).2.map f g) := by
  simp only [renameCaptured, freshRenaming_map, map_renameVars_of_mapLaw _ h, List.map_map]
  rfl

theorem mapLaw (e : Term K) : MapLaw f g e := by
  induction e using sizeInduction with
  | unit | lit n => intro x v; simp [map]
  | var y =>
    intro x v
    rw [map, substitute_var, substitute_var]
    split
    · rfl
    · rw [map]
  | lam params body ih =>
    intro x v
    rw [map, substitute_lam, substitute_lam, paramNames_mapType, occursFree_map]
    split
    · rw [map]
    · rw [map, freeVars_map, map_renameCaptured_of_mapLaw params v.freeVars ih]
      rw [ih _ (size_renameCaptured params body v.freeVars)]
  | app callee args ihc iha =>
    intro x v
    simp only [map, substitute_app, List.map_map]
    rw [ihc x v]
    exact congrArg _ (List.map_congr_left fun a ha => iha a ha x v)
  | binop op lhs rhs ihl ihr =>
    intro x v
    simp only [map, substitute_binop]
    rw [ihl x v, ihr x v]

/-- A change of literals and types commutes with substitution. -/
theorem map_substitute (e : Term K) (x : Name) (v : Term K) :
    (e.substitute x v).map f g = (e.map f g).substitute x (v.map f g) :=
  mapLaw e x v

/-- A change of literals and types commutes with putting in the values of a call. -/
theorem map_bindValues (params : List Param) (values : List (Term K)) (body : Term K) :
    (body.bindValues params values).map f g =
      (body.map f g).bindValues (params.map (·.mapType g)) (values.map (map f g)) := by
  induction params generalizing values body with
  | nil => cases values <;> rfl
  | cons p params ih =>
    cases values with
    | nil => rfl
    | cons v values =>
      rw [List.map_cons, List.map_cons, bindValues, bindValues, ih, paramNames_mapType,
        Param.name_mapType]
      split
      · rfl
      · rw [map_substitute]

end Term

end NaryLambda

import Mathlib.Data.Finset.Card
import NaryLambda.Context

/-!
# Contexts are maps in which the last binding wins

A context comes from nothing, from a list of bindings, or from a context made before by
adding one binding or several. To say that no context changes later, the steps work on
the list of all contexts made so far. The same steps can be taken with lists of bindings
in place of contexts, which gives the bindings that went into each context. A context is
the map of these bindings, in whatever steps it was made.

Results:

* `Context.isMapOf_ofParams`: what names mean in a context made of bindings, and how many
  it has.
* `Context.Maker.contexts_run`: the history of a context does not matter.
* `Context.Maker.run_prefix`: no step changes what was made before.
* `Context.last_binding_wins`: all of this, and when two contexts are the same.
-/

namespace NaryLambda

theorem paramType?_eq_findRev? (x : Name) (params : List Param) :
    paramType? x params = (params.findRev? (·.name == x)).map (·.type) := by
  induction params with
  | nil => rfl
  | cons p params ih =>
    rw [paramType?, ih, List.findRev?]
    cases params.findRev? (·.name == x) with
    | none => by_cases hp : p.name = x <;> simp [hp]
    | some q => rfl

namespace Context

variable {Γ Δ : Context} {params more : List Param}

/-! ## Maps of bindings -/

/-- Contexts are determined by what names mean in them. -/
theorem eq_iff_getElem?_eq : Γ = Δ ↔ ∀ x : Name, Γ[x]? = Δ[x]? :=
  ⟨fun h _ => h ▸ rfl, Std.ExtTreeMap.ext_getElem?⟩

theorem extend_singleton (Γ : Context) (p : Param) : Γ.extend [p] = Γ.insert p.name p.type := rfl

/-- The context is the map of the bindings in the list, the last one of each name. -/
structure IsMapOf (Γ : Context) (bindings : List Param) : Prop where
  lookup : ∀ x, Γ[x]? = (bindings.findRev? (·.name == x)).map (·.type)
  size : Γ.size = (paramNames bindings).toFinset.card
  empty : Γ.isEmpty = true ↔ bindings = []

theorem getElem?_ofParams (params : List Param) (x : Name) :
    (ofParams params)[x]? = paramType? x params := by
  rw [ofParams, getElem?_extend, Std.ExtTreeMap.getElem?_empty, Option.or_none]

theorem mem_ofParams {x : Name} : x ∈ ofParams params ↔ x ∈ paramNames params := by
  rw [Std.ExtTreeMap.mem_iff_isSome_getElem?, getElem?_ofParams, ← not_iff_not,
    ← paramType?_eq_none, Option.not_isSome_iff_eq_none]

theorem isMapOf_ofParams (params : List Param) : IsMapOf (ofParams params) params where
  lookup x := by rw [getElem?_ofParams, paramType?_eq_findRev?]
  size := by
    have hkeys : (ofParams params).keys.toFinset = (paramNames params).toFinset := by
      ext x
      rw [List.mem_toFinset, List.mem_toFinset, Std.ExtTreeMap.mem_keys, mem_ofParams]
    rw [← hkeys, List.toFinset_card_of_nodup Std.ExtTreeMap.nodup_keys,
      Std.ExtTreeMap.length_keys]
  empty := by
    rw [Std.ExtTreeMap.isEmpty_iff]
    cases params with
    | nil => simp [ofParams]
    | cons p params =>
      have hp : p.name ∈ ofParams (p :: params) := mem_ofParams.2 (.head _)
      simp only [reduceCtorEq, iff_false]
      intro h
      rw [h] at hp
      exact Std.ExtTreeMap.not_mem_empty hp

/-! ## Histories -/

/-- A way of making something of the kind of a context. What it is made from is the
    source, given by its place among all made before. -/
inductive Step
  | new
  | ofParams (params : List Param)
  | insert (source : Nat) (p : Param)
  | extend (source : Nat) (params : List Param)

/-- What the steps make of their sources, in a type of its own. -/
structure Maker (α : Type) where
  new : α
  ofParams : List Param → α
  insert : α → Param → α
  extend : α → List Param → α

namespace Maker

variable {α β : Type}

/-- What a step makes, if its source is there. -/
def make (m : Maker α) (made : List α) : Step → Option α
  | .new => some m.new
  | .ofParams params => some (m.ofParams params)
  | .insert source p => made[source]?.map (m.insert · p)
  | .extend source params => made[source]?.map (m.extend · params)

/-- One step: what it makes comes after all that was made before. -/
def step (m : Maker α) (made : List α) (s : Step) : List α := made ++ (m.make made s).toList

/-- All that a sequence of steps makes. -/
def run (m : Maker α) (steps : List Step) : List α := steps.foldl m.step []

/-- Contexts, made in the four ways there are. -/
def contexts : Maker Context where
  new := ∅
  ofParams := Context.ofParams
  insert Γ p := Γ.insert p.name p.type
  extend := Context.extend

/-- The bindings that went into contexts, one after another. -/
def bindings : Maker (List Param) where
  new := []
  ofParams := id
  insert params p := params ++ [p]
  extend := (· ++ ·)

theorem contexts_make (made : List (List Param)) (s : Step) :
    contexts.make (made.map Context.ofParams) s = (bindings.make made s).map Context.ofParams := by
  cases s with
  | new => rfl
  | ofParams params => rfl
  | insert source p =>
    simp only [make, List.getElem?_map, Option.map_map]
    congr 1
    funext params
    exact (extend_append ∅ params [p]).symm
  | extend source params =>
    simp only [make, List.getElem?_map, Option.map_map]
    congr 1
    funext before
    exact (extend_append ∅ before params).symm

theorem contexts_step (made : List (List Param)) (s : Step) :
    contexts.step (made.map Context.ofParams) s = (bindings.step made s).map Context.ofParams := by
  rw [step, step, contexts_make, List.map_append, Option.toList_map]

/-- Whatever the history of a context, it is the context of its bindings alone. -/
theorem contexts_run (steps : List Step) :
    contexts.run steps = (bindings.run steps).map Context.ofParams := by
  have hfold : ∀ made, steps.foldl contexts.step (made.map Context.ofParams) =
      (steps.foldl bindings.step made).map Context.ofParams := by
    induction steps with
    | nil => exact fun _ => rfl
    | cons s steps ih =>
      intro made
      rw [List.foldl_cons, List.foldl_cons, contexts_step, ih]
  exact hfold []

/-- What was made stays as it is. -/
theorem run_prefix (m : Maker α) (steps more : List Step) :
    m.run steps <+: m.run (steps ++ more) := by
  rw [run, run, List.foldl_append]
  generalize steps.foldl m.step [] = made
  induction more generalizing made with
  | nil => exact List.prefix_rfl
  | cons s more ih => exact (List.prefix_append _ _).trans (ih (m.step made s))

end Maker

/-- **Contexts are maps in which the last binding wins.** -/
theorem last_binding_wins :
    (∀ steps, List.Forall₂ IsMapOf (Maker.contexts.run steps) (Maker.bindings.run steps)) ∧
    (∀ steps more, Maker.contexts.run steps <+: Maker.contexts.run (steps ++ more)) ∧
    (∀ params, ofParams params = extend ∅ params) ∧
    (∀ (Γ : Context) params more, Γ.extend (params ++ more) = (Γ.extend params).extend more) ∧
    (∀ (Γ : Context) p, Γ.extend [p] = Γ.insert p.name p.type) ∧
    ∀ Γ Δ : Context, Γ = Δ ↔ ∀ x : Name, Γ[x]? = Δ[x]? := by
  refine ⟨fun steps => ?_, Maker.contexts.run_prefix, fun _ => rfl, extend_append,
    extend_singleton, fun Γ Δ => eq_iff_getElem?_eq⟩
  rw [Maker.contexts_run, List.forall₂_map_left_iff, List.forall₂_same]
  exact fun params _ => isMapOf_ofParams params

end Context

end NaryLambda

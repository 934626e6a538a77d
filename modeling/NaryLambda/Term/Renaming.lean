import NaryLambda.Term.Occurrences

/-!
# Renaming of captured parameters

Before a term is put under a lambda, the parameters that would capture one of
its free variables get fresh names (`rename_captured`). This module decides which
parameters are renamed and to what; the decision depends on names only. Each captured name is
treated once, at its first occurrence among the parameters, so parameters that
share a name share the fresh one as well, and shadowing between them is kept.

Results:

* `map_fst_freshNames`: every captured name gets a fresh name, in order.
* `freshNames_notMem`: a fresh name is none of the names to avoid.
* `mem_capturedNames`: the captured names are the parameters' names in the set.
-/

namespace NaryLambda

/-- Old names with the fresh names that replace them. -/
abbrev Renaming := List (Name × Name)

/-- Gives each name in turn the least number of primes, at least one, that
    avoids `avoid` and the fresh names chosen before. -/
def freshNames (avoid : NameSet) : List Name → Renaming
  | [] => []
  | x :: xs =>
    let fresh := freshen avoid x.primed
    (x, fresh) :: freshNames (avoid.insert fresh) xs

theorem map_fst_freshNames (avoid : NameSet) (xs : List Name) :
    (freshNames avoid xs).map Prod.fst = xs := by
  induction xs generalizing avoid with
  | nil => rfl
  | cons x xs ih => rw [freshNames, List.map_cons, ih]

theorem freshNames_notMem {avoid : NameSet} {xs : List Name} {r : Name × Name}
    (h : r ∈ freshNames avoid xs) : r.2 ∉ avoid := by
  induction xs generalizing avoid with
  | nil => simp [freshNames] at h
  | cons x xs ih =>
    rcases List.mem_cons.1 h with rfl | h
    · exact freshen_notMem _ _
    · have := ih h
      grind

/-- The names of parameters in `captured`, each once, in order of first
    occurrence. -/
def capturedNames (params : List Param) (captured : NameSet) : List Name :=
  ((paramNames params).filter (· ∈ captured)).eraseDups

theorem mem_capturedNames {params : List Param} {captured : NameSet} {x : Name} :
    x ∈ capturedNames params captured ↔ x ∈ paramNames params ∧ x ∈ captured := by
  simp [capturedNames, List.mem_eraseDups]

/-- The renaming of a lambda's captured parameters: what all turns of the loop in
    `rename_captured` make of their names. A fresh name is not free in the body,
    not captured, and not the name of a parameter. -/
def freshRenaming {L : Type} (params : List Param) (body : Term L) (captured : NameSet) :
    Renaming :=
  freshNames (body.freeVars ∪ captured ∪ .ofList (paramNames params))
    (capturedNames params captured)

/-- The parameter with its name replaced, if the renaming has the name. -/
def Param.rename (names : Renaming) (p : Param) : Param :=
  { p with name := (names.lookup p.name).getD p.name }

@[simp] theorem Param.rename_nil (p : Param) : p.rename [] = p := rfl

@[simp] theorem Param.type_rename (names : Renaming) (p : Param) :
    (p.rename names).type = p.type := rfl

end NaryLambda

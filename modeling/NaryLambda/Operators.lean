import NaryLambda.Name
import NaryLambda.Text.Quoted

/-!
# Operator registries

A registry maps the names of binary operators to functions on literals. An
operator that is registered again gets the new function. The names of a
registry are listed in increasing order.

Results:

* `mem_names`: a name is listed iff it is registered.
* `pairwise_names`: the names are strictly increasing, so none is listed twice.
* `getElem?_insert`, `compute?_insert`: what registering an operator changes.
-/

namespace NaryLambda

/-- A registry of binary operators on literals from `L` (`Binops`). -/
abbrev Operators (L : Type) := NameMap (L → L → L)

namespace Operators

variable {L : Type}

/-- Addition, subtraction and multiplication under the names `+`, `-` and `*`. -/
def arithmetic [Add L] [Sub L] [Mul L] : Operators L :=
  (((∅ : Operators L).insert "+" (· + ·)).insert "-" (· - ·)).insert "*" (· * ·)

/-- The arithmetic of 64-bit integers, which wraps around (`standard`). -/
def standard : Operators Int64 := arithmetic

/-- The arithmetic of all integers, which never wraps. -/
def exact : Operators Int := arithmetic

/-- The result of an operator, if its name is registered (`apply`). -/
def compute? (ops : Operators L) (op : Name) (m n : L) : Option L := ops[op]?.map fun f => f m n

/-- The names of all operators, in increasing order (`names`). The map has them in that
    order already; `Records.sort_eq_names` says that any other one would be sorted to it. -/
def names (ops : Operators L) : List Name := ops.keys

/-- The written form of a list of names: the quoted names in braces. -/
def listing (xs : List Name) : String :=
  "\x7b" ++ ", ".intercalate (xs.map Text.quote) ++ "\x7d"

/-- The written form of a registry (`Debug` of `Binops`). -/
def text (ops : Operators L) : String := listing ops.names

@[simp] theorem mem_names {ops : Operators L} {op : Name} : op ∈ ops.names ↔ op ∈ ops :=
  Std.ExtTreeMap.mem_keys

/-- The names are listed in strictly increasing order. -/
theorem pairwise_names (ops : Operators L) : ops.names.Pairwise (· < ·) := by
  have h : ops.names.Pairwise fun x y => compare x y = .lt := Std.ExtTreeMap.ordered_keys
  exact h.imp compareOfLessAndEq_eq_lt.1

/-- Registering an operator changes what is under its name only. -/
theorem getElem?_insert (ops : Operators L) (op x : Name) (f : L → L → L) :
    (ops.insert op f)[x]? = if op = x then some f else ops[x]? := by
  rw [Std.ExtTreeMap.getElem?_insert]
  simp only [Std.LawfulEqCmp.compare_eq_iff_eq]

theorem compute?_insert (ops : Operators L) (op x : Name) (f : L → L → L) (m n : L) :
    compute? (ops.insert op f) x m n = if x = op then some (f m n) else ops.compute? x m n := by
  rw [compute?, compute?, getElem?_insert]
  by_cases h : op = x
  · simp [h]
  · simp [h, Ne.symm h]

end Operators

end NaryLambda

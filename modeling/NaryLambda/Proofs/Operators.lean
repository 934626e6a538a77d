import Mathlib.Data.List.Sort
import NaryLambda.Operators
import NaryLambda.Proofs.Text.Quoted

/-!
# Registries reflect their registrations

A registry is assembled from nothing or from the standard operators by registering
operators, one after another. Its history is the list of all registrations, where the
standard operators count as three. A later registration of a name hides all earlier
ones: the registry has under each name the function that was registered last, and
nothing under a name that never was. So whether a name is there depends on the names in
the history only, not on their order, and the same holds for the list of names and for
the written form of a registry, from which that list can be read back.

Results:

* `Records.insert`: what a registration adds to a history.
* `Assembly.records`: a registry has what its history says.
* `Name.pairwise_sort`: sorting names that are all different.
* `Records.sort_eq_names`: the names are the registered ones, sorted.
* `Records.names_eq_iff`: which histories have the same list of names.
* `listing_inj`: a list of names can be read off its written form.
* `Assembly.registry_reflects_history`: all of this, for every registry.
-/

namespace NaryLambda

/-! ## Sorted names -/

/-- Sorting puts different names in strictly increasing order. -/
theorem Name.pairwise_sort {xs : List Name} (h : xs.Nodup) :
    (Name.sort xs).Pairwise (· < ·) := by
  have hle : (Name.sort xs).Pairwise (· ≤ ·) := List.pairwise_mergeSort' (· ≤ ·) xs
  have hne : (Name.sort xs).Nodup := (List.mergeSort_perm xs _).nodup_iff.2 h
  exact hle.imp₂ (fun x y h hxy => String.not_le.1 fun hge => hxy (String.le_antisymm h hge)) hne

/-! ## Histories -/

/-- The registration of an operator: its name and what it computes. -/
abbrev Registration (L : Type) := Name × (L → L → L)

namespace Operators

variable {L : Type} {ops ops' : Operators L} {history history' : List (Registration L)}

/-- The names in a history. -/
def registered (history : List (Registration L)) : List Name := history.map (·.1)

/-- The function that was registered last under a name. -/
def lastRegistered (op : Name) (history : List (Registration L)) : Option (L → L → L) :=
  (history.findRev? (·.1 == op)).map (·.2)

theorem lastRegistered_concat (history : List (Registration L)) (op x : Name) (f : L → L → L) :
    lastRegistered x (history ++ [(op, f)]) =
      if op = x then some f else lastRegistered x history := by
  rw [lastRegistered, lastRegistered, List.findRev?_eq_find?_reverse,
    List.findRev?_eq_find?_reverse, List.reverse_concat, List.find?_cons]
  by_cases h : op = x
  · simp [h]
  · simp [h, beq_eq_false_iff_ne.2 h]

theorem lastRegistered_eq_none {op : Name} :
    lastRegistered op history = none ↔ op ∉ registered history := by
  rw [lastRegistered, Option.map_eq_none_iff, List.findRev?_eq_find?_reverse, List.find?_eq_none,
    registered, List.mem_map, not_exists]
  simp only [List.mem_reverse, beq_iff_eq, not_and]

/-- The registry has under each name what was registered last. -/
def Records (ops : Operators L) (history : List (Registration L)) : Prop :=
  ∀ op : Name, ops[op]? = lastRegistered op history

namespace Records

theorem empty : Records (∅ : Operators L) [] := fun _ => Std.ExtTreeMap.getElem?_empty

/-- A registration comes last in the history. -/
theorem insert (h : Records ops history) (op : Name) (f : L → L → L) :
    Records (ops.insert op f) (history ++ [(op, f)]) := by
  intro x
  rw [getElem?_insert, lastRegistered_concat, h x]

/-! ## What is seen of a registry -/

theorem mem_iff (h : Records ops history) {op : Name} : op ∈ ops ↔ op ∈ registered history := by
  rw [Std.ExtTreeMap.mem_iff_isSome_getElem?, h op, ← not_iff_not, ← lastRegistered_eq_none,
    Option.not_isSome_iff_eq_none]

theorem mem_names_iff (h : Records ops history) {op : Name} :
    op ∈ ops.names ↔ op ∈ registered history :=
  mem_names.trans h.mem_iff

theorem compute?_eq (h : Records ops history) (op : Name) (m n : L) :
    ops.compute? op m n = (lastRegistered op history).map fun f => f m n := by
  rw [compute?, h op]

theorem compute?_eq_none_iff (h : Records ops history) {op : Name} {m n : L} :
    ops.compute? op m n = none ↔ op ∉ registered history := by
  rw [h.compute?_eq, Option.map_eq_none_iff, lastRegistered_eq_none]

/-- The names are the registered ones in increasing order, whatever the order in which a
    table of operators has its keys. -/
theorem sort_eq_names (h : Records ops history) {keys : List Name} (hkeys : keys.Nodup)
    (hmem : ∀ op, op ∈ keys ↔ op ∈ registered history) : Name.sort keys = ops.names := by
  refine (Name.pairwise_sort hkeys).eq_of_mem_iff (pairwise_names ops) fun op => ?_
  rw [Name.sort, List.mem_mergeSort, hmem, h.mem_names_iff]

/-- The names are listed alike iff the same ones were registered. -/
theorem names_eq_iff (h : Records ops history) (h' : Records ops' history') :
    ops.names = ops'.names ↔ ∀ op, op ∈ registered history ↔ op ∈ registered history' := by
  constructor
  · intro heq op
    rw [← h.mem_names_iff, heq, h'.mem_names_iff]
  · intro hsame
    refine (pairwise_names ops).eq_of_mem_iff (pairwise_names ops') fun op => ?_
    rw [h.mem_names_iff, hsame, h'.mem_names_iff]

end Records

/-! ## The written form -/

theorem toList_listing (xs : List Name) : (listing xs).toList =
    '\x7b' :: ((", ".intercalate (xs.map Text.quote)).toList ++ ['\x7d']) := by
  rw [listing, String.toList_append, String.toList_append]
  rfl

theorem quote_append_ne (x : Name) (r s : List Char) :
    (Text.quote x).toList ++ r ≠ '\x7d' :: s := by
  simp [Text.toList_quote]

/-- Different lists of names have different written forms. -/
theorem listing_inj {xs ys : List Name} : listing xs = listing ys ↔ xs = ys := by
  refine ⟨fun h => ?_, fun h => h ▸ rfl⟩
  have hchars := congrArg String.toList h
  rw [toList_listing, toList_listing] at hchars
  exact (Text.intercalate_append_inj (by decide) (fun x _ => Text.selfDelimiting_quote x)
    quote_append_ne (List.cons.inj hchars).2).1

/-- All that is seen of a registry is as its history says, and stays so for all names but
    one when that one is registered. The list of names is what sorting makes of the
    registered names, in whatever order a table has them. -/
structure Reflects (ops : Operators L) (history : List (Registration L)) : Prop where
  compute : ∀ op m n, ops.compute? op m n = (lastRegistered op history).map fun f => f m n
  unknown : ∀ op m n, ops.compute? op m n = none ↔ op ∉ registered history
  mem : ∀ op, op ∈ ops ↔ op ∈ registered history
  isSome : ∀ op : Name, ops[op]?.isSome = true ↔ op ∈ registered history
  mem_names : ∀ op, op ∈ ops.names ↔ op ∈ registered history
  sorted : ∀ keys : List Name, keys.Nodup → (∀ op, op ∈ keys ↔ op ∈ registered history) →
    Name.sort keys = ops.names
  increasing : ops.names.Pairwise (· < ·)
  nodup : ops.names.Nodup
  text : ∀ xs, ops.text = listing xs ↔ ops.names = xs
  insert : ∀ op x f, (ops.insert op f)[x]? = if op = x then some f else ops[x]?

theorem Records.reflects (h : Records ops history) : Reflects ops history where
  compute := h.compute?_eq
  unknown _ _ _ := h.compute?_eq_none_iff
  mem _ := h.mem_iff
  isSome _ := Std.ExtTreeMap.mem_iff_isSome_getElem?.symm.trans h.mem_iff
  mem_names _ := h.mem_names_iff
  sorted _ := h.sort_eq_names
  increasing := pairwise_names ops
  nodup := (pairwise_names ops).nodup
  text xs := by rw [text, listing_inj]
  insert := getElem?_insert ops

end Operators

/-! ## Assembled registries -/

/-- How a registry is assembled. -/
inductive Assembly
  | empty
  | standard
  | register (before : Assembly) (op : Name) (f : Int64 → Int64 → Int64)

namespace Assembly

open Operators

/-- The registry that is assembled. -/
def operators : Assembly → Operators Int64
  | .empty => ∅
  | .standard => .standard
  | .register before op f => before.operators.insert op f

/-- All registrations from the first to the last. -/
def history : Assembly → List (Registration Int64)
  | .empty => []
  | .standard => [("+", (· + ·)), ("-", (· - ·)), ("*", (· * ·))]
  | .register before op f => before.history ++ [(op, f)]

/-- An assembled registry has what its history says. -/
theorem records (a : Assembly) : Records a.operators a.history := by
  induction a with
  | empty => exact .empty
  | standard => exact ((Records.empty.insert _ _).insert _ _).insert _ _
  | register before op f ih => exact ih.insert op f

/-- **A registry reflects its history.** What it computes, which names it has and how it
    is written depend on the registrations alone: on the last one of each name, and for
    the list of names on which names there are. -/
theorem registry_reflects_history (a : Assembly) :
    Reflects a.operators a.history ∧
    ∀ b : Assembly, a.operators.names = b.operators.names ↔
      ∀ op, op ∈ registered a.history ↔ op ∈ registered b.history :=
  ⟨a.records.reflects, fun b => a.records.names_eq_iff b.records⟩

/-- A standard operator is replaced, and another one is registered in between. -/
def replacedAddition : Assembly := (standard.register "max" max).register "+" fun m n => m + n + 1

/-- A table may have the keys of `replacedAddition` in any order. -/
theorem replacedAddition_reflects_history :
    ["max", "-", "+", "*"].Nodup ∧
    (∀ op, op ∈ ["max", "-", "+", "*"] ↔ op ∈ registered replacedAddition.history) ∧
    Name.sort ["max", "-", "+", "*"] = replacedAddition.operators.names := by
  have hkeys : ["max", "-", "+", "*"].Nodup := by decide
  have hmem : ∀ op, op ∈ ["max", "-", "+", "*"] ↔ op ∈ registered replacedAddition.history := by
    intro op
    simp only [replacedAddition, history, registered, List.map_append, List.map_cons, List.map_nil,
      List.mem_append, List.mem_cons, List.not_mem_nil]
    tauto
  exact ⟨hkeys, hmem, (registry_reflects_history replacedAddition).1.sorted _ hkeys hmem⟩

example : replacedAddition.operators.compute? "+" 1 1 = some 3 ∧
    replacedAddition.operators.names = ["*", "+", "-", "max"] := by
  decide +kernel

end Assembly

end NaryLambda

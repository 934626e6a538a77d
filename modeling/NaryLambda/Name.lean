import Std.Data.ExtTreeMap
import Std.Data.ExtTreeSet

/-!
# Names

Identifiers and operator names are strings of any characters. Two names are the
same iff their characters are: nothing is normalised. Names are ordered by the
code points of their characters, and sets and maps of names list their members
in that order.

Main results:

* `freshen_notMem`: the name that `freshen` picks is outside the set to avoid.
* `freshen_eq_primes`: it is the first such name among `x`, `x'`, `x''`, ….
-/

namespace NaryLambda

/-- An identifier or an operator name (`Id`). -/
abbrev Name := String

/-- A finite set of names. -/
abbrev NameSet := Std.ExtTreeSet Name

/-- A finite map from names. -/
abbrev NameMap (α : Type) := Std.ExtTreeMap Name α

namespace Name

/-- The name with one more prime at its end (`primed`). -/
def primed (x : Name) : Name := x ++ "'"

/-- The name with `n` more primes at its end. -/
def primes (x : Name) : Nat → Name
  | 0 => x
  | n + 1 => primes x.primed n

theorem length_primed (x : Name) : x.primed.length = x.length + 1 := by
  rw [primed, String.length_append]; rfl

theorem length_primes (x : Name) (n : Nat) : (x.primes n).length = x.length + n := by
  induction n generalizing x with
  | zero => rfl
  | succ n ih => rw [primes, ih, length_primed]; omega

/-- Different numbers of primes make different names. -/
theorem primes_inj {x : Name} {m n : Nat} : x.primes m = x.primes n ↔ m = n := by
  constructor
  · intro h
    have := congrArg String.length h
    simp only [length_primes] at this
    omega
  · rintro rfl; rfl

/-- The names from least to greatest, repetitions kept. -/
def sort (xs : List Name) : List Name := xs.mergeSort

end Name

/-! ## Fresh names -/

/-- A stricter test holds less often, if some element passes only the laxer one. -/
theorem countP_lt_countP {α : Type} {p q : α → Bool} {l : List α} {a : α}
    (hqp : ∀ b, q b → p b) (ha : a ∈ l) (hp : p a) (hq : ¬ q a) :
    l.countP q < l.countP p := by
  induction l with
  | nil => simp at ha
  | cons b l ih =>
    have hle : l.countP q ≤ l.countP p := List.countP_mono_left fun b _ => hqp b
    rcases List.mem_cons.1 ha with rfl | ha
    · simp only [List.countP_cons, hp, hq]
      simp only [if_true, Bool.false_eq_true, if_false]
      omega
    · have := ih ha
      by_cases hb : q b
      · rw [List.countP_cons_of_pos hb, List.countP_cons_of_pos (hqp b hb)]
        omega
      · rw [List.countP_cons_of_neg hb, List.countP_cons]
        omega

/-- The first of `x`, `x'`, `x''`, … that is not in `avoid`: the search for a fresh
    name in `rename_captured`. Each name that is passed over is shorter than the
    next one, so the members of `avoid` at least as long as the candidate become
    fewer. -/
def freshen (avoid : NameSet) (x : Name) : Name :=
  if x ∈ avoid then freshen avoid x.primed else x
termination_by avoid.toList.countP (x.length ≤ ·.length)
decreasing_by
  rename_i h
  refine countP_lt_countP (a := x) ?_ (by simpa using h) (by simp) (by simp [Name.length_primed])
  intro y
  simp only [Name.length_primed, decide_eq_true_eq]
  omega

/-- The name found is not to be avoided. -/
theorem freshen_notMem (avoid : NameSet) (x : Name) : freshen avoid x ∉ avoid := by
  fun_induction freshen avoid x with
  | case1 x _ ih => exact ih
  | case2 x h => exact h

/-- The name found is the first in the sequence of primed names: all before it
    are to be avoided. -/
theorem freshen_eq_primes (avoid : NameSet) (x : Name) :
    ∃ n, freshen avoid x = x.primes n ∧ ∀ m < n, x.primes m ∈ avoid := by
  fun_induction freshen avoid x with
  | case1 x h ih =>
    obtain ⟨n, hn, hlt⟩ := ih
    refine ⟨n + 1, hn, fun m hm => ?_⟩
    cases m with
    | zero => exact h
    | succ m => exact hlt m (by omega)
  | case2 x h => exact ⟨0, rfl, fun m hm => absurd hm (by omega)⟩

end NaryLambda

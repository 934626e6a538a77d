import NaryLambda.Name

/-!
# Types

The types are the unit type, the integers, and functions of any number of
arguments, none included. Equality of types is structural and decidable.
-/

namespace NaryLambda

/-- The types of the calculus (`Type`). -/
inductive Ty
  | unit
  | int
  | fn (domains : List Ty) (range : Ty)
  deriving Inhabited

namespace Ty

/-- Induction on types, with a hypothesis for every domain of a function. -/
@[induction_eliminator]
theorem induction {motive : Ty → Prop} (unit : motive .unit) (int : motive .int)
    (fn : ∀ domains range, (∀ d ∈ domains, motive d) → motive range →
      motive (.fn domains range)) : ∀ t, motive t
  | .unit => unit
  | .int => int
  | .fn domains range =>
    fn domains range (fun d _ => induction unit int fn d) (induction unit int fn range)
termination_by t => sizeOf t

mutual

/-- Decides whether two types are the same (`==` of `Type`). -/
def decEq : (s t : Ty) → Decidable (s = t)
  | .unit, .unit => isTrue rfl
  | .int, .int => isTrue rfl
  | .fn ds r, .fn es u =>
    have := decEqList ds es
    have := decEq r u
    decidable_of_iff (ds = es ∧ r = u) (by simp)
  | .unit, .int | .unit, .fn _ _ | .int, .unit | .int, .fn _ _ | .fn _ _, .unit
  | .fn _ _, .int => isFalse nofun

/-- Decides whether two lists of types are the same. -/
def decEqList : (ss ts : List Ty) → Decidable (ss = ts)
  | [], [] => isTrue rfl
  | s :: ss, t :: ts =>
    have := decEq s t
    have := decEqList ss ts
    decidable_of_iff (s = t ∧ ss = ts) (by simp)
  | [], _ :: _ | _ :: _, [] => isFalse nofun

end

instance : DecidableEq Ty := decEq

end Ty

end NaryLambda

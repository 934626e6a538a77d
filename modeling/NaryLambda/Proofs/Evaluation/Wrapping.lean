import NaryLambda.Proofs.Evaluation.Map

/-!
# Wrapping arithmetic

Addition, subtraction and multiplication of 64-bit integers are those of all
integers, reduced modulo `2 ^ 64`. Reduction is thus a change of literals that
agrees with the operators, and such a change is a simulation. Literals that
evaluation copies, moves under lambdas or reports in an error are reduced with
the rest. So it makes no difference whether every intermediate number is reduced
or the end result alone.

Results:

* `Term.operatorsMap_arithmetic`: a map that respects the three operations agrees
  with the operators.
* `Term.wrap_widen`: a term with 64-bit literals is its own reduction.
* `Term.evaluates_iff_exact`: an end with wrapping arithmetic is a reduced exact end.
* `Term.evaluates_standard_exact`: evaluation with wrapping arithmetic is exact
  evaluation, reduced at the end.
-/

namespace NaryLambda

variable {K L : Type}

/-! ## Operators -/

/-- The three operators, under their names. -/
theorem Operators.getElem?_arithmetic [Add L] [Sub L] [Mul L] (op : Name) :
    (arithmetic : Operators L)[op]? =
      if op = "*" then some (· * ·) else if op = "-" then some (· - ·)
      else if op = "+" then some (· + ·) else none := by
  simp only [arithmetic, Std.ExtTreeMap.getElem?_insert, Std.LawfulEqCmp.compare_eq_iff_eq,
    eq_comm (b := op), Std.ExtTreeMap.getElem?_empty]

namespace Term

/-- A map that respects an operation relates its operator to its counterpart. -/
theorem operatorRel_of_map {f : K → L} {g : K → K → K} {h : L → L → L}
    (hgh : ∀ m n, f (g m n) = h (f m) (f n)) :
    OperatorRel (fun m n => f m = n) (some g) (some h) := by
  refine .some ?_
  rintro m _ m' _ rfl rfl
  exact hgh m m'

/-- A map that respects addition, subtraction and multiplication agrees with the
    operators. -/
theorem operatorsMap_arithmetic [Add K] [Sub K] [Mul K] [Add L] [Sub L] [Mul L] {f : K → L}
    (hadd : ∀ m n, f (m + n) = f m + f n) (hsub : ∀ m n, f (m - n) = f m - f n)
    (hmul : ∀ m n, f (m * n) = f m * f n) :
    OperatorsMap f Operators.arithmetic Operators.arithmetic := by
  intro op
  rw [Operators.getElem?_arithmetic, Operators.getElem?_arithmetic]
  split
  · exact operatorRel_of_map hmul
  · split
    · exact operatorRel_of_map hsub
    · split
      · exact operatorRel_of_map hadd
      · exact .none

/-- Reduction modulo `2 ^ 64` agrees with the operators. -/
theorem operatorsMap_ofInt : OperatorsMap Int64.ofInt .exact .standard :=
  operatorsMap_arithmetic Int64.ofInt_add Int64.ofInt_sub Int64.ofInt_mul

/-! ## Literals -/

/-- Changing literals and changing them back gives the same term. -/
theorem mapLit_mapLit_cancel {f : K → L} {g : L → K} (h : ∀ n, g (f n) = n) (e : Term K) :
    (e.mapLit f).mapLit g = e := by
  induction e with
  | unit | var x => simp only [mapLit]
  | lit n => simp only [mapLit, h]
  | lam params body ih => simp only [mapLit, ih]
  | app callee args ihc iha =>
    have hargs : args.map (mapLit g ∘ mapLit f) = args :=
      (List.map_congr_left iha).trans (List.map_id args)
    simp only [mapLit, ihc, List.map_map, hargs]
  | binop op lhs rhs ihl ihr => simp only [mapLit, ihl, ihr]

/-- A term with 64-bit literals is its own reduction. -/
theorem wrap_widen (e : Term Int64) : e.widen.wrap = e :=
  mapLit_mapLit_cancel Int64.ofInt_toInt e

end Term

/-- A result with 64-bit literals is its own reduction. -/
theorem Result.wrap_widen (r : Result Int64) : (r.mapTerm Term.widen).mapTerm Term.wrap = r := by
  cases r with
  | ok v => exact congrArg _ (Term.wrap_widen v)
  | error reason => cases reason <;> simp [mapTerm, StuckReason.map, Term.wrap_widen]

namespace Term

/-! ## Evaluation -/

/-- The ends of evaluation with wrapping arithmetic are the exact ends, reduced. -/
theorem evaluates_iff_exact {mode : ArityMode} {e : Term Int64} {r : Result Int64} :
    Evaluates .standard mode e r ↔
      ∃ s, Evaluates .exact mode e.widen s ∧ s.mapTerm wrap = r := by
  have hwrap : (wrap : Term Int → Term Int64) = map Int64.ofInt id :=
    funext (mapLit_eq_map Int64.ofInt)
  have h := evaluates_map operatorsMap_ofInt mode id e.widen
  rw [← hwrap, wrap_widen] at h
  obtain ⟨hiff, hends⟩ := h
  constructor
  · intro hr
    obtain ⟨s, hs⟩ := hiff.2 ⟨r, hr⟩
    exact ⟨s, hs, hends s r hs hr⟩
  · rintro ⟨s, hs, rfl⟩
    obtain ⟨r, hr⟩ := hiff.1 ⟨s, hs⟩
    rwa [hends s r hs hr]

/-- **Wrapping arithmetic is exact arithmetic reduced at the end.** A term ends with
    64-bit literals iff it does with unbounded ones, and then the one end is the
    reduction of the other. So an overflow on the way makes no term stuck, and where the
    exact end fits into 64 bits it is the end. -/
theorem evaluates_standard_exact (mode : ArityMode) (e : Term Int64) :
    ((∃ r, Evaluates .standard mode e r) ↔ ∃ s, Evaluates .exact mode e.widen s) ∧
      (∀ r s, Evaluates .standard mode e r → Evaluates .exact mode e.widen s →
        r = s.mapTerm wrap) ∧
      ((∃ v, Evaluates .standard mode e (.ok v)) ↔
        ∃ w, Evaluates .exact mode e.widen (.ok w)) ∧
      ∀ r : Result Int64, Evaluates .exact mode e.widen (r.mapTerm widen) →
        Evaluates .standard mode e r := by
  have hstandard : ∀ s, Evaluates .exact mode e.widen s →
      Evaluates .standard mode e (s.mapTerm wrap) :=
    fun s hs => evaluates_iff_exact.2 ⟨s, hs, rfl⟩
  refine ⟨⟨?_, ?_⟩, fun r s hr hs => hr.unique (hstandard s hs), ⟨?_, ?_⟩, fun r hs => ?_⟩
  · rintro ⟨r, hr⟩
    obtain ⟨s, hs, -⟩ := evaluates_iff_exact.1 hr
    exact ⟨s, hs⟩
  · rintro ⟨s, hs⟩
    exact ⟨_, hstandard s hs⟩
  · rintro ⟨v, hv⟩
    obtain ⟨s, hs, hsv⟩ := evaluates_iff_exact.1 hv
    cases s with
    | ok w => exact ⟨w, hs⟩
    | error reason => cases hsv
  · rintro ⟨w, hw⟩
    exact ⟨_, hstandard _ hw⟩
  · exact Result.wrap_widen r ▸ hstandard _ hs

/-- `(\f: (int) -> int, x: int. f(f(x)) - x)[\y: int. y * 3, 9223372036854775807]`: both
    products overflow, and so does their difference to `x`. -/
def overflowing : Term Int64 :=
  .app (.lam [⟨"f", .fn [.int] .int⟩, ⟨"x", .int⟩]
      (.binop "-" (.app (.var "f") [.app (.var "f") [.var "x"]]) (.var "x")))
    [.lam [⟨"y", .int⟩] (.binop "*" (.var "y") (.lit 3)), .lit 9223372036854775807]

/-- `(\x: int. \. x + x - x)[9223372036854775807][]`: the sum overflows, the end does not. -/
def returning : Term Int64 :=
  .app (.app (.lam [⟨"x", .int⟩]
      (.lam [] (.binop "-" (.binop "+" (.var "x") (.var "x")) (.var "x"))))
    [.lit 9223372036854775807]) []

/-- `overflowing` ends in the reduction of an end outside 64 bits, and `returning` in the
    exact end itself. -/
theorem evaluates_overflowing_returning :
    (Evaluates .standard .strict overflowing (.ok (.lit (-8))) ∧
      Evaluates .exact .strict overflowing.widen (.ok (.lit 73786976294838206456)) ∧
      (.ok (.lit (-8)) : Result Int64) = Result.mapTerm wrap (.ok (.lit 73786976294838206456))) ∧
    Evaluates .exact .strict returning.widen
        (Result.mapTerm widen (.ok (.lit 9223372036854775807))) ∧
      Evaluates .standard .strict returning (.ok (.lit 9223372036854775807)) := by
  have hr : Evaluates .standard .strict overflowing (.ok (.lit (-8))) := ⟨6, by decide +kernel⟩
  have hs : Evaluates .exact .strict overflowing.widen (.ok (.lit 73786976294838206456)) :=
    ⟨6, by decide +kernel⟩
  have ht : Evaluates .exact .strict returning.widen
      (Result.mapTerm widen (.ok (.lit 9223372036854775807))) := ⟨5, by decide +kernel⟩
  obtain ⟨-, hends, -⟩ := evaluates_standard_exact .strict overflowing
  obtain ⟨-, -, -, hexact⟩ := evaluates_standard_exact .strict returning
  exact ⟨⟨hr, hs, hends _ _ hr hs⟩, ht, hexact _ ht⟩

end Term

end NaryLambda

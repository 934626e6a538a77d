import NaryLambda.Proofs.Evaluation.Lockstep
import NaryLambda.Proofs.Substitution.Map

/-!
# Evaluation with other literals and types

Evaluation never looks at the type of a parameter, and at a literal only when an
operator computes with it. So a change of literals that agrees with the operators,
together with any change of types, is a simulation: it commutes with calls, also
where a call renames parameters, and it keeps the form of a term. The ends of the
two runs differ by the same change.

Results:

* `Term.simulation_map`: a change of literals and types is a simulation.
* `Term.evaluates_map`: the end after such a change.
* `Term.evaluates_eraseTypes`: evaluation does not depend on types.
-/

namespace NaryLambda

variable {K L : Type}

/-- The end of an evaluation with a function applied to the term in it: the value, or
    the one that the reason carries. -/
def Result.mapTerm (h : Term K → Term L) : Result K → Result L
  | .ok v => .ok (h v)
  | .error reason => .error (reason.map h)

/-- Ends whose terms are related by a function are related by it as a whole. -/
theorem Result.mapTerm_eq_of_endRel {h : Term K → Term L} {r : Result K} {s : Result L}
    (hrs : EndRel (fun d e => h d = e) (fun d e => h d = e) r s) : r.mapTerm h = s := by
  cases hrs with
  | ok hv => exact congrArg _ hv
  | error hreason =>
    cases hreason with
    | free | unknownOperator | arity => rfl
    | operand hv | notLambda hv => exact hv ▸ rfl

namespace Term

/-! ## The simulation -/

variable {ops : Operators K} {ops' : Operators L} {f : K → L}

/-- Under every name both registries have operators that agree on literals that are
    related by `f`, or none has one. -/
def OperatorsMap (f : K → L) (ops : Operators K) (ops' : Operators L) : Prop :=
  ∀ op : Name, OperatorRel (fun m n => f m = n) ops[op]? ops'[op]?

theorem operatorsMap_id (ops : Operators L) : OperatorsMap id ops ops := fun _ => operatorRel_refl _

/-- A change of literals that agrees with the operators, and any change of types, is a
    simulation. -/
theorem simulation_map (hops : OperatorsMap f ops ops') (mode : ArityMode) (g : Ty → Ty) :
    Simulation ops ops' mode (fun m n => f m = n) (fun d e => d.map f g = e) where
  form := by
    rintro e _ rfl
    cases e with
    | unit =>
      rw [map]
      exact .unit
    | lit n =>
      rw [map]
      exact .lit rfl
    | var x =>
      rw [map]
      exact .var
    | lam params body =>
      rw [map]
      exact .lam (List.length_map _).symm
    | app callee args =>
      have hargs : List.Forall₂ (fun a b => a.map f g = b) args (args.map (map f g)) :=
        List.forall₂_map_right_iff.2 (List.forall₂_same.2 fun a _ => rfl)
      rw [map]
      exact .app rfl hargs
    | binop op lhs rhs =>
      rw [map]
      exact .binop (hops op) rfl rfl
  lit := by
    rintro m _ rfl
    rw [map]
  call := by
    intro params params' body body' values values' hlam hvalues _
    have hmap : values.map (map f g) = values' := by
      rw [← List.forall₂_eq_eq_eq, List.forall₂_map_left_iff]
      exact hvalues
    rw [map, lam.injEq] at hlam
    obtain ⟨rfl, rfl⟩ := hlam
    rw [map_bindValues, hmap]

/-- A change of literals that agrees with the operators, and any change of types,
    changes the end of an evaluation in the same way, and whether there is one not at
    all. -/
theorem evaluates_map (hops : OperatorsMap f ops ops') (mode : ArityMode) (g : Ty → Ty)
    (e : Term K) :
    ((∃ r, Evaluates ops mode e r) ↔ ∃ s, Evaluates ops' mode (e.map f g) s) ∧
      ∀ r s, Evaluates ops mode e r → Evaluates ops' mode (e.map f g) s →
        r.mapTerm (map f g) = s := by
  obtain ⟨hiff, hends⟩ := (simulation_map hops mode g).evaluates rfl
  exact ⟨hiff, fun r s hr hs => Result.mapTerm_eq_of_endRel (hends r s hr hs)⟩

/-! ## Types -/

/-- **Evaluation does not depend on types.** A term and the term with its types erased
    both end or both do not, and the ends differ in types only. So do the ends of any
    two terms that differ in types only. -/
theorem evaluates_eraseTypes (ops : Operators L) (mode : ArityMode) :
    (∀ e : Term L,
      ((∃ r, Evaluates ops mode e r) ↔ ∃ s, Evaluates ops mode e.eraseTypes s) ∧
        ∀ r s, Evaluates ops mode e r → Evaluates ops mode e.eraseTypes s →
          r.mapTerm eraseTypes = s) ∧
    ∀ d e : Term L, d.eraseTypes = e.eraseTypes →
      ((∃ r, Evaluates ops mode d r) ↔ ∃ s, Evaluates ops mode e s) ∧
        ∀ r s, Evaluates ops mode d r → Evaluates ops mode e s →
          r.mapTerm eraseTypes = s.mapTerm eraseTypes := by
  have herase : ∀ e : Term L,
      ((∃ r, Evaluates ops mode e r) ↔ ∃ s, Evaluates ops mode e.eraseTypes s) ∧
        ∀ r s, Evaluates ops mode e r → Evaluates ops mode e.eraseTypes s →
          r.mapTerm eraseTypes = s := by
    intro e
    have heq : (eraseTypes : Term L → Term L) = map id fun _ => .unit := funext eraseTypes_eq_map
    rw [heq]
    exact evaluates_map (operatorsMap_id ops) mode _ e
  refine ⟨herase, fun d e hde => ?_⟩
  obtain ⟨hd, hdends⟩ := herase d
  obtain ⟨he, heends⟩ := herase e
  rw [hde] at hd hdends
  refine ⟨hd.trans he.symm, fun r s hr hs => ?_⟩
  obtain ⟨u, hu⟩ := he.1 ⟨s, hs⟩
  rw [hdends r u hr hu, heends s u hs hu]

/-- `(\f: () -> int, x: int. \y: int. f(y))[\. y]`: where the application goes on without
    the second value, the parameter of the inner lambda is renamed. -/
def partlyApplied : Term Int64 :=
  .app (.lam [⟨"f", .fn [] .int⟩, ⟨"x", .int⟩]
      (.lam [⟨"y", .int⟩] (.app (.var "f") [.var "y"])))
    [.lam [] (.var "y")]

/-- `partlyApplied` with other types. -/
def partlyAppliedToInt : Term Int64 :=
  .app (.lam [⟨"f", .int⟩, ⟨"x", .fn [.unit] .unit⟩]
      (.lam [⟨"y", .fn [] .int⟩] (.app (.var "f") [.var "y"])))
    [.lam [] (.var "y")]

/-- `\y': t. (\. y)[y']`, with the given type `t`. -/
def renamedLam (t : Ty) : Term Int64 :=
  .lam [⟨Name.primed "y", t⟩] (.app (.lam [] (.var "y")) [.var (Name.primed "y")])

/-- `partlyApplied`, the same with other types, and the same with all types erased end
    in lambdas that differ in the type of their parameter. -/
theorem evaluates_partlyApplied :
    (Evaluates .standard .truncate partlyApplied (.ok (renamedLam .int)) ∧
      Evaluates .standard .truncate partlyApplied.eraseTypes (.ok (renamedLam .unit)) ∧
      Result.mapTerm eraseTypes (.ok (renamedLam .int)) = .ok (renamedLam .unit)) ∧
    partlyApplied.eraseTypes = partlyAppliedToInt.eraseTypes ∧
      Evaluates .standard .truncate partlyAppliedToInt (.ok (renamedLam (.fn [] .int))) ∧
      Result.mapTerm eraseTypes (.ok (renamedLam .int)) =
        Result.mapTerm eraseTypes (.ok (renamedLam (.fn [] .int))) := by
  obtain ⟨herase, hsame⟩ := evaluates_eraseTypes (L := Int64) .standard .truncate
  have htypes : partlyApplied.eraseTypes = partlyAppliedToInt.eraseTypes := by decide +kernel
  have hd : Evaluates .standard .truncate partlyApplied (.ok (renamedLam .int)) :=
    ⟨3, by decide +kernel⟩
  have he : Evaluates .standard .truncate partlyAppliedToInt (.ok (renamedLam (.fn [] .int))) :=
    ⟨3, by decide +kernel⟩
  have hu : Evaluates .standard .truncate partlyApplied.eraseTypes (.ok (renamedLam .unit)) :=
    ⟨3, by decide +kernel⟩
  exact ⟨⟨hd, hu, (herase _).2 _ _ hd hu⟩, htypes, he, (hsame _ _ htypes).2 _ _ hd he⟩

end Term

end NaryLambda

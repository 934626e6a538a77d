import NaryLambda.Proofs.Typing.Inversion

/-!
# When no type is found

For each form of term, how inference fails: in the first part that fails, after
parts that have the types they need, or at the term itself.

Results:

* `firstMismatch_eq_some`: the first position at which two lists of types differ.
* `Term.inferAll_eq_error`: the first term of a list that has no type.
* `Term.infer_lam_eq_error`, `Term.infer_app_eq_error`, `Term.infer_binop_eq_error`: the
  failures of a lambda, an application and a binary operator.
-/

namespace NaryLambda

/-- Two steps fail iff the first does, or the second on its result. -/
theorem bind_eq_error {α β : Type} {x : Except TypeError α} {f : α → Except TypeError β}
    {error : TypeError} :
    x >>= f = .error error ↔ x = .error error ∨ ∃ a, x = .ok a ∧ f a = .error error := by
  cases x <;> simp [bind, Except.bind]

theorem throw_eq_error {α : Type} {e error : TypeError} :
    (throw e : Except TypeError α) = .error error ↔ error = e :=
  ⟨fun h => (Except.error.inj h).symm, fun h => congrArg Except.error h.symm⟩

theorem pure_ne_error {α : Type} (a : α) (error : TypeError) :
    (pure a : Except TypeError α) ≠ .error error := by
  intro h
  cases h

theorem requireInt_eq_error {op : Name} {side : Side} {t : Ty} {error : TypeError} :
    requireInt op side t = .error error ↔ t ≠ .int ∧ error = .operand op side t := by
  cases t <;> simp [requireInt, eq_comm]

/-- The check of an operand fails in the operand or at its type, and what follows it fails
    after an operand of the integer type. -/
theorem operand_eq_error {α : Type} {op : Name} {side : Side} {operand : Except TypeError Ty}
    {rest : Except TypeError α} {error : TypeError} :
    (operand >>= fun t => requireInt op side t >>= fun _ => rest) = .error error ↔
      operand = .error error ∨
      (∃ t, operand = .ok t ∧ t ≠ .int ∧ error = .operand op side t) ∨
      operand = .ok .int ∧ rest = .error error := by
  rw [bind_eq_error]
  refine or_congr_right ?_
  simp only [bind_eq_error, requireInt_eq_error, and_or_left, exists_or]
  refine or_congr_right ?_
  constructor
  · rintro ⟨t, hoperand, ⟨⟩, ht, hrest⟩
    rw [requireInt_eq_ok] at ht
    exact ⟨ht ▸ hoperand, hrest⟩
  · rintro ⟨hoperand, hrest⟩
    exact ⟨.int, hoperand, (), rfl, hrest⟩

/-- The first mismatch is at the first position where the types differ. -/
theorem firstMismatch_eq_some {expected found : List Ty} {error : TypeError} :
    firstMismatch expected found = some error ↔
      ∃ position s t, expected[position]? = some s ∧ found[position]? = some t ∧ s ≠ t ∧
        (∀ i < position, expected[i]? = found[i]?) ∧ error = .argument position s t := by
  rw [firstMismatch, Option.map_eq_some_iff]
  constructor
  · rintro ⟨⟨⟨s, t⟩, n⟩, hfind, rfl⟩
    obtain ⟨hne, position, hlt, hget, hbefore⟩ := List.find?_eq_some_iff_getElem.1 hfind
    have hlen : position < expected.length ∧ position < found.length := by
      rwa [List.length_zipIdx, List.length_zip, Nat.lt_min] at hlt
    have hpair : (expected[position] = s ∧ found[position] = t) ∧ position = n := by
      simpa using hget
    obtain ⟨⟨hs, ht⟩, rfl⟩ := hpair
    refine ⟨position, s, t, List.getElem?_eq_some_iff.2 ⟨hlen.1, hs⟩,
      List.getElem?_eq_some_iff.2 ⟨hlen.2, ht⟩, by simpa using hne, fun i hi => ?_, rfl⟩
    have hsame : expected[i] = found[i] := by simpa using hbefore i hi
    rw [List.getElem?_eq_getElem (by omega), List.getElem?_eq_getElem (by omega), hsame]
  · rintro ⟨position, s, t, hs, ht, hne, hbefore, rfl⟩
    obtain ⟨hlen, hs⟩ := List.getElem?_eq_some_iff.1 hs
    obtain ⟨hlen', ht⟩ := List.getElem?_eq_some_iff.1 ht
    refine ⟨((s, t), position), List.find?_eq_some_iff_getElem.2
      ⟨by simpa using hne, position, by simp; omega, by simp [hs, ht], fun i hi => ?_⟩, rfl⟩
    have hsame := hbefore i hi
    rw [List.getElem?_eq_getElem (by omega), List.getElem?_eq_getElem (by omega)] at hsame
    simpa using Option.some.inj hsame

namespace Term

variable {L : Type} {ops : Operators L} {Γ : Context} {error : TypeError}

/-- A list of terms has no types iff some term has none and those before it have
    some; the others are not looked at. -/
theorem inferAll_eq_error {args : List (Term L)} :
    inferAll ops Γ args = .error error ↔
      ∃ before a after, args = before ++ a :: after ∧
        (∀ b ∈ before, ∃ t, b.infer ops Γ = .ok t) ∧ a.infer ops Γ = .error error := by
  induction args with
  | nil => simp [inferAll]
  | cons a args ih =>
    rw [inferAll, bind_eq_error]
    constructor
    · rintro (ha | ⟨t, ha, h⟩)
      · exact ⟨[], a, args, rfl, by simp, ha⟩
      · rcases bind_eq_error.1 h with h | ⟨ts, -, h⟩
        · obtain ⟨before, b, after, rfl, hbefore, hb⟩ := ih.1 h
          exact ⟨a :: before, b, after, rfl, List.forall_mem_cons.2 ⟨⟨t, ha⟩, hbefore⟩, hb⟩
        · cases h
    · rintro ⟨before, b, after, hargs, hbefore, hb⟩
      cases before with
      | nil =>
        obtain ⟨rfl, rfl⟩ := List.cons.inj hargs
        exact .inl hb
      | cons c before =>
        obtain ⟨rfl, rfl⟩ := List.cons.inj hargs
        obtain ⟨⟨t, ha⟩, hbefore⟩ := List.forall_mem_cons.1 hbefore
        exact .inr ⟨t, ha, bind_eq_error.2 (.inl (ih.2 ⟨before, b, after, rfl, hbefore, hb⟩))⟩

theorem infer_var_eq_error {x : Name} :
    (var x : Term L).infer ops Γ = .error error ↔ x ∉ Γ ∧ error = .unbound x := by
  rw [infer, Std.ExtTreeMap.mem_iff_isSome_getElem?]
  cases Γ[x]? <;> simp [eq_comm]

theorem infer_lam_eq_error {params : List Param} {body : Term L} :
    (lam params body).infer ops Γ = .error error ↔
      body.infer ops (Γ.extend params) = .error error := by
  rw [infer, bind_eq_error]
  refine or_iff_left ?_
  rintro ⟨range, -, h⟩
  exact pure_ne_error _ _ h

/-- A call of a function fails at the number of arguments, in an argument, or at the first
    argument of a wrong type. -/
theorem infer_call_eq_error {callee : Term L} {args : List (Term L)} {domains : List Ty}
    {range : Ty} (hcallee : callee.infer ops Γ = .ok (.fn domains range)) :
    (app callee args).infer ops Γ = .error error ↔
      (domains.length ≠ args.length ∧
        error = .arity (.fn domains range) domains.length args.length) ∨
      (domains.length = args.length ∧ (inferAll ops Γ args = .error error ∨
        ∃ found, inferAll ops Γ args = .ok found ∧
          firstMismatch domains found = some error)) := by
  rw [infer, hcallee]
  by_cases hlen : domains.length = args.length
  · cases hargs : inferAll ops Γ args with
    | error e => simp [bind_eq_error, hlen]
    | ok found =>
      cases hmatch : firstMismatch domains found with
      | none => simp [bind_eq_error, pure_ne_error, hlen, hmatch]
      | some e => simpa [bind_eq_error, throw_eq_error, hlen, hmatch] using eq_comm
  · simp [bind_eq_error, throw_eq_error, hlen]

/-- An application fails in its callee, at a callee that is no function, or as a call of
    this function. -/
theorem infer_app_eq_error {callee : Term L} {args : List (Term L)} :
    (app callee args).infer ops Γ = .error error ↔
      callee.infer ops Γ = .error error ∨
      (∃ t, callee.infer ops Γ = .ok t ∧ (∀ domains range, t ≠ .fn domains range) ∧
        error = .notFunction t) ∨
      ∃ domains range, callee.infer ops Γ = .ok (.fn domains range) ∧
        ((domains.length ≠ args.length ∧
          error = .arity (.fn domains range) domains.length args.length) ∨
        (domains.length = args.length ∧ (inferAll ops Γ args = .error error ∨
          ∃ found, inferAll ops Γ args = .ok found ∧
            firstMismatch domains found = some error))) := by
  cases hcallee : callee.infer ops Γ with
  | error e => simp [infer, hcallee, bind_eq_error]
  | ok t =>
    cases t with
    | unit | int => simp [infer, hcallee, bind_eq_error, throw_eq_error]
    | fn domains range =>
      rw [infer_call_eq_error hcallee]
      simp

/-- A binary operation fails in its left operand or at its type, then in its right operand
    or at its type, and last at its operator. -/
theorem infer_binop_eq_error {op : Name} {lhs rhs : Term L} :
    (binop op lhs rhs).infer ops Γ = .error error ↔
      lhs.infer ops Γ = .error error ∨
      (∃ t, lhs.infer ops Γ = .ok t ∧ t ≠ .int ∧ error = .operand op .left t) ∨
      lhs.infer ops Γ = .ok .int ∧
        (rhs.infer ops Γ = .error error ∨
        (∃ t, rhs.infer ops Γ = .ok t ∧ t ≠ .int ∧ error = .operand op .right t) ∨
        rhs.infer ops Γ = .ok .int ∧ op ∉ ops ∧ error = .unknownOperator op) := by
  rw [infer, operand_eq_error, operand_eq_error]
  by_cases hop : op ∈ ops
  · simp only [hop, if_true, pure_ne_error, not_true_eq_false, false_and]
  · simp only [hop, if_false, throw_eq_error, not_false_eq_true, true_and]

end Term

end NaryLambda

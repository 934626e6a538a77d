import NaryLambda.Proofs.Pointwise
import NaryLambda.Typing.Infer

/-!
# When a type is found

For each form of term, the types of its parts with which inference succeeds, and
the shape of the values of a type.

Results:

* `Term.infer_lam_eq_ok`, `Term.infer_app_eq_ok`, `Term.infer_binop_eq_ok`: the
  conditions for a lambda, an application and a binary operator.
* `Term.eq_lit_of_infer`, `Term.eq_lam_of_infer`: the values of the integer type and
  of function types.
-/

namespace NaryLambda

/-- Two steps succeed iff the first does, and the second on its result. -/
theorem bind_eq_ok {α β : Type} {x : Except TypeError α} {f : α → Except TypeError β} {b : β} :
    x >>= f = .ok b ↔ ∃ a, x = .ok a ∧ f a = .ok b := by
  cases x <;> simp [bind, Except.bind]

/-- Among as many types there is no mismatch iff they are the same. -/
theorem firstMismatch_eq_none {expected found : List Ty} (h : expected.length = found.length) :
    firstMismatch expected found = none ↔ expected = found := by
  rw [firstMismatch, Option.map_eq_none_iff, List.find?_eq_none]
  constructor
  · intro hall
    refine List.ext_getElem h fun i hi hi' => ?_
    have hmem : ((expected[i], found[i]), i) ∈ (expected.zip found).zipIdx := by
      rw [List.mk_mem_zipIdx_iff_getElem?, List.getElem?_zip_eq_some]
      exact ⟨List.getElem?_eq_getElem hi, List.getElem?_eq_getElem hi'⟩
    simpa using hall _ hmem
  · rintro rfl p hp
    rw [List.mem_zipIdx_iff_getElem?, List.getElem?_zip_eq_some] at hp
    have : p.1.1 = p.1.2 := Option.some.inj (hp.1.symm.trans hp.2)
    simp [this]

theorem requireInt_eq_ok {op : Name} {side : Side} {t : Ty} :
    requireInt op side t = .ok () ↔ t = .int := by
  cases t <;> simp [requireInt]

namespace Term

variable {L : Type} {ops : Operators L} {Γ : Context}

/-- A list of terms has types iff every term has its own. -/
theorem inferAll_eq_ok {args : List (Term L)} {ts : List Ty} :
    inferAll ops Γ args = .ok ts ↔ List.Forall₂ (fun a t => a.infer ops Γ = .ok t) args ts := by
  induction args generalizing ts with
  | nil =>
    constructor
    · intro h
      cases h
      exact .nil
    · rintro ⟨⟩
      rfl
  | cons a args ih =>
    rw [inferAll, bind_eq_ok]
    constructor
    · rintro ⟨t, ha, h⟩
      obtain ⟨ts', hargs, h⟩ := bind_eq_ok.1 h
      cases h
      exact .cons ha (ih.1 hargs)
    · rintro (_ | ⟨ha, hargs⟩)
      exact ⟨_, ha, bind_eq_ok.2 ⟨_, ih.2 hargs, rfl⟩⟩

theorem infer_var_eq_ok {x : Name} {t : Ty} :
    (var x : Term L).infer ops Γ = .ok t ↔ Γ[x]? = some t := by
  rw [infer]
  cases Γ[x]? <;> simp

theorem infer_lam_eq_ok {params : List Param} {body : Term L} {t : Ty} :
    (lam params body).infer ops Γ = .ok t ↔
      ∃ range, body.infer ops (Γ.extend params) = .ok range ∧
        t = .fn (params.map (·.type)) range := by
  rw [infer, bind_eq_ok]
  exact exists_congr fun range => and_congr_right fun _ =>
    ⟨fun h => (Except.ok.inj h).symm, fun h => h ▸ rfl⟩

theorem infer_app_eq_ok {callee : Term L} {args : List (Term L)} {t : Ty} :
    (app callee args).infer ops Γ = .ok t ↔
      ∃ domains, callee.infer ops Γ = .ok (.fn domains t) ∧
        List.Forall₂ (fun a d => a.infer ops Γ = .ok d) args domains := by
  rw [infer, bind_eq_ok]
  constructor
  · rintro ⟨found, hcallee, h⟩
    split at h
    · rename_i domains range
      split at h
      · cases h
      · rename_i hlen
        obtain ⟨types, hargs, h⟩ := bind_eq_ok.1 h
        have hargs := inferAll_eq_ok.1 hargs
        split at h
        · cases h
        · rename_i hmatch
          cases h
          rw [firstMismatch_eq_none (by rw [not_not.1 hlen, hargs.length_eq])] at hmatch
          exact ⟨domains, hcallee, hmatch ▸ hargs⟩
    · cases h
  · rintro ⟨domains, hcallee, hargs⟩
    refine ⟨_, hcallee, ?_⟩
    simp only [hargs.length_eq, ne_eq, not_true_eq_false, if_false]
    rw [bind_eq_ok]
    exact ⟨domains, inferAll_eq_ok.2 hargs, by rw [(firstMismatch_eq_none rfl).2 rfl]; rfl⟩

theorem infer_binop_eq_ok {op : Name} {lhs rhs : Term L} {t : Ty} :
    (binop op lhs rhs).infer ops Γ = .ok t ↔
      lhs.infer ops Γ = .ok .int ∧ rhs.infer ops Γ = .ok .int ∧ op ∈ ops ∧ t = .int := by
  rw [infer, bind_eq_ok]
  constructor
  · rintro ⟨s, hl, h⟩
    obtain ⟨⟨⟩, hs, h⟩ := bind_eq_ok.1 h
    obtain ⟨s', hr, h⟩ := bind_eq_ok.1 h
    obtain ⟨⟨⟩, hs', h⟩ := bind_eq_ok.1 h
    rw [requireInt_eq_ok] at hs hs'
    subst hs hs'
    split at h
    · cases h
      exact ⟨hl, hr, ‹_›, rfl⟩
    · cases h
  · rintro ⟨hl, hr, hop, rfl⟩
    refine ⟨_, hl, bind_eq_ok.2 ⟨(), rfl, bind_eq_ok.2 ⟨_, hr, bind_eq_ok.2 ⟨(), rfl, ?_⟩⟩⟩⟩
    rw [if_pos hop]
    rfl

/-! ## The values of a type -/

theorem eq_lit_of_infer {v : Term L} (hv : v.isValue = true) (h : v.infer ops Γ = .ok .int) :
    ∃ n, v = lit n := by
  cases v with
  | unit => cases h
  | lit n => exact ⟨n, rfl⟩
  | lam params body =>
    obtain ⟨range, -, ht⟩ := infer_lam_eq_ok.1 h
    cases ht
  | var | app | binop => cases hv

theorem eq_lam_of_infer {v : Term L} {domains : List Ty} {range : Ty} (hv : v.isValue = true)
    (h : v.infer ops Γ = .ok (.fn domains range)) :
    ∃ params body, v = lam params body ∧ params.map (·.type) = domains ∧
      body.infer ops (Γ.extend params) = .ok range := by
  cases v with
  | unit | lit n => cases h
  | lam params body =>
    obtain ⟨range', hbody, ht⟩ := infer_lam_eq_ok.1 h
    cases ht
    exact ⟨params, body, rfl, rfl, hbody⟩
  | var | app | binop => cases hv

end Term

end NaryLambda

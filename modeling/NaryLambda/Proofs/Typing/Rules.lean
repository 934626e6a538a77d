import NaryLambda.Proofs.Typing.Inversion
import NaryLambda.Typing.Rules

/-!
# Inference decides the typing rules

A derivation ends with one rule for each form of term. Read backwards, the rules
ask of the parts of a term what inference asks of them, so inference finds the
types that have a derivation, and fails where there is none. The context inside
a lambda has the scope in which the rule types the body: the last parameter of a
name gives its type.

Results:

* `hasType_lam_iff`, `hasType_app_iff`, `hasType_binop_iff`: the rules read
  backwards.
* `HasType.unique`: a term has one type at most, in any scope.
* `Term.infer_decides_hasType`: inference decides the rules.
-/

namespace NaryLambda

/-- The context inside a lambda has the scope inside the lambda. -/
theorem Context.scope_extend (Γ : Context) (params : List Param) :
    (Γ.extend params).scope = Γ.scope.under params := by
  funext x
  exact getElem?_extend Γ params x

variable {L : Type} {ops : Operators L} {Γ : Scope}

/-! ## The rules read backwards -/

theorem hasType_unit_iff {t : Ty} : HasType ops Γ .unit t ↔ t = .unit := by
  constructor
  · rintro ⟨⟩
    rfl
  · rintro rfl
    exact .unit

theorem hasType_lit_iff {n : L} {t : Ty} : HasType ops Γ (.lit n) t ↔ t = .int := by
  constructor
  · rintro ⟨⟩
    rfl
  · rintro rfl
    exact .lit

theorem hasType_var_iff {x : Name} {t : Ty} : HasType ops Γ (.var x) t ↔ Γ x = some t := by
  constructor
  · intro h
    cases h with
    | var hx => exact hx
  · exact .var

theorem hasType_lam_iff {params : List Param} {body : Term L} {t : Ty} :
    HasType ops Γ (.lam params body) t ↔
      ∃ range, HasType ops (Γ.under params) body range ∧ t = .fn (params.map (·.type)) range := by
  constructor
  · intro h
    cases h with
    | lam hbody => exact ⟨_, hbody, rfl⟩
  · rintro ⟨range, hbody, rfl⟩
    exact .lam hbody

theorem hasType_app_iff {callee : Term L} {args : List (Term L)} {t : Ty} :
    HasType ops Γ (.app callee args) t ↔
      ∃ domains, HasType ops Γ callee (.fn domains t) ∧
        List.Forall₂ (HasType ops Γ) args domains := by
  constructor
  · intro h
    cases h with
    | app hcallee hlen hargs =>
      exact ⟨_, hcallee, List.forall₂_iff_zip.2 ⟨hlen, fun h => hargs _ h⟩⟩
  · rintro ⟨domains, hcallee, hargs⟩
    obtain ⟨hlen, hargs⟩ := List.forall₂_iff_zip.1 hargs
    exact .app hcallee hlen fun p hp => hargs hp

theorem hasType_binop_iff {op : Name} {lhs rhs : Term L} {t : Ty} :
    HasType ops Γ (.binop op lhs rhs) t ↔
      HasType ops Γ lhs .int ∧ HasType ops Γ rhs .int ∧ op ∈ ops ∧ t = .int := by
  constructor
  · intro h
    cases h with
    | binop hl hr hop => exact ⟨hl, hr, hop, rfl⟩
  · rintro ⟨hl, hr, hop, rfl⟩
    exact .binop hl hr hop

/-- A term has one type at most. -/
theorem HasType.unique {e : Term L} {s t : Ty} (hs : HasType ops Γ e s) (ht : HasType ops Γ e t) :
    s = t := by
  induction hs generalizing t with
  | unit => exact (hasType_unit_iff.1 ht).symm
  | lit => exact (hasType_lit_iff.1 ht).symm
  | var hx => exact Option.some.inj (hx.symm.trans (hasType_var_iff.1 ht))
  | lam _ ih =>
    obtain ⟨range, hbody, rfl⟩ := hasType_lam_iff.1 ht
    rw [ih hbody]
  | app _ _ _ ih _ =>
    obtain ⟨domains, hcallee, -⟩ := hasType_app_iff.1 ht
    exact (Ty.fn.inj (ih hcallee)).2
  | binop => exact (hasType_binop_iff.1 ht).2.2.2.symm

namespace Term

/-! ## Inference -/

/-- Inference finds a type iff the rules derive it. -/
theorem infer_eq_ok_iff_hasType {e : Term L} {Γ : Context} {t : Ty} :
    e.infer ops Γ = .ok t ↔ HasType ops Γ.scope e t := by
  induction e generalizing Γ t with
  | unit => rw [hasType_unit_iff, infer, Except.ok.injEq, eq_comm]
  | lit n => rw [hasType_lit_iff, infer, Except.ok.injEq, eq_comm]
  | var x => rw [infer_var_eq_ok, hasType_var_iff, Context.scope]
  | lam params body ih =>
    rw [infer_lam_eq_ok, hasType_lam_iff]
    simp only [ih, Context.scope_extend]
  | app callee args ihc iha =>
    rw [infer_app_eq_ok, hasType_app_iff]
    have hargs : ∀ domains, List.Forall₂ (fun a d => a.infer ops Γ = .ok d) args domains ↔
        List.Forall₂ (HasType ops Γ.scope) args domains :=
      fun domains => forall₂_congr_of_mem fun a ha d => iha a ha
    simp only [ihc, hargs]
  | binop op lhs rhs ihl ihr => rw [infer_binop_eq_ok, hasType_binop_iff, ihl, ihr]

/-- Inference decides the typing rules: it finds a type iff the rules derive it, it
    fails iff they derive none, and they derive one at most. -/
theorem infer_decides_hasType (ops : Operators L) (e : Term L) :
    (∀ (Γ : Context) (t : Ty), e.infer ops Γ = .ok t ↔ HasType ops Γ.scope e t) ∧
    (∀ Γ : Context, (∃ error, e.infer ops Γ = .error error) ↔
      ¬ ∃ t, HasType ops Γ.scope e t) ∧
    ∀ (Γ : Scope) (s t : Ty), HasType ops Γ e s → HasType ops Γ e t → s = t := by
  refine ⟨fun Γ t => infer_eq_ok_iff_hasType, fun Γ => ?_, fun Γ s t => HasType.unique⟩
  simp only [← infer_eq_ok_iff_hasType]
  cases e.infer ops Γ <;> simp

/-- `\x: int, x: (). x`: the last parameter binds. -/
def lastOfTwo : Term Int64 := .lam [⟨"x", .int⟩, ⟨"x", .unit⟩] (.var "x")

/-- Where `x` is an integer, `lastOfTwo` still ends in the unit type, and in no
    other. -/
theorem hasType_lastOfTwo :
    HasType .standard (Context.ofParams [⟨"x", .int⟩]).scope lastOfTwo
        (.fn [.int, .unit] .unit) ∧
      ∃! t, HasType .standard (Context.ofParams [⟨"x", .int⟩]).scope lastOfTwo t := by
  obtain ⟨hiff, -, hunique⟩ := infer_decides_hasType .standard lastOfTwo
  have h := (hiff (Context.ofParams [⟨"x", .int⟩]) (.fn [.int, .unit] .unit)).1 (by decide +kernel)
  exact ⟨h, _, h, fun t ht => hunique _ _ _ ht h⟩

end Term

end NaryLambda

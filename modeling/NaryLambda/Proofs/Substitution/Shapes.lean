import NaryLambda.Proofs.Substitution.BindValues

/-!
# Shapes under substitution

The shape of a compound term is its constructor, with the number of parameters or
arguments, or with the operator. A substitution brings the shapes in the new term
along if there is a place for it, and takes none away: parameters get other names
but stay as many, and renaming puts in variables, which have no shape. The operators
that a term names are among its shapes.

Results:

* `Term.hasShape_substitute`: the shapes in a substitution.
* `Term.hasShape_bindValues`: the shapes in a body with values put in.
* `Term.mem_opNames_bindValues`: the operators of a body with values put in.
-/

namespace NaryLambda

/-- What a compound term is, apart from its parts. -/
inductive Shape
  | lam (params : Nat)
  | app (args : Nat)
  | binop (op : Name)
  deriving DecidableEq

namespace Term

variable {L : Type} {k : Shape}

/-- The shape of a compound term. -/
def shape? : Term L → Option Shape
  | .unit | .lit _ | .var _ => none
  | .lam params _ => some (.lam params.length)
  | .app _ args => some (.app args.length)
  | .binop op _ _ => some (.binop op)

/-- The term or a part of it has the shape. -/
def HasShape (k : Shape) (e : Term L) : Prop := ∃ s, Subterm s e ∧ s.shape? = some k

/-! ## Each form of term -/

@[simp] theorem not_hasShape_unit : ¬ HasShape k (unit : Term L) := by
  rintro ⟨_, ⟨⟩, h⟩
  cases h

@[simp] theorem not_hasShape_lit (n : L) : ¬ HasShape k (lit n) := by
  rintro ⟨_, ⟨⟩, h⟩
  cases h

@[simp] theorem not_hasShape_var (x : Name) : ¬ HasShape k (var x : Term L) := by
  rintro ⟨_, ⟨⟩, h⟩
  cases h

theorem hasShape_lam_iff {params : List Param} {body : Term L} :
    HasShape k (lam params body) ↔ k = .lam params.length ∨ HasShape k body := by
  constructor
  · rintro ⟨s, hs, hk⟩
    cases hs with
    | refl => exact .inl (Option.some.inj hk).symm
    | body hs => exact .inr ⟨s, hs, hk⟩
  · rintro (rfl | ⟨s, hs, hk⟩)
    · exact ⟨_, .refl, rfl⟩
    · exact ⟨s, .body hs, hk⟩

theorem hasShape_app_iff {callee : Term L} {args : List (Term L)} :
    HasShape k (app callee args) ↔
      k = .app args.length ∨ HasShape k callee ∨ ∃ a ∈ args, HasShape k a := by
  constructor
  · rintro ⟨s, hs, hk⟩
    cases hs with
    | refl => exact .inl (Option.some.inj hk).symm
    | callee hs => exact .inr (.inl ⟨s, hs, hk⟩)
    | arg ha hs => exact .inr (.inr ⟨_, ha, s, hs, hk⟩)
  · rintro (rfl | ⟨s, hs, hk⟩ | ⟨a, ha, s, hs, hk⟩)
    · exact ⟨_, .refl, rfl⟩
    · exact ⟨s, .callee hs, hk⟩
    · exact ⟨s, .arg ha hs, hk⟩

theorem hasShape_binop_iff {op : Name} {lhs rhs : Term L} :
    HasShape k (binop op lhs rhs) ↔ k = .binop op ∨ HasShape k lhs ∨ HasShape k rhs := by
  constructor
  · rintro ⟨s, hs, hk⟩
    cases hs with
    | refl => exact .inl (Option.some.inj hk).symm
    | lhs hs => exact .inr (.inl ⟨s, hs, hk⟩)
    | rhs hs => exact .inr (.inr ⟨s, hs, hk⟩)
  · rintro (rfl | ⟨s, hs, hk⟩ | ⟨s, hs, hk⟩)
    · exact ⟨_, .refl, rfl⟩
    · exact ⟨s, .lhs hs, hk⟩
    · exact ⟨s, .rhs hs, hk⟩

/-! ## Substitution -/

/-- What substitution does to the shapes in a term. -/
def ShapeLaw (e : Term L) : Prop :=
  ∀ (x : Name) (v : Term L) (k : Shape), HasShape k (e.substitute x v) ↔
    HasShape k e ∨ (e.occursFree x = true ∧ HasShape k v)

/-- Renaming changes no shape in the body, if substitution in bodies of this size obeys the
    law. -/
theorem hasShape_renameCaptured_of_shapeLaw (params : List Param) {body : Term L}
    (captured : NameSet) (hbody : ∀ b : Term L, b.size = body.size → ShapeLaw b) (k : Shape) :
    HasShape k (renameCaptured params body captured).2 ↔ HasShape k body := by
  refine renameCaptured_keeps (motive := fun _ b => HasShape k b ↔ HasShape k body) .rfl ?_
  intro ps b r hsize _ h
  rw [hbody b hsize, h]
  simp

theorem shapeLaw (e : Term L) : ShapeLaw e := by
  induction e using sizeInduction with
  | unit => simp [ShapeLaw]
  | lit n => simp [ShapeLaw]
  | var y =>
    intro x v k
    rw [substitute_var]
    by_cases h : y = x <;> simp [h]
  | lam params body ih =>
    intro x v k
    rcases substitute_lam_cases params body x v with ⟨hx, heq⟩ | ⟨hx, heq⟩
    · rw [heq, hx]
      simp
    · have hbody := hasShape_renameCaptured_of_shapeLaw params v.freeVars ih k
      have hlen : (renameCaptured params body v.freeVars).1.length = params.length :=
        List.length_map _
      have hfree := occursFree_renameCaptured params body v.freeVars x
      rw [hx, occursFree_lam_iff] at hfree
      rw [heq, hx, hasShape_lam_iff, hasShape_lam_iff, hlen, ih _ (size_renameCaptured _ _ _),
        hbody, hfree.2, or_assoc]
  | app callee args ihc iha =>
    intro x v k
    have hargs := exists_mem_map_substitute (P := HasShape k) (Q := HasShape k)
      fun a ha => iha a ha x v k
    rw [substitute_app, hasShape_app_iff, hasShape_app_iff, List.length_map, occursFree_app_iff,
      ihc, hargs, or_and_right, or_or_or_comm]
    exact or_assoc.symm
  | binop op lhs rhs ihl ihr =>
    intro x v k
    rw [substitute_binop, hasShape_binop_iff, hasShape_binop_iff, occursFree_binop_iff, ihl, ihr]
    tauto

/-- The shapes in a substitution are those in the term, and those in the new term if it is
    put anywhere. -/
theorem hasShape_substitute {e : Term L} {x : Name} {v : Term L} :
    HasShape k (e.substitute x v) ↔ HasShape k e ∨ (e.occursFree x = true ∧ HasShape k v) :=
  shapeLaw e x v k

/-- A body with values put in has shapes of its own and of the values only. -/
theorem hasShape_bindValues {params : List Param} {values : List (Term L)} {body : Term L}
    (h : HasShape k (body.bindValues params values)) :
    HasShape k body ∨ ∃ v ∈ values, HasShape k v := by
  induction params generalizing values body with
  | nil => exact .inl h
  | cons p params ih =>
    cases values with
    | nil => exact .inl h
    | cons v values =>
      rw [bindValues] at h
      rcases ih h with hbody | ⟨w, hw, hk⟩
      · split at hbody
        · exact .inl hbody
        · rcases hasShape_substitute.1 hbody with hk | ⟨-, hk⟩
          · exact .inl hk
          · exact .inr ⟨v, .head _, hk⟩
      · exact .inr ⟨w, .tail _ hw, hk⟩

/-! ## Operators -/

@[simp] theorem opNames_unit : (unit : Term L).opNames = [] := by rw [opNames]

@[simp] theorem opNames_lit (n : L) : (lit n).opNames = [] := by rw [opNames]

@[simp] theorem opNames_var (x : Name) : (var x : Term L).opNames = [] := by rw [opNames]

@[simp] theorem opNames_lam (params : List Param) (body : Term L) :
    (lam params body).opNames = body.opNames := by
  rw [opNames]

theorem mem_opNames_app {op : Name} {callee : Term L} {args : List (Term L)} :
    op ∈ (app callee args).opNames ↔ op ∈ callee.opNames ∨ ∃ a ∈ args, op ∈ a.opNames := by
  rw [opNames, List.mem_append, List.mem_flatMap]

theorem mem_opNames_binop {op o : Name} {lhs rhs : Term L} :
    op ∈ (binop o lhs rhs).opNames ↔ op = o ∨ op ∈ lhs.opNames ∨ op ∈ rhs.opNames := by
  rw [opNames, List.mem_cons, List.mem_append]

/-- The operators that a term names are those among its shapes. -/
theorem mem_opNames_iff_hasShape {op : Name} {e : Term L} :
    op ∈ e.opNames ↔ HasShape (.binop op) e := by
  induction e with
  | unit | lit n | var x => simp
  | lam params body ih => simp [hasShape_lam_iff, ih]
  | app callee args ihc iha =>
    have hargs : (∃ a ∈ args, op ∈ a.opNames) ↔ ∃ a ∈ args, HasShape (.binop op) a :=
      exists_congr fun a => and_congr_right fun ha => iha a ha
    have hne : Shape.binop op ≠ .app args.length := nofun
    rw [mem_opNames_app, hasShape_app_iff, ihc, hargs, or_iff_right hne]
  | binop o lhs rhs ihl ihr =>
    rw [mem_opNames_binop, hasShape_binop_iff, ihl, ihr, Shape.binop.injEq]

/-- A body with values put in names operators of its own and of the values only. -/
theorem mem_opNames_bindValues {params : List Param} {values : List (Term L)} {body : Term L}
    {op : Name} (h : op ∈ (body.bindValues params values).opNames) :
    op ∈ body.opNames ∨ ∃ v ∈ values, op ∈ v.opNames := by
  simp only [mem_opNames_iff_hasShape] at h ⊢
  exact hasShape_bindValues h

end Term

end NaryLambda

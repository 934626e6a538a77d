import NaryLambda.Term.Occurrences

/-!
# Terms made from terms

Terms with other literals, and terms with other parameter types, in the same
shape and with the same names. Terms with several names replaced at once and no
parameter renamed: with closed terms to put in, nothing can be captured. And
curried forms: lambdas of one parameter each, and applications to one argument
each.
-/

namespace NaryLambda

/-! ## Literals and types -/

/-- The parameter with the unit type. -/
def Param.eraseType (p : Param) : Param := { p with type := .unit }

namespace Term

variable {K L : Type}

/-- The term with a function applied to every literal. -/
def mapLit (f : K → L) : Term K → Term L
  | .unit => .unit
  | .lit n => .lit (f n)
  | .var x => .var x
  | .lam params body => .lam params (body.mapLit f)
  | .app callee args => .app (callee.mapLit f) (args.map (mapLit f))
  | .binop op lhs rhs => .binop op (lhs.mapLit f) (rhs.mapLit f)
termination_by e => sizeOf e

/-- The term with 64-bit literals as unbounded integers. -/
def widen (e : Term Int64) : Term Int := e.mapLit Int64.toInt

/-- The term with every literal reduced to the 64-bit integer that is congruent
    to it modulo `2 ^ 64`. -/
def wrap (e : Term Int) : Term Int64 := e.mapLit Int64.ofInt

/-- The term with the unit type as the type of every parameter. -/
def eraseTypes : Term L → Term L
  | .unit => .unit
  | .lit n => .lit n
  | .var x => .var x
  | .lam params body => .lam (params.map (·.eraseType)) body.eraseTypes
  | .app callee args => .app callee.eraseTypes (args.map eraseTypes)
  | .binop op lhs rhs => .binop op lhs.eraseTypes rhs.eraseTypes
termination_by e => sizeOf e

/-! ## Currying -/

/-- Nested lambdas of one parameter each, the first one outermost. -/
def curriedLam (params : List Param) (body : Term L) : Term L :=
  params.foldr (fun p e => .lam [p] e) body

/-- Nested applications to one argument each, the first one innermost. -/
def curriedApp (callee : Term L) (args : List (Term L)) : Term L :=
  args.foldl (fun e a => .app e [a]) callee

end Term

/-! ## Simultaneous replacement -/

/-- Terms for names. The first entry of a name counts. -/
abbrev Assignment (L : Type) := List (Name × Term L)

variable {L : Type}

/-- The assignment without entries for the given names. -/
def Assignment.hide (names : List Name) (σ : Assignment L) : Assignment L :=
  σ.filter fun p => p.1 ∉ names

/-- The term with the free occurrences of names replaced as the assignment says,
    and all parameters as they are. -/
def Term.instantiate (σ : Assignment L) : Term L → Term L
  | .unit => .unit
  | .lit n => .lit n
  | .var x => (σ.lookup x).getD (.var x)
  | .lam params body => .lam params (body.instantiate (σ.hide (paramNames params)))
  | .app callee args => .app (callee.instantiate σ) (args.map (instantiate σ))
  | .binop op lhs rhs => .binop op (lhs.instantiate σ) (rhs.instantiate σ)
termination_by e => sizeOf e

/-- The values for parameters: a name gets the value at its last occurrence among
    the parameters, and none if the values end before that. -/
def assignment : List Param → List (Term L) → Assignment L
  | p :: params, v :: values =>
    if p.name ∈ paramNames params then assignment params values
    else (p.name, v) :: assignment params values
  | [], _ | _, [] => []

end NaryLambda

import NaryLambda.Term.Substitution

/-!
# Loops over one state

Free variables, fresh names and substitution as loops that change one state on their
way. A traversal keeps a single stack of bound names for the whole term, on which a
lambda puts its parameters and from which it takes them again. The renaming of captured
parameters goes through their positions and changes the parameters, the body and the set
of names to avoid while it reads them. The search for a fresh name and the recursion of
substitution take a bound, and give no answer if it is too small; nor does a loop that
reads a position where there is no parameter.
-/

namespace NaryLambda

variable {L : Type}

/-! ## One stack of bound names -/

/-- The state of a traversal: the stack of bound names, the newest at its end, and the
    free variables found so far. -/
structure Traversal where
  bound : List Name
  free : NameSet

/-- Goes through a term from left to right and collects its free variables (`inner` in
    `free_vars`). Behind a lambda the stack is cut to the height that it had before. -/
def Term.traverse : Term L → Traversal → Traversal
  | .unit, s | .lit _, s => s
  | .var x, s => if x ∈ s.bound then s else { s with free := s.free.insert x }
  | .lam params body, s =>
    let inner := body.traverse { s with bound := s.bound ++ paramNames params }
    { inner with bound := inner.bound.take s.bound.length }
  | .app callee args, s => args.foldl (fun s a => a.traverse s) (callee.traverse s)
  | .binop _ lhs rhs, s => rhs.traverse (lhs.traverse s)
termination_by e => sizeOf e

/-! ## Renaming in a loop -/

/-- The first of `x`, `x'`, `x''`, … that is not in `avoid`, if it is among the first
    `tries` of them: the inner loop of `rename_captured`. -/
def freshenWithin (avoid : NameSet) : Nat → Name → Option Name
  | 0, _ => none
  | tries + 1, x => if x ∈ avoid then freshenWithin avoid tries x.primed else some x

/-- The state of the renaming loop: the parameters and the body as far as they are
    renamed, and the names that the next fresh name has to avoid. -/
structure RenamingState (L : Type) where
  params : List Param
  body : Term L
  avoid : NameSet

/-- The turn of the loop in `rename_captured` at a position. A parameter that is captured gets a fresh name,
    and so do all after it that have its name. -/
def RenamingState.turn (substitute : Term L → Name → Term L → Option (Term L))
    (captured : NameSet) (s : RenamingState L) (i : Nat) : Option (RenamingState L) := do
  let p ← s.params[i]?
  if p.name ∈ captured then
    let fresh := freshen s.avoid p.name.primed
    let body ← substitute s.body p.name (.var fresh)
    return {
      params := s.params.take i ++ (s.params.drop i).map (·.rename [(p.name, fresh)])
      body
      avoid := s.avoid.insert fresh }
  else return s

namespace Term

/-- Renames the parameters in `captured` (`rename_captured`), one position after another,
    with a substitution that may give no answer. -/
def renameInPlace (substitute : Term L → Name → Term L → Option (Term L))
    (params : List Param) (body : Term L) (captured : NameSet) :
    Option (List Param × Term L) :=
  if captured.isEmpty then some (params, body)
  else do
    let avoid := body.freeVars ∪ captured ∪ .ofList (paramNames params)
    let s ← (List.range params.length).foldlM (RenamingState.turn substitute captured)
      ⟨params, body, avoid⟩
    return (s.params, s.body)

/-- Substitution (`substitute`) with recursion no deeper than the bound, where a lambda's
    parameters are renamed by the loop. -/
def substituteWithin : Nat → Term L → Name → Term L → Option (Term L)
  | 0, _, _, _ => none
  | depth + 1, e, x, v =>
    match e with
    | .unit | .lit _ => some e
    | .var y => some (if y = x then v else e)
    | .lam params body =>
      if x ∈ paramNames params ∨ body.occursFree x = false then some e
      else do
        let (params, body) ← renameInPlace (substituteWithin depth) params body v.freeVars
        return .lam params (← substituteWithin depth body x v)
    | .app callee args => do
      let callee ← substituteWithin depth callee x v
      return .app callee (← args.mapM (substituteWithin depth · x v))
    | .binop op lhs rhs => do
      let lhs ← substituteWithin depth lhs x v
      return .binop op lhs (← substituteWithin depth rhs x v)

end Term

end NaryLambda

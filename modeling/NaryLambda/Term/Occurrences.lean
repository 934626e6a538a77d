import NaryLambda.Term.Basic

/-!
# What occurs in a term

Free variables have two analyses. `occursFree` answers for one name, `freeVars`
collects all names in one traversal that carries the names bound so far. A
lambda binds its parameters in its body and nowhere else, and operator names
are no variables. `freeNames` describes the same set part by part, and
`countFree` counts the occurrences of a name. Besides free variables, there are
the operators that a term names, the names of its parameters, and the terms that
it contains.

Results:

* `mem_collectFree`: what the traversal adds to the names it has collected.
* `mem_freeVars`: the two analyses agree on every name.
* `closed_iff_freeVars`: a term is closed iff its set of free variables is empty.
-/

namespace NaryLambda

/-- The names of a list of parameters, in order. -/
def paramNames (params : List Param) : List Name := params.map (·.name)

@[simp] theorem paramNames_nil : paramNames [] = [] := rfl

@[simp] theorem paramNames_cons (p : Param) (params : List Param) :
    paramNames (p :: params) = p.name :: paramNames params := rfl

@[simp] theorem length_paramNames (params : List Param) :
    (paramNames params).length = params.length := List.length_map _

namespace Term

variable {L : Type}

/-! ## One name -/

/-- Whether the name occurs free in the term (`occurs_free`). -/
def occursFree (x : Name) : Term L → Bool
  | .unit | .lit _ => false
  | .var y => y == x
  | .lam params body => !(paramNames params).contains x && occursFree x body
  | .app callee args => occursFree x callee || args.attach.any fun a => occursFree x a.1
  | .binop _ lhs rhs => occursFree x lhs || occursFree x rhs
termination_by e => sizeOf e
decreasing_by
  all_goals simp_wf
  all_goals try omega
  have := List.sizeOf_lt_of_mem a.2
  omega

@[simp] theorem occursFree_unit (x : Name) : occursFree x (.unit : Term L) = false := by
  simp [occursFree]

@[simp] theorem occursFree_lit (x : Name) (n : L) : occursFree x (.lit n) = false := by
  simp [occursFree]

@[simp] theorem occursFree_var (x y : Name) : occursFree x (.var y : Term L) = (y == x) := by
  simp [occursFree]

@[simp] theorem occursFree_lam (x : Name) (params : List Param) (body : Term L) :
    occursFree x (.lam params body) = (!(paramNames params).contains x && occursFree x body) := by
  simp [occursFree]

@[simp] theorem occursFree_app (x : Name) (callee : Term L) (args : List (Term L)) :
    occursFree x (.app callee args) = (occursFree x callee || args.any (occursFree x)) := by
  simp [occursFree]

@[simp] theorem occursFree_binop (x op : Name) (lhs rhs : Term L) :
    occursFree x (.binop op lhs rhs) = (occursFree x lhs || occursFree x rhs) := by
  simp [occursFree]

/-! ## All names -/

/-- Adds to `free` the free variables of the term that are not in `bound`. -/
def collectFree (bound : List Name) (free : NameSet) : Term L → NameSet
  | .unit | .lit _ => free
  | .var x => if x ∈ bound then free else free.insert x
  | .lam params body => body.collectFree (paramNames params ++ bound) free
  | .app callee args =>
    args.foldl (fun free a => a.collectFree bound free) (callee.collectFree bound free)
  | .binop _ lhs rhs => rhs.collectFree bound (lhs.collectFree bound free)
termination_by e => sizeOf e

/-- The set of free variables of a term (`free_vars`). -/
def freeVars (e : Term L) : NameSet := e.collectFree [] ∅

/-- The free variables by recursion on the term: those of its parts, and of a
    lambda those of its body that are no parameters. -/
def freeNames : Term L → NameSet
  | .unit | .lit _ => ∅
  | .var x => .ofList [x]
  | .lam params body => body.freeNames \ .ofList (paramNames params)
  | .app callee args => (args.map freeNames).foldl (· ∪ ·) callee.freeNames
  | .binop _ lhs rhs => lhs.freeNames ∪ rhs.freeNames
termination_by e => sizeOf e

/-- Whether a term has no free variables. -/
def Closed (e : Term L) : Prop := ∀ x, e.occursFree x = false

/-! ## Agreement -/

/-- The traversal adds the names that occur free in the term outside `bound`, and
    no others. -/
theorem mem_collectFree (e : Term L) (x : Name) (bound : List Name) (free : NameSet) :
    x ∈ e.collectFree bound free ↔ x ∈ free ∨ x ∉ bound ∧ e.occursFree x = true := by
  induction e generalizing bound free with
  | unit | lit => simp [collectFree]
  | var y =>
    simp only [collectFree, occursFree_var, beq_iff_eq]
    split <;> grind
  | lam params body ih =>
    simp only [collectFree, ih, occursFree_lam, List.mem_append, Bool.and_eq_true,
      Bool.not_eq_true', List.contains_eq_mem, decide_eq_false_iff_not]
    grind
  | app callee args ihc iha =>
    rw [collectFree]
    have key : ∀ (as : List (Term L)) (free : NameSet), (∀ a ∈ as, a ∈ args) →
        (x ∈ as.foldl (fun free a => a.collectFree bound free) free ↔
          x ∈ free ∨ x ∉ bound ∧ as.any (occursFree x) = true) := by
      intro as
      induction as with
      | nil => simp
      | cons a as ih =>
        intro free has
        rw [List.foldl_cons, ih _ fun b hb => has b (.tail _ hb), iha a (has a (.head _)),
          List.any_cons, Bool.or_eq_true]
        grind
    rw [key args _ fun _ h => h, ihc, occursFree_app, Bool.or_eq_true]
    grind
  | binop op lhs rhs ihl ihr =>
    simp only [collectFree, ihl, ihr, occursFree_binop, Bool.or_eq_true]
    grind

/-- A name is among the free variables iff it occurs free. -/
@[simp] theorem mem_freeVars {e : Term L} {x : Name} : x ∈ e.freeVars ↔ e.occursFree x = true := by
  simp [freeVars, mem_collectFree]

theorem closed_iff_freeVars {e : Term L} : e.Closed ↔ e.freeVars = ∅ := by
  constructor
  · intro h
    refine Std.ExtTreeSet.ext_mem fun x => ?_
    simp [h x]
  · intro h x
    rw [Bool.eq_false_iff, ne_eq, ← mem_freeVars, h]
    exact Std.ExtTreeSet.not_mem_empty

instance (e : Term L) : Decidable e.Closed := decidable_of_iff' _ closed_iff_freeVars

/-! ## Occurrences, operators, parameters, subterms -/

/-- The number of free occurrences of a name. -/
def countFree (x : Name) : Term L → Nat
  | .unit | .lit _ => 0
  | .var y => if y = x then 1 else 0
  | .lam params body => if x ∈ paramNames params then 0 else countFree x body
  | .app callee args =>
    countFree x callee + @List.sum Nat _ Zero.ofOfNat0 (args.map (countFree x))
  | .binop _ lhs rhs => countFree x lhs + countFree x rhs
termination_by e => sizeOf e

/-- The operators that a term names, also under lambdas, from left to right. -/
def opNames : Term L → List Name
  | .unit | .lit _ | .var _ => []
  | .lam _ body => body.opNames
  | .app callee args => callee.opNames ++ args.flatMap opNames
  | .binop op lhs rhs => op :: (lhs.opNames ++ rhs.opNames)
termination_by e => sizeOf e

/-- The names of all parameters in a term, from left to right. -/
def binders : Term L → List Name
  | .unit | .lit _ | .var _ => []
  | .lam params body => paramNames params ++ body.binders
  | .app callee args => callee.binders ++ args.flatMap binders
  | .binop _ lhs rhs => lhs.binders ++ rhs.binders
termination_by e => sizeOf e

/-- The first term is the second one or a part of it. -/
inductive Subterm (s : Term L) : Term L → Prop
  | refl : Subterm s s
  | body {params : List Param} {body : Term L} : Subterm s body → Subterm s (.lam params body)
  | callee {callee : Term L} {args : List (Term L)} :
      Subterm s callee → Subterm s (.app callee args)
  | arg {callee a : Term L} {args : List (Term L)} :
      a ∈ args → Subterm s a → Subterm s (.app callee args)
  | lhs {op : Name} {lhs rhs : Term L} : Subterm s lhs → Subterm s (.binop op lhs rhs)
  | rhs {op : Name} {lhs rhs : Term L} : Subterm s rhs → Subterm s (.binop op lhs rhs)

end Term

end NaryLambda

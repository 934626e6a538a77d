import NaryLambda.Report
import NaryLambda.Term.Basic
import NaryLambda.Ty.Text

/-!
# Failures

Why a program has no result: it has no type, or its evaluation is stuck. The
message of a type error is a title, and for some errors a body of one or two
lines below it. The message of stuck evaluation shows the term in the way
spelled out: every constructor and every field is named, with names quoted. The
message of a failure is the message of its cause after a word on the phase that
failed.

The report on a type error has the error's own title and body; the report on
stuck evaluation has a fixed title and the whole message as its body.
-/

namespace NaryLambda

/-! ## Type errors -/

/-- The two operands of a binary operator (`Operand`). -/
inductive Side
  | left
  | right
  deriving DecidableEq

/-- The word for an operand (`Display` of `Operand`). -/
def Side.text : Side → String
  | .left => "left"
  | .right => "right"

/-- Why a term has no type (`TypeCheckError`). Positions count from zero. -/
inductive TypeError
  | unbound (name : Name)
  | unknownOperator (op : Name)
  | operand (op : Name) (side : Side) (found : Ty)
  | notFunction (found : Ty)
  | arity (callee : Ty) (expected found : Nat)
  | argument (position : Nat) (expected found : Ty)
  deriving DecidableEq

namespace TypeError

/-- The first line of a message (`title`). -/
def title : TypeError → String
  | .unbound name => "unbound identifier `" ++ name ++ "`"
  | .unknownOperator op => "unknown operator `" ++ op ++ "`"
  | .operand op side _ => "type mismatch in " ++ side.text ++ " operand of `" ++ op ++ "`"
  | .notFunction _ => "cannot apply a non-function"
  | .arity _ expected found =>
    "expected " ++ toString expected ++ " argument(s), got " ++ toString found
  | .argument position _ _ => "type mismatch in argument " ++ toString position

/-- The lines below the first one, if the error shows types (`text`). -/
def body : TypeError → Option String
  | .unbound _ | .unknownOperator _ => none
  | .operand _ _ found => some (mismatch .int found)
  | .notFunction found => some ("found: `" ++ found.text ++ "`")
  | .arity callee _ _ => some ("callee: `" ++ callee.text ++ "`")
  | .argument _ expected found => some (mismatch expected found)
where
  /-- Two types below one another, the expected one first (`mismatch`). -/
  mismatch (expected found : Ty) : String :=
    "expected: `" ++ expected.text ++ "`\nfound:    `" ++ found.text ++ "`"

/-- The whole message (`Display` of `TypeCheckError`). -/
def message (e : TypeError) : String :=
  match e.body with
  | none => e.title
  | some body => e.title ++ "\n" ++ body

end TypeError

/-! ## Stuck evaluation -/

/-- The spelled-out form of a parameter: its quoted name and its type. -/
def Param.dump (p : Param) : String := "(" ++ Text.quote p.name ++ ", " ++ p.type.dump ++ ")"

/-- The spelled-out form of a term (derived `Debug` of `Expr`). -/
def Term.dump {L : Type} [ToString L] : Term L → String
  | .unit => "Unit"
  | .lit n => "Int(" ++ toString n ++ ")"
  | .var x => "Ident(" ++ Text.quote x ++ ")"
  | .lam params body =>
    "Lambda \x7b params: [" ++ ", ".intercalate (params.map (·.dump)) ++ "], body: " ++ body.dump
      ++ " \x7d"
  | .app callee args =>
    "App \x7b callee: " ++ callee.dump ++ ", args: [" ++ ", ".intercalate (args.map dump)
      ++ "] \x7d"
  | .binop op lhs rhs =>
    "Binop \x7b op: " ++ Text.quote op ++ ", lhs: " ++ lhs.dump ++ ", rhs: " ++ rhs.dump
      ++ " \x7d"
termination_by e => sizeOf e

/-- Why evaluation is stuck (`EvaluationError`). A reason carries the values in the
    way, which come from `V`: terms, unless values are represented otherwise. -/
inductive StuckReason (V : Type)
  | free (name : Name)
  | unknownOperator (op : Name)
  | operand (op : Name) (found : V)
  | notLambda (found : V)
  | arity (params args : Nat)
  deriving DecidableEq

namespace StuckReason

/-- The reason with the value that it carries replaced. -/
def map {V W : Type} (f : V → W) : StuckReason V → StuckReason W
  | .free name => .free name
  | .unknownOperator op => .unknownOperator op
  | .operand op found => .operand op (f found)
  | .notLambda found => .notLambda (f found)
  | .arity params args => .arity params args

/-- The message for a reason (`Display` of `EvaluationError`). -/
def message {L : Type} [ToString L] : StuckReason (Term L) → String
  | .free name => "free identifier `" ++ name ++ "`"
  | .unknownOperator op => "unknown operator `" ++ op ++ "`"
  | .operand op found => "operand of `" ++ op ++ "` is not an integer: " ++ found.dump
  | .notLambda found => "application of a non-lambda: " ++ found.dump
  | .arity params args =>
    "lambda with " ++ toString params ++ " parameter(s) applied to " ++ toString args
      ++ " argument(s)"

end StuckReason

/-! ## Failures -/

/-- Why a program has no result (`CompilationError`). -/
inductive Failure (L : Type)
  | typing (error : TypeError)
  | evaluation (reason : StuckReason (Term L))
  deriving DecidableEq

/-- The report on a type error (`into_record` of `TypeCheckError`). -/
def TypeError.report (e : TypeError) : Report := ⟨[⟨e.title, e.body⟩]⟩

variable {L : Type} [ToString L]

/-- The report on stuck evaluation (`into_record` of `EvaluationError`). -/
def StuckReason.report (r : StuckReason (Term L)) : Report := ⟨[⟨"evaluation is stuck", r.message⟩]⟩

namespace Failure

/-- The message of the cause (`Display` of `source`). -/
def cause : Failure L → String
  | .typing e => e.message
  | .evaluation r => r.message

/-- The message of the failure: the phase that failed, and the cause (`Display` of
    `CompilationError`). -/
def message : Failure L → String
  | .typing e => "type check failed: " ++ e.message
  | .evaluation r => "evaluation failed: " ++ r.message

/-- The report on a failure (`into_record` of `CompilationError`). -/
def report : Failure L → Report
  | .typing e => e.report
  | .evaluation r => r.report

end Failure

end NaryLambda

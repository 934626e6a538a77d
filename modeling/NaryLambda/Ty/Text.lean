import NaryLambda.Ty.Basic

/-!
# Types as text

Types have two forms as text. The written form of the unit type is `()`, that of
the integers `int`, and that of a function type its domains in parentheses, an
arrow, and its range: `(int, ()) -> int`. Domains always stand in parentheses
and a range never does, so an arrow belongs to the domains just before it and
reaches to the end. The spelled-out form names every constructor and every
field: `Fun`, with `domains` in brackets and `range`, in braces. It is the form
in which types appear inside spelled-out terms.

`parse?` reads the written form. The text `()` is the unit type unless an arrow
follows, in which case it stands for no domains.
-/

namespace NaryLambda.Ty

/-! ## Writing -/

/-- The written form of a type (`Display` of `Type`). -/
def text : Ty → String
  | .unit => "()"
  | .int => "int"
  | .fn domains range => "(" ++ ", ".intercalate (domains.map text) ++ ") -> " ++ range.text
termination_by t => sizeOf t

instance : ToString Ty := ⟨text⟩

/-- The spelled-out form of a type (derived `Debug` of `Type`). -/
def dump : Ty → String
  | .unit => "Unit"
  | .int => "Int"
  | .fn domains range =>
    "Fun \x7b domains: [" ++ ", ".intercalate (domains.map dump) ++ "], range: " ++ range.dump
      ++ " \x7d"
termination_by t => sizeOf t

/-! ## Reading -/

mutual

/-- Reads a type at the beginning of a text and gives what is left of the text.
    The recursion is no deeper than the bound. -/
def parseFirst : Nat → List Char → Option (Ty × List Char)
  | 0, _ => none
  | _ + 1, 'i' :: 'n' :: 't' :: rest => some (.int, rest)
  | depth + 1, '(' :: ')' :: ' ' :: '-' :: '>' :: ' ' :: rest => do
    let (range, rest) ← parseFirst depth rest
    return (.fn [] range, rest)
  | _ + 1, '(' :: ')' :: rest => some (.unit, rest)
  | depth + 1, '(' :: rest => do
    let (domains, rest) ← parseDomains depth rest
    match rest with
    | ')' :: ' ' :: '-' :: '>' :: ' ' :: rest => do
      let (range, rest) ← parseFirst depth rest
      return (.fn domains range, rest)
    | _ => none
  | _ + 1, _ => none

/-- Reads types separated by commas at the beginning of a text, one at least. -/
def parseDomains : Nat → List Char → Option (List Ty × List Char)
  | 0, _ => none
  | depth + 1, s => do
    let (t, rest) ← parseFirst depth s
    match rest with
    | ',' :: ' ' :: rest => do
      let (ts, rest) ← parseDomains depth rest
      return (t :: ts, rest)
    | rest => return ([t], rest)

end

/-- The type with the given written form, if there is one. -/
def parse? (s : String) : Option Ty :=
  match parseFirst (s.length + 1) s.toList with
  | some (t, []) => some t
  | _ => none

end NaryLambda.Ty

import NaryLambda.Failure
import NaryLambda.Proofs.Term.Dump
import NaryLambda.Proofs.Ty.Text

/-!
# Messages lose no information

A message begins with one of several words, of which none begins another, so the words
tell which kind of failure it is. What comes then is read from one end: numbers from
the left, up to the next character that is no digit, and types from the right, since no
backtick is written in a type. A name between backticks may have any characters in it,
and so look like the rest of a message. It is what remains after the types are taken
off, or what comes before the one backtick after which all others are quoted.

Results:

* `TypeError.eq_of_message_eq`: the message of a type error determines the error.
* `StuckReason.eq_of_message_eq`: the message for a reason determines the reason.
* `Failure.message_inj`: a failure is determined by its message.
-/

namespace NaryLambda

open Text

/-! ## Numbers and types in a message -/

/-- A number shows where it ends if neither a letter nor a digit follows. -/
theorem toString_append_inj {m n : Nat} {c : Char} {r s : List Char} (hc : c.isAlphanum = false)
    (h : (toString m).toList ++ c :: r = (toString n).toList ++ c :: s) : m = n ∧ r = s := by
  have hdigits : ∀ k : Nat, ∀ d ∈ (toString k).toList, d ≠ c := by
    rintro k d hd rfl
    rw [isAlphanum_of_mem_repr hd] at hc
    contradiction
  obtain ⟨hm, -, rfl⟩ := first_unique (p := (· ≠ c)) (hdigits m) (by simp) (hdigits n) (by simp) h
  exact ⟨Nat.repr_inj.1 (String.toList_inj.1 hm), rfl⟩

/-- A written type between backticks. -/
def Ty.marked (t : Ty) : List Char := '`' :: (t.text.toList ++ ['`'])

/-- A type between backticks at the end of a text is determined, and so is what stands
    before it. -/
theorem marked_append_inj {r s : List Char} {t u : Ty} (h : r ++ t.marked = s ++ u.marked) :
    r = s ∧ t = u := by
  have hlast : r ++ '`' :: t.text.toList ++ ['`'] = s ++ '`' :: u.text.toList ++ ['`'] := by
    simpa [Ty.marked] using h
  obtain ⟨rfl, ht⟩ := Stretch.split_unique (.bare t.isBare_of_mem_text)
    (.bare u.isBare_of_mem_text) (List.append_cancel_right hlast)
  exact ⟨rfl, Ty.text_inj.1 (String.toList_inj.1 ht)⟩

/-! ## Type errors -/

namespace TypeError

/-- The words with which messages begin. -/
def openings : List String :=
  ["unbound identifier `", "unknown operator `", "type mismatch in left operand of `",
    "type mismatch in right operand of `", "cannot apply a non-function\nfound: ", "expected ",
    "type mismatch in argument "]

/-- The words with which the message of an error begins. -/
def opening : TypeError → String
  | .unbound _ => "unbound identifier `"
  | .unknownOperator _ => "unknown operator `"
  | .operand _ .left _ => "type mismatch in left operand of `"
  | .operand _ .right _ => "type mismatch in right operand of `"
  | .notFunction _ => "cannot apply a non-function\nfound: "
  | .arity _ _ _ => "expected "
  | .argument _ _ _ => "type mismatch in argument "

/-- What the message of an error says after these words. -/
def details : TypeError → List Char
  | .unbound name | .unknownOperator name => name.toList ++ ['`']
  | .operand op _ found =>
    op.toList ++ "`\nexpected: `int`\nfound:    ".toList ++ found.marked
  | .notFunction found => found.marked
  | .arity callee expected found =>
    (toString expected).toList ++ ' ' :: ("argument(s), got ".toList ++
      ((toString found).toList ++ '\n' :: ("callee: ".toList ++ callee.marked)))
  | .argument position expected found =>
    (toString position).toList ++ '\n' ::
      ("expected: ".toList ++ expected.marked ++ "\nfound:    ".toList ++ found.marked)

theorem opening_mem (e : TypeError) : e.opening ∈ openings := by
  cases e with
  | operand _ side => cases side <;> simp [opening, openings]
  | _ => simp [opening, openings]

theorem openings_prefix : ∀ a ∈ openings, ∀ b ∈ openings, a.toList <+: b.toList → a = b := by
  decide +kernel

theorem toList_message (e : TypeError) : e.message.toList = e.opening.toList ++ e.details := by
  cases e with
  | unbound name =>
    show ("unbound identifier `" ++ name ++ "`").toList = _
    simp [opening, details]
  | unknownOperator op =>
    show ("unknown operator `" ++ op ++ "`").toList = _
    simp [opening, details]
  | operand op side found =>
    show ("type mismatch in " ++ side.text ++ " operand of `" ++ op ++ "`" ++ "\n" ++
      ("expected: `" ++ Ty.int.text ++ "`\nfound:    `" ++ found.text ++ "`")).toList = _
    cases side <;> simp [opening, details, Ty.marked, Side.text]
  | notFunction found =>
    show ("cannot apply a non-function" ++ "\n" ++ ("found: `" ++ found.text ++ "`")).toList = _
    simp [opening, details, Ty.marked]
  | arity callee expected found =>
    show ("expected " ++ toString expected ++ " argument(s), got " ++ toString found ++ "\n" ++
      ("callee: `" ++ callee.text ++ "`")).toList = _
    simp [opening, details, Ty.marked]
  | argument position expected found =>
    show ("type mismatch in argument " ++ toString position ++ "\n" ++
      ("expected: `" ++ expected.text ++ "`\nfound:    `" ++ found.text ++ "`")).toList = _
    simp [opening, details, Ty.marked]

/-- The details tell errors with the same opening apart. -/
theorem eq_of_details_eq {d e : TypeError} (hopening : d.opening = e.opening)
    (h : d.details = e.details) : d = e := by
  cases d with
  | unbound x =>
    cases e with
    | unbound y => rw [String.toList_inj.1 (List.append_cancel_right h)]
    | operand _ side => cases side <;> simp [opening] at hopening
    | _ => simp [opening] at hopening
  | unknownOperator op =>
    cases e with
    | unknownOperator op' => rw [String.toList_inj.1 (List.append_cancel_right h)]
    | operand _ side => cases side <;> simp [opening] at hopening
    | _ => simp [opening] at hopening
  | operand op side t =>
    cases e with
    | operand op' side' u =>
      obtain rfl : side = side' := by
        cases side <;> cases side' <;> simp [opening] at hopening ⊢
      obtain ⟨hop, rfl⟩ := marked_append_inj h
      rw [String.toList_inj.1 (List.append_cancel_right hop)]
    | _ => cases side <;> simp [opening] at hopening
  | notFunction t =>
    cases e with
    | notFunction u =>
      obtain ⟨-, rfl⟩ := marked_append_inj (r := []) (s := []) h
      rfl
    | operand _ side => cases side <;> simp [opening] at hopening
    | _ => simp [opening] at hopening
  | arity t m n =>
    cases e with
    | arity u m' n' =>
      obtain ⟨rfl, hfound⟩ := toString_append_inj (by decide) h
      obtain ⟨rfl, hcallee⟩ := toString_append_inj (by decide) (List.append_cancel_left hfound)
      obtain ⟨-, rfl⟩ := marked_append_inj hcallee
      rfl
    | operand _ side => cases side <;> simp [opening] at hopening
    | _ => simp [opening] at hopening
  | argument m t u =>
    cases e with
    | argument m' t' u' =>
      obtain ⟨rfl, htypes⟩ := toString_append_inj (by decide) h
      obtain ⟨hexpected, rfl⟩ := marked_append_inj htypes
      obtain ⟨-, rfl⟩ := marked_append_inj (List.append_cancel_right hexpected)
      rfl
    | operand _ side => cases side <;> simp [opening] at hopening
    | _ => simp [opening] at hopening

theorem eq_of_message_eq {d e : TypeError} (h : d.message = e.message) : d = e := by
  have hlist : d.message.toList = e.message.toList := congrArg String.toList h
  rw [toList_message, toList_message] at hlist
  obtain ⟨hopening, hdetails⟩ := opening_unique openings_prefix d.opening_mem e.opening_mem hlist
  exact eq_of_details_eq hopening hdetails

end TypeError

/-! ## Stuck evaluation -/

namespace StuckReason

/-- The words with which messages begin. -/
def openings : List String :=
  ["free identifier `", "unknown operator `", "operand of `", "application of a non-lambda: ",
    "lambda with "]

/-- The words with which the message for a reason begins. -/
def opening : StuckReason (Term Int64) → String
  | .free _ => "free identifier `"
  | .unknownOperator _ => "unknown operator `"
  | .operand _ _ => "operand of `"
  | .notLambda _ => "application of a non-lambda: "
  | .arity _ _ => "lambda with "

/-- What the message for a reason says after these words. -/
def details : StuckReason (Term Int64) → List Char
  | .free name | .unknownOperator name => name.toList ++ ['`']
  | .operand op found => op.toList ++ '`' :: (" is not an integer: ".toList ++ found.dump.toList)
  | .notLambda found => found.dump.toList
  | .arity params args =>
    (toString params).toList ++ ' ' :: ("parameter(s) applied to ".toList ++
      ((toString args).toList ++ ' ' :: "argument(s)".toList))

theorem opening_mem (e : StuckReason (Term Int64)) : e.opening ∈ openings := by
  cases e <;> simp [opening, openings]

theorem openings_prefix : ∀ a ∈ openings, ∀ b ∈ openings, a.toList <+: b.toList → a = b := by
  decide +kernel

theorem toList_message (e : StuckReason (Term Int64)) :
    e.message.toList = e.opening.toList ++ e.details := by
  cases e with
  | free name =>
    show ("free identifier `" ++ name ++ "`").toList = _
    simp [opening, details]
  | unknownOperator op =>
    show ("unknown operator `" ++ op ++ "`").toList = _
    simp [opening, details]
  | operand op found =>
    show ("operand of `" ++ op ++ "` is not an integer: " ++ found.dump).toList = _
    simp [opening, details]
  | notLambda found =>
    show ("application of a non-lambda: " ++ found.dump).toList = _
    simp [opening, details]
  | arity params args =>
    show ("lambda with " ++ toString params ++ " parameter(s) applied to " ++ toString args ++
      " argument(s)").toList = _
    simp [opening, details]

/-- The details tell reasons with the same opening apart. -/
theorem eq_of_details_eq {d e : StuckReason (Term Int64)} (hopening : d.opening = e.opening)
    (h : d.details = e.details) : d = e := by
  cases d with
  | free x =>
    cases e with
    | free y => rw [String.toList_inj.1 (List.append_cancel_right h)]
    | _ => simp [opening] at hopening
  | unknownOperator op =>
    cases e with
    | unknownOperator op' => rw [String.toList_inj.1 (List.append_cancel_right h)]
    | _ => simp [opening] at hopening
  | operand op found =>
    cases e with
    | operand op' found' =>
      -- the words after the operator have no backtick, and those in the term are quoted
      have hwords : Stretch true " is not an integer: ".toList := .literal (by decide)
      obtain ⟨hop, hfound⟩ := Stretch.split_unique (hwords.append found.stretch_dump)
        (hwords.append found'.stretch_dump) h
      obtain ⟨rfl, -⟩ := found.selfDelimiting_dump (r := []) (s := []) (b := found')
        (by rw [List.append_cancel_left hfound])
      rw [String.toList_inj.1 hop]
    | _ => simp [opening] at hopening
  | notLambda found =>
    cases e with
    | notLambda found' =>
      obtain ⟨rfl, -⟩ := found.selfDelimiting_dump (r := []) (s := []) (b := found')
        (congrArg (· ++ []) h)
      rfl
    | _ => simp [opening] at hopening
  | arity m n =>
    cases e with
    | arity m' n' =>
      obtain ⟨rfl, hargs⟩ := toString_append_inj (by decide) h
      obtain ⟨rfl, -⟩ := toString_append_inj (by decide) (List.append_cancel_left hargs)
      rfl
    | _ => simp [opening] at hopening

theorem eq_of_message_eq {d e : StuckReason (Term Int64)} (h : d.message = e.message) : d = e := by
  have hlist : d.message.toList = e.message.toList := congrArg String.toList h
  rw [toList_message, toList_message] at hlist
  obtain ⟨hopening, hdetails⟩ := opening_unique openings_prefix d.opening_mem e.opening_mem hlist
  exact eq_of_details_eq hopening hdetails

end StuckReason

/-! ## Failures -/

namespace Failure

/-- The phase of a failure can be told from the first letter of its message. -/
theorem message_typing_ne (d : TypeError) (r : StuckReason (Term Int64)) :
    (typing d : Failure Int64).message ≠ (evaluation r).message := by
  intro h
  have hfirst : ("type check failed: " ++ d.message).toList =
      ("evaluation failed: " ++ r.message).toList := congrArg String.toList h
  simp at hfirst

/-- **Messages lose no information.** Failures with the same message are the same, whatever
    characters the names in them have. -/
theorem message_inj {f g : Failure Int64} : f.message = g.message ↔ f = g := by
  refine ⟨fun h => ?_, fun h => h ▸ rfl⟩
  cases f with
  | typing d =>
    cases g with
    | typing e =>
      have hcause : d.message = e.message := (String.append_right_inj "type check failed: ").1 h
      rw [TypeError.eq_of_message_eq hcause]
    | evaluation s => exact absurd h (message_typing_ne d s)
  | evaluation r =>
    cases g with
    | typing e => exact absurd h.symm (message_typing_ne e r)
    | evaluation s =>
      have hcause : r.message = s.message := (String.append_right_inj "evaluation failed: ").1 h
      rw [StuckReason.eq_of_message_eq hcause]

end Failure

end NaryLambda

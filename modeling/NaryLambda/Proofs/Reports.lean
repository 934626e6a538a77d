import NaryLambda.Proofs.Messages
import NaryLambda.Report

/-!
# Reports say what messages say

Escape sequences can be taken out of a styled report again, and the frame off a plain
one, if the texts of the report are printable: then they have no escape character, and
the title is on one line. Types, numbers and spelled-out terms have no hidden
characters, so this is a matter of the one name that a message shows without quotes.

Results:

* `stripStyles_of_styled`: taking out escape sequences that were put in.
* `Group.ofPlain?_framed`: taking the frame off a group.
* `Renderer.documented_terminal`: the renderer for terminals is as documented.
* `TypeError.notMem_title`, `TypeError.notMem_body`, `StuckReason.notMem_message`: where
  the hidden characters in a message come from.
* `Failure.printable_group`: what a report shows is printable if that name is.
* `Failure.presentations_agree`: both forms of a report, and the message.
-/

namespace NaryLambda

open Text

/-! ## Styles -/

theorem afterStyle?_cons_of_ne {c : Char} (hc : c ≠ '\x1b') (s : List Char) :
    afterStyle? (c :: s) = none := by
  unfold afterStyle?
  split
  · rename_i heq
    exact absurd (List.cons.inj heq).1 hc
  · rfl

theorem afterStyle?_sequence {digits : List Char} (h : ∀ d ∈ digits, d.isDigit = true)
    (s : List Char) : afterStyle? ('\x1b' :: '[' :: (digits ++ 'm' :: s)) = some s := by
  have hdrop : (digits ++ 'm' :: s).dropWhile Char.isDigit = 'm' :: s := by
    rw [List.dropWhile_append_of_pos h, List.dropWhile_cons_of_neg (by decide)]
  rw [afterStyle?]
  simp only [hdrop]

/-- The sequences that were put into a text without escape characters can be taken out
    again. -/
theorem stripStyles_of_styled {s t : List Char} (h : Styled s t) (hs : '\x1b' ∉ s) :
    stripStyles t = s := by
  induction h with
  | nil =>
    rw [stripStyles]
    rfl
  | @char c s t _ ih =>
    rw [List.mem_cons, not_or] at hs
    rw [stripStyles]
    split
    · rename_i h
      rw [afterStyle?_cons_of_ne (Ne.symm hs.1)] at h
      contradiction
    · show c :: stripStyles t = c :: s
      rw [ih hs.2]
  | @sequence digits s t hdigits _ ih =>
    rw [stripStyles]
    split
    · rename_i h
      rw [afterStyle?_sequence hdigits] at h
      rw [← Option.some.inj h, ih hs]
    · rename_i h
      rw [afterStyle?_sequence hdigits] at h
      contradiction

namespace Styled

theorem append_left (s : List Char) {t u : List Char} (h : Styled t u) :
    Styled (s ++ t) (s ++ u) := by
  induction s with
  | nil => exact h
  | cons c s ih => exact ih.char c

theorem sequence_append {s t : List Char} (style : Style) (h : Styled s t) :
    Styled s (style.sequence.toList ++ t) := by
  have hsequence : style.sequence.toList ++ t =
      '\x1b' :: '[' :: (Nat.toDigits 10 style.code ++ 'm' :: t) := by
    simp [Style.sequence]
  rw [hsequence]
  exact h.sequence fun d hd => Nat.isDigit_of_mem_toDigits (by decide) (by decide) hd

theorem span (span : Span) {s t : List Char} (h : Styled s t) :
    Styled (span.text.toList ++ s) (span.styled.toList ++ t) := by
  obtain ⟨styles, text⟩ := span
  rw [Span.styled]
  induction styles with
  | nil => exact h.append_left text.toList
  | cons style styles ih =>
    rw [List.foldr_cons, String.toList_append, List.append_assoc]
    exact ih.sequence_append style

/-- The styles of stretches of text only put sequences in. -/
theorem spans (spans : List Span) :
    Styled (String.join (spans.map (·.text))).toList
      (String.join (spans.map (·.styled))).toList := by
  induction spans with
  | nil => exact .nil
  | cons span spans ih =>
    simpa using ih.span span

end Styled

/-! ## Frames -/

theorem unindent_indentLines (s : String) : unindent (indentLines s).toList = s.toList := by
  rw [indentLines, String.toList_ofList]
  induction s.toList with
  | nil => rw [List.flatMap_nil, unindent]
  | cons c cs ih =>
    rw [List.flatMap_cons]
    split
    · rename_i hc
      rw [List.cons_append, unindent, List.drop_left' (by simp), ih, hc]
    · rename_i hc
      rw [List.singleton_append, unindent, ih]
      exact hc

theorem notMem_indentLines {s : String} (hs : '\x1b' ∉ s.toList) :
    '\x1b' ∉ (indentLines s).toList := by
  rw [indentLines, String.toList_ofList]
  simp only [List.mem_flatMap, not_exists, not_and]
  intro c hc
  split
  · decide
  · rw [List.mem_singleton]
    rintro rfl
    exact hs hc

/-- A text is divided where its first line ends. -/
theorem takeWhile_dropWhile_line {line : List Char} (hline : '\n' ∉ line) (rest : List Char)
    (hrest : ∀ c ∈ rest.head?, c = '\n') :
    (line ++ rest).takeWhile (· ≠ '\n') = line ∧ (line ++ rest).dropWhile (· ≠ '\n') = rest := by
  have hall : ∀ c ∈ line, decide (c ≠ '\n') = true := by
    intro c hc
    exact decide_eq_true fun heq => hline (heq ▸ hc)
  rw [List.takeWhile_append_of_pos hall, List.dropWhile_append_of_pos hall]
  cases rest with
  | nil => simp
  | cons c rest =>
    obtain rfl : c = '\n' := hrest c rfl
    simp

namespace Group

/-- The text that the group shows: the title, and the body below it. -/
def text (g : Group) : String :=
  match g.body with
  | none => g.title
  | some body => g.title ++ "\n" ++ body

/-- The frame around a group can be taken off if the title is on one line. -/
theorem ofPlain?_framed {g : Group} (htitle : '\n' ∉ g.title.toList) :
    ofPlain? g.framed = some g := by
  obtain ⟨title, body⟩ := g
  cases body with
  | none =>
    have hframed : (framed ⟨title, none⟩).toList =
        'e' :: 'r' :: 'r' :: 'o' :: 'r' :: ':' :: ' ' :: (title.toList ++ []) := by
      simp [framed]
    obtain ⟨htake, hdrop⟩ := takeWhile_dropWhile_line htitle [] nofun
    rw [ofPlain?, hframed]
    simp only [htake, hdrop, String.ofList_toList]
  | some body =>
    have hframed : (framed ⟨title, some body⟩).toList =
        'e' :: 'r' :: 'r' :: 'o' :: 'r' :: ':' :: ' ' :: (title.toList ++
          '\n' :: ' ' :: '|' :: '\n' :: ' ' :: '=' :: ' ' :: 'e' :: 'r' :: 'r' :: 'o' :: 'r' ::
            ':' :: ' ' :: (indentLines body).toList) := by
      simp [framed]
    have hsplit := fun rest => takeWhile_dropWhile_line htitle ('\n' :: rest)
      fun c hc => (Option.some.inj hc).symm
    rw [ofPlain?, hframed]
    simp only [(hsplit _).1, (hsplit _).2, unindent_indentLines, String.ofList_toList]

theorem notMem_framed {g : Group} (htitle : '\x1b' ∉ g.title.toList)
    (hbody : ∀ body ∈ g.body, '\x1b' ∉ body.toList) : '\x1b' ∉ g.framed.toList := by
  obtain ⟨title, body⟩ := g
  cases body with
  | none =>
    simp only [framed, String.toList_append, List.mem_append, not_or]
    exact ⟨⟨by decide, htitle⟩, by decide⟩
  | some body =>
    simp only [framed, String.toList_append, List.mem_append, not_or]
    exact ⟨⟨by decide, htitle⟩, by decide, notMem_indentLines (hbody body rfl)⟩

end Group

/-! ## Renderers -/

namespace Renderer

theorem plain_terminal (g : Group) :
    terminal.plain ⟨[g]⟩ = String.join (g.spans.map (·.text)) :=
  @String.intercalate_singleton "\n" _

theorem styled_terminal (g : Group) :
    terminal.styled ⟨[g]⟩ = String.join (g.spans.map (·.styled)) :=
  @String.intercalate_singleton "\n" _

/-- The renderer for terminals prints all characters but line ends and escape characters as
    they are. -/
theorem documented_terminal : Documented (fun c => c ≠ '\n' ∧ c ≠ '\x1b') terminal where
  visible c hc := by
    constructor <;> rintro rfl <;> exact absurd hc (by decide)
  lineEnd h := h.1 rfl
  escape h := h.2 rfl
  framed g _ := by
    obtain ⟨title, body⟩ := g
    rw [plain_terminal, ← String.toList_inj]
    cases body <;> simp [Group.spans, Group.framed]
  styled g _ := by
    rw [plain_terminal, styled_terminal]
    exact .spans g.spans

variable {printable : Char → Prop} {R : Renderer} {g : Group}

/-- The styles that a documented renderer adds to a group can be taken out again. -/
theorem Documented.stripStyles_styled (hR : R.Documented printable) (hg : g.Printable printable) :
    stripStyles (R.styled ⟨[g]⟩).toList = (R.plain ⟨[g]⟩).toList := by
  refine stripStyles_of_styled (hR.styled g hg) ?_
  rw [hR.framed g hg]
  refine Group.notMem_framed (fun h => hR.escape (hg.title _ h)) fun body hbody h => ?_
  exact (hg.body body hbody _ h).elim (by decide) hR.escape

/-- The frame that a documented renderer puts around a group can be taken off again. -/
theorem Documented.ofPlain?_plain (hR : R.Documented printable) (hg : g.Printable printable) :
    Group.ofPlain? (R.plain ⟨[g]⟩) = some g := by
  rw [hR.framed g hg]
  exact Group.ofPlain?_framed fun h => hR.lineEnd (hg.title _ h)

end Renderer

/-! ## Hidden characters in messages -/

section

variable {c : Char}

theorem notMem_of_visible {s : List Char} (hc : isHidden c = true)
    (hs : ∀ d ∈ s, isHidden d = false) : c ∉ s :=
  fun hmem => Bool.noConfusion (hc.symm.trans (hs c hmem))

theorem notMem_literal {s : List Char} (hc : isHidden c = true)
    (hs : (s.all fun d => !isHidden d) = true) : c ∉ s :=
  notMem_of_visible hc (by simpa using hs)

/-- A hidden character in a text between two literals is in the text. -/
theorem notMem_between (hc : isHidden c = true) {before s after : String}
    (hbefore : (before.toList.all fun d => !isHidden d) = true)
    (hafter : (after.toList.all fun d => !isHidden d) = true) (hs : c ∉ s.toList) :
    c ∉ (before ++ s ++ after).toList := by
  simp only [String.toList_append, List.mem_append, not_or]
  exact ⟨⟨notMem_literal hc hbefore, hs⟩, notMem_literal hc hafter⟩

theorem notMem_toString (hc : isHidden c = true) (n : Nat) : c ∉ (toString n).toList :=
  notMem_of_visible hc fun _ hd => (isBare_of_isAlphanum (isAlphanum_of_mem_repr hd)).1

theorem Ty.notMem_text (hc : isHidden c = true) (t : Ty) : c ∉ t.text.toList :=
  notMem_of_visible hc fun d hd => (t.isBare_of_mem_text d hd).1

/-- The name that the title of an error shows. -/
def TypeError.name? : TypeError → Option Name
  | .unbound name => some name
  | .unknownOperator op | .operand op _ _ => some op
  | .notFunction _ | .arity _ _ _ | .argument _ _ _ => none

/-- A hidden character in the title of an error is in the name that the title shows. -/
theorem TypeError.notMem_title {e : TypeError} (hc : isHidden c = true)
    (hname : ∀ x ∈ e.name?, c ∉ x.toList) : c ∉ e.title.toList := by
  cases e with
  | unbound name => exact notMem_between hc (by decide) (by decide) (hname name rfl)
  | unknownOperator op => exact notMem_between hc (by decide) (by decide) (hname op rfl)
  | operand op side found =>
    show c ∉ ("type mismatch in " ++ side.text ++ " operand of `" ++ op ++ "`").toList
    have hside : c ∉ side.text.toList := by
      cases side <;> exact notMem_literal hc (by decide)
    simp only [String.toList_append, List.mem_append, not_or]
    exact ⟨⟨⟨⟨notMem_literal hc (by decide), hside⟩, notMem_literal hc (by decide)⟩,
      hname op rfl⟩, notMem_literal hc (by decide)⟩
  | notFunction found =>
    show c ∉ "cannot apply a non-function".toList
    exact notMem_literal hc (by decide)
  | arity callee expected found =>
    show c ∉ ("expected " ++ toString expected ++ " argument(s), got " ++ toString found).toList
    simp only [String.toList_append, List.mem_append, not_or]
    exact ⟨⟨⟨notMem_literal hc (by decide), notMem_toString hc expected⟩,
      notMem_literal hc (by decide)⟩, notMem_toString hc found⟩
  | argument position expected found =>
    show c ∉ ("type mismatch in argument " ++ toString position).toList
    simp only [String.toList_append, List.mem_append, not_or]
    exact ⟨notMem_literal hc (by decide), notMem_toString hc position⟩

/-- The bodies of errors have no hidden characters but line ends. -/
theorem TypeError.notMem_body {e : TypeError} (hc : isHidden c = true) (hline : c ≠ '\n') :
    ∀ body ∈ e.body, c ∉ body.toList := by
  have hmismatch : ∀ expected found, c ∉ (body.mismatch expected found).toList := by
    intro expected found
    have hbetween : c ∉ "`\nfound:    `".toList := by
      show c ∉ '`' :: '\n' :: "found:    `".toList
      simp only [List.mem_cons, not_or]
      exact ⟨by rintro rfl; contradiction, hline, notMem_literal hc (by decide)⟩
    simp only [body.mismatch, String.toList_append, List.mem_append, not_or]
    exact ⟨⟨⟨⟨notMem_literal hc (by decide), expected.notMem_text hc⟩, hbetween⟩,
      found.notMem_text hc⟩, notMem_literal hc (by decide)⟩
  intro body hbody
  cases e with
  | unbound | unknownOperator => cases hbody
  | operand op side found =>
    cases hbody
    exact hmismatch .int found
  | argument position expected found =>
    cases hbody
    exact hmismatch expected found
  | notFunction found =>
    cases hbody
    exact notMem_between hc (by decide) (by decide) (found.notMem_text hc)
  | arity callee expected found =>
    cases hbody
    exact notMem_between hc (by decide) (by decide) (callee.notMem_text hc)

/-- The name that the message for a reason shows without quotes. -/
def StuckReason.name? {V : Type} : StuckReason V → Option Name
  | .free name => some name
  | .unknownOperator op | .operand op _ => some op
  | .notLambda _ | .arity _ _ => none

/-- A hidden character in the message for a reason is in the name that the message shows
    without quotes. -/
theorem StuckReason.notMem_message {r : StuckReason (Term Int64)} (hc : isHidden c = true)
    (hname : ∀ x ∈ r.name?, c ∉ x.toList) : c ∉ r.message.toList := by
  cases r with
  | free name => exact notMem_between hc (by decide) (by decide) (hname name rfl)
  | unknownOperator op => exact notMem_between hc (by decide) (by decide) (hname op rfl)
  | operand op found =>
    show c ∉ ("operand of `" ++ op ++ "` is not an integer: " ++ found.dump).toList
    simp only [String.toList_append, List.mem_append, not_or]
    exact ⟨⟨⟨notMem_literal hc (by decide), hname op rfl⟩, notMem_literal hc (by decide)⟩,
      notMem_of_visible hc found.stretch_dump.visible⟩
  | notLambda found =>
    show c ∉ ("application of a non-lambda: " ++ found.dump).toList
    simp only [String.toList_append, List.mem_append, not_or]
    exact ⟨notMem_literal hc (by decide), notMem_of_visible hc found.stretch_dump.visible⟩
  | arity params args =>
    show c ∉ ("lambda with " ++ toString params ++ " parameter(s) applied to " ++ toString args
      ++ " argument(s)").toList
    simp only [String.toList_append, List.mem_append, not_or]
    exact ⟨⟨⟨⟨notMem_literal hc (by decide), notMem_toString hc params⟩,
      notMem_literal hc (by decide)⟩, notMem_toString hc args⟩, notMem_literal hc (by decide)⟩

end

/-! ## Agreement -/

namespace Failure

/-- The name that the message for a failure shows without quotes. -/
def name? {L : Type} : Failure L → Option Name
  | .typing e => e.name?
  | .evaluation r => r.name?

/-- The only group of the report on a failure. -/
def group : Failure Int64 → Group
  | .typing e => ⟨e.title, e.body⟩
  | .evaluation r => ⟨"evaluation is stuck", r.message⟩

theorem report_eq (f : Failure Int64) : f.report = ⟨[f.group]⟩ := by
  cases f <;> rfl

/-- A hidden character in the title of a report is in the name that the message shows
    without quotes. -/
theorem notMem_title {f : Failure Int64} {c : Char} (hc : isHidden c = true)
    (hname : ∀ x ∈ f.name?, c ∉ x.toList) : c ∉ f.group.title.toList := by
  cases f with
  | typing e => exact TypeError.notMem_title hc hname
  | evaluation r =>
    show c ∉ "evaluation is stuck".toList
    exact notMem_literal hc (by decide)

theorem notMem_body {f : Failure Int64} {c : Char} (hc : isHidden c = true) (hline : c ≠ '\n')
    (hname : ∀ x ∈ f.name?, c ∉ x.toList) : ∀ body ∈ f.group.body, c ∉ body.toList := by
  cases f with
  | typing e => exact TypeError.notMem_body hc hline
  | evaluation r =>
    intro body hbody
    obtain rfl : r.message = body := Option.some.inj hbody
    exact StuckReason.notMem_message hc hname

/-- What the report on a failure shows is printable if the name is that the message shows
    without quotes. -/
theorem printable_group {printable : Char → Prop}
    (hvisible : ∀ c, isHidden c = false → printable c) {f : Failure Int64}
    (hname : ∀ x ∈ f.name?, ∀ c ∈ x.toList, printable c) :
    f.group.Printable printable where
  title c hc := by
    by_contra h
    have hhidden : isHidden c = true := by simpa using mt (hvisible c) h
    exact notMem_title hhidden (fun x hx hmem => h (hname x hx c hmem)) hc
  body body hbody c hc := by
    by_contra h
    rw [not_or] at h
    have hhidden : isHidden c = true := by simpa using mt (hvisible c) h.2
    exact notMem_body hhidden h.1 (fun x hx hmem => h.2 (hname x hx c hmem)) body hbody hc

/-- **The presentations of a failure agree.** Let a renderer be as documented, and let the
    name that the message shows without quotes be printable. Then the styles of the report
    only add escape sequences to its plain form: taking them out gives the plain form.
    Taking the frame off the plain form gives, for a type error, the message of the error,
    and for stuck evaluation the whole message below a fixed title. -/
theorem presentations_agree {printable : Char → Prop} {R : Renderer}
    (hR : R.Documented printable) (f : Failure Int64)
    (hname : ∀ x ∈ f.name?, ∀ c ∈ x.toList, printable c) :
    stripStyles (f.report.styled R).toList = (f.report.plain R).toList ∧
      ∃ g, Group.ofPlain? (f.report.plain R) = some g ∧
        match f with
        | .typing _ => g.text = f.cause
        | .evaluation _ => g = ⟨"evaluation is stuck", some f.cause⟩ := by
  have hg : f.group.Printable printable := printable_group hR.visible hname
  rw [report_eq]
  refine ⟨hR.stripStyles_styled hg, f.group, hR.ofPlain?_plain hg, ?_⟩
  cases f with
  | typing e => rfl
  | evaluation r => rfl

/-- The type error on a function as the left operand of an operator with a quote and a
    backslash in its name. -/
def functionOperand : Failure Int64 := .typing (.operand "a\"\\" .left (.fn [.int, .unit] .int))

/-- The stuck evaluation on a lambda as an operand, the name of whose parameter has a line
    end and an escape sequence in it. -/
def lambdaOperand : Failure Int64 :=
  .evaluation (.operand "+" (.lam [⟨"a\nb\x1b[1m", .int⟩] (.var "a")))

/-- For `lambdaOperand` the name of the parameter does not matter: it is shown quoted. -/
theorem presentations_agree_operands :
    Renderer.terminal.Documented (fun c => c ≠ '\n' ∧ c ≠ '\x1b') ∧
    ((∀ x ∈ functionOperand.name?, ∀ c ∈ x.toList, c ≠ '\n' ∧ c ≠ '\x1b') ∧
      stripStyles functionOperand.report.styled.toList = functionOperand.report.plain.toList ∧
      ∃ g, Group.ofPlain? functionOperand.report.plain = some g ∧
        g.text = functionOperand.cause) ∧
    (∀ x ∈ lambdaOperand.name?, ∀ c ∈ x.toList, c ≠ '\n' ∧ c ≠ '\x1b') ∧
      stripStyles lambdaOperand.report.styled.toList = lambdaOperand.report.plain.toList ∧
      Group.ofPlain? lambdaOperand.report.plain =
        some ⟨"evaluation is stuck", some lambdaOperand.cause⟩ := by
  have hterminal := Renderer.documented_terminal
  have hfunction : ∀ x ∈ functionOperand.name?, ∀ c ∈ x.toList, c ≠ '\n' ∧ c ≠ '\x1b' := by
    simp [functionOperand, name?, TypeError.name?]
  have hlambda : ∀ x ∈ lambdaOperand.name?, ∀ c ∈ x.toList, c ≠ '\n' ∧ c ≠ '\x1b' := by
    simp [lambdaOperand, name?, StuckReason.name?]
  obtain ⟨hstyled, g, hread, hg⟩ := presentations_agree hterminal functionOperand hfunction
  obtain ⟨hstyled', g', hread', hg'⟩ := presentations_agree hterminal lambdaOperand hlambda
  obtain rfl : g' = ⟨"evaluation is stuck", some lambdaOperand.cause⟩ := hg'
  exact ⟨hterminal, ⟨hfunction, hstyled, g, hread, hg⟩, hlambda, hstyled', hread'⟩

end Failure

end NaryLambda

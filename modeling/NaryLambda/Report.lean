import NaryLambda.Text.Quoted

/-!
# Error reports

A report is made of groups, each with a title and at most one message below it.
A renderer writes it plainly, or with escape sequences that select the style of
what follows. The renderer is left open: `Renderer.Documented` says what is known
about it. The plain form of a single group is a frame around the title and the
message, and the styled form adds escape sequences to the plain one.
`Renderer.terminal` is a renderer of that kind.

Both can be undone: `stripStyles` takes the escape sequences out of a text, and
`Group.ofPlain?` takes the frame off a group.
-/

namespace NaryLambda

/-- A title with at most one message below it (`Group`). -/
structure Group where
  title : String
  body : Option String
  deriving DecidableEq

/-- The groups of a report, in order. -/
structure Report where
  groups : List Group
  deriving DecidableEq

/-- The text with every line after the first one indented by ten blanks. -/
def indentLines (s : String) : String :=
  String.ofList (s.toList.flatMap fun c => if c = '\n' then '\n' :: List.replicate 10 ' ' else [c])

/-- The frame around a group: the word `error` and the title on the first line, then a bar
    and the message after an equals sign and the same word. -/
def Group.framed (g : Group) : String :=
  "error: " ++ g.title ++
    match g.body with
    | none => ""
    | some body => "\n |\n = error: " ++ indentLines body

/-! ## Renderers -/

/-- The two ways to write a report (`Renderer`). -/
structure Renderer where
  plain : Report → String
  styled : Report → String

/-- The second text is the first one with escape sequences for styles put in: the escape
    character, an opening bracket, digits and an `m`. -/
inductive Styled : List Char → List Char → Prop
  | nil : Styled [] []
  | char (c : Char) {s t : List Char} : Styled s t → Styled (c :: s) (c :: t)
  | sequence {digits s t : List Char} : (∀ d ∈ digits, d.isDigit = true) → Styled s t →
      Styled s ('\x1b' :: '[' :: (digits ++ 'm' :: t))

/-- The title of the group is one printable line, and so are all lines of its message. -/
structure Group.Printable (printable : Char → Prop) (g : Group) : Prop where
  title : ∀ c ∈ g.title.toList, printable c
  body : ∀ body ∈ g.body, ∀ c ∈ body.toList, c = '\n' ∨ printable c

/-- What is known about a renderer, given which characters it prints as they are. These are
    all characters that are not hidden, and perhaps more, but no line end and no escape
    character. It is only about reports of a single group with printable texts. -/
structure Renderer.Documented (printable : Char → Prop) (R : Renderer) : Prop where
  visible : ∀ c, Text.isHidden c = false → printable c
  lineEnd : ¬ printable '\n'
  escape : ¬ printable '\x1b'
  framed : ∀ g : Group, g.Printable printable → R.plain ⟨[g]⟩ = g.framed
  styled : ∀ g : Group, g.Printable printable →
    Styled (R.plain ⟨[g]⟩).toList (R.styled ⟨[g]⟩).toList

/-! ## Terminals -/

/-- What an escape sequence selects for the text after it. -/
inductive Style
  | reset
  | bold
  | brightRed
  | brightBlue
  deriving DecidableEq

/-- The number that stands for a style. -/
def Style.code : Style → Nat
  | .reset => 0
  | .bold => 1
  | .brightRed => 91
  | .brightBlue => 94

/-- The escape sequence for a style. -/
def Style.sequence (s : Style) : String := "\x1b[" ++ toString s.code ++ "m"

/-- A stretch of text with the styles that are selected before it. -/
structure Span where
  styles : List Style
  text : String

/-- The stretch of text after the escape sequences for its styles. -/
def Span.styled (s : Span) : String := s.styles.foldr (·.sequence ++ ·) s.text

/-- A group as stretches of text: the word `error` in red, the frame in blue. -/
def Group.spans (g : Group) : List Span :=
  [⟨[.bold, .brightRed], "error"⟩, ⟨[.reset, .bold], ": " ++ g.title⟩] ++
    match g.body with
    | none => [⟨[.reset], ""⟩]
    | some body =>
      [⟨[.reset], "\n "⟩, ⟨[.bold, .brightBlue], "|"⟩, ⟨[.reset], "\n "⟩,
        ⟨[.bold, .brightBlue], "= "⟩, ⟨[.reset, .bold], "error"⟩,
        ⟨[.reset], ": " ++ indentLines body⟩]

/-- A renderer for terminals, which writes groups below one another. -/
def Renderer.terminal : Renderer where
  plain r := "\n".intercalate (r.groups.map fun g => String.join (g.spans.map (·.text)))
  styled r := "\n".intercalate (r.groups.map fun g => String.join (g.spans.map (·.styled)))

/-- The report without styles, as the renderer writes it (`render_plain`). -/
def Report.plain (r : Report) (R : Renderer := .terminal) : String := R.plain r

/-- The report with styles, as the renderer writes it (`render_styled`). -/
def Report.styled (r : Report) (R : Renderer := .terminal) : String := R.styled r

/-! ## Reading -/

/-- The rest of a text after an escape sequence for a style: the escape
    character, an opening bracket, digits and an `m`. -/
def afterStyle? : List Char → Option (List Char)
  | '\x1b' :: '[' :: rest =>
    match rest.dropWhile Char.isDigit with
    | 'm' :: rest => some rest
    | _ => none
  | _ => none

theorem length_afterStyle? {s rest : List Char} (h : afterStyle? s = some rest) :
    rest.length < s.length := by
  unfold afterStyle? at h
  split at h
  · rename_i tail
    have := (tail.dropWhile_suffix Char.isDigit).length_le
    split at h
    · rename_i r hr
      rw [hr] at this
      cases h
      simp only [List.length_cons] at this ⊢
      omega
    · simp at h
  · simp at h

/-- The text without escape sequences for styles. -/
def stripStyles (s : List Char) : List Char :=
  match _h : afterStyle? s with
  | some rest => stripStyles rest
  | none =>
    match s with
    | [] => []
    | c :: rest => c :: stripStyles rest
termination_by s.length
decreasing_by
  · exact length_afterStyle? _h
  · simp

/-- The text with the ten blanks after every line end taken out. -/
def unindent : List Char → List Char
  | [] => []
  | '\n' :: rest => '\n' :: unindent (rest.drop 10)
  | c :: rest => c :: unindent rest
termination_by s => s.length

/-- The group with the given plain form, if the form is a frame around a title
    and at most one message. -/
def Group.ofPlain? (s : String) : Option Group :=
  match s.toList with
  | 'e' :: 'r' :: 'r' :: 'o' :: 'r' :: ':' :: ' ' :: rest =>
    let title := String.ofList (rest.takeWhile (· ≠ '\n'))
    match rest.dropWhile (· ≠ '\n') with
    | [] => some ⟨title, none⟩
    | '\n' :: ' ' :: '|' :: '\n' :: ' ' :: '=' :: ' ' :: 'e' :: 'r' :: 'r' :: 'o' :: 'r' :: ':' ::
        ' ' :: body => some ⟨title, some (String.ofList (unindent body))⟩
    | _ => none
  | _ => none

end NaryLambda

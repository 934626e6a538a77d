import NaryLambda.Proofs.Pointwise
import NaryLambda.Proofs.Text.Delimiters
import NaryLambda.Text.Quoted

/-!
# Quoted text can be told apart

Quoted text shows where it ends and what was quoted: an escape begins with a
backslash, no character stands unescaped that would end the text, and different
characters have different escapes. All of it is visible.

A backtick stands for itself in quoted text. So where a name without quotes ends at
a backtick, and quoted text comes after it, the right backtick is neither the first
nor the last one. What tells it apart is the number of double quotes from there to
the end, those in escapes not counted: it is even, and odd for a backtick that is
quoted.

Results:

* `escapedAs_escape`: the three ways in which a character is written.
* `selfDelimiting_quote`: quoted text shows where it ends and what was quoted.
* `Stretch`: texts with quotes that pair up, whose backticks are all quoted or none.
* `Stretch.quote`: quoted text is such a text.
* `Stretch.split_unique`: the backtick after which all others are quoted.
-/

namespace NaryLambda.Text

/-! ## Escapes -/

/-- The characters with an escape of two characters, each with the second one. -/
def shortEscapes : List (Char × Char) :=
  [('"', '"'), ('\\', '\\'), ('\n', 'n'), ('\r', 'r'), ('\t', 't'), ('\x00', '0')]

/-- The ways in which a character stands in quoted text. -/
inductive EscapedAs (c : Char) : List Char → Prop
  | short {x : Char} (h : (c, x) ∈ shortEscapes) : EscapedAs c ['\\', x]
  | code (h : isHidden c = true) :
    EscapedAs c ('\\' :: 'u' :: '\x7b' :: (Nat.toDigits 16 c.toNat ++ ['\x7d']))
  | self (visible : isHidden c = false) (quote : c ≠ '"') (backslash : c ≠ '\\') : EscapedAs c [c]

theorem escapedAs_escape (c : Char) : EscapedAs c (escape c) := by
  unfold escape
  split
  case h_7 hquote hbackslash _ _ _ _ =>
    split
    · exact .code ‹_›
    · exact .self (Bool.eq_false_iff.2 ‹_›) hquote hbackslash
  all_goals exact .short (by decide)

/-- A character that stands for itself in quoted text and is not a backtick. -/
def IsBare (c : Char) : Prop := isHidden c = false ∧ c ≠ '"' ∧ c ≠ '\\' ∧ c ≠ '`'
  deriving Decidable

theorem isBare_of_all {s : List Char} (h : (s.all fun c => decide (IsBare c)) = true) :
    ∀ c ∈ s, IsBare c := by
  simpa using h

theorem isBare_of_isAlphanum {c : Char} (h : c.isAlphanum = true) : IsBare c := by
  have hrange : 0x30 ≤ c.toNat ∧ c.toNat < 0x7f := by
    have hval : c.toNat = c.val.toNat := rfl
    change ((decide (0x41 ≤ c.val ∧ c.val ≤ 0x5a) ||
      decide (0x61 ≤ c.val) && decide (c.val ≤ 0x7a)) ||
      decide (0x30 ≤ c.val) && decide (c.val ≤ 0x39)) = true at h
    simp only [Bool.or_eq_true, Bool.and_eq_true, decide_eq_true_eq, UInt32.le_iff_toNat_le,
      UInt32.reduceToNat] at h
    omega
  refine ⟨?_, ?_, ?_, ?_⟩
  · unfold isHidden
    rw [if_pos (by omega)]
    simp only [Bool.or_eq_false_iff, decide_eq_false_iff_not, beq_eq_false_iff_ne]
    omega
  all_goals
    rintro rfl
    contradiction

theorem isBare_of_mem_intercalate {c : Char} {ss : List String}
    (hss : ∀ s ∈ ss, ∀ c ∈ s.toList, IsBare c) (h : c ∈ (", ".intercalate ss).toList) :
    IsBare c := by
  rcases mem_intercalate h with rfl | rfl | ⟨s, hs, hc⟩
  · decide
  · decide
  · exact hss s hs c hc

theorem shortEscapes_inj : ∀ p ∈ shortEscapes, ∀ q ∈ shortEscapes, p.2 = q.2 → p.1 = q.1 := by
  decide

theorem shortEscapes_second : ∀ p ∈ shortEscapes, isHidden p.2 = false ∧ p.2 ≠ 'u' ∧ p.2 ≠ '`' := by
  decide

/-! ## Quoted text shows where it ends -/

theorem escape_append_inj {c d : Char} {r s : List Char} (h : escape c ++ r = escape d ++ s) :
    c = d ∧ r = s := by
  have hc := escapedAs_escape c
  have hd := escapedAs_escape d
  generalize escape c = l at h hc
  generalize escape d = l' at h hd
  -- an escape differs from a plain character at once, two escapes in the second character
  cases hc with
  | short hx =>
    cases hd with
    | short hy =>
      obtain ⟨rfl, rfl⟩ : _ = _ ∧ r = s := by simpa using h
      exact ⟨shortEscapes_inj _ hx _ hy rfl, rfl⟩
    | code =>
      simp only [List.cons_append, List.cons.injEq] at h
      exact absurd h.2.1 (shortEscapes_second _ hx).2.1
    | self _ _ hbackslash =>
      simp only [List.cons_append, List.cons.injEq] at h
      exact absurd h.1.symm hbackslash
  | code =>
    cases hd with
    | short hy =>
      simp only [List.cons_append, List.cons.injEq] at h
      exact absurd h.2.1.symm (shortEscapes_second _ hy).2.1
    | code =>
      simp only [List.cons_append, List.append_assoc, List.cons.injEq, true_and,
        List.nil_append] at h
      have hdigit : ∀ n, ∀ x ∈ Nat.toDigits 16 n, x ≠ '\x7d' := by
        rintro n x hx rfl
        exact absurd (isAlphanum_of_mem_toDigits (by decide) (by decide) hx) (by decide)
      obtain ⟨hdigits, -, rfl⟩ := first_unique (p := (· ≠ '\x7d')) (hdigit _) (by simp)
        (hdigit _) (by simp) h
      exact ⟨Char.toNat_inj.1 (toDigits_inj (by decide) (by decide) hdigits), rfl⟩
    | self _ _ hbackslash =>
      simp only [List.cons_append, List.cons.injEq] at h
      exact absurd h.1.symm hbackslash
  | self _ _ hbackslash =>
    cases hd with
    | short | code =>
      simp only [List.cons_append, List.cons.injEq] at h
      exact absurd h.1 hbackslash
    | self => simpa using h

theorem escape_append_ne (c : Char) (r s : List Char) : escape c ++ r ≠ '"' :: s := by
  intro h
  have hc := escapedAs_escape c
  generalize escape c = l at h hc
  cases hc with
  | short | code => simp at h
  | self _ hquote => exact hquote (List.cons.inj h).1

theorem flatMap_escape_append_inj {cs ds r s : List Char}
    (h : cs.flatMap escape ++ '"' :: r = ds.flatMap escape ++ '"' :: s) : cs = ds ∧ r = s := by
  induction cs generalizing ds with
  | nil =>
    cases ds with
    | nil => simpa using h
    | cons d ds =>
      rw [List.flatMap_cons, List.append_assoc] at h
      exact absurd h.symm (escape_append_ne d _ _)
  | cons c cs ih =>
    cases ds with
    | nil =>
      rw [List.flatMap_cons, List.append_assoc] at h
      exact absurd h (escape_append_ne c _ _)
    | cons d ds =>
      rw [List.flatMap_cons, List.flatMap_cons, List.append_assoc, List.append_assoc] at h
      obtain ⟨rfl, htail⟩ := escape_append_inj h
      obtain ⟨rfl, rfl⟩ := ih htail
      exact ⟨rfl, rfl⟩

theorem toList_quote (s : String) :
    (quote s).toList = '"' :: (s.toList.flatMap escape ++ ['"']) := by
  rw [quote, String.toList_ofList]

/-- Quoted text shows where it ends and what was quoted. -/
theorem selfDelimiting_quote (s : String) : SelfDelimiting quote s := by
  intro t r u h
  rw [toList_quote, toList_quote] at h
  simp only [List.cons_append, List.append_assoc, List.cons.injEq, true_and,
    List.nil_append] at h
  obtain ⟨hchars, rfl⟩ := flatMap_escape_append_inj h
  exact ⟨String.toList_inj.1 hchars, rfl⟩

/-! ## Backticks in quoted text -/

/-- Whether the number of double quotes in a text is odd, those after a backslash not
    counted. -/
def oddQuotes : List Char → Bool
  | [] => false
  | '\\' :: _ :: rest => oddQuotes rest
  | '"' :: rest => !oddQuotes rest
  | _ :: rest => oddQuotes rest

theorem oddQuotes_cons_of_ne {c : Char} (hquote : c ≠ '"') (hbackslash : c ≠ '\\')
    (rest : List Char) : oddQuotes (c :: rest) = oddQuotes rest := by
  rw [oddQuotes]
  · rintro _ _ rfl
    exact absurd rfl hbackslash
  · rintro rfl
    exact absurd rfl hquote

/-- A text of visible characters with an even number of double quotes, in which all
    backticks are quoted or none is. From a quoted backtick to the end the number of
    double quotes is odd, from any other even. The fields say so with any text after it,
    so that stretches can be put together. -/
structure Stretch (quoted : Bool) (s : List Char) : Prop where
  visible : ∀ c ∈ s, isHidden c = false
  even : ∀ rest, oddQuotes (s ++ rest) = oddQuotes rest
  backtick : ∀ before after, s = before ++ '`' :: after →
    ∀ rest, oddQuotes (after ++ rest) = (quoted ^^ oddQuotes rest)

namespace Stretch

variable {quoted : Bool} {s t : List Char}

theorem nil : Stretch quoted [] where
  visible := by simp
  even := by simp
  backtick := by simp

theorem append (hs : Stretch quoted s) (ht : Stretch quoted t) : Stretch quoted (s ++ t) where
  visible c hc := (List.mem_append.1 hc).elim (hs.visible c) (ht.visible c)
  even rest := by rw [List.append_assoc, hs.even, ht.even]
  backtick before after h rest := by
    rcases List.append_eq_append_iff.1 h with ⟨before', -, hin⟩ | ⟨l, hl, hin⟩
    · exact ht.backtick before' after hin rest
    · cases l with
      | nil => exact ht.backtick [] after hin.symm rest
      | cons c after' =>
        rw [List.cons_append] at hin
        obtain ⟨rfl, rfl⟩ := List.cons.inj hin
        rw [List.append_assoc, hs.backtick before after' hl, ht.even]

theorem flatMap {α : Type} {f : α → List Char} {as : List α}
    (h : ∀ a ∈ as, Stretch quoted (f a)) : Stretch quoted (as.flatMap f) := by
  induction as with
  | nil => exact nil
  | cons a as ih =>
    rw [List.flatMap_cons]
    exact (h a (.head _)).append (ih fun b hb => h b (.tail _ hb))

/-- A single character that stands for itself. -/
theorem single {c : Char} (hvisible : isHidden c = false) (hquote : c ≠ '"')
    (hbackslash : c ≠ '\\') (hc : c = '`' → quoted = false) : Stretch quoted [c] where
  visible := by simpa using hvisible
  even rest := oddQuotes_cons_of_ne hquote hbackslash rest
  backtick before after h rest := by
    obtain ⟨rfl, rfl, rfl⟩ : before = [] ∧ '`' = c ∧ after = [] := by
      simpa [List.singleton_eq_append_iff] using h
    simp [hc rfl]

theorem bare (h : ∀ c ∈ s, IsBare c) : Stretch quoted s := by
  rw [← List.flatMap_singleton' s]
  refine flatMap fun c hc => ?_
  obtain ⟨hvisible, hquote, hbackslash, hbacktick⟩ := h c hc
  exact single hvisible hquote hbackslash fun heq => absurd heq hbacktick

/-- A given text, whose characters can be gone through. -/
theorem literal (h : (s.all fun c => decide (IsBare c)) = true) : Stretch quoted s :=
  bare (isBare_of_all h)

/-- An escape of two characters. -/
theorem short {x : Char} (hvisible : isHidden x = false) (hx : x ≠ '`') :
    Stretch quoted ['\\', x] where
  visible := by simpa using ⟨by decide, hvisible⟩
  even rest := by
    show oddQuotes ('\\' :: x :: rest) = oddQuotes rest
    rw [oddQuotes]
  backtick before after h := by
    have hmem : '`' ∈ ['\\', x] := h ▸ by simp
    simp [Ne.symm hx] at hmem

/-- A character as it stands in quoted text. -/
theorem escape (c : Char) : Stretch false (escape c) := by
  have hc := escapedAs_escape c
  generalize Text.escape c = l at hc
  cases hc with
  | @short x hx =>
    obtain ⟨hvisible, -, hbacktick⟩ := shortEscapes_second _ hx
    exact short hvisible hbacktick
  | code =>
    have hdigits : ∀ d ∈ Nat.toDigits 16 c.toNat, IsBare d := fun d hd =>
      isBare_of_isAlphanum (isAlphanum_of_mem_toDigits (by decide) (by decide) hd)
    exact (short (by decide) (by decide)).append
      ((literal (s := ['\x7b']) (by decide)).append ((bare hdigits).append (literal (by decide))))
  | self hvisible hquote hbackslash => exact single hvisible hquote hbackslash fun _ => rfl

/-- All backticks in quoted text are quoted. -/
theorem quote (s : String) : Stretch true (quote s).toList := by
  have hinner : Stretch false (s.toList.flatMap Text.escape) := flatMap fun c _ => escape c
  rw [toList_quote]
  generalize s.toList.flatMap Text.escape = inner at hinner
  constructor
  · simpa using ⟨by decide, fun c hc => hc.elim (hinner.visible c) fun h => h ▸ by decide⟩
  · intro rest
    show oddQuotes ('"' :: (inner ++ ['"'] ++ rest)) = oddQuotes rest
    rw [oddQuotes, List.append_assoc, hinner.even]
    simp [oddQuotes]
  · intro before after h rest
    -- the backtick is neither of the two quotes, so it is among the characters quoted
    obtain ⟨before', rfl⟩ : ∃ before', before = '"' :: before' := by
      cases before with
      | nil => simp at h
      | cons c before' => exact ⟨before', by rw [(List.cons.inj h).1]⟩
    obtain ⟨-, htail⟩ := List.cons.inj h
    rcases List.append_eq_append_iff.1 htail with ⟨l, -, hl⟩ | ⟨l, hl, hlast⟩
    · simp [List.singleton_eq_append_iff] at hl
    · cases l with
      | nil => simp at hlast
      | cons c after' =>
        rw [List.cons_append] at hlast
        obtain ⟨rfl, rfl⟩ := List.cons.inj hlast
        rw [List.append_assoc, hinner.backtick before' after' hl]
        simp [oddQuotes]

/-- A list of texts with commas between them. -/
theorem intercalate {ss : List String} (h : ∀ s ∈ ss, Stretch quoted s.toList) :
    Stretch quoted (", ".intercalate ss).toList := by
  cases ss with
  | nil => exact nil
  | cons s ss =>
    rw [toList_intercalate_cons]
    refine (h s (.head _)).append (flatMap fun t ht => ?_)
    exact (literal (s := [',', ' ']) (by decide)).append (h t (.tail _ ht))

/-- Whatever stands before, there is one backtick only after which all others are quoted:
    a text that begins between quotes has an odd number of them. -/
theorem split_unique {before before' : List Char} (hs : Stretch true s) (ht : Stretch true t)
    (h : before ++ '`' :: s = before' ++ '`' :: t) : before = before' ∧ s = t := by
  have hshorter : ∀ {l s t : List Char}, Stretch true s → Stretch true t →
      '`' :: s = l ++ '`' :: t → l = [] ∧ s = t := by
    intro l s t hs ht h
    cases l with
    | nil => exact ⟨rfl, (List.cons.inj h).2⟩
    | cons c l =>
      have hodd := hs.backtick l t (List.cons.inj h).2 []
      rw [ht.even] at hodd
      contradiction
  rcases List.append_eq_append_iff.1 h with ⟨l, hl, h⟩ | ⟨l, hl, h⟩
  · obtain ⟨rfl, rfl⟩ := hshorter hs ht h
    exact ⟨by rw [hl, List.append_nil], rfl⟩
  · obtain ⟨rfl, rfl⟩ := hshorter ht hs h
    exact ⟨by rw [hl, List.append_nil], rfl⟩

end Stretch

end NaryLambda.Text

import NaryLambda.Name

/-!
# Where the parts of a text end

Two texts that begin with written forms can be compared part by part if each form
shows by itself where it ends. So do lists of such forms, with commas between them
and a bracket or a brace after the last one. A text that begins with one of several words shows
where the word ends if none of them begins another.

Results:

* `SelfDelimiting`: a form that shows where it ends.
* `opening_unique`: words of which none begins another.
* `intercalate_append_inj`: lists of such forms up to a closing character.
* `toDigits_inj`: a number is determined by its digits.
-/

namespace NaryLambda.Text

variable {α : Type}

/-- The written form of `a` shows where it ends: a text that begins with it begins with
    the form of nothing else. -/
def SelfDelimiting (w : α → String) (a : α) : Prop :=
  ∀ ⦃b r s⦄, (w a).toList ++ r = (w b).toList ++ s → a = b ∧ r = s

/-- Texts that begin with words of which none begins another begin with the same word. -/
theorem opening_unique {words : List String} {a b : String} {r s : List Char}
    (hwords : ∀ a ∈ words, ∀ b ∈ words, a.toList <+: b.toList → a = b)
    (ha : a ∈ words) (hb : b ∈ words) (h : a.toList ++ r = b.toList ++ s) : a = b ∧ r = s := by
  have hab : a = b := by
    rcases List.prefix_or_prefix_of_prefix (List.prefix_append a.toList r)
      (h ▸ List.prefix_append b.toList s) with hab | hba
    · exact hwords a ha b hb hab
    · exact (hwords b hb a ha hba).symm
  subst hab
  exact ⟨rfl, List.append_cancel_left h⟩

/-! ## Lists -/

theorem toList_intercalate_cons (s : String) (ss : List String) :
    (", ".intercalate (s :: ss)).toList =
      s.toList ++ ss.flatMap fun t => ',' :: ' ' :: t.toList := by
  induction ss generalizing s with
  | nil => simp
  | cons t ss ih =>
    rw [String.intercalate_cons_cons, String.toList_append, ih]
    simp

theorem mem_intercalate {c : Char} {ss : List String} (h : c ∈ (", ".intercalate ss).toList) :
    c = ',' ∨ c = ' ' ∨ ∃ s ∈ ss, c ∈ s.toList := by
  cases ss with
  | nil => simp at h
  | cons s ss =>
    rw [toList_intercalate_cons] at h
    simp only [List.mem_append, List.mem_flatMap, List.mem_cons] at h
    rcases h with h | ⟨t, ht, rfl | rfl | h⟩
    · exact .inr (.inr ⟨s, .head _, h⟩)
    · exact .inl rfl
    · exact .inr (.inl rfl)
    · exact .inr (.inr ⟨t, .tail _ ht, h⟩)

/-- What follows the first form of a list, up to the closing character. -/
theorem flatMap_append_inj {w : α → String} {close : Char} (hclose : close ≠ ',')
    {as bs : List α} {r s : List Char} (has : ∀ a ∈ as, SelfDelimiting w a)
    (h : (as.map w).flatMap (fun t => ',' :: ' ' :: t.toList) ++ close :: r =
      (bs.map w).flatMap (fun t => ',' :: ' ' :: t.toList) ++ close :: s) : as = bs ∧ r = s := by
  induction as generalizing bs with
  | nil =>
    cases bs with
    | nil => simpa using h
    | cons b bs => simp [hclose] at h
  | cons a as ih =>
    cases bs with
    | nil => simp [hclose.symm] at h
    | cons b bs =>
      simp only [List.map_cons, List.flatMap_cons, List.cons_append, List.append_assoc,
        List.cons.injEq, true_and] at h
      obtain ⟨rfl, htail⟩ := has a (.head _) h
      obtain ⟨rfl, rfl⟩ := ih (fun a ha => has a (.tail _ ha)) htail
      exact ⟨rfl, rfl⟩

/-- A list of forms that show where they end is determined by what stands before the
    closing character, if no form begins with it. -/
theorem intercalate_append_inj {w : α → String} {close : Char} (hclose : close ≠ ',')
    {as bs : List α} {r s : List Char} (has : ∀ a ∈ as, SelfDelimiting w a)
    (hw : ∀ a l l', (w a).toList ++ l ≠ close :: l')
    (h : (", ".intercalate (as.map w)).toList ++ close :: r =
      (", ".intercalate (bs.map w)).toList ++ close :: s) : as = bs ∧ r = s := by
  cases as with
  | nil =>
    cases bs with
    | nil => simpa using h
    | cons b bs =>
      rw [List.map_cons, toList_intercalate_cons, List.append_assoc] at h
      exact absurd h.symm (hw b _ _)
  | cons a as =>
    cases bs with
    | nil =>
      rw [List.map_cons, toList_intercalate_cons, List.append_assoc] at h
      exact absurd h (hw a _ _)
    | cons b bs =>
      rw [List.map_cons, List.map_cons, toList_intercalate_cons, toList_intercalate_cons,
        List.append_assoc, List.append_assoc] at h
      obtain ⟨rfl, htail⟩ := has a (.head _) h
      obtain ⟨rfl, rfl⟩ := flatMap_append_inj hclose (fun a ha => has a (.tail _ ha)) htail
      exact ⟨rfl, rfl⟩

/-! ## Digits -/

theorem digitChar_inj : ∀ m < 16, ∀ n < 16, Nat.digitChar m = Nat.digitChar n → m = n := by
  decide

/-- Different numbers have different digits, in every base that has enough of them. -/
theorem toDigits_inj {b m n : Nat} (hb : 1 < b) (hb' : b ≤ 16)
    (h : Nat.toDigits b m = Nat.toDigits b n) : m = n := by
  induction m using Nat.strongRecOn generalizing n with
  | ind m ih =>
    have hmod : m % b < b := Nat.mod_lt m (by omega)
    have hmod' : n % b < b := Nat.mod_lt n (by omega)
    rw [Nat.toDigits_eq_if hb, Nat.toDigits_eq_if hb (n := n)] at h
    split at h <;> split at h
    · exact digitChar_inj m (by omega) n (by omega) (List.singleton_inj.1 h)
    · simp [List.singleton_eq_append_iff, Nat.toDigits_ne_nil] at h
    · simp [List.append_eq_cons_iff, Nat.toDigits_ne_nil] at h
    · obtain ⟨hinit, hlast⟩ := List.append_inj' h rfl
      have hdiv : m / b = n / b := ih (m / b) (Nat.div_lt_self (by omega) hb) hinit
      have hrest : m % b = n % b :=
        digitChar_inj _ (by omega) _ (by omega) (List.singleton_inj.1 hlast)
      rw [← Nat.div_add_mod m b, ← Nat.div_add_mod n b, hdiv, hrest]

theorem isAlphanum_digitChar : ∀ d < 16, (Nat.digitChar d).isAlphanum = true := by decide

theorem isAlphanum_of_mem_toDigits {b n : Nat} {c : Char} (hb : 1 < b) (hb' : b ≤ 16)
    (h : c ∈ Nat.toDigits b n) : c.isAlphanum = true := by
  induction n using Nat.strongRecOn with
  | ind n ih =>
    have hmod : n % b < b := Nat.mod_lt n (by omega)
    rw [Nat.toDigits_eq_if hb] at h
    split at h
    · rw [List.mem_singleton.1 h]
      exact isAlphanum_digitChar n (by omega)
    · rcases List.mem_append.1 h with h | h
      · exact ih (n / b) (Nat.div_lt_self (by omega) hb) h
      · rw [List.mem_singleton.1 h]
        exact isAlphanum_digitChar _ (by omega)

theorem isAlphanum_of_mem_repr {n : Nat} {c : Char} (h : c ∈ n.repr.toList) :
    c.isAlphanum = true := by
  rw [Nat.repr_eq_ofList_toDigits, String.toList_ofList] at h
  exact isAlphanum_of_mem_toDigits (by decide) (by decide) h

end NaryLambda.Text

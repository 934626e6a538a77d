import Mathlib.Data.List.Forall2

/-!
# Lists related point by point

Arguments and their values, parameters and their values, and terms and their
types come as lists of one length that are related member by member. Where
arguments are gone through from left to right, the first one without some
property is the one that counts.
-/

namespace NaryLambda

/-- Every member of the first list is related to some member of the second. -/
theorem exists_mem_of_forall₂ {α β : Type} {R : α → β → Prop} {as : List α} {bs : List β}
    (h : List.Forall₂ R as bs) {a : α} (ha : a ∈ as) : ∃ b ∈ bs, R a b := by
  induction h with
  | nil => cases ha
  | cons hab _ ih =>
    rcases List.mem_cons.1 ha with rfl | ha
    · exact ⟨_, .head _, hab⟩
    · obtain ⟨b, hb, h⟩ := ih ha
      exact ⟨b, .tail _ hb, h⟩

/-- Every member of the second list is related to some member of the first. -/
theorem exists_mem_of_forall₂_right {α β : Type} {R : α → β → Prop} {as : List α} {bs : List β}
    (h : List.Forall₂ R as bs) {b : β} (hb : b ∈ bs) : ∃ a ∈ as, R a b :=
  exists_mem_of_forall₂ (R := flip R) h.flip hb

/-- Members at one place are related. -/
theorem exists_getElem?_of_forall₂ {α β : Type} {R : α → β → Prop} {as : List α} {bs : List β}
    (h : List.Forall₂ R as bs) {i : Nat} {a : α} (ha : as[i]? = some a) :
    ∃ b, bs[i]? = some b ∧ R a b := by
  obtain ⟨hi, rfl⟩ := List.getElem?_eq_some_iff.1 ha
  have hi' : i < bs.length := h.length_eq ▸ hi
  exact ⟨bs[i], List.getElem?_eq_getElem hi', h.get hi hi'⟩

/-- A member of the second list splits the first list at its own place. -/
theorem exists_split_of_forall₂ {α β : Type} {R : α → β → Prop} {as : List α}
    {before after : List β} {b : β} (h : List.Forall₂ R as (before ++ b :: after)) :
    ∃ before' a after', as = before' ++ a :: after' ∧ List.Forall₂ R before' before ∧ R a b := by
  induction before generalizing as with
  | nil =>
    cases h with
    | cons hab _ => exact ⟨[], _, _, rfl, .nil, hab⟩
  | cons c before ih =>
    cases h with
    | cons hac htail =>
      obtain ⟨before', a, after', rfl, hbefore, hab⟩ := ih htail
      exact ⟨_ :: before', a, after', rfl, .cons hac hbefore, hab⟩

/-- Two lists related to the same list are related to each other, if the relations
    compose at every member of that list. -/
theorem forall₂_of_common {α β γ : Type} {R : α → β → Prop} {S : α → γ → Prop}
    {T : β → γ → Prop} {as : List α} {bs : List β} {cs : List γ} (hR : List.Forall₂ R as bs)
    (hS : List.Forall₂ S as cs) (h : ∀ a ∈ as, ∀ b c, R a b → S a c → T b c) :
    List.Forall₂ T bs cs := by
  induction hR generalizing cs with
  | nil =>
    cases hS
    exact .nil
  | cons hab _ ih =>
    cases hS with
    | cons hac hS =>
      exact .cons (h _ (.head _) _ _ hab hac) (ih hS fun a ha => h a (.tail _ ha))

/-- Lists that are related are related in every way that follows at each member of the
    first list. -/
theorem forall₂_imp_of_mem {α β : Type} {R S : α → β → Prop} {as : List α} {bs : List β}
    (hR : List.Forall₂ R as bs) (h : ∀ a ∈ as, ∀ b, R a b → S a b) : List.Forall₂ S as bs :=
  ((List.forall₂_and_left as bs).2 ⟨h, hR⟩).imp fun _ b hab => hab.1 b hab.2

/-- Relations that agree at every member of the first list relate the same lists. -/
theorem forall₂_congr_of_mem {α β : Type} {R S : α → β → Prop} {as : List α} {bs : List β}
    (h : ∀ a ∈ as, ∀ b, R a b ↔ S a b) : List.Forall₂ R as bs ↔ List.Forall₂ S as bs := by
  induction as generalizing bs with
  | nil => rw [List.forall₂_nil_left_iff, List.forall₂_nil_left_iff]
  | cons a as ih =>
    have htail : ∀ bs, List.Forall₂ R as bs ↔ List.Forall₂ S as bs :=
      fun bs => ih fun b hb => h b (.tail _ hb)
    simp only [List.forall₂_cons_left_iff, h a (.head _), htail]

/-- Lists with the same images are those whose members have, point by point, the same
    images. -/
theorem forall₂_iff_map_eq {α β γ : Type} {f : α → γ} {g : β → γ} {as : List α} {bs : List β} :
    List.Forall₂ (fun a b => f a = g b) as bs ↔ as.map f = bs.map g := by
  rw [← List.forall₂_eq_eq_eq, List.forall₂_map_left_iff, List.forall₂_map_right_iff]

/-- Choices for every two related members make up one list. -/
theorem exists_forall₂_of_forall₂ {α β γ : Type} {P : β → γ → Prop} {Q : α → γ → Prop}
    {as : List α} {bs : List β}
    (h : List.Forall₂ (fun a b => ∃ c, P b c ∧ Q a c) as bs) :
    ∃ cs, List.Forall₂ P bs cs ∧ List.Forall₂ Q as cs := by
  induction h with
  | nil => exact ⟨[], .nil, .nil⟩
  | cons hab _ ih =>
    obtain ⟨c, hP, hQ⟩ := hab
    obtain ⟨cs, hPs, hQs⟩ := ih
    exact ⟨c :: cs, .cons hP hPs, .cons hQ hQs⟩

/-! ## The first member without a property -/

/-- All members of a list have the property, or there is a first one without. -/
theorem forall_or_exists_first {α : Type} (p : α → Prop) (as : List α) :
    (∀ a ∈ as, p a) ∨
      ∃ before a after, as = before ++ a :: after ∧ (∀ b ∈ before, p b) ∧ ¬ p a := by
  induction as with
  | nil => exact .inl (by simp)
  | cons a as ih =>
    by_cases ha : p a
    · rcases ih with hall | ⟨before, b, after, rfl, hbefore, hb⟩
      · exact .inl (List.forall_mem_cons.2 ⟨ha, hall⟩)
      · exact .inr ⟨a :: before, b, after, rfl, List.forall_mem_cons.2 ⟨ha, hbefore⟩, hb⟩
    · exact .inr ⟨[], a, as, rfl, by simp, ha⟩

/-- A list has one first member without the property. -/
theorem first_unique {α : Type} {p : α → Prop} {before before' after after' : List α} {a a' : α}
    (hbefore : ∀ b ∈ before, p b) (ha : ¬ p a) (hbefore' : ∀ b ∈ before', p b) (ha' : ¬ p a')
    (h : before ++ a :: after = before' ++ a' :: after') :
    before = before' ∧ a = a' ∧ after = after' := by
  induction before generalizing before' with
  | nil =>
    cases before' with
    | nil =>
      obtain ⟨rfl, rfl⟩ := List.cons.inj h
      exact ⟨rfl, rfl, rfl⟩
    | cons b before' =>
      obtain ⟨rfl, -⟩ := List.cons.inj h
      exact absurd (hbefore' _ (.head _)) ha
  | cons b before ih =>
    obtain ⟨hb, hbefore⟩ := List.forall_mem_cons.1 hbefore
    cases before' with
    | nil =>
      obtain ⟨rfl, -⟩ := List.cons.inj h
      exact absurd hb ha'
    | cons b' before' =>
      obtain ⟨rfl, htail⟩ := List.cons.inj h
      obtain ⟨rfl, rfl, rfl⟩ := ih hbefore (List.forall_mem_cons.1 hbefore').2 htail
      exact ⟨rfl, rfl, rfl⟩

end NaryLambda

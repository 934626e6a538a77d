import Mathlib.Data.Set.List
import NaryLambda.Proofs.Text.Quoted
import NaryLambda.Ty.Text

/-!
# The written form of a type is unambiguous

The text `()` is the unit type, and it begins the function types without domains, so
where a type ends depends on what comes next. A written type is read back from every
text in which no arrow follows it, as no arrow follows in a list of domains or at the
end. Conversely, whatever is read is written the same way again.

Results:

* `parseFirst_text`: a written type is read back, if no arrow follows.
* `eq_text_of_parse`: what was read is written the same way again.
* `text_inj`: different types are written differently.
* `written_unambiguously`: all of this for whole texts, which are those of the grammar.
-/

namespace NaryLambda.Ty

open Text

variable {depth : Nat} {t range : Ty} {domains : List Ty} {l l' rest : List Char}

/-! ## The characters of a written type -/

/-- The written form, form by form. -/
theorem text_eq (t : Ty) : t.text =
    match t with
    | unit => "()"
    | int => "int"
    | fn domains range => "(" ++ ", ".intercalate (domains.map text) ++ ") -> " ++ range.text := by
  cases t <;> rw [text]

@[simp] theorem text_unit : unit.text = "()" := text_eq unit

@[simp] theorem text_int : int.text = "int" := text_eq int

theorem text_fn (domains : List Ty) (range : Ty) : (fn domains range).text =
    "(" ++ ", ".intercalate (domains.map text) ++ ") -> " ++ range.text :=
  text_eq (fn domains range)

theorem toList_text_fn (domains : List Ty) (range : Ty) :
    (fn domains range).text.toList = '(' :: ((", ".intercalate (domains.map text)).toList ++
      ')' :: ' ' :: '-' :: '>' :: ' ' :: range.text.toList) := by
  rw [text_fn]
  simp [-String.toList_intercalate]

/-- All characters of a written type stand for themselves in quoted text. -/
theorem isBare_of_mem_text (t : Ty) : ∀ c ∈ t.text.toList, IsBare c := by
  induction t with
  | unit =>
    rw [text_unit]
    exact isBare_of_all (by decide)
  | int =>
    rw [text_int]
    exact isBare_of_all (by decide)
  | fn domains range ihd ihr =>
    intro c h
    rw [text_fn] at h
    simp only [String.toList_append, List.mem_append] at h
    rcases h with ((h | h) | h) | h
    · exact isBare_of_all (by decide) c h
    · exact isBare_of_mem_intercalate (List.forall_mem_map.2 ihd) h
    · exact isBare_of_all (by decide) c h
    · exact ihr c h

/-- A written type does not begin with a closing parenthesis. -/
theorem text_append_ne (t : Ty) (r s : List Char) : t.text.toList ++ r ≠ ')' :: s := by
  cases t with
  | unit | int => simp
  | fn domains range => simp [toList_text_fn]

/-! ## One step of reading -/

/-- The text does not begin with an arrow. -/
def NoArrow (s : List Char) : Prop := ∀ r, s ≠ ' ' :: '-' :: '>' :: ' ' :: r

theorem parseFirst_unit (hrest : NoArrow rest) :
    parseFirst (depth + 1) ('(' :: ')' :: rest) = some (.unit, rest) := by
  rw [parseFirst]
  exact hrest

theorem parseFirst_nil (h : parseFirst depth l = some (range, rest)) :
    parseFirst (depth + 1) ('(' :: ')' :: ' ' :: '-' :: '>' :: ' ' :: l) =
      some (.fn [] range, rest) := by
  simp [parseFirst, h]

theorem parseFirst_fn (hl : ∀ s, l ≠ ')' :: s)
    (hdomains : parseDomains depth l = some (domains, ')' :: ' ' :: '-' :: '>' :: ' ' :: l'))
    (hrange : parseFirst depth l' = some (range, rest)) :
    parseFirst (depth + 1) ('(' :: l) = some (.fn domains range, rest) := by
  rw [parseFirst]
  · simp [hdomains, hrange]
  · exact fun s => hl _
  · exact hl

theorem parseDomains_single (h : parseFirst depth l = some (t, ')' :: rest)) :
    parseDomains (depth + 1) l = some ([t], ')' :: rest) := by
  simp [parseDomains, h]

theorem parseDomains_cons (h : parseFirst depth l = some (t, ',' :: ' ' :: l'))
    (hdomains : parseDomains depth l' = some (domains, rest)) :
    parseDomains (depth + 1) l = some (t :: domains, rest) := by
  simp [parseDomains, h, hdomains]

/-! ## Reading what was written -/

theorem parseDomains_text (hne : domains ≠ [])
    (ih : ∀ d ∈ domains, ∀ {depth rest}, d.text.length < depth → NoArrow rest →
      parseFirst depth (d.text.toList ++ rest) = some (d, rest))
    (hdepth : (", ".intercalate (domains.map text)).length + 1 < depth) :
    parseDomains depth ((", ".intercalate (domains.map text)).toList ++ ')' :: rest) =
      some (domains, ')' :: rest) := by
  induction domains generalizing depth with
  | nil => exact absurd rfl hne
  | cons d domains ihd =>
    obtain ⟨depth, rfl⟩ : ∃ n, depth = n + 1 := ⟨depth - 1, by omega⟩
    cases domains with
    | nil =>
      rw [List.map_singleton, String.intercalate_singleton] at hdepth ⊢
      exact parseDomains_single (ih d (.head _) (by omega) (by simp [NoArrow]))
    | cons e domains =>
      have hne' : (e :: domains).map text ≠ [] := by simp
      rw [List.map_cons, String.intercalate_cons_of_ne_nil hne'] at hdepth ⊢
      rw [String.toList_append, String.toList_append, List.append_assoc, List.append_assoc]
      simp only [String.length_append] at hdepth
      have hsep : ", ".length = 2 := rfl
      refine parseDomains_cons (ih d (.head _) (by omega) (by simp [NoArrow])) ?_
      exact ihd (by simp) (fun d hd => ih d (.tail _ hd)) (by omega)

theorem parseFirst_text (t : Ty) (hdepth : t.text.length < depth) (hrest : NoArrow rest) :
    parseFirst depth (t.text.toList ++ rest) = some (t, rest) := by
  induction t generalizing depth rest with
  | unit =>
    obtain ⟨depth, rfl⟩ : ∃ n, depth = n + 1 := ⟨depth - 1, by omega⟩
    rw [text_unit]
    exact parseFirst_unit hrest
  | int =>
    obtain ⟨depth, rfl⟩ : ∃ n, depth = n + 1 := ⟨depth - 1, by omega⟩
    rw [text_int]
    rfl
  | fn domains range ihd ihr =>
    obtain ⟨depth, rfl⟩ : ∃ n, depth = n + 1 := ⟨depth - 1, by omega⟩
    have hlength : (fn domains range).text.length =
        (", ".intercalate (domains.map text)).length + range.text.length + 6 := by
      rw [← String.length_toList, toList_text_fn]
      simp only [List.length_cons, List.length_append, String.length_toList]
      omega
    have hrange : parseFirst depth (range.text.toList ++ rest) = some (range, rest) :=
      ihr (by omega) hrest
    rw [toList_text_fn, List.cons_append, List.append_assoc]
    cases domains with
    | nil => exact parseFirst_nil hrange
    | cons d domains =>
      refine parseFirst_fn ?_ (parseDomains_text (by simp) ihd (by omega)) hrange
      intro s
      rw [List.map_cons, toList_intercalate_cons, List.append_assoc]
      exact text_append_ne d _ s

/-! ## Writing what was read -/

/-- What was read is written the same way again, for types and for lists of domains. -/
theorem eq_text_of_parse (depth : Nat) :
    (∀ {l t rest}, parseFirst depth l = some (t, rest) → l = t.text.toList ++ rest) ∧
    ∀ {l domains rest}, parseDomains depth l = some (domains, rest) →
      domains ≠ [] ∧ l = (", ".intercalate (domains.map text)).toList ++ rest := by
  induction depth with
  | zero => exact ⟨fun h => by simp [parseFirst] at h, fun h => by simp [parseDomains] at h⟩
  | succ depth ih =>
    obtain ⟨ihFirst, ihDomains⟩ := ih
    constructor
    · intro l t rest h
      unfold parseFirst at h
      split at h
      case h_1 => contradiction
      case h_2 heq =>
        cases heq
        cases h
        simp
      case h_3 heq =>
        cases heq
        simp only [Option.bind_eq_bind, Option.bind_eq_some_iff] at h
        obtain ⟨⟨range, _⟩, hrange, h⟩ := h
        cases h
        rw [ihFirst hrange, toList_text_fn]
        simp
      case h_4 heq =>
        cases heq
        cases h
        simp
      case h_5 heq =>
        cases heq
        simp only [Option.bind_eq_bind, Option.bind_eq_some_iff] at h
        obtain ⟨⟨domains, after⟩, hdomains, h⟩ := h
        split at h
        case h_1 hafter =>
          obtain rfl : after = _ := hafter
          simp only [Option.bind_eq_some_iff] at h
          obtain ⟨⟨range, _⟩, hrange, h⟩ := h
          cases h
          rw [(ihDomains hdomains).2, ihFirst hrange, toList_text_fn]
          simp
        case h_2 => cases h
      case h_6 => cases h
    · intro l domains rest h
      simp only [parseDomains, Option.bind_eq_bind, Option.bind_eq_some_iff] at h
      obtain ⟨⟨t, after⟩, ht, h⟩ := h
      split at h
      case h_1 hafter =>
        obtain rfl : after = _ := hafter
        simp only [Option.bind_eq_some_iff] at h
        obtain ⟨⟨domains, _⟩, hdomains, h⟩ := h
        cases h
        obtain ⟨hne, hl⟩ := ihDomains hdomains
        refine ⟨by simp, ?_⟩
        rw [ihFirst ht, hl, List.map_cons,
          String.intercalate_cons_of_ne_nil (by simpa using hne)]
        simp
      case h_2 =>
        cases h
        refine ⟨by simp, ?_⟩
        rw [ihFirst ht]
        simp

/-! ## The grammar -/

theorem parse?_text (t : Ty) : parse? t.text = some t := by
  have h : parseFirst (t.text.length + 1) (t.text.toList ++ []) = some (t, []) :=
    parseFirst_text t (by omega) (by simp [NoArrow])
  rw [List.append_nil] at h
  rw [parse?, h]

theorem eq_text_of_parse? {s : String} (h : parse? s = some t) : s = t.text := by
  unfold parse? at h
  split at h
  case h_1 hfirst =>
    cases h
    have hl := (eq_text_of_parse _).1 hfirst
    rw [List.append_nil] at hl
    exact String.toList_inj.1 hl
  case h_2 => cases h

theorem text_inj {t u : Ty} : t.text = u.text ↔ t = u := by
  refine ⟨fun h => ?_, fun h => h ▸ rfl⟩
  have hparse : some t = some u := by rw [← parse?_text t, h, parse?_text u]
  exact Option.some.inj hparse

/-- The texts of the grammar: the unit type, the integers, or texts of the grammar in
    parentheses with a comma and a blank between them, an arrow, and a text of the
    grammar. -/
inductive Written : String → Prop
  | unit : Written "()"
  | int : Written "int"
  | fn {domains : List String} {range : String} (hdomains : ∀ d ∈ domains, Written d)
    (hrange : Written range) : Written ("(" ++ ", ".intercalate domains ++ ") -> " ++ range)

theorem written_text (t : Ty) : Written t.text := by
  induction t with
  | unit =>
    rw [text_unit]
    exact .unit
  | int =>
    rw [text_int]
    exact .int
  | fn domains range ihd ihr =>
    rw [text_fn]
    refine .fn (fun s hs => ?_) ihr
    obtain ⟨d, hd, rfl⟩ := List.mem_map.1 hs
    exact ihd d hd

theorem Written.exists_text {s : String} (h : Written s) : ∃ t : Ty, t.text = s := by
  induction h with
  | unit => exact ⟨.unit, text_unit⟩
  | int => exact ⟨.int, text_int⟩
  | @fn domains range _ _ ihd ihr =>
    obtain ⟨range, rfl⟩ := ihr
    obtain ⟨domains, rfl⟩ : domains ∈ Set.range (List.map text) := by
      rw [Set.range_list_map]
      exact ihd
    exact ⟨.fn domains range, text_fn domains range⟩

/-- **The written form of a type is unambiguous.** A type is read from a text iff the
    text is its written form, the texts from which a type is read are those of the
    grammar, and different types are written differently. -/
theorem written_unambiguously :
    (∀ s t, parse? s = some t ↔ s = t.text) ∧ (∀ s, (∃ t, parse? s = some t) ↔ Written s) ∧
      ∀ t u : Ty, t.text = u.text ↔ t = u := by
  refine ⟨fun s t => ⟨eq_text_of_parse?, fun h => h ▸ parse?_text t⟩, fun s => ⟨?_, fun h => ?_⟩,
    fun t u => text_inj⟩
  · rintro ⟨t, h⟩
    rw [eq_text_of_parse? h]
    exact written_text t
  · obtain ⟨t, rfl⟩ := h.exists_text
    exact ⟨t, parse?_text t⟩

end NaryLambda.Ty

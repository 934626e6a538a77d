import NaryLambda.Term.Substitution

/-!
# Renaming, one name at a time

The captured parameters of a lambda are renamed in a loop. One turn of the loop
takes one captured name, gives it a name that is new to the parameters, the body
and the captured names, and substitutes it in the body. What one turn keeps, the
whole loop keeps, and that is how every fact about the loop is proved here.

Results:

* `Term.sizeInduction`: induction on terms in which the hypothesis for a lambda
  covers all bodies of the same size, since a renamed body is no subterm.
* `Term.renameCaptured_induction`: what a turn of the loop keeps, the loop keeps.
* `Term.renameCaptured_of_notMem`: with no parameter captured, the loop does nothing.
* `Term.mem_renameCaptured`, `Term.notMem_renameCaptured`: after the loop every fresh
  name is a parameter, and no parameter is captured.
-/

namespace NaryLambda

/-! ## The parameters after one renaming -/

theorem Param.name_rename_single (x y : Name) (p : Param) :
    (p.rename [(x, y)]).name = if p.name = x then y else p.name := by
  by_cases h : p.name = x <;> simp [Param.rename, h, beq_iff_eq]

theorem mem_paramNames_rename {params : List Param} {x y z : Name} :
    z ∈ paramNames (params.map (·.rename [(x, y)])) ↔
      (z ∈ paramNames params ∧ z ≠ x) ∨ (z = y ∧ x ∈ paramNames params) := by
  induction params with
  | nil => simp
  | cons p params ih =>
    rw [List.map_cons, paramNames_cons, List.mem_cons, ih, Param.name_rename_single,
      paramNames_cons, List.mem_cons, List.mem_cons]
    split <;> grind

@[simp] theorem map_type_rename (params : List Param) (names : Renaming) :
    (params.map (·.rename names)).map (·.type) = params.map (·.type) := by
  simp [Function.comp_def]

/-- Renaming all names at once is renaming the first one and then the others, if
    the first new name is none of the other old ones. -/
theorem Param.rename_cons {r : Name × Name} {names : Renaming} (h : ∀ s ∈ names, s.1 ≠ r.2)
    (p : Param) : p.rename (r :: names) = (p.rename [r]).rename names := by
  obtain ⟨x, y⟩ := r
  by_cases hp : p.name = x
  · have hy : names.lookup y = none := by
      rw [List.lookup_eq_none_iff]
      intro s hs
      simpa using (h s hs).symm
    simp [Param.rename, hp, hy]
  · have hp' : (p.name == x) = false := by simpa using hp
    simp [Param.rename, List.lookup_cons, hp']

/-! ## The names chosen -/

theorem mem_of_lookup_eq_some {names : Renaming} {x y : Name} (h : names.lookup x = some y) :
    (x, y) ∈ names := by
  obtain ⟨before, after, hnames, -⟩ := List.lookup_eq_some_iff.1 h
  rw [hnames]
  exact List.mem_append_right _ (.head _)

/-- If every old name stands in one entry only, look-up finds every entry. -/
theorem lookup_eq_some_of_mem {names : Renaming} {r : Name × Name}
    (hnames : names.Pairwise fun r s => r.1 ≠ s.1) (h : r ∈ names) :
    names.lookup r.1 = some r.2 := by
  obtain ⟨before, after, rfl⟩ := List.append_of_mem h
  refine List.lookup_eq_some_iff.2 ⟨before, after, rfl, fun s hs => ?_⟩
  have hne : s.1 ≠ r.1 := (List.pairwise_append.1 hnames).2.2 s hs r (.head _)
  simpa using hne.symm

theorem nodup_eraseDups (xs : List Name) : xs.eraseDups.Nodup := by
  induction h : xs.length using Nat.strongRecOn generalizing xs with
  | _ n ih =>
    cases xs with
    | nil => simp
    | cons x xs =>
      rw [List.eraseDups_cons, List.nodup_cons, List.mem_eraseDups]
      refine ⟨by simp, ih _ ?_ _ rfl⟩
      have := List.length_filter_le (fun y => !y == x) xs
      simp only [List.length_cons] at h
      omega

theorem pairwise_freshNames (avoid : NameSet) (xs : List Name) :
    (freshNames avoid xs).Pairwise fun r s => r.2 ≠ s.2 := by
  induction xs generalizing avoid with
  | nil => exact .nil
  | cons x xs ih =>
    refine List.pairwise_cons.2 ⟨fun s hs => ?_, ih _⟩
    have := freshNames_notMem hs
    grind

variable {L : Type}

/-- The first name of the pair is a captured parameter of the lambda, and the
    second one is new: no parameter, not captured and not free in the body. -/
structure Refreshes (captured : NameSet) (params : List Param) (body : Term L)
    (r : Name × Name) : Prop where
  old_mem : r.1 ∈ paramNames params
  old_captured : r.1 ∈ captured
  new_notMem : r.2 ∉ paramNames params
  new_notCaptured : r.2 ∉ captured
  new_notFree : body.occursFree r.2 = false

theorem refreshes_freshRenaming {params : List Param} {body : Term L} {captured : NameSet}
    {r : Name × Name} (h : r ∈ freshRenaming params body captured) :
    Refreshes captured params body r := by
  have hold : r.1 ∈ capturedNames params captured := by
    rw [← map_fst_freshNames _ (capturedNames params captured)]
    exact List.mem_map_of_mem h
  have hnew := freshNames_notMem h
  simp only [Std.ExtTreeSet.mem_union_iff, Std.ExtTreeSet.mem_ofList, List.contains_eq_mem,
    decide_eq_true_eq, not_or, Term.mem_freeVars, Bool.not_eq_true] at hnew
  exact {
    old_mem := (mem_capturedNames.1 hold).1
    old_captured := (mem_capturedNames.1 hold).2
    new_notMem := hnew.2
    new_notCaptured := hnew.1.2
    new_notFree := hnew.1.1 }

/-- Neither an old name nor a new one stands twice in the renaming of a lambda. -/
theorem pairwise_freshRenaming (params : List Param) (body : Term L) (captured : NameSet) :
    (freshRenaming params body captured).Pairwise fun r s => r.1 ≠ s.1 ∧ r.2 ≠ s.2 := by
  have hold : (freshRenaming params body captured).Pairwise fun r s => r.1 ≠ s.1 := by
    rw [← List.pairwise_map (f := Prod.fst), freshRenaming, map_fst_freshNames]
    exact nodup_eraseDups _
  exact hold.and (pairwise_freshNames _ _)

namespace Term

/-! ## Two induction principles -/

/-- Induction on terms, where a lambda's hypothesis holds for every body as large
    as its own. -/
theorem sizeInduction {motive : Term L → Prop} (unit : motive .unit)
    (lit : ∀ n, motive (.lit n)) (var : ∀ x, motive (.var x))
    (lam : ∀ params body, (∀ b : Term L, b.size = body.size → motive b) →
      motive (.lam params body))
    (app : ∀ callee args, motive callee → (∀ a ∈ args, motive a) → motive (.app callee args))
    (binop : ∀ op lhs rhs, motive lhs → motive rhs → motive (.binop op lhs rhs)) :
    ∀ e, motive e
  | .unit => unit
  | .lit n => lit n
  | .var x => var x
  | .lam params body => lam params body fun b _ => sizeInduction unit lit var lam app binop b
  | .app callee args =>
    app callee args (sizeInduction unit lit var lam app binop callee)
      fun a _ => sizeInduction unit lit var lam app binop a
  | .binop op lhs rhs =>
    binop op lhs rhs (sizeInduction unit lit var lam app binop lhs)
      (sizeInduction unit lit var lam app binop rhs)
termination_by e => e.size
decreasing_by
  all_goals simp only [size]
  all_goals try omega
  have := size_le_sum_of_mem ‹a ∈ args›
  omega

/-- What one turn of the renaming loop keeps, the whole loop keeps. That a turn
    brings no name into the body but the new one is asked for bodies of this size
    only, so that the principle can serve in proving it. -/
theorem renameCaptured_induction {params : List Param} {body : Term L} {captured : NameSet}
    {motive : List Param → Term L → Prop}
    (free : ∀ (b : Term L) (x y z : Name), b.size = body.size →
      (b.substitute x (.var y)).occursFree z = true → b.occursFree z = true ∨ z = y)
    (start : motive params body)
    (turn : ∀ (ps : List Param) (b : Term L) (r : Name × Name), b.size = body.size →
      Refreshes captured ps b r → motive ps b →
      motive (ps.map (·.rename [r])) (b.substitute r.1 (.var r.2))) :
    motive (renameCaptured params body captured).1 (renameCaptured params body captured).2 := by
  have loop : ∀ (names : Renaming) (ps : List Param) (b : Term L), b.size = body.size →
      (∀ r ∈ names, Refreshes captured ps b r) →
      names.Pairwise (fun r s => r.1 ≠ s.1 ∧ r.2 ≠ s.2) → motive ps b →
      motive (ps.map (·.rename names)) (b.renameVars names) := by
    intro names
    induction names with
    | nil =>
      intro ps b _ _ _ h
      simpa [renameVars] using h
    | cons r names ih =>
      intro ps b hsize hfresh hpair h
      obtain ⟨hr, hnames⟩ := List.forall_mem_cons.1 hfresh
      obtain ⟨hne, hpair⟩ := List.pairwise_cons.1 hpair
      have hps : ps.map (·.rename (r :: names)) = (ps.map (·.rename [r])).map (·.rename names) := by
        rw [List.map_map]
        refine List.map_congr_left fun p _ => Param.rename_cons (fun s hs => ?_) p
        exact fun he => hr.new_notMem (he ▸ (hnames s hs).old_mem)
      rw [hps]
      refine ih _ (b.substitute r.1 (.var r.2)) ?_ (fun s hs => ?_) hpair (turn ps b r hsize hr h)
      · rw [size_substitute _ _ (by simp [size]), hsize]
      · -- the turn leaves the other pairs of the renaming fresh
        have hs' := hnames s hs
        have := hne s hs
        refine ⟨?_, hs'.old_captured, ?_, hs'.new_notCaptured, ?_⟩
        · exact mem_paramNames_rename.2 (.inl ⟨hs'.old_mem, this.1.symm⟩)
        · rintro hmem
          rcases mem_paramNames_rename.1 hmem with ⟨hmem, -⟩ | ⟨heq, -⟩
          · exact hs'.new_notMem hmem
          · exact this.2 heq.symm
        · rw [Bool.eq_false_iff]
          intro hfree
          rcases free b _ _ _ hsize hfree with hfree | heq
          · rw [hs'.new_notFree] at hfree
            exact Bool.false_ne_true hfree
          · exact this.2 heq.symm
  exact loop _ params body rfl (fun r => refreshes_freshRenaming)
    (pairwise_freshRenaming params body captured) start

/-! ## The lambda after the loop -/

@[simp] theorem map_type_renameCaptured (params : List Param) (body : Term L)
    (captured : NameSet) :
    (renameCaptured params body captured).1.map (·.type) = params.map (·.type) :=
  map_type_rename _ _

/-- With no parameter captured, nothing is renamed. -/
theorem renameCaptured_of_notMem {params : List Param} {captured : NameSet}
    (h : ∀ x ∈ paramNames params, x ∉ captured) (body : Term L) :
    renameCaptured params body captured = (params, body) := by
  have hnames : capturedNames params captured = [] := by
    refine List.eq_nil_iff_forall_not_mem.2 fun x hx => ?_
    obtain ⟨hparam, hcaptured⟩ := mem_capturedNames.1 hx
    exact h x hparam hcaptured
  simp [renameCaptured, freshRenaming, hnames, freshNames, renameVars]

/-- After the loop every fresh name is a parameter. -/
theorem mem_renameCaptured {params : List Param} {body : Term L} {captured : NameSet}
    {r : Name × Name} (h : r ∈ freshRenaming params body captured) :
    r.2 ∈ paramNames (renameCaptured params body captured).1 := by
  obtain ⟨p, hp, hname⟩ := List.mem_map.1 (refreshes_freshRenaming h).old_mem
  have hlookup : (freshRenaming params body captured).lookup p.name = some r.2 := by
    rw [hname]
    exact lookup_eq_some_of_mem ((pairwise_freshRenaming params body captured).imp (·.1)) h
  refine List.mem_map.2 ⟨_, List.mem_map_of_mem hp, ?_⟩
  rw [Param.rename, hlookup, Option.getD_some]

/-- After the loop no parameter is captured. -/
theorem notMem_renameCaptured (params : List Param) (body : Term L) {captured : NameSet}
    {x : Name} (h : x ∈ captured) :
    x ∉ paramNames (renameCaptured params body captured).1 := by
  intro hx
  obtain ⟨q, hq, rfl⟩ := List.mem_map.1 hx
  obtain ⟨p, hp, rfl⟩ := List.mem_map.1 hq
  cases hl : (freshRenaming params body captured).lookup p.name with
  | none =>
    -- a captured name has an entry in the renaming
    have hname : (p.rename (freshRenaming params body captured)).name = p.name := by
      simp [Param.rename, hl]
    have hmem : p.name ∈ (freshRenaming params body captured).map Prod.fst := by
      rw [freshRenaming, map_fst_freshNames, mem_capturedNames]
      exact ⟨List.mem_map_of_mem hp, hname ▸ h⟩
    obtain ⟨r, hr, he⟩ := List.mem_map.1 hmem
    have := List.lookup_eq_none_iff.1 hl r hr
    simp [he] at this
  | some y =>
    have hname : (p.rename (freshRenaming params body captured)).name = y := by
      simp [Param.rename, hl]
    exact (refreshes_freshRenaming (mem_of_lookup_eq_some hl)).new_notCaptured (hname ▸ h)

end Term

end NaryLambda

import Mathlib.Order.Bounds.Basic
import NaryLambda.Proofs.Substitution.InPlace
import NaryLambda.Proofs.Substitution.Nameless

/-!
# The renaming of captured parameters

Renaming the captured parameters of a lambda gives a lambda that differs from it in names
of parameters only, and changes no more than it has to: parameters that are not captured
keep their names, two parameters share a name afterwards iff they did before, and each
new name has the fewest primes that it can have when the names are chosen from the first
parameter to the last.

Results:

* `freshNames_append`: the names chosen for a list of names in two parts.
* `exists_lookup_freshRenaming`: the new name of a captured parameter, by the names that
  it has to avoid.
* `Term.renameCaptured_least`: the renaming is correct and as small as possible, and both
  its loops end.
-/

namespace NaryLambda

variable {L : Type}

/-! ## What a renaming should be -/

/-- The names that a new name for the parameter at position `i` has to avoid: the captured
    names, the free variables of the body, the names of all parameters, and the new names
    of captured parameters before it. -/
def namesToAvoid (captured : NameSet) (params : List Param) (body : Term L)
    (params' : List Param) (i : Nat) : Set Name :=
  {y | y ∈ captured ∨ y ∈ body.freeVars ∨ y ∈ paramNames params ∨
    ∃ j < i, ∃ p : Param, params[j]? = some p ∧ p.name ∈ captured ∧
      (paramNames params')[j]? = some y}

/-- The second lambda is the first one with its captured parameters renamed, correctly and
    with as few changes and as few primes as possible. A name is chosen where it stands for
    the first time among the parameters. -/
structure LeastRenaming (captured : NameSet) (params : List Param) (body : Term L)
    (params' : List Param) (body' : Term L) : Prop where
  types : params'.map (·.type) = params.map (·.type)
  kept : ∀ (i : Nat) (p : Param), params[i]? = some p → p.name ∉ captured → params'[i]? = some p
  avoids : ∀ x ∈ paramNames params', x ∉ captured
  sharing : ∀ i j : Nat, (paramNames params')[i]? = (paramNames params')[j]? ↔
    (paramNames params)[i]? = (paramNames params)[j]?
  least : ∀ (i : Nat) (p : Param), params[i]? = some p → p.name ∈ captured →
    ∃ n, params'[i]? = some { p with name := p.name.primes n } ∧
      IsLeast {n | 1 ≤ n ∧ p.name.primes n ∉
        namesToAvoid captured params body params' ((paramNames params).idxOf p.name)} n
  alphaEquiv : (Term.lam params' body').AlphaEquiv (.lam params body)

/-! ## The names chosen -/

/-- The names chosen for a list in two parts: for the second part those chosen for the
    first one are avoided as well. -/
theorem freshNames_append (avoid : NameSet) (xs ys : List Name) :
    ∃ avoid', (∀ y, y ∈ avoid' ↔ y ∈ avoid ∨ ∃ r ∈ freshNames avoid xs, r.2 = y) ∧
      freshNames avoid (xs ++ ys) = freshNames avoid xs ++ freshNames avoid' ys := by
  induction xs generalizing avoid with
  | nil => exact ⟨avoid, by simp [freshNames], rfl⟩
  | cons x xs ih =>
    obtain ⟨avoid', hmem, heq⟩ := ih (avoid.insert (freshen avoid x.primed))
    refine ⟨avoid', fun y => ?_, ?_⟩
    · rw [hmem, freshNames]
      simp only [Std.ExtTreeSet.mem_insert, Std.LawfulEqCmp.compare_eq_iff_eq, List.mem_cons,
        exists_eq_or_imp]
      tauto
    · rw [List.cons_append, freshNames, freshNames, heq, List.cons_append]

/-- The captured names up to a parameter that is the first one of its captured name, and
    from it on. -/
theorem capturedNames_append_cons {captured : NameSet} {before : List Param} {p : Param}
    (hp : p.name ∈ captured) (hfirst : p.name ∉ paramNames before) (after : List Param) :
    ∃ rest, capturedNames (before ++ p :: after) captured =
      capturedNames before captured ++ p.name :: rest := by
  have hnew : ((paramNames before).filter (· ∈ captured)).contains p.name = false := by
    simp [hfirst]
  have hnames : paramNames (before ++ p :: after) =
      paramNames before ++ p.name :: paramNames after := List.map_append
  rw [capturedNames, hnames, List.filter_append, List.filter_cons_of_pos (by simpa using hp),
    List.eraseDups_append, List.cons_removeAll, if_pos hnew, List.eraseDups_cons]
  exact ⟨_, rfl⟩

/-- Every captured parameter has an entry in the renaming. -/
theorem exists_lookup_of_captured {captured : NameSet} {params : List Param} {p : Param}
    (hp : p ∈ params) (hc : p.name ∈ captured) (body : Term L) :
    ∃ y, (freshRenaming params body captured).lookup p.name = some y := by
  have hmem : p.name ∈ (freshRenaming params body captured).map Prod.fst := by
    rw [freshRenaming, map_fst_freshNames, mem_capturedNames]
    exact ⟨List.mem_map_of_mem hp, hc⟩
  obtain ⟨r, hr, hname⟩ := List.mem_map.1 hmem
  have hpair := (pairwise_freshRenaming params body captured).imp (·.1)
  exact ⟨r.2, hname ▸ lookup_eq_some_of_mem hpair hr⟩

/-- The new names chosen for the captured names of some parameters are those that these
    parameters get. -/
theorem exists_chosen_iff {captured : NameSet} {params : List Param} {initial names : Renaming}
    {y : Name} (hnames : names.Pairwise fun r s => r.1 ≠ s.1) (hsub : initial ⊆ names)
    (hold : initial.map Prod.fst = capturedNames params captured) :
    (∃ r ∈ initial, r.2 = y) ↔
      ∃ p ∈ params, p.name ∈ captured ∧ names.lookup p.name = some y := by
  have hlookup : ∀ r ∈ initial, names.lookup r.1 = some r.2 := fun r hr =>
    lookup_eq_some_of_mem hnames (hsub hr)
  constructor
  · rintro ⟨r, hr, rfl⟩
    obtain ⟨hparam, hc⟩ := mem_capturedNames.1 (hold ▸ List.mem_map_of_mem hr)
    obtain ⟨p, hp, hname⟩ := List.mem_map.1 hparam
    exact ⟨p, hp, hname ▸ hc, hname ▸ hlookup r hr⟩
  · rintro ⟨p, hp, hc, hy⟩
    have hmem : p.name ∈ initial.map Prod.fst := by
      rw [hold, mem_capturedNames]
      exact ⟨List.mem_map_of_mem hp, hc⟩
    obtain ⟨r, hr, hname⟩ := List.mem_map.1 hmem
    have hr' := hlookup r hr
    rw [hname, hy] at hr'
    exact ⟨r, hr, (Option.some.inj hr').symm⟩

/-- The new name of a captured parameter that is the first one of its name. The names to
    avoid are known where the search for it begins: they include the new names of the
    captured parameters before it, and of no others. -/
theorem exists_lookup_freshRenaming {captured : NameSet} {before : List Param} {p : Param}
    (hp : p.name ∈ captured) (hfirst : p.name ∉ paramNames before) (after : List Param)
    (body : Term L) :
    let names := freshRenaming (before ++ p :: after) body captured
    ∃ avoid, names.lookup p.name = some (freshen avoid p.name.primed) ∧
      ∀ y, y ∈ avoid ↔ y ∈ captured ∨ y ∈ body.freeVars ∨ y ∈ paramNames (before ++ p :: after) ∨
        ∃ q ∈ before, q.name ∈ captured ∧ names.lookup q.name = some y := by
  intro names
  have hpair : names.Pairwise fun r s => r.1 ≠ s.1 :=
    (pairwise_freshRenaming (before ++ p :: after) body captured).imp (·.1)
  obtain ⟨rest, hrest⟩ := capturedNames_append_cons hp hfirst after
  obtain ⟨avoid, hmem, happend⟩ := freshNames_append
    (body.freeVars ∪ captured ∪ .ofList (paramNames (before ++ p :: after)))
    (capturedNames before captured) (p.name :: rest)
  rw [← hrest, freshNames] at happend
  change names = _ at happend
  refine ⟨avoid, ?_, fun y => ?_⟩
  · refine lookup_eq_some_of_mem (r := (p.name, freshen avoid p.name.primed)) hpair ?_
    rw [happend]
    exact List.mem_append_right _ (.head _)
  · rw [hmem, exists_chosen_iff hpair (happend ▸ List.subset_append_left _ _)
      (map_fst_freshNames _ _)]
    simp only [Std.ExtTreeSet.mem_union_iff, Std.ExtTreeSet.mem_ofList, List.contains_iff_mem]
    tauto

/-- A captured parameter gets its new name, and the others keep theirs. -/
theorem Param.rename_of_lookup {names : Renaming} {p : Param} {y : Name}
    (h : names.lookup p.name = some y) : p.rename names = { p with name := y } := by
  rw [Param.rename, h, Option.getD_some]

theorem Param.rename_of_notCaptured {captured : NameSet} {params : List Param} {body : Term L}
    {p : Param} (h : p.name ∉ captured) : p.rename (freshRenaming params body captured) = p := by
  refine Param.rename_of_notMem ?_
  rw [freshRenaming, map_fst_freshNames, mem_capturedNames]
  exact fun hc => h hc.2

/-- The name of a parameter after the renaming is its own, or the new one of its entry. -/
theorem name_rename_cases {captured : NameSet} {params : List Param} {p : Param} (hp : p ∈ params)
    (body : Term L) :
    (p.rename (freshRenaming params body captured)).name = p.name ∨
      (p.name, (p.rename (freshRenaming params body captured)).name) ∈
        freshRenaming params body captured := by
  by_cases hc : p.name ∈ captured
  · obtain ⟨y, hy⟩ := exists_lookup_of_captured hp hc body
    rw [Param.rename_of_lookup hy]
    exact .inr (mem_of_lookup_eq_some hy)
  · rw [Param.rename_of_notCaptured hc]
    exact .inl rfl

/-- Parameters share a name after the renaming iff they do before it. -/
theorem name_rename_inj {captured : NameSet} {params : List Param} {body : Term L} {p q : Param}
    (hp : p ∈ params) (hq : q ∈ params) :
    (p.rename (freshRenaming params body captured)).name =
      (q.rename (freshRenaming params body captured)).name ↔ p.name = q.name := by
  constructor
  · intro h
    rcases name_rename_cases hp body with hp' | hp' <;>
      rcases name_rename_cases hq body with hq' | hq'
    · rw [← hp', h, hq']
    · -- a new name is no parameter's
      rw [← h, hp'] at hq'
      exact absurd (List.mem_map_of_mem hp) (refreshes_freshRenaming hq').new_notMem
    · rw [h, hq'] at hp'
      exact absurd (List.mem_map_of_mem hq) (refreshes_freshRenaming hp').new_notMem
    · -- two entries with one new name are the same
      have hnodup : ((freshRenaming params body captured).map Prod.snd).Nodup :=
        List.pairwise_map.2 ((pairwise_freshRenaming params body captured).imp (·.2))
      exact congrArg Prod.fst (List.inj_on_of_nodup_map hnodup hp' hq' h)
  · intro h
    rw [Param.rename, Param.rename, h]

/-! ## The parameters after the renaming -/

/-- The first parameter of a name, and where it stands. -/
theorem exists_first_param {params : List Param} {x : Name} (h : x ∈ paramNames params) :
    ∃ before p after, params = before ++ p :: after ∧ p.name = x ∧ x ∉ paramNames before ∧
      (paramNames params).idxOf x = before.length := by
  obtain ⟨names, rest, heq, hfirst⟩ := List.eq_append_cons_of_mem h
  obtain ⟨before, tail, rfl, rfl, htail⟩ := List.map_eq_append_iff.1 heq
  obtain ⟨p, after, rfl, hp, -⟩ := List.map_eq_cons_iff.1 htail
  refine ⟨before, p, after, rfl, hp, hfirst, ?_⟩
  rw [heq, List.idxOf_append_of_notMem hfirst, List.idxOf_cons_self, List.length_map, Nat.add_zero]

namespace Term

theorem getElem?_renameCaptured (params : List Param) (body : Term L) (captured : NameSet)
    (i : Nat) : (renameCaptured params body captured).1[i]? =
      params[i]?.map (·.rename (freshRenaming params body captured)) :=
  List.getElem?_map

theorem getElem?_paramNames_renameCaptured (params : List Param) (body : Term L)
    (captured : NameSet) (i : Nat) :
    (paramNames (renameCaptured params body captured).1)[i]? =
      params[i]?.map fun p => (p.rename (freshRenaming params body captured)).name := by
  rw [paramNames, List.getElem?_map, getElem?_renameCaptured, Option.map_map]
  rfl

/-- What the fresh names before a position are. -/
theorem exists_chosen_before_iff {captured : NameSet} {before after : List Param}
    {body : Term L} {y : Name} :
    (∃ j < before.length, ∃ p : Param, (before ++ after)[j]? = some p ∧ p.name ∈ captured ∧
        (paramNames (renameCaptured (before ++ after) body captured).1)[j]? = some y) ↔
      ∃ p ∈ before, p.name ∈ captured ∧
        (freshRenaming (before ++ after) body captured).lookup p.name = some y := by
  have hname : ∀ p ∈ before ++ after, p.name ∈ captured →
      ((p.rename (freshRenaming (before ++ after) body captured)).name = y ↔
        (freshRenaming (before ++ after) body captured).lookup p.name = some y) := by
    intro p hp hc
    obtain ⟨z, hz⟩ := exists_lookup_of_captured hp hc body
    rw [Param.rename_of_lookup hz, hz, Option.some.injEq]
  constructor
  · rintro ⟨j, hj, p, hp, hc, hy⟩
    rw [getElem?_paramNames_renameCaptured, hp, Option.map_some, Option.some.injEq,
      hname p (List.mem_of_getElem? hp) hc] at hy
    rw [List.getElem?_append_left hj] at hp
    exact ⟨p, List.mem_of_getElem? hp, hc, hy⟩
  · rintro ⟨p, hp, hc, hy⟩
    obtain ⟨j, hj, hpj⟩ := List.mem_iff_getElem.1 hp
    have hpj' : (before ++ after)[j]? = some p := by
      rw [List.getElem?_append_left hj, List.getElem?_eq_getElem hj, hpj]
    refine ⟨j, hj, p, hpj', hc, ?_⟩
    rw [getElem?_paramNames_renameCaptured, hpj', Option.map_some, Option.some.injEq,
      hname p (List.mem_append_left _ hp) hc]
    exact hy

/-- The new name of a captured parameter has the fewest primes that avoid what it has to
    avoid, where its old name stands first. -/
theorem isLeast_primes_renameCaptured {captured : NameSet} {params : List Param} {body : Term L}
    {i : Nat} {p : Param} (hi : params[i]? = some p) (hc : p.name ∈ captured) :
    ∃ n, (renameCaptured params body captured).1[i]? = some { p with name := p.name.primes n } ∧
      IsLeast {n | 1 ≤ n ∧ p.name.primes n ∉ namesToAvoid captured params body
        (renameCaptured params body captured).1 ((paramNames params).idxOf p.name)} n := by
  obtain ⟨before, q, after, rfl, hq, hfirst, hindex⟩ :=
    exists_first_param (List.mem_map_of_mem (List.mem_of_getElem? hi))
  rw [← hq] at hc hfirst
  obtain ⟨avoid, hlookup, havoid⟩ := exists_lookup_freshRenaming hc hfirst after body
  have hset : ∀ y, y ∈ namesToAvoid captured (before ++ q :: after) body
      (renameCaptured (before ++ q :: after) body captured).1 before.length ↔ y ∈ avoid := by
    intro y
    rw [havoid, ← exists_chosen_before_iff]
    rfl
  obtain ⟨n, hn, hlt⟩ := freshen_eq_primes avoid q.name.primed
  have hnew := freshen_notMem avoid q.name.primed
  rw [hn] at hlookup hnew
  rw [hq] at hlookup hlt hnew
  refine ⟨n + 1, ?_, ⟨Nat.le_add_left _ _, ?_⟩, ?_⟩
  · rw [getElem?_renameCaptured, hi, Option.map_some, Param.rename_of_lookup hlookup]
    rfl
  · rw [hindex, hset]
    exact hnew
  · rintro m ⟨hm, hfree⟩
    rw [hindex, hset] at hfree
    -- with fewer primes the name would be one that the search passed over
    by_contra hless
    obtain ⟨m, rfl⟩ := Nat.exists_eq_add_of_le' hm
    exact hfree (hlt m (by omega))

/-- **The renaming of captured parameters is correct and minimal.** A parameter that is not
    captured stays, no parameter is captured afterwards, parameters share names as before,
    a new name has as few primes as can be, and the two lambdas are alpha-equivalent. The
    loop over the positions of the parameters comes to the same end, and the search for a
    fresh name takes at most one try more than there are names to avoid. -/
theorem renameCaptured_least (params : List Param) (body : Term L) (captured : NameSet) :
    LeastRenaming captured params body (renameCaptured params body captured).1
        (renameCaptured params body captured).2 ∧
      renameInPlace (fun e x v => some (e.substitute x v)) params body captured =
        some (renameCaptured params body captured) ∧
      ∀ avoid x, freshenWithin avoid (avoid.size + 1) x = some (freshen avoid x) := by
  refine ⟨?_, renameInPlace_eq captured fun _ _ _ _ => rfl, freshenWithin_eq_some⟩
  refine {
    types := map_type_renameCaptured params body captured
    kept := fun i p hi hc => ?_
    avoids := fun x hx hc => notMem_renameCaptured params body hc hx
    sharing := fun i j => ?_
    least := fun i p hi hc => isLeast_primes_renameCaptured hi hc
    alphaEquiv := namelessIn_renameCaptured params body captured [] }
  · rw [getElem?_renameCaptured, hi, Option.map_some, Param.rename_of_notCaptured hc]
  · rw [getElem?_paramNames_renameCaptured, getElem?_paramNames_renameCaptured, paramNames,
      List.getElem?_map, List.getElem?_map]
    cases hi : params[i]? with
    | none => cases params[j]? <;> simp
    | some p =>
      cases hj : params[j]? with
      | none => simp
      | some q =>
        simp only [Option.map_some, Option.some.injEq]
        exact name_rename_inj (List.mem_of_getElem? hi) (List.mem_of_getElem? hj)

/-- `y: int, y': int, y: ()`. -/
def repeatedParams : List Param := [⟨"y", .int⟩, ⟨Name.primed "y", .int⟩, ⟨"y", .unit⟩]

/-- `x(y, y')`. -/
def passNamed : Term Int64 := .app (.var "x") [.var "y", .var (Name.primed "y")]

/-- With `y` captured, the first and the last of `repeatedParams` both become `y''`, since
    `y'` is the name of the parameter between them, which stays. -/
theorem renameCaptured_least_repeatedParams :
    let captured : NameSet := .ofList ["y"]
    let params := (renameCaptured repeatedParams passNamed captured).1
    repeatedParams[2]? = some ⟨"y", .unit⟩ ∧ "y" ∈ captured ∧
      repeatedParams[1]? = some ⟨Name.primed "y", .int⟩ ∧ Name.primed "y" ∉ captured ∧
      params[1]? = some ⟨Name.primed "y", .int⟩ ∧
      params[2]? = some ⟨Name.primes "y" 2, .unit⟩ ∧
      IsLeast {n | 1 ≤ n ∧ Name.primes "y" n ∉
        namesToAvoid captured repeatedParams passNamed params 0} 2 := by
  intro captured params
  have hy : "y" ∈ captured := by decide +kernel
  have hprimed : Name.primed "y" ∉ captured := by decide +kernel
  have hlast : params[2]? = some ⟨Name.primes "y" 2, .unit⟩ := by decide +kernel
  have hrenaming := (renameCaptured_least repeatedParams passNamed captured).1
  obtain ⟨n, hn, hleast⟩ := hrenaming.least 2 ⟨"y", .unit⟩ rfl hy
  obtain rfl : n = 2 := by
    have hname := hn.symm.trans hlast
    rw [Option.some.injEq, Param.mk.injEq] at hname
    exact Name.primes_inj.1 hname.1
  exact ⟨rfl, hy, rfl, hprimed, hrenaming.kept 1 _ rfl hprimed, hlast, hleast⟩

end Term

end NaryLambda

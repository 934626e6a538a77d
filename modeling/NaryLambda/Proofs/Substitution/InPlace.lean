import Mathlib.Data.List.Nodup
import Mathlib.Data.List.Perm.Subperm
import NaryLambda.Proofs.Substitution.FreeVars
import NaryLambda.Term.InPlace

/-!
# Substitution in a loop

The loop over the positions of a lambda's parameters gives each captured parameter a
fresh name as it comes to it, and all later ones of that name with it. It renames as
`renameCaptured` does, which looks at the names first and changes the parameters and the
body afterwards. The invariant is on the parameters that are still ahead: the names which
the loop will give to them are those chosen for them alone, since a parameter that was
renamed together with an earlier one is no longer captured.

Results:

* `freshenWithin_eq_some`: how many tries the search for a fresh name takes.
* `Term.renameInPlace_eq`: the loop is `renameCaptured`.
* `Term.substituteWithin_eq`: recursion as deep as the size of the term is enough for
  substitution.
-/

namespace NaryLambda

variable {L : Type}

/-! ## The search for a fresh name -/

/-- The names that the search passes over are different members of the set to avoid. -/
theorem le_size_of_primes_mem {avoid : NameSet} {x : Name} {n : Nat}
    (h : ∀ m < n, x.primes m ∈ avoid) : n ≤ avoid.size := by
  have hnodup : ((List.range n).map x.primes).Nodup :=
    List.Nodup.map (fun _ _ => Name.primes_inj.1) List.nodup_range
  have hsub : (List.range n).map x.primes ⊆ avoid.toList := by
    intro y hy
    obtain ⟨m, hm, rfl⟩ := List.mem_map.1 hy
    exact Std.ExtTreeSet.mem_toList.2 (h m (List.mem_range.1 hm))
  have hle := (hnodup.subperm hsub).length_le
  rwa [List.length_map, List.length_range, Std.ExtTreeSet.length_toList] at hle

theorem freshenWithin_primes {avoid : NameSet} {x : Name} {n : Nat}
    (h : ∀ m < n, x.primes m ∈ avoid) (hn : x.primes n ∉ avoid) (more : Nat) :
    freshenWithin avoid (n + 1 + more) x = some (x.primes n) := by
  induction n generalizing x with
  | zero =>
    have hx : x ∉ avoid := hn
    rw [Nat.zero_add, Nat.add_comm, freshenWithin, if_neg hx]
    rfl
  | succ n ih =>
    have hx : x ∈ avoid := h 0 (by omega)
    rw [show n + 1 + 1 + more = n + 1 + more + 1 by omega, freshenWithin, if_pos hx]
    exact ih (fun m hm => h (m + 1) (by omega)) hn

/-- One more try than there are names to avoid is enough to find a fresh name. -/
theorem freshenWithin_eq_some (avoid : NameSet) (x : Name) :
    freshenWithin avoid (avoid.size + 1) x = some (freshen avoid x) := by
  obtain ⟨n, hn, hlt⟩ := freshen_eq_primes avoid x
  have hle := le_size_of_primes_mem hlt
  have hfound := freshenWithin_primes hlt (hn ▸ freshen_notMem avoid x) (avoid.size - n)
  rwa [show n + 1 + (avoid.size - n) = avoid.size + 1 by omega, ← hn] at hfound

/-! ## The parameters ahead of the loop -/

theorem Param.rename_of_notMem {names : Renaming} {p : Param} (h : p.name ∉ names.map Prod.fst) :
    p.rename names = p := by
  have hlookup : names.lookup p.name = none := by
    rw [List.lookup_eq_none_iff]
    intro r hr
    have hne : p.name ≠ r.1 := fun he => h (he ▸ List.mem_map_of_mem hr)
    simpa using hne
  rw [Param.rename, hlookup, Option.getD_none]

/-- Renaming a parameter and all after it is giving its new name to it and to those after
    it that have its name, and then renaming those after it. -/
theorem Param.map_rename_cons {names : Renaming} {p : Param} {y : Name}
    (hy : y ∉ names.map Prod.fst) (params : List Param) :
    (p :: params).map (·.rename ((p.name, y) :: names)) =
      p.rename [(p.name, y)] :: (params.map (·.rename [(p.name, y)])).map (·.rename names) := by
  have hne : ∀ r ∈ names, r.1 ≠ y := by
    rintro r hr rfl
    exact hy (List.mem_map_of_mem hr)
  have hhead : (p.rename [(p.name, y)]).rename names = p.rename [(p.name, y)] := by
    refine Param.rename_of_notMem ?_
    rwa [Param.name_rename_single, if_pos rfl]
  rw [List.map_cons, Param.rename_cons hne, hhead, List.map_map]
  exact congrArg _ (List.map_congr_left fun q _ => Param.rename_cons hne q)

/-- Once a captured name is replaced by one that is not captured, the parameters of that
    name are no longer captured. -/
theorem filter_captured_rename {captured : NameSet} {x y : Name} (hy : y ∉ captured)
    (params : List Param) :
    (paramNames (params.map (·.rename [(x, y)]))).filter (· ∈ captured) =
      ((paramNames params).filter (· ∈ captured)).filter fun z => !z == x := by
  induction params with
  | nil => rfl
  | cons p params ih =>
    rw [List.map_cons, paramNames_cons, paramNames_cons, Param.name_rename_single]
    by_cases hp : p.name = x
    · subst hp
      by_cases hc : p.name ∈ captured
      · simp [hy, hc, ih]
      · simp [hy, hc, ih]
    · by_cases hc : p.name ∈ captured
      · simp [hp, hc, ih]
      · simp [hp, hc, ih]

/-- The captured names from a captured parameter on: its own, and those that are left
    when it is renamed together with all others of its name. -/
theorem capturedNames_cons_of_mem {captured : NameSet} {p : Param} {y : Name}
    (hp : p.name ∈ captured) (hy : y ∉ captured) (params : List Param) :
    capturedNames (p :: params) captured =
      p.name :: capturedNames (params.map (·.rename [(p.name, y)])) captured := by
  rw [capturedNames, capturedNames, filter_captured_rename hy, paramNames_cons,
    List.filter_cons_of_pos (by simpa using hp), List.eraseDups_cons]

theorem capturedNames_cons_of_notMem {captured : NameSet} {p : Param} (hp : p.name ∉ captured)
    (params : List Param) :
    capturedNames (p :: params) captured = capturedNames params captured := by
  rw [capturedNames, capturedNames, paramNames_cons, List.filter_cons_of_neg (by simpa using hp)]

theorem Term.renameVars_cons (r : Name × Name) (names : Renaming) (e : Term L) :
    e.renameVars (r :: names) = (e.substitute r.1 (.var r.2)).renameVars names := rfl

/-! ## The loop -/

namespace RenamingState

open Term

variable {substitute : Term L → Name → Term L → Option (Term L)} {captured : NameSet}

theorem turn_of_mem {before after : List Param} {p : Param} {body renamed : Term L}
    {avoid : NameSet} (hp : p.name ∈ captured)
    (h : substitute body p.name (.var (freshen avoid p.name.primed)) = some renamed) :
    turn substitute captured ⟨before ++ p :: after, body, avoid⟩ before.length =
      some ⟨before ++ (p :: after).map (·.rename [(p.name, freshen avoid p.name.primed)]), renamed,
        avoid.insert (freshen avoid p.name.primed)⟩ := by
  simp [turn, hp, h]

theorem turn_of_notMem {before after : List Param} {p : Param} {body : Term L}
    {avoid : NameSet} (hp : p.name ∉ captured) :
    turn substitute captured ⟨before ++ p :: after, body, avoid⟩ before.length =
      some ⟨before ++ p :: after, body, avoid⟩ := by
  simp [turn, hp]

/-- From any position on, the loop renames the parameters ahead of it as the names chosen
    for these parameters say. -/
theorem exists_loop_eq (before after : List Param) {body : Term L} {avoid : NameSet}
    (h : ∀ b : Term L, b.size = body.size →
      ∀ x y, substitute b x (.var y) = some (b.substitute x (.var y)))
    (havoid : ∀ x ∈ captured, x ∈ avoid) :
    ∃ avoid', (List.range' before.length after.length).foldlM (turn substitute captured)
        ⟨before ++ after, body, avoid⟩ =
      some ⟨before ++ after.map (·.rename (freshNames avoid (capturedNames after captured))),
        body.renameVars (freshNames avoid (capturedNames after captured)), avoid'⟩ := by
  induction hlength : after.length generalizing before after body avoid with
  | zero =>
    obtain rfl : after = [] := List.length_eq_zero_iff.1 hlength
    exact ⟨avoid, rfl⟩
  | succ n ih =>
    obtain ⟨p, after, rfl⟩ := List.exists_cons_of_length_eq_add_one hlength
    have hn : after.length = n := by simpa using hlength
    rw [List.range'_succ, List.foldlM_cons]
    by_cases hp : p.name ∈ captured
    · -- the turn changes this parameter, the body and the parameters ahead
      rw [turn_of_mem hp (h body rfl _ _)]
      generalize hfresh : freshen avoid p.name.primed = fresh
      have hnew : fresh ∉ captured := fun hc => freshen_notMem avoid _ (hfresh ▸ havoid _ hc)
      rw [capturedNames_cons_of_mem hp hnew, freshNames, hfresh, renameVars_cons]
      generalize hahead : after.map (·.rename [(p.name, fresh)]) = ahead
      generalize hnames : freshNames (avoid.insert fresh) (capturedNames ahead captured) = names
      have hkeys : fresh ∉ names.map Prod.fst := by
        rw [← hnames, map_fst_freshNames, mem_capturedNames]
        exact fun hc => hnew hc.2
      have hsize : (body.substitute p.name (.var fresh)).size = body.size :=
        size_substitute body _ (by simp [size])
      have hlen : ahead.length = n := by rw [← hahead, List.length_map, hn]
      obtain ⟨avoid', hloop⟩ := ih (before ++ [p.rename [(p.name, fresh)]]) ahead
        (fun b hb => h b (hb.trans hsize))
        (fun x hx => Std.ExtTreeSet.mem_insert.2 (.inr (havoid x hx))) hlen
      refine ⟨avoid', ?_⟩
      rw [hnames, List.length_append, List.append_assoc, List.append_assoc] at hloop
      rw [Param.map_rename_cons hkeys, hahead, List.map_cons, hahead]
      exact hloop
    · rw [turn_of_notMem hp, capturedNames_cons_of_notMem hp]
      have hkeep : p.rename (freshNames avoid (capturedNames after captured)) = p := by
        refine Param.rename_of_notMem ?_
        rw [map_fst_freshNames, mem_capturedNames]
        exact fun h => hp h.2
      obtain ⟨avoid', hloop⟩ := ih (before ++ [p]) after h havoid hn
      refine ⟨avoid', ?_⟩
      rw [List.length_append, List.append_assoc, List.append_assoc] at hloop
      rw [List.map_cons, hkeep]
      exact hloop

end RenamingState

namespace Term

/-- The loop renames captured parameters as `renameCaptured` does, whatever substitution
    does to terms of other sizes than the body's. -/
theorem renameInPlace_eq {substitute : Term L → Name → Term L → Option (Term L)}
    {params : List Param} {body : Term L} (captured : NameSet)
    (h : ∀ b : Term L, b.size = body.size →
      ∀ x y, substitute b x (.var y) = some (b.substitute x (.var y))) :
    renameInPlace substitute params body captured = some (renameCaptured params body captured) := by
  rw [renameInPlace]
  split_ifs with hempty
  · rw [renameCaptured_of_notMem fun x _ hx => ?_]
    rw [Std.ExtTreeSet.isEmpty_iff.1 hempty] at hx
    exact Std.ExtTreeSet.not_mem_empty hx
  · have havoid : ∀ x ∈ captured,
        x ∈ body.freeVars ∪ captured ∪ .ofList (paramNames params) := by
      intro x hx
      simp [hx]
    obtain ⟨avoid', hloop⟩ := RenamingState.exists_loop_eq [] params h havoid
    rw [List.range_eq_range']
    simp only [List.length_nil, List.nil_append] at hloop
    simp only [hloop]
    rfl

theorem mapM_eq_some_map {α β : Type} {f : α → Option β} {g : α → β} {as : List α}
    (h : ∀ a ∈ as, f a = some (g a)) : as.mapM f = some (as.map g) := by
  induction as with
  | nil => rfl
  | cons a as ih =>
    rw [List.mapM_cons, h a (.head _), ih fun b hb => h b (.tail _ hb)]
    rfl

/-- The recursion of substitution is no deeper than the size of the term, and its result
    is `substitute`. -/
theorem substituteWithin_eq {depth : Nat} {e : Term L} (h : e.size ≤ depth) (x : Name)
    (v : Term L) : substituteWithin depth e x v = some (e.substitute x v) := by
  induction depth generalizing e x v with
  | zero =>
    have := e.size_pos
    omega
  | succ depth ih =>
    cases e with
    | unit | lit n => simp [substituteWithin]
    | var y =>
      rw [substituteWithin, substitute_var]
    | lam params body =>
      rw [size] at h
      have hrename : renameInPlace (substituteWithin depth) params body v.freeVars =
          some (renameCaptured params body v.freeVars) :=
        renameInPlace_eq _ fun b hb y z => ih (by omega) y (.var z)
      rw [substituteWithin, substitute_lam]
      split_ifs with hx
      · rfl
      · have hsize := size_renameCaptured params body v.freeVars
        rw [hrename]
        simp only [Option.bind_eq_bind, Option.bind_some]
        rw [ih (by omega)]
        rfl
    | app callee args =>
      rw [size] at h
      rw [substituteWithin, substitute_app, ih (by omega)]
      rw [mapM_eq_some_map fun a ha => ih (by have := size_le_sum_of_mem ha; omega) x v]
      rfl
    | binop op lhs rhs =>
      rw [size] at h
      rw [substituteWithin, substitute_binop, ih (by omega), ih (by omega)]
      rfl

end Term

end NaryLambda

import NaryLambda.Proofs.Text.Quoted
import NaryLambda.Failure
import Std.Data.String.ToInt

/-!
# Spelled-out terms can be told apart

Types, parameters and terms that are spelled out show where they end: the name of a
constructor comes first, names are quoted, numbers have a parenthesis after them, and
lists a bracket. All backticks in them are those of quoted names.

Results:

* `Ty.selfDelimiting_dump`, `Param.selfDelimiting_dump`, `Term.selfDelimiting_dump`:
  spelled-out types, parameters and terms show where they end.
* `Term.stretch_dump`: in a spelled-out term all backticks are quoted.
-/

namespace NaryLambda

open Text

/-! ## Types -/

namespace Ty

/-- The characters of a spelled-out type, form by form. -/
theorem toList_dump (t : Ty) : t.dump.toList =
    match t with
    | unit => "Unit".toList
    | int => "Int".toList
    | fn domains range => "Fun \x7b domains: [".toList ++
        ((", ".intercalate (domains.map dump)).toList ++
          ']' :: (", range: ".toList ++ (range.dump.toList ++ " \x7d".toList))) := by
  cases t with
  | unit | int => rw [dump]
  | fn domains range =>
    rw [dump]
    simp [-String.toList_intercalate]

@[simp] theorem toList_dump_unit : unit.dump.toList = "Unit".toList := toList_dump unit

@[simp] theorem toList_dump_int : int.dump.toList = "Int".toList := toList_dump int

@[simp] theorem toList_dump_fn (domains : List Ty) (range : Ty) :
    (fn domains range).dump.toList = "Fun \x7b domains: [".toList ++
      ((", ".intercalate (domains.map dump)).toList ++
        ']' :: (", range: ".toList ++ (range.dump.toList ++ " \x7d".toList))) :=
  toList_dump (fn domains range)

theorem dump_append_ne (t : Ty) (r s : List Char) : t.dump.toList ++ r ≠ ']' :: s := by
  cases t with
  | unit | int | fn => simp

/-- A spelled-out type shows where it ends. -/
theorem selfDelimiting_dump (t : Ty) : SelfDelimiting dump t := by
  induction t with
  | unit =>
    intro u r s h
    cases u with
    | unit => exact ⟨rfl, List.append_cancel_left h⟩
    | int | fn => simp at h
  | int =>
    intro u r s h
    cases u with
    | int => exact ⟨rfl, List.append_cancel_left h⟩
    | unit | fn => simp at h
  | fn domains range ihd ihr =>
    intro u r s h
    cases u with
    | unit | int => simp at h
    | fn domains' range' =>
      rw [toList_dump_fn, toList_dump_fn] at h
      simp only [List.append_assoc, List.cons_append] at h
      obtain ⟨rfl, hrange⟩ := intercalate_append_inj (by decide) ihd dump_append_ne
        (List.append_cancel_left h)
      obtain ⟨rfl, hend⟩ := ihr (List.append_cancel_left hrange)
      exact ⟨rfl, List.append_cancel_left hend⟩

/-- All characters of a spelled-out type stand for themselves in quoted text. -/
theorem isBare_of_mem_dump (t : Ty) : ∀ c ∈ t.dump.toList, IsBare c := by
  induction t with
  | unit =>
    rw [toList_dump_unit]
    exact isBare_of_all (by decide)
  | int =>
    rw [toList_dump_int]
    exact isBare_of_all (by decide)
  | fn domains range ihd ihr =>
    intro c h
    rw [toList_dump_fn] at h
    simp only [List.mem_append, List.mem_cons] at h
    rcases h with h | h | rfl | h | h | h
    · exact isBare_of_all (by decide) c h
    · exact isBare_of_mem_intercalate (List.forall_mem_map.2 ihd) h
    · decide
    · exact isBare_of_all (by decide) c h
    · exact ihr c h
    · exact isBare_of_all (by decide) c h

end Ty

/-! ## Parameters -/

namespace Param

theorem toList_dump (p : Param) : p.dump.toList =
    "(".toList ++ ((quote p.name).toList ++ (", ".toList ++ (p.type.dump.toList ++
      ")".toList))) := by
  rw [dump]
  simp

theorem dump_append_ne (p : Param) (r s : List Char) : p.dump.toList ++ r ≠ ']' :: s := by
  simp [toList_dump]

theorem selfDelimiting_dump (p : Param) : SelfDelimiting dump p := by
  intro q r s h
  rw [toList_dump, toList_dump] at h
  simp only [List.append_assoc] at h
  obtain ⟨hname, htype⟩ := selfDelimiting_quote p.name (List.append_cancel_left h)
  obtain ⟨htype, hend⟩ := p.type.selfDelimiting_dump (List.append_cancel_left htype)
  exact ⟨by rw [Param.mk.injEq]; exact ⟨hname, htype⟩, List.append_cancel_left hend⟩

theorem stretch_dump (p : Param) : Stretch true p.dump.toList := by
  rw [toList_dump]
  exact (Stretch.literal (by decide)).append ((Stretch.quote p.name).append
    ((Stretch.literal (by decide)).append
      ((Stretch.bare p.type.isBare_of_mem_dump).append (.literal (by decide)))))

end Param

/-! ## Literals -/

theorem toString_int64_inj {m n : Int64} (h : toString m = toString n) : m = n :=
  Int64.toInt_inj.1 (Int.repr_inj.1 h)

/-- A 64-bit integer is written with digits and a minus sign. -/
theorem isBare_of_mem_int64 {n : Int64} {c : Char} (h : c ∈ (toString n).toList) :
    IsBare c ∧ c ≠ ')' := by
  have hc : c = '-' ∨ c.isAlphanum = true := by
    change c ∈ n.toInt.repr.toList at h
    rw [Int.repr_eq_if] at h
    split at h
    · exact .inr (isAlphanum_of_mem_repr h)
    · rw [String.toList_append, List.mem_append] at h
      exact h.imp List.mem_singleton.1 isAlphanum_of_mem_repr
  rcases hc with rfl | hc
  · decide
  · refine ⟨isBare_of_isAlphanum hc, ?_⟩
    rintro rfl
    contradiction

namespace Term

variable (params : List Param) (e body callee lhs rhs : Term Int64) (args : List (Term Int64))

/-- The characters of a spelled-out term, form by form. -/
theorem toList_dump (e : Term Int64) : e.dump.toList =
    match e with
    | unit => "Unit".toList
    | lit n => "Int(".toList ++ ((toString n).toList ++ [')'])
    | var x => "Ident(".toList ++ ((quote x).toList ++ ")".toList)
    | lam params body => "Lambda \x7b params: [".toList ++
        ((", ".intercalate (params.map (·.dump))).toList ++
          ']' :: (", body: ".toList ++ (body.dump.toList ++ " \x7d".toList)))
    | app callee args => "App \x7b callee: ".toList ++ (callee.dump.toList ++
        (", args: [".toList ++ ((", ".intercalate (args.map dump)).toList ++
          ']' :: " \x7d".toList)))
    | binop op lhs rhs => "Binop \x7b op: ".toList ++ ((quote op).toList ++ (", lhs: ".toList ++
        (lhs.dump.toList ++ (", rhs: ".toList ++ (rhs.dump.toList ++ " \x7d".toList))))) := by
  cases e with
  | unit => rw [dump]
  | lit n | var x | binop op lhs rhs =>
    rw [dump]
    simp
  | lam params body | app callee args =>
    rw [dump]
    simp [-String.toList_intercalate]

@[simp] theorem toList_dump_unit : (unit : Term Int64).dump.toList = "Unit".toList :=
  toList_dump unit

@[simp] theorem toList_dump_lit (n : Int64) : (lit n).dump.toList =
    "Int(".toList ++ ((toString n).toList ++ [')']) :=
  toList_dump (lit n)

@[simp] theorem toList_dump_var (x : Name) : (var x : Term Int64).dump.toList =
    "Ident(".toList ++ ((quote x).toList ++ ")".toList) :=
  toList_dump (var x)

@[simp] theorem toList_dump_lam : (lam params body).dump.toList =
    "Lambda \x7b params: [".toList ++ ((", ".intercalate (params.map (·.dump))).toList ++
      ']' :: (", body: ".toList ++ (body.dump.toList ++ " \x7d".toList))) :=
  toList_dump (lam params body)

@[simp] theorem toList_dump_app : (app callee args).dump.toList =
    "App \x7b callee: ".toList ++ (callee.dump.toList ++ (", args: [".toList ++
      ((", ".intercalate (args.map dump)).toList ++ ']' :: " \x7d".toList))) :=
  toList_dump (app callee args)

@[simp] theorem toList_dump_binop (op : Name) : (binop op lhs rhs).dump.toList =
    "Binop \x7b op: ".toList ++ ((quote op).toList ++ (", lhs: ".toList ++
      (lhs.dump.toList ++ (", rhs: ".toList ++ (rhs.dump.toList ++ " \x7d".toList))))) :=
  toList_dump (binop op lhs rhs)

theorem dump_append_ne (r s : List Char) : e.dump.toList ++ r ≠ ']' :: s := by
  cases e <;> simp

/-- A spelled-out term shows where it ends. -/
theorem selfDelimiting_dump : SelfDelimiting dump e := by
  induction e with
  | unit =>
    intro u r s h
    cases u with
    | unit => exact ⟨rfl, List.append_cancel_left h⟩
    | _ => simp at h
  | lit n =>
    intro u r s h
    cases u with
    | lit m =>
      rw [toList_dump_lit, toList_dump_lit] at h
      simp only [List.append_assoc, List.cons_append, List.nil_append] at h
      obtain ⟨hn, -, rfl⟩ := first_unique (p := (· ≠ ')')) (fun _ hc => (isBare_of_mem_int64 hc).2)
        (by simp) (fun _ hc => (isBare_of_mem_int64 hc).2) (by simp) (List.append_cancel_left h)
      exact ⟨congrArg lit (toString_int64_inj (String.toList_inj.1 hn)), rfl⟩
    | _ => simp at h
  | var x =>
    intro u r s h
    cases u with
    | var y =>
      rw [toList_dump_var, toList_dump_var] at h
      simp only [List.append_assoc] at h
      obtain ⟨rfl, hend⟩ := selfDelimiting_quote x (List.append_cancel_left h)
      exact ⟨rfl, List.append_cancel_left hend⟩
    | _ => simp at h
  | lam params body ih =>
    intro u r s h
    cases u with
    | lam params' body' =>
      rw [toList_dump_lam, toList_dump_lam] at h
      simp only [List.append_assoc, List.cons_append] at h
      obtain ⟨rfl, hbody⟩ := intercalate_append_inj (by decide)
        (fun p _ => p.selfDelimiting_dump) Param.dump_append_ne (List.append_cancel_left h)
      obtain ⟨rfl, hend⟩ := ih (List.append_cancel_left hbody)
      exact ⟨rfl, List.append_cancel_left hend⟩
    | _ => simp at h
  | app callee args ihc iha =>
    intro u r s h
    cases u with
    | app callee' args' =>
      rw [toList_dump_app, toList_dump_app] at h
      simp only [List.append_assoc, List.cons_append] at h
      obtain ⟨rfl, hargs⟩ := ihc (List.append_cancel_left h)
      obtain ⟨rfl, hend⟩ := intercalate_append_inj (by decide) iha dump_append_ne
        (List.append_cancel_left hargs)
      exact ⟨rfl, List.append_cancel_left hend⟩
    | _ => simp at h
  | binop op lhs rhs ihl ihr =>
    intro u r s h
    cases u with
    | binop op' lhs' rhs' =>
      rw [toList_dump_binop, toList_dump_binop] at h
      simp only [List.append_assoc] at h
      obtain ⟨rfl, hlhs⟩ := selfDelimiting_quote op (List.append_cancel_left h)
      obtain ⟨rfl, hrhs⟩ := ihl (List.append_cancel_left hlhs)
      obtain ⟨rfl, hend⟩ := ihr (List.append_cancel_left hrhs)
      exact ⟨rfl, List.append_cancel_left hend⟩
    | _ => simp at h

/-- In a spelled-out term all backticks are quoted. -/
theorem stretch_dump : Stretch true e.dump.toList := by
  induction e with
  | unit =>
    rw [toList_dump_unit]
    exact .literal (by decide)
  | lit n =>
    rw [toList_dump_lit]
    exact (Stretch.literal (by decide)).append
      ((Stretch.bare fun c hc => (isBare_of_mem_int64 hc).1).append (.literal (by decide)))
  | var x =>
    rw [toList_dump_var]
    exact (Stretch.literal (by decide)).append ((Stretch.quote x).append (.literal (by decide)))
  | lam params body ih =>
    have hparams : Stretch true (", ".intercalate (params.map (·.dump))).toList :=
      .intercalate (List.forall_mem_map.2 fun p _ => p.stretch_dump)
    rw [toList_dump_lam, List.append_cons]
    exact (Stretch.literal (by decide)).append ((hparams.append (.literal (by decide))).append
      ((Stretch.literal (by decide)).append (ih.append (.literal (by decide)))))
  | app callee args ihc iha =>
    have hargs : Stretch true (", ".intercalate (args.map dump)).toList :=
      .intercalate (List.forall_mem_map.2 iha)
    rw [toList_dump_app]
    exact (Stretch.literal (by decide)).append (ihc.append ((Stretch.literal (by decide)).append
      (hargs.append (.literal (by decide)))))
  | binop op lhs rhs ihl ihr =>
    rw [toList_dump_binop]
    exact (Stretch.literal (by decide)).append ((Stretch.quote op).append
      ((Stretch.literal (by decide)).append (ihl.append
        ((Stretch.literal (by decide)).append (ihr.append (.literal (by decide)))))))

end Term

end NaryLambda

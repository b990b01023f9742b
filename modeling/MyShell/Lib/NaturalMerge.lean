/-
Natural merge sort. A pass cuts the list into its runs and merges them two by
two; passes are made until one puts out a single run. Each pass at least halves
the number of runs, which is why the passes end for any asymmetric `less`
(`sort_some`). Where `less` is a strict weak order, what they end with is the
stable sort (`sort_eq_mergeSort`).
-/
import Mathlib.Data.List.Chain
import Mathlib.Data.List.Perm.Basic

namespace NaturalMerge

variable {α : Type*} (less : α → α → Bool) {x y : α} {xs ys zs : List α}

/-- What stays before what. -/
def le (a b : α) : Bool := !less b a

/-- The rest of the run that starts at `x`, and what is after the run. -/
def runFrom (x : α) : List α → List α × List α
  | [] => ([], [])
  | y :: ys => if less y x then ([], y :: ys) else (y :: (runFrom y ys).1, (runFrom y ys).2)

theorem runFrom_append (x : α) (xs : List α) : (runFrom less x xs).1 ++ (runFrom less x xs).2 = xs := by
  induction xs generalizing x with
  | nil => rfl
  | cons y ys ih =>
    rw [runFrom]
    split
    · rfl
    · rw [List.cons_append, ih]

theorem length_runFrom_le (x : α) (xs : List α) : (runFrom less x xs).2.length ≤ xs.length := by
  have hlen := congrArg List.length (runFrom_append less x xs)
  rw [List.length_append] at hlen
  omega

/-- One pass, with the number of runs it puts out. -/
def pass : List α → Nat × List α
  | [] => (0, [])
  | x :: xs =>
    match _h : (runFrom less x xs).2 with
    | [] => (1, x :: xs)
    | y :: ys =>
      let later := pass (runFrom less y ys).2
      (later.1 + 1, (x :: (runFrom less x xs).1).merge (y :: (runFrom less y ys).1)
        (le less) ++ later.2)
termination_by xs => xs.length
decreasing_by
  have hle := length_runFrom_le less x xs
  have hle' := length_runFrom_le less y ys
  rw [_h, List.length_cons] at hle
  rw [List.length_cons]
  omega

/-- Passes until one puts out a single run. -/
def sort : Nat → List α → Option (List α)
  | 0, _ => none
  | fuel + 1, xs => if (pass less xs).1 > 1 then sort fuel (pass less xs).2 else some (pass less xs).2

/-! ## Runs -/

/-- Every element stays after the one before it. -/
abbrev Run (xs : List α) : Prop := xs.IsChain fun a b => less b a = false

/-- How often an element is less than the one before it. -/
def descents : List α → Nat
  | [] => 0
  | [_] => 0
  | x :: y :: ys => (if less y x then 1 else 0) + descents (y :: ys)

/-- The number of runs. -/
def runs (xs : List α) : Nat := if xs = [] then 0 else descents less xs + 1

variable {less}

theorem descents_eq_zero : descents less xs = 0 ↔ Run less xs := by
  induction xs with
  | nil => exact ⟨fun _ => .nil, fun _ => rfl⟩
  | cons x xs ih =>
    cases xs with
    | nil => exact ⟨fun _ => .singleton x, fun _ => rfl⟩
    | cons y ys =>
      rw [Run, List.isChain_cons_cons, ← Run, ← ih, descents]
      cases less y x <;> simp

theorem descents_append_le (xs ys : List α) :
    descents less (xs ++ ys) ≤ descents less xs + 1 + descents less ys := by
  induction xs with
  | nil => exact Nat.le_add_left _ _
  | cons x xs ih =>
    cases xs with
    | nil =>
      cases ys with
      | nil => exact Nat.zero_le _
      | cons y ys =>
        simp only [List.singleton_append, descents]
        split <;> omega
    | cons x' xs =>
      rw [List.cons_append] at ih
      simp only [List.cons_append, descents]
      omega

theorem isChain_runFrom (x : α) (xs : List α) : Run less (x :: (runFrom less x xs).1) := by
  induction xs generalizing x with
  | nil => exact .singleton x
  | cons y ys ih =>
    rw [runFrom]
    split
    · exact .singleton x
    · next hless => exact .cons_cons (Bool.eq_false_iff.2 hless) (ih y)

theorem descents_runFrom (x : α) (xs : List α) :
    descents less (x :: xs) =
      if (runFrom less x xs).2 = [] then 0 else descents less (runFrom less x xs).2 + 1 := by
  induction xs generalizing x with
  | nil => rfl
  | cons y ys ih =>
    rw [descents, runFrom]
    by_cases hless : less y x
    · rw [if_pos hless, if_pos hless, if_neg (List.cons_ne_nil y ys), Nat.add_comm]
    · rw [if_neg hless, if_neg hless, Nat.zero_add, ih y]

theorem runs_cons (x : α) (xs : List α) :
    runs less (x :: xs) = runs less (runFrom less x xs).2 + 1 := by
  rw [runs, if_neg (List.cons_ne_nil x xs), descents_runFrom, runs]

theorem runs_append_le (h : Run less xs) (ys : List α) : runs less (xs ++ ys) ≤ runs less ys + 1 := by
  have hle : descents less (xs ++ ys) ≤ descents less xs + 1 + descents less ys :=
    descents_append_le xs ys
  rw [descents_eq_zero.2 h] at hle
  rw [runs, runs]
  split
  · exact Nat.zero_le _
  · split
    · next hnil =>
      rw [hnil, List.append_nil, descents_eq_zero.2 h]
    · omega

theorem run_of_runs (h : runs less xs ≤ 1) : Run less xs := by
  rw [runs] at h
  split at h
  · next hnil =>
    rw [hnil]
    exact .nil
  · exact descents_eq_zero.1 (by omega)

theorem runs_le_length (xs : List α) : runs less xs ≤ xs.length := by
  induction xs with
  | nil => exact Nat.le_refl _
  | cons x xs ih =>
    cases xs with
    | nil => exact Nat.le_refl _
    | cons y ys =>
      rw [runs, if_neg (List.cons_ne_nil _ _)] at ih ⊢
      rw [descents, List.length_cons]
      split <;> omega

/-! ## One merge -/

theorem merge_nil (xs : List α) : xs.merge [] (le less) = xs := List.merge_right xs

/-- An element before both runs stays before their merge. -/
theorem run_cons_merge {z : α} (hxs : Run less (z :: xs)) (hys : Run less (z :: ys))
    (h : Run less (xs.merge ys (le less))) : Run less (z :: xs.merge ys (le less)) := by
  cases xs with
  | nil =>
    rw [List.nil_merge]
    exact hys
  | cons x xs =>
    cases ys with
    | nil =>
      rw [merge_nil]
      exact hxs
    | cons y ys =>
      rw [List.cons_merge_cons] at h ⊢
      split
      · next hle =>
        rw [if_pos hle] at h
        exact .cons_cons hxs.rel h
      · next hle =>
        rw [if_neg hle] at h
        exact .cons_cons hys.rel h

theorem run_merge (hasymm : ∀ a b, less a b = true → less b a = false) (hxs : Run less xs)
    (hys : Run less ys) : Run less (xs.merge ys (le less)) := by
  induction xs generalizing ys with
  | nil =>
    rw [List.nil_merge]
    exact hys
  | cons x xs ih =>
    induction ys with
    | nil =>
      rw [merge_nil]
      exact hxs
    | cons y ys ih' =>
      rw [List.cons_merge_cons]
      split
      · next hle =>
        exact run_cons_merge hxs (.cons_cons (by simpa [le] using hle) hys) (ih hxs.tail hys)
      · next hle =>
        exact run_cons_merge (.cons_cons (hasymm _ _ (by simpa [le] using hle)) hxs) hys (ih' hys.tail)

/-! ## One pass -/

/-- What a pass does to two runs and the rest. -/
theorem pass_eq (x : α) (xs : List α) :
    pass less (x :: xs) =
      match (runFrom less x xs).2 with
      | [] => (1, x :: xs)
      | y :: ys =>
        ((pass less (runFrom less y ys).2).1 + 1,
          (x :: (runFrom less x xs).1).merge (y :: (runFrom less y ys).1)
          (le less) ++ (pass less (runFrom less y ys).2).2) := by
  rw [pass]
  split <;> simp [*]

/-- The runs are halved, and what is put out is no more runs than counted. -/
theorem pass_runs (hasymm : ∀ a b, less a b = true → less b a = false) (xs : List α) :
    2 * (pass less xs).1 ≤ runs less xs + 1 ∧ runs less (pass less xs).2 ≤ (pass less xs).1 := by
  induction xs using pass.induct less with
  | case1 =>
    rw [pass]
    exact ⟨Nat.zero_le _, Nat.le_refl _⟩
  | case2 x xs h =>
    rw [pass_eq, h]
    have hone : runs less (x :: xs) = 1 := by
      rw [runs_cons, h]
      rfl
    rw [hone]
    exact ⟨Nat.le_refl _, Nat.le_refl _⟩
  | case3 x xs y ys h ih =>
    obtain ⟨hhalf, hout⟩ := ih
    rw [pass_eq, h]
    refine ⟨?_, ?_⟩
    · rw [runs_cons, h, runs_cons]
      dsimp only
      omega
    · have hrun := run_merge hasymm (isChain_runFrom x xs) (isChain_runFrom y ys)
      exact (runs_append_le hrun _).trans (Nat.succ_le_succ hout)

theorem pass_perm (less : α → α → Bool) (xs : List α) : (pass less xs).2.Perm xs := by
  induction xs using pass.induct less with
  | case1 => rw [pass]
  | case2 x xs h => rw [pass_eq, h]
  | case3 x xs y ys h ih =>
    have hys := runFrom_append less y ys
    have hxs := runFrom_append less x xs
    rw [h] at hxs
    rw [pass_eq, h]
    dsimp only
    refine ((List.merge_perm_append _).append ih).trans (List.Perm.of_eq ?_)
    rw [List.append_assoc, List.cons_append, List.cons_append, hys, hxs]

/-! ## The passes -/

/-- **The passes end**, with a list in order. -/
theorem sort_some (hasymm : ∀ a b, less a b = true → less b a = false) {fuel : Nat}
    (hfuel : runs less xs ≤ fuel) (hpos : 0 < fuel) :
    ∃ ys, sort less fuel xs = some ys ∧ Run less ys ∧ ys.Perm xs := by
  induction fuel generalizing xs with
  | zero => exact absurd hpos (Nat.lt_irrefl 0)
  | succ fuel ih =>
    obtain ⟨hhalf, hout⟩ := pass_runs hasymm xs
    rw [sort]
    split
    · obtain ⟨ys, hsort, hrun, hperm⟩ := ih (show runs less (pass less xs).2 ≤ fuel by omega) (by omega)
      exact ⟨ys, hsort, hrun, hperm.trans (pass_perm less xs)⟩
    · exact ⟨_, rfl, run_of_runs (by omega), pass_perm less xs⟩

/-! ## Stability -/

section order

/-- Neither is less than the other. -/
def equiv (less : α → α → Bool) (a b : α) : Bool := !less a b && !less b a

variable (hasymm : ∀ a b, less a b = true → less b a = false)
  (htrans : ∀ a b c, less b a = false → less c b = false → less c a = false)

include htrans in
theorem Run.pairwise (h : Run less xs) : xs.Pairwise fun a b => less b a = false := by
  induction xs with
  | nil => exact .nil
  | cons x xs ih =>
    have hrest := ih h.tail
    refine .cons (fun b hb => ?_) hrest
    cases xs with
    | nil => exact absurd hb List.not_mem_nil
    | cons y ys =>
      rcases List.mem_cons.1 hb with rfl | hb
      · exact h.rel
      · exact htrans _ _ _ h.rel (List.rel_of_pairwise_cons hrest hb)

include hasymm in
theorem less_irrefl (a : α) : less a a = false := by
  cases h : less a a with
  | false => rfl
  | true => exact h.symm.trans (hasymm a a h)

include hasymm htrans

theorem filter_merge (a : α) (hxs : Run less xs) :
    (xs.merge ys (le less)).filter (equiv less a) = xs.filter (equiv less a) ++
    ys.filter (equiv less a) := by
  induction xs generalizing ys with
  | nil => rw [List.nil_merge, List.filter_nil, List.nil_append]
  | cons x xs ih =>
    induction ys with
    | nil => rw [merge_nil, List.filter_nil, List.append_nil]
    | cons y ys ih' =>
      rw [List.cons_merge_cons]
      split
      · rw [List.filter_cons, ih hxs.tail, List.filter_cons (x := x)]
        split <;> rfl
      · next hle =>
        rw [List.filter_cons, ih', List.filter_cons (x := y)]
        split
        · next hy =>
          -- what follows `x` is after `y`, so it is not equivalent to it
          have hnone : (x :: xs).filter (equiv less a) = [] := by
            refine List.filter_eq_nil_iff.2 fun z hz hza => ?_
            simp only [equiv, Bool.and_eq_true, Bool.not_eq_true'] at hy hza
            have hxz : less z x = false := by
              rcases List.mem_cons.1 hz with rfl | hz
              · exact less_irrefl hasymm z
              · exact List.rel_of_pairwise_cons (hxs.pairwise htrans) hz
            have hxy : less y x = false := htrans _ _ _ (htrans _ _ _ hxz hza.1) hy.2
            simp [le, hxy] at hle
          rw [hnone]
          rfl
        · rfl

theorem filter_pass (a : α) (xs : List α) :
    (pass less xs).2.filter (equiv less a) = xs.filter (equiv less a) := by
  induction xs using pass.induct less with
  | case1 => rw [pass]
  | case2 x xs h => rw [pass_eq, h]
  | case3 x xs y ys h ih =>
    have hys := runFrom_append less y ys
    have hxs := runFrom_append less x xs
    rw [h] at hxs
    rw [pass_eq, h]
    dsimp only
    rw [List.filter_append, filter_merge hasymm htrans a (isChain_runFrom x xs), ih,
      ← List.filter_append, ← List.filter_append,
      List.append_assoc, List.cons_append, List.cons_append, hys, hxs]

theorem filter_sort (a : α) {fuel : Nat} (h : sort less fuel xs = some ys) :
    ys.filter (equiv less a) = xs.filter (equiv less a) := by
  induction fuel generalizing xs with
  | zero => cases h
  | succ fuel ih =>
    rw [sort] at h
    split at h
    · rw [ih h, filter_pass hasymm htrans]
    · cases h
      exact filter_pass hasymm htrans a xs

omit htrans in
/-- Lists in order with the same equivalent elements in the same order are the same. -/
theorem eq_of_filter (hxs : xs.Pairwise fun a b => less b a = false)
    (hys : ys.Pairwise fun a b => less b a = false)
    (h : ∀ a, xs.filter (equiv less a) = ys.filter (equiv less a)) : xs = ys := by
  have hself (z : α) : equiv less z z = true := by rw [equiv, less_irrefl hasymm]; rfl
  have hmem {us vs : List α} (huv : ∀ a, us.filter (equiv less a) = vs.filter (equiv less a))
      {z : α} (hz : z ∈ us) : z ∈ vs := by
    have hfilter : z ∈ us.filter (equiv less z) := List.mem_filter.2 ⟨hz, hself z⟩
    rw [huv z] at hfilter
    exact (List.mem_filter.1 hfilter).1
  induction xs generalizing ys with
  | nil => exact (List.eq_nil_iff_forall_not_mem.2 fun z hz => List.not_mem_nil
    (hmem (fun a => (h a).symm) hz)).symm
  | cons x xs ih =>
    cases ys with
    | nil => exact absurd (hmem h List.mem_cons_self) List.not_mem_nil
    | cons y ys =>
      -- the least elements on the two sides are equivalent
      have hyx : less y x = false := by
        rcases List.mem_cons.1 (hmem (fun a => (h a).symm) List.mem_cons_self) with rfl | hy
        · exact less_irrefl hasymm y
        · exact List.rel_of_pairwise_cons hxs hy
      have hxy : less x y = false := by
        rcases List.mem_cons.1 (hmem h List.mem_cons_self) with rfl | hx
        · exact less_irrefl hasymm x
        · exact List.rel_of_pairwise_cons hys hx
      have hfirst := h x
      rw [List.filter_cons_of_pos (hself x), List.filter_cons_of_pos
        (by simp [equiv, hxy, hyx])] at hfirst
      obtain rfl : x = y := (List.cons.inj hfirst).1
      refine congrArg (List.cons x) (ih hxs.of_cons hys.of_cons fun a => ?_)
      have hat := h a
      rw [List.filter_cons, List.filter_cons] at hat
      split at hat
      · exact (List.cons.inj hat).2
      · exact hat

/-- **The passes end with the stable sort.** -/
theorem sort_eq_mergeSort {fuel : Nat} (hfuel : runs less xs ≤ fuel) (hpos : 0 < fuel) :
    sort less fuel xs = some (xs.mergeSort (le less)) := by
  have htotal (a b : α) : (le less a b || le less b a) = true := by
    cases hba : less b a with
    | false => simp [le, hba]
    | true => simp [le, hasymm b a hba]
  have htrans' (a b c : α) (hab : le less a b = true) (hbc : le less b c = true) :
      le less a c = true := by
    simp only [le, Bool.not_eq_true'] at hab hbc ⊢
    exact htrans a b c hab hbc
  obtain ⟨ys, hsort, hrun, -⟩ := sort_some hasymm hfuel hpos
  rw [hsort]
  refine congrArg some (eq_of_filter hasymm (hrun.pairwise htrans) ?_ fun a => ?_)
  · exact (List.pairwise_mergeSort htrans' htotal xs).imp fun h => by simpa [le] using h
  · rw [filter_sort hasymm htrans a hsort]
    -- the equivalent elements are in order, and a stable sort keeps them so
    have hsub : (xs.filter (equiv less a)).Sublist (xs.mergeSort (le less)) := by
      refine List.sublist_mergeSort htrans' htotal ?_ List.filter_sublist
      refine List.pairwise_of_forall_mem_list fun b hb c hc => ?_
      have hb := (List.mem_filter.1 hb).2
      have hc := (List.mem_filter.1 hc).2
      simp only [equiv, Bool.and_eq_true, Bool.not_eq_true'] at hb hc
      simp only [le, Bool.not_eq_true']
      exact htrans b a c hb.1 hc.2
    have hsub' := hsub.filter (equiv less a)
    rw [List.filter_filter] at hsub'
    simp only [Bool.and_self] at hsub'
    exact hsub'.eq_of_length ((List.mergeSort_perm xs (le less)).symm.filter _).length_eq

end order

end NaturalMerge

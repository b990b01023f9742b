/-
The ordered part of list.c: `list_sort` and the functions that take a `less`.
The loops move elements only through `list_splice`, `list_insert` and
`list_remove`, so what they do is said about plain lists: a pass of
`list_sort` is `NaturalMerge.pass` (`sortPassFrom`), and the whole is the
stable sort.
-/
import MyShell.Fs.ListCalls

namespace MyShell.Fs

/-- What is left after `x` when the elements equivalent to the one kept before them are
taken out, and these. -/
def splitUnique {α : Type} (less : α → α → Bool) (x : α) : List α → List α × List α
  | [] => ([], [])
  | y :: ys =>
    if NaturalMerge.equiv less x y then ((splitUnique less x ys).1, y :: (splitUnique less x ys).2)
    else (y :: (splitUnique less y ys).1, (splitUnique less y ys).2)

/-- The lists with `xs` at the end of list `d`, if there is one. -/
def appendTo {ι α : Type} [DecidableEq ι] (σ : ι → List α) (d : Option ι) (xs : List α) :
    ι → List α :=
  match d with
  | some d => Function.update σ d (σ d ++ xs)
  | none => σ

section appendTo

variable {ι α : Type} [DecidableEq ι] {σ : ι → List α} {l : ι} {d : Option ι}

@[simp] theorem appendTo_nil (σ : ι → List α) (d : Option ι) : appendTo σ d [] = σ := by
  cases d with
  | none => rfl
  | some d => rw [appendTo, List.append_nil, Function.update_eq_self]

theorem appendTo_other (hd : d ≠ some l) (xs : List α) : appendTo σ d xs l = σ l := by
  cases d with
  | none => rfl
  | some d => exact Function.update_of_ne (fun heq => hd (congrArg some heq.symm)) _ _

/-- List `l` changes between two appends. -/
theorem appendTo_update (hd : d ≠ some l) (xs ys zs : List α) :
    appendTo (Function.update (appendTo σ d ys) l xs) d zs =
    appendTo (Function.update σ l xs) d (ys ++ zs) := by
  cases d with
  | none => rfl
  | some d =>
    have hne : d ≠ l := fun heq => hd (congrArg some heq)
    simp only [appendTo]
    rw [Function.update_of_ne hne, Function.update_self, Function.update_of_ne hne,
      Function.update_comm hne, Function.update_idem, List.append_assoc]

end appendTo

namespace Yields

open Sentinel (Distinct backOf frontOf)
open NaturalMerge (runFrom pass le Run)

variable {ι α : Type} {less : α → α → Bool} {σ : ι → List α} {l : ι} {d : Option ι}
  {us vs ms xs ys as bs : List α} {x y : α} {fuel turns : Nat}

theorem callLess (less : α → α → Bool) (x y : α) (σ : ι → List α) :
    Yields σ (Fs.callLess less (.elem x) (.elem y)) (less x y) σ :=
  .pure (less x y) σ

/-- The element before `y` is `x`. -/
theorem listPrev_elem (hl : σ l = us ++ x :: y :: vs) :
    Yields σ (Fs.listPrev (.elem y)) (.elem x) σ := by
  have hprev := listPrev (hl.trans (List.append_cons us x (y :: vs)))
  rwa [Sentinel.backOf_concat] at hprev

section best

variable {p : α → α → Bool}

theorem foldl_stay (hafter : ∀ y ∈ vs, p x y = false) :
    vs.foldl (fun x y => if p x y then y else x) x = x := by
  induction vs with
  | nil => rfl
  | cons y vs ih =>
    rw [List.foldl_cons, hafter y List.mem_cons_self, if_neg (by decide)]
    exact ih fun y' hy' => hafter y' (List.mem_cons_of_mem _ hy')

theorem foldl_mem (p : α → α → Bool) (z : α) (us : List α) :
    us.foldl (fun x y => if p x y then y else x) z ∈ z :: us := by
  induction us generalizing z with
  | nil => exact List.mem_cons_self
  | cons u us ih =>
    rw [List.foldl_cons]
    split
    · exact List.mem_cons_of_mem _ (ih u)
    · rcases List.mem_cons.1 (ih z) with hz | hu
      · rw [hz]
        exact List.mem_cons_self
      · exact List.mem_cons_of_mem _ (List.mem_cons_of_mem _ hu)

/-- What is better than all before it, and no worse than those after it, is found. -/
theorem foldl_best {z : α} (hbefore : ∀ y ∈ z :: us, p y x = true) (hafter : ∀ y ∈ vs, p x y = false) :
    (us ++ x :: vs).foldl (fun x y => if p x y then y else x) z = x := by
  rw [List.foldl_append, List.foldl_cons, hbefore _ (foldl_mem p z us), if_pos rfl, foldl_stay hafter]

end best

section order

variable [DecidableEq ι] [DecidableEq α]

theorem isSortedFrom (hl : σ l = us ++ x :: ms ++ vs) (hrun : Run less (x :: ms))
    (hfuel : ms.length < fuel) :
    Yields σ (Fs.isSortedFrom less (frontOf l vs) fuel (.elem x)) true σ := by
  induction fuel generalizing us x ms with
  | zero => exact absurd hfuel (Nat.not_lt_zero _)
  | succ fuel ih =>
    have hl' : σ l = us ++ x :: (ms ++ vs) := hl.trans (List.append_assoc us (x :: ms) vs)
    refine (listNext hl').bind ?_
    cases ms with
    | nil =>
      rw [List.nil_append, if_pos rfl]
      exact .pure true σ
    | cons y ms =>
      refine distinct fun hd => ?_
      have hne := hd.elem_ne_frontOf (hl'.trans (List.append_cons us x _))
      rw [List.cons_append, Sentinel.frontOf_cons, if_neg hne]
      refine (listPrev_elem hl').bind ((callLess less y x σ).bind ?_)
      rw [hrun.rel, if_neg (by decide)]
      have hmore : σ l = us ++ [x] ++ y :: ms ++ vs := by simp [hl]
      exact ih hmore hrun.tail (Nat.lt_of_succ_lt_succ hfuel)

/-- A run is found in order, whatever is after it. -/
theorem isSorted (hl : σ l = us ++ ms ++ vs) (hrun : Run less ms) (hfuel : ms.length < fuel) :
    Yields σ (Fs.isSorted less fuel (frontOf l (ms ++ vs)) (frontOf l vs)) true σ := by
  refine distinct fun hd => ?_
  cases ms with
  | nil =>
    rw [Fs.isSorted, List.nil_append, if_neg (not_not.2 rfl)]
    exact .pure true σ
  | cons x ms =>
    have hne := hd.elem_ne_frontOf (hl.trans (List.append_assoc us (x :: ms) vs))
    rw [Fs.isSorted, List.cons_append, Sentinel.frontOf_cons, if_pos hne]
    exact isSortedFrom hl hrun (Nat.lt_of_succ_lt hfuel)

theorem endOfRunFrom (hl : σ l = us ++ x :: ms ++ vs) (hfuel : ms.length < fuel) :
    Yields σ (Fs.endOfRunFrom less (frontOf l vs) fuel (.elem x))
    (frontOf l ((runFrom less x ms).2 ++ vs)) σ := by
  induction fuel generalizing us x ms with
  | zero => exact absurd hfuel (Nat.not_lt_zero _)
  | succ fuel ih =>
    have hl' : σ l = us ++ x :: (ms ++ vs) := hl.trans (List.append_assoc us (x :: ms) vs)
    refine (listNext hl').bind ?_
    cases ms with
    | nil =>
      rw [List.nil_append, if_pos rfl]
      exact .pure _ σ
    | cons y ms =>
      refine distinct fun hd => ?_
      have hne := hd.elem_ne_frontOf (hl'.trans (List.append_cons us x _))
      rw [List.cons_append, Sentinel.frontOf_cons, if_neg hne]
      refine (listPrev_elem hl').bind ((callLess less y x σ).bind ?_)
      rw [runFrom]
      split
      · exact .pure _ σ
      · have hmore : σ l = us ++ [x] ++ y :: ms ++ vs := by simp [hl]
        exact ih hmore (Nat.lt_of_succ_lt_succ hfuel)

theorem findEndOfRun (hl : σ l = us ++ x :: ms ++ vs) (hfuel : ms.length < fuel) :
    Yields σ (Fs.findEndOfRun less fuel (.elem x) (frontOf l vs))
    (frontOf l ((runFrom less x ms).2 ++ vs)) σ := by
  refine distinct fun hd => ?_
  have hne := hd.elem_ne_frontOf (hl.trans (List.append_assoc us (x :: ms) vs))
  exact (assert (decide_eq_true hne) σ).bind (endOfRunFrom hl hfuel)

/-- **The merge loop** merges two neighbouring ranges in place. -/
theorem mergeFrom (hl : σ l = us ++ as ++ bs ++ vs) (hfuel : as.length + bs.length < fuel) :
    Yields σ (Fs.mergeFrom less (frontOf l vs) fuel (frontOf l (as ++ bs ++ vs))
      (frontOf l (bs ++ vs))) () (Function.update σ l (us ++ as.merge bs (le less) ++ vs)) := by
  induction fuel generalizing σ us as bs with
  | zero => exact absurd hfuel (Nat.not_lt_zero _)
  | succ fuel ih =>
    cases as with
    | nil =>
      rw [Fs.mergeFrom, List.nil_append, if_neg fun h => h.1 rfl, List.nil_merge,
        ← List.append_nil us, ← hl, Function.update_eq_self]
      exact .pure () σ
    | cons a as =>
      cases bs with
      | nil =>
        rw [Fs.mergeFrom, List.nil_append, if_neg fun h => h.2 rfl, NaturalMerge.merge_nil,
          ← List.append_nil (us ++ _), ← hl, Function.update_eq_self]
        exact .pure () σ
      | cons b bs =>
        refine distinct fun hd => ?_
        have hla : σ l = us ++ a :: (as ++ (b :: bs ++ vs)) := by simp [hl]
        have hlb : σ l = (us ++ a :: as) ++ b :: (bs ++ vs) := by simp [hl]
        rw [Fs.mergeFrom, if_pos ⟨hd.elem_ne_frontOf hla, hd.elem_ne_frontOf hlb⟩]
        refine (callLess less b a σ).bind ?_
        rw [List.cons_merge_cons, le]
        by_cases hless : less b a = true
        · -- `b` goes before `a`
          rw [hless, Bool.not_true, if_neg (by decide), if_neg (by decide)]
          have hb : σ l = (us ++ a :: as) ++ [b] ++ (bs ++ vs) := by simp [hl]
          have hcut : Function.update σ l (us ++ a :: as ++ (bs ++ vs)) l =
              us ++ (a :: as ++ bs ++ vs) := by simp
          have hsplice := listSplice hb hcut
          have hprev := listPrev hb
          rw [Sentinel.backOf_concat] at hprev
          have hmoved : Function.update σ l (us ++ [b] ++ (a :: as ++ bs ++ vs)) l =
              (us ++ [b]) ++ (a :: as) ++ bs ++ vs := by simp
          have hrest := ih hmoved (by simp only [List.length_cons] at hfuel ⊢; omega)
          rw [Function.update_idem] at hsplice hrest
          have hend : us ++ [b] ++ (a :: as).merge bs (le less) ++ vs =
              us ++ b :: (a :: as).merge bs (le less) ++ vs := by simp
          rw [hend] at hrest
          exact (listNext hlb).bind (hprev.bind (hsplice.bind hrest))
        · rw [Bool.eq_false_iff.2 hless, Bool.not_false, if_pos rfl, if_pos rfl]
          have hmore : σ l = us ++ [a] ++ as ++ (b :: bs) ++ vs := by simp [hl]
          have hrest := ih hmore (by simp only [List.length_cons] at hfuel ⊢; omega)
          have hend : us ++ [a] ++ as.merge (b :: bs) (le less) ++ vs =
              us ++ a :: as.merge (b :: bs) (le less) ++ vs := by simp
          have hnext : frontOf l (as ++ (b :: bs ++ vs)) = frontOf l (as ++ b :: bs ++ vs) := by
            rw [List.append_assoc]
          rw [hend, ← hnext] at hrest
          exact (listNext hla).bind hrest

theorem inplaceMerge (hl : σ l = us ++ as ++ bs ++ vs) (has : Run less as) (hbs : Run less bs)
    (hfuel : as.length + bs.length < fuel) :
    Yields σ (Fs.inplaceMerge less fuel (frontOf l (as ++ bs ++ vs)) (frontOf l (bs ++ vs))
      (frontOf l vs)) () (Function.update σ l (us ++ as.merge bs (le less) ++ vs)) := by
  have hsorted := isSorted (hl.trans (List.append_assoc (us ++ as) bs vs)) has
    (by omega : as.length < fuel)
  have hsorted' := isSorted hl hbs (by omega : bs.length < fuel)
  rw [← List.append_assoc] at hsorted
  exact hsorted.bind ((assert rfl σ).bind (hsorted'.bind ((assert rfl σ).bind (mergeFrom hl hfuel))))

/-- **A pass** of `list_sort` merges the runs two by two and counts what it puts out. -/
theorem sortPassFrom (hl : σ l = us ++ xs) (hturns : xs.length < turns) (hfuel : xs.length < fuel)
    (cnt : Nat) :
    Yields σ (Fs.sortPassFrom less turns l fuel (frontOf l xs) cnt) (cnt + (pass less xs).1)
      (Function.update σ l (us ++ (pass less xs).2)) := by
  induction fuel generalizing σ us xs cnt with
  | zero => exact absurd hfuel (Nat.not_lt_zero _)
  | succ fuel ih =>
    cases xs with
    | nil =>
      rw [Fs.sortPassFrom, if_pos (frontOf_nil_eq l), NaturalMerge.pass, ← hl, Function.update_eq_self]
      exact .pure cnt σ
    | cons x xs =>
      rw [Fs.sortPassFrom, if_neg (frontOf_cons_ne l x xs), NaturalMerge.pass_eq]
      have hfirst : σ l = us ++ x :: xs ++ [] := by rw [hl, List.append_nil]
      have hend : Yields σ (Fs.findEndOfRun less turns (.elem x) (listEnd l))
          (frontOf l ((runFrom less x xs).2 ++ [])) σ :=
        findEndOfRun hfirst (Nat.lt_of_succ_lt hturns)
      rw [List.append_nil] at hend
      refine hend.bind ?_
      cases hrest : (runFrom less x xs).2 with
      | nil =>
        rw [if_pos (frontOf_nil_eq l)]
        dsimp only
        rw [← hl, Function.update_eq_self]
        exact .pure _ σ
      | cons y ys =>
        rw [if_neg (frontOf_cons_ne l y ys)]
        have hxs := NaturalMerge.runFrom_append less x xs
        have hys := NaturalMerge.runFrom_append less y ys
        have hlen := NaturalMerge.length_runFrom_le less y ys
        rw [hrest] at hxs
        have hxslen : (runFrom less x xs).1.length + (ys.length + 1) = xs.length := by
          rw [← List.length_cons (a := y), ← List.length_append, hxs]
        have hyslen : (runFrom less y ys).1.length + (runFrom less y ys).2.length = ys.length := by
          rw [← List.length_append, hys]
        rw [List.length_cons] at hturns hfuel
        have hsecond : σ l = (us ++ x :: (runFrom less x xs).1) ++ y :: ys ++ [] := by
          rw [hl, List.append_nil, List.append_assoc, List.cons_append, hxs]
        have hend' : Yields σ (Fs.findEndOfRun less turns (.elem y) (listEnd l))
            (frontOf l ((runFrom less y ys).2 ++ [])) σ :=
          findEndOfRun hsecond (by omega)
        rw [List.append_nil] at hend'
        refine hend'.bind ?_
        have hruns : σ l = us ++ (x :: (runFrom less x xs).1) ++ (y :: (runFrom less y ys).1) ++
            (runFrom less y ys).2 := by
          rw [hsecond, List.append_nil, List.append_assoc (us ++ _), List.cons_append, hys]
        have hmerge :=
          inplaceMerge hruns (NaturalMerge.isChain_runFrom x xs) (NaturalMerge.isChain_runFrom y ys)
          (by simp only [List.length_cons]; omega : _ < turns)
        refine hmerge.bind ?_
        have hmerged : Function.update σ l (us ++
          (x :: (runFrom less x xs).1).merge (y :: (runFrom less y ys).1) (le less) ++
            (runFrom less y ys).2) l = us ++
            (x :: (runFrom less x xs).1).merge (y :: (runFrom less y ys).1) (le less) ++
            (runFrom less y ys).2 := Function.update_self _ _ _
        have hlater := ih hmerged (by omega) (by omega) (cnt + 1)
        rw [Function.update_idem] at hlater
        dsimp only
        rw [Nat.add_comm (pass less _).1 1, ← Nat.add_assoc, ← List.append_assoc]
        exact hlater

theorem sortPasses (hturns : (σ l).length < turns)
    (hsort : NaturalMerge.sort less fuel (σ l) = some ys) :
    Yields σ (Fs.sortPasses less turns l fuel) () (Function.update σ l ys) := by
  induction fuel generalizing σ with
  | zero => cases hsort
  | succ fuel ih =>
    have hpass : Yields σ (Fs.sortPassFrom less turns l turns (frontOf l (σ l)) 0)
      (0 + (pass less (σ l)).1)
        (Function.update σ l ([] ++ (pass less (σ l)).2)) :=
          sortPassFrom (List.nil_append (σ l)).symm hturns hturns 0
    rw [Nat.zero_add, List.nil_append] at hpass
    rw [NaturalMerge.sort] at hsort
    refine (listBegin l).bind (hpass.bind ?_)
    split
    · next hmore =>
      rw [if_pos hmore] at hsort
      have hlater := ih (σ := Function.update σ l (pass less (σ l)).2)
        (by rwa [Function.update_self, (NaturalMerge.pass_perm less (σ l)).length_eq])
        (by rwa [Function.update_self])
      rwa [Function.update_idem] at hlater
    · next hone =>
      rw [if_neg hone] at hsort
      cases hsort
      exact .pure () _

/-- **`list_sort`** ends with the stable sort. -/
theorem listSort (hasymm : ∀ a b, less a b = true → less b a = false)
    (htrans : ∀ a b c, less b a = false → less c b = false → less c a = false) (l : ι)
    (hfuel : (σ l).length < fuel) :
    Yields σ (Fs.listSort less fuel l) () (Function.update σ l ((σ l).mergeSort (le less))) := by
  have hruns : NaturalMerge.runs less (σ l) ≤ fuel := (NaturalMerge.runs_le_length _).trans hfuel.le
  have hpos : 0 < fuel := Nat.zero_lt_of_lt hfuel
  have hsort := NaturalMerge.sort_eq_mergeSort hasymm htrans hruns hpos
  obtain ⟨ys, hys, hrun, -⟩ := NaturalMerge.sort_some hasymm hruns hpos
  obtain rfl : ys = (σ l).mergeSort (le less) := Option.some.inj (hys.symm.trans hsort)
  refine (sortPasses hfuel hsort).bind ((listBegin l).bind ?_)
  have hsorted : Function.update σ l ((σ l).mergeSort (le less)) l =
      [] ++ (σ l).mergeSort (le less) ++ [] := by simp
  have hcheck := isSorted hsorted hrun (by rwa [List.length_mergeSort] : _ < fuel)
  rw [List.append_nil] at hcheck
  rw [Function.update_self]
  exact hcheck.bind (assert rfl _)

/-! ## Insertion in order, duplicates -/

theorem insertPoint (hl : σ l = us ++ vs) (hfuel : vs.length < fuel) :
    Yields σ (Fs.insertPoint less l (.elem x) fuel (frontOf l vs))
    (frontOf l (vs.dropWhile fun y => !less x y)) σ := by
  induction fuel generalizing us vs with
  | zero => exact absurd hfuel (Nat.not_lt_zero _)
  | succ fuel ih =>
    cases vs with
    | nil =>
      rw [Fs.insertPoint, if_pos (frontOf_nil_eq l)]
      exact .pure _ σ
    | cons y vs =>
      rw [Fs.insertPoint, if_neg (frontOf_cons_ne l y vs)]
      refine (callLess less x y σ).bind ?_
      by_cases hless : less x y = true
      · rw [if_pos hless, List.dropWhile_cons_of_neg (by simp [hless])]
        exact .pure _ σ
      · rw [if_neg hless, List.dropWhile_cons_of_pos (by simp [hless])]
        exact (listNext hl).bind (ih (hl.trans (List.append_cons us y vs))
          (Nat.lt_of_succ_lt_succ hfuel))

theorem listInsertOrdered (l : ι) (hfuel : (σ l).length < fuel) (hx : ∀ k, x ∉ σ k) :
    Yields σ (Fs.listInsertOrdered less fuel l (.elem x)) () (Function.update σ l
      ((σ l).takeWhile (fun y => !less x y) ++ x :: (σ l).dropWhile fun y => !less x y)) :=
  (listBegin l).bind ((insertPoint (List.nil_append (σ l)).symm hfuel).bind
    (listInsert List.takeWhile_append_dropWhile.symm hx))

/-- The loop of `list_unique` from the element `x`. -/
theorem uniqueFrom (hd : d ≠ some l) (hl : σ l = us ++ x :: ys) (hfuel : ys.length < fuel) :
    Yields σ (Fs.uniqueFrom less l d fuel (.elem x)) ()
      (appendTo (Function.update σ l (us ++ x :: (splitUnique less x ys).1)) d
        (splitUnique less x ys).2) := by
  induction fuel generalizing σ us x ys with
  | zero => exact absurd hfuel (Nat.not_lt_zero _)
  | succ fuel ih =>
    refine (listNext hl).bind ?_
    cases ys with
    | nil =>
      rw [if_pos (frontOf_nil_eq l), splitUnique, ← hl, Function.update_eq_self, appendTo_nil]
      exact .pure () σ
    | cons y ys =>
      rw [if_neg (frontOf_cons_ne l y ys), splitUnique]
      refine (callLess less x y σ).bind ((callLess less y x σ).bind ?_)
      have hy : σ l = (us ++ [x]) ++ y :: ys := by rw [hl, List.append_assoc]; rfl
      cases hequiv : NaturalMerge.equiv less x y with
      | false =>
        rw [← NaturalMerge.equiv, hequiv, if_neg (by decide), if_neg (by decide)]
        have hrest := ih hy (Nat.lt_of_succ_lt_succ hfuel)
        rwa [List.append_assoc] at hrest
      | true =>
        rw [← NaturalMerge.equiv, hequiv, if_pos rfl, if_pos rfl]
        have hremove := listRemove hy
        rw [List.append_assoc, List.singleton_append] at hremove
        have hleft : Function.update σ l (us ++ x :: ys) l = us ++ x :: ys := Function.update_self _ _ _
        refine distinct fun hdistinct => hremove.bind ?_
        have hfree := hdistinct.removed hy
        rw [List.append_assoc, List.singleton_append] at hfree
        cases d with
        | none =>
          have hrest := ih hleft (Nat.lt_of_succ_lt_succ hfuel)
          rw [Function.update_idem] at hrest
          exact hrest
        | some d =>
          have hpush : Yields (Function.update σ l (us ++ x :: ys)) (Fs.listPushBack d (.elem y)) ()
              (appendTo (Function.update σ l (us ++ x :: ys)) (some d) [y]) := listPushBack hfree
          have hrest := ih (σ := appendTo (Function.update σ l (us ++ x :: ys)) (some d) [y])
            ((appendTo_other hd [y]).trans hleft) (Nat.lt_of_succ_lt_succ hfuel)
          rw [appendTo_update hd, Function.update_idem] at hrest
          exact hpush.bind hrest

/-- The best element of those from `frontOf l vs` on. -/
theorem bestFrom {better : ListElem ι α → ListElem ι α → ListM ι α Bool} {p : α → α → Bool}
    (hbetter : ∀ x y, Yields σ (better (.elem x) (.elem y)) (p x y) σ) (hl : σ l = us ++ vs)
    (hfuel : vs.length < fuel) :
    Yields σ (Fs.bestFrom better l fuel (.elem x) (frontOf l vs))
    (.elem (vs.foldl (fun x y => if p x y then y else x) x)) σ := by
  induction fuel generalizing us x vs with
  | zero => exact absurd hfuel (Nat.not_lt_zero _)
  | succ fuel ih =>
    cases vs with
    | nil =>
      rw [Fs.bestFrom, if_pos (frontOf_nil_eq l)]
      exact .pure _ σ
    | cons y vs =>
      rw [Fs.bestFrom, if_neg (frontOf_cons_ne l y vs), List.foldl_cons]
      refine (hbetter x y).bind ?_
      have hrest {z : α} :=
        ih (x := z) (hl.trans (List.append_cons us y vs)) (Nat.lt_of_succ_lt_succ hfuel)
      by_cases hp : p x y = true
      · rw [if_pos hp, if_pos hp]
        exact (listNext hl).bind hrest
      · rw [if_neg hp, if_neg hp]
        exact (listNext hl).bind hrest

theorem listUnique (hd : d ≠ some l) (hl : σ l = x :: ys) (hfuel : ys.length < fuel) :
    Yields σ (Fs.listUnique less fuel l d) ()
      (appendTo (Function.update σ l (x :: (splitUnique less x ys).1)) d
        (splitUnique less x ys).2) := by
  have hloop : Yields σ (Fs.uniqueFrom less l d fuel (.elem x)) () _ :=
    uniqueFrom hd (hl.trans (List.nil_append _).symm) hfuel
  refine (listEmpty l).bind ?_
  rw [decide_eq_false (by simp [hl]), if_neg (by decide)]
  refine (listBegin l).bind ?_
  rw [hl]
  exact hloop

theorem listUnique_nil (d : Option ι) (hl : σ l = []) (fuel : Nat) :
    Yields σ (Fs.listUnique less fuel l d) () σ := by
  refine (listEmpty l).bind ?_
  rw [decide_eq_true hl, if_pos rfl]
  exact .pure () σ

/-- The search from the front of list `l`. -/
theorem listBest {better : ListElem ι α → ListElem ι α → ListM ι α Bool} {p : α → α → Bool}
    (hbetter : ∀ x y, Yields σ (better (.elem x) (.elem y)) (p x y) σ) (hl : σ l = us ++ x :: vs)
    (hfuel : (σ l).length ≤ fuel) (hbefore : ∀ y ∈ us, p y x = true)
    (hafter : ∀ y ∈ vs, p x y = false) : Yields σ (do
      let best ← Fs.listBegin l
      if best ≠ listEnd l then Fs.bestFrom better l fuel best (← Fs.listNext best) else
      Pure.pure best) (.elem x) σ := by
  have hbegin : Yields σ (Fs.listBegin l) (frontOf l (σ l)) σ := listBegin l
  rw [hl] at hfuel hbegin
  refine hbegin.bind ?_
  cases us with
  | nil =>
    have hloop := bestFrom hbetter (hl.trans (List.append_cons [] x vs)) (x := x) hfuel
    rw [foldl_stay hafter] at hloop
    exact (listNext hl).bind hloop
  | cons z us =>
    have hfirst : σ l = [] ++ z :: (us ++ x :: vs) := hl
    have hloop := bestFrom hbetter (hfirst.trans (List.append_cons [] z _)) (x := z) hfuel
    rw [foldl_best hbefore hafter] at hloop
    exact (listNext hfirst).bind hloop

theorem listMax (hl : σ l = us ++ x :: vs) (hfuel : (σ l).length ≤ fuel)
    (hbefore : ∀ y ∈ us, less y x = true) (hafter : ∀ y ∈ vs, less x y = false) :
    Yields σ (Fs.listMax less fuel l) (.elem x) σ :=
  listBest (fun x y => callLess less x y σ) hl hfuel hbefore hafter

theorem listMin (hl : σ l = us ++ x :: vs) (hfuel : (σ l).length ≤ fuel)
    (hbefore : ∀ y ∈ us, less x y = true) (hafter : ∀ y ∈ vs, less y x = false) :
    Yields σ (Fs.listMin less fuel l) (.elem x) σ :=
  listBest (fun x y => callLess less y x σ) hl hfuel hbefore hafter

/-- The greatest and the least element of an empty list is its tail. -/
theorem listBest_nil {m : ListElem ι α → ListM ι α (ListElem ι α)} (hl : σ l = []) :
    Yields σ (do
      let best ← Fs.listBegin l
      if best ≠ listEnd l then m best else Pure.pure best) (listEnd l) σ := by
  have hbegin : Yields σ (Fs.listBegin l) (frontOf l (σ l)) σ := listBegin l
  rw [hl] at hbegin
  refine hbegin.bind ?_
  rw [if_neg fun hne => hne (frontOf_nil_eq l)]
  exact .pure _ σ

end order

end Yields

end MyShell.Fs

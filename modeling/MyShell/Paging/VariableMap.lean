/-
The variables as a map. A free line of the variable store is one whose name is
`none`, which is also a name that `set` takes: for every other name the store
is a map, and for `none` only as `Recalled` says (`variables_map`).
-/
import MyShell.Paging.Execution
import MyShell.Lib.ReservedKey

namespace MyShell.Paging

open ReservedKey (put lookup keys names replaceFirst Table Recalled)

/-! ## The variable lines as a table -/

/-- The lines of a list, name and value. -/
def rowsOf (is : List Nat) (m : Memory) : List (Text × Text) := is.map fun i => ((m i).var, (m i).value)

variable {is : List Nat} {m : Memory} {k : Text} {i : Nat}

theorem rowsOf_update_of_notMem (hi : i ∉ is) (s : Slot) :
    rowsOf is (Function.update m i s) = rowsOf is m :=
  List.map_congr_left fun j hj => by rw [Function.update_of_ne (ne_of_mem_of_not_mem hj hi)]

theorem replaceFirst_rows_none (h : is.find? (fun i => (m i).var = k) = none) (x : Text × Text) :
    replaceFirst k x (rowsOf is m) = none := by
  refine ReservedKey.replaceFirst_none fun hk => ?_
  rw [keys, rowsOf, List.map_map] at hk
  obtain ⟨i, hi, hname⟩ := List.mem_map.1 hk
  have hne := List.find?_eq_none.1 h i hi
  rw [decide_eq_true_iff] at hne
  exact hne hname

/-- The line that the loop finds is the first row under the name. -/
theorem replaceFirst_rows (hn : is.Nodup) (h : is.find? (fun i => (m i).var = k) = some i)
    (x : Text × Text) :
    replaceFirst k x (rowsOf is m) = some (rowsOf is (Function.update m i ⟨x.1, x.2⟩)) := by
  induction is with
  | nil => cases h
  | cons j is ih =>
    obtain ⟨hj, hn⟩ := List.nodup_cons.1 hn
    rw [rowsOf, List.map_cons, ← rowsOf, replaceFirst]
    rw [List.find?_cons] at h
    split at h
    · next hvar =>
      obtain rfl := Option.some.inj h
      rw [if_pos (of_decide_eq_true hvar), ← rowsOf_update_of_notMem hj ⟨x.1, x.2⟩]
      simp [rowsOf]
    · next hvar =>
      have hne : j ≠ i := by
        rintro rfl
        exact hj (List.mem_of_find?_eq_some h)
      rw [if_neg (of_decide_eq_false hvar), ih hn h, Option.map_some, rowsOf, rowsOf, List.map_cons,
        Function.update_of_ne hne]

theorem lookup_rows (is : List Nat) (m : Memory) (k : Text) :
    lookup (rowsOf is m) k = (is.find? fun i => (m i).var = k).map fun i => (m i).value := by
  rw [lookup, rowsOf, List.find?_map, Option.map_map]
  rfl

/-! ## Calls -/

variable {σ : Type} (sh : Shell σ)

/-- `mem_get_value`; the caller is 'p' for `print`. -/
def memGetValue (var : Text) (caller : Char) (m : Memory) : Text :=
  match (varLines sh).find? fun i => (m i).var = var with
  | some i => (m i).value
  | none => if caller = 'p' then "Variable does not exist".toList else []

/-- The calls that change variables. -/
inductive VariableCall
  | set (var value : Text)
  | reset

def VariableCall.run : VariableCall → Memory → Memory
  | .set var value, m => memSetValue sh var value m
  | .reset, m => resetVarZone sh m

/-- The sets since the last reset, the latest first. -/
def sinceReset (calls : List VariableCall) : List (Text × Text) :=
  calls.foldl (fun h call => match call with
    | .set var value => (var, value) :: h
    | .reset => []) []

variable {sh}

theorem varLines_nodup : (varLines sh).Nodup :=
  List.nodup_range.map fun _ _ h => Nat.add_left_cancel h

theorem rows_memSetValue (var value : Text) (m : Memory) :
    rowsOf (varLines sh) (memSetValue sh var value m) =
    put vacant (rowsOf (varLines sh) m) (var, value) := by
  rw [memSetValue, put]
  cases hvar : (varLines sh).find? fun i => (m i).var = var with
  | some i =>
    have hname : (m i).var = var := by simpa using List.find?_some hvar
    rw [replaceFirst_rows varLines_nodup hvar]
    simp only [hname]
  | none =>
    rw [replaceFirst_rows_none hvar]
    cases hfree : (varLines sh).find? fun i => (m i).var = vacant with
    | some i => simp only [replaceFirst_rows varLines_nodup hfree, Option.getD_some]
    | none => simp only [replaceFirst_rows_none hfree, Option.getD_none]

theorem rows_freed (hall : ∀ i ∈ is, m i = ⟨vacant, vacant⟩) :
    rowsOf is m = List.replicate is.length (vacant, vacant) := by
  rw [rowsOf, List.map_congr_left fun i hi => by rw [hall i hi], List.map_const']

theorem foldl_memFreeAt_of_mem {l : List Nat} : ∀ {m : Memory} {pos : Nat}, pos ∈ l →
    l.foldl memFreeAt m pos = ⟨vacant, vacant⟩ := by
  induction l with
  | nil => exact fun h => by cases h
  | cons i l ih =>
    intro m pos hpos
    by_cases hl : pos ∈ l
    · exact ih hl
    · obtain rfl := (List.mem_cons.1 hpos).resolve_right hl
      rw [List.foldl_cons, foldl_memFreeAt hl, memFreeAt, Function.update_self]

theorem length_varLines : (varLines sh).length = sh.varStoreSize := by simp [varLines]

/-- After every sequence of calls the lines are a table of the sets since the last reset. -/
theorem runCalls_table (calls : List VariableCall)
    (h : (names (sinceReset calls)).card ≤ sh.varStoreSize) :
    Table vacant vacant sh.varStoreSize (sinceReset calls)
      (rowsOf (varLines sh) (calls.foldl (fun m call => call.run sh m) memInit)) := by
  induction calls using List.reverseRecOn with
  | nil =>
    rw [List.foldl_nil, rows_freed (m := memInit) fun _ _ => rfl, length_varLines]
    exact .nil
  | append_singleton calls call ih =>
    rw [List.foldl_append, List.foldl_cons, List.foldl_nil]
    rw [sinceReset, List.foldl_append, List.foldl_cons, List.foldl_nil, ← sinceReset] at h ⊢
    cases call with
    | set var value =>
      simp only at h ⊢
      rw [VariableCall.run, rows_memSetValue]
      refine (ih (Nat.le_trans (Finset.card_le_card ?_) h)).put h
      rw [ReservedKey.names_cons]
      exact Finset.subset_insert _ _
    | reset =>
      rw [VariableCall.run, resetVarZone, rows_freed fun _ hi => foldl_memFreeAt_of_mem hi,
        length_varLines]
      exact .nil

/-- **A variable has its last value**, or is not found if it was not set since
the last reset, exactly where the sets of the calls are `Recalled`. -/
theorem variables_map (sh : Shell σ) (calls : List VariableCall)
    (hroom : (names (sinceReset calls)).card ≤ sh.varStoreSize) (k : Text) (caller : Char) :
    memGetValue sh k caller (calls.foldl (fun m call => call.run sh m) memInit) =
        (lookup (sinceReset calls) k).getD
          (if caller = 'p' then "Variable does not exist".toList else []) ↔
      Recalled vacant vacant sh.varStoreSize (sinceReset calls) k := by
  have hget : memGetValue sh k caller (calls.foldl (fun m call => call.run sh m) memInit) =
      (lookup (rowsOf (varLines sh) (calls.foldl (fun m call => call.run sh m) memInit)) k).getD
        (if caller = 'p' then "Variable does not exist".toList else []) := by
    rw [lookup_rows, memGetValue]
    cases (varLines sh).find? _ <;> rfl
  rw [hget]
  refine (runCalls_table calls hroom).recalled (f := (Option.getD · _)) (fun _ _ h => h) ?_ hroom
  simp only [Option.getD_some, Option.getD_none]
  split
  · decide
  · decide

/-- Two names in a store for two, one of them set twice. -/
def threeSets : List VariableCall :=
  [.set "x".toList "1".toList, .reset, .set "y".toList "2".toList, .set "x".toList "3".toList,
    .set "y".toList "4".toList]

theorem variables_map_three :
    memGetValue bareShell "y".toList 'p' (threeSets.foldl (fun m call => call.run bareShell m)
      memInit) = "4".toList :=
  ((variables_map bareShell threeSets (by decide) "y".toList 'p').2 (.inl (by decide))).trans
    (by decide)

/-- `none` is set, and lost when the first free line is taken. -/
def noneLost : List VariableCall := [.set "none".toList "1".toList, .set "x".toList "2".toList]

theorem variables_no_map : (names (sinceReset noneLost)).card ≤ bareShell.varStoreSize ∧
    lookup (sinceReset noneLost) "none".toList = some "1".toList ∧
    memGetValue bareShell "none".toList 'p' (noneLost.foldl (fun m call => call.run bareShell m)
      memInit) = "none".toList ∧
    memGetValue bareShell "none".toList 'p' memInit = "none".toList := by
  decide

end MyShell.Paging

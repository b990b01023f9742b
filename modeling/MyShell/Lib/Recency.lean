/-
Lists of distinct keys, the one used last first: using a key again moves it
to the front and every other key back by one place at most.
-/
import Mathlib.Data.List.Nodup
import Mathlib.Tactic.Common

namespace Recency

variable {α : Type} [BEq α] [LawfulBEq α]

/-- Uses a key that is in the list. -/
def touch (y : α) (l : List α) : List α := y :: l.erase y

theorem mem_touch {x y : α} {l : List α} (hy : y ∈ l) : x ∈ touch y l ↔ x ∈ l := by
  rw [touch, List.mem_cons]
  by_cases h : x = y
  · simp [h, hy]
  · simp [h, List.mem_erase_of_ne h]

theorem nodup_touch {y : α} {l : List α} (h : l.Nodup) : (touch y l).Nodup :=
  List.nodup_cons.2 ⟨h.not_mem_erase, h.erase y⟩

theorem length_touch {y : α} {l : List α} (hy : y ∈ l) : (touch y l).length = l.length := by
  rw [touch, List.length_cons, List.length_erase_of_mem hy]
  have := List.length_pos_of_mem hy
  omega

theorem touch_head {y : α} {l : List α} (h : l.head? = some y) : touch y l = l := by
  cases l with
  | nil => cases h
  | cons z l =>
    obtain rfl : z = y := by simpa using h
    simp [touch]

theorem idxOf_erase_le {x y : α} (hne : x ≠ y) (l : List α) : (l.erase y).idxOf x ≤ l.idxOf x := by
  induction l with
  | nil => simp
  | cons z l ih =>
    by_cases hz : z = y
    · subst hz
      rw [List.erase_cons_head, List.idxOf_cons_ne _ (Ne.symm hne)]
      omega
    · rw [List.erase_cons_tail (by simpa using hz)]
      by_cases hx : z = x
      · simp [hx]
      · rw [List.idxOf_cons_ne _ hx, List.idxOf_cons_ne _ hx]
        omega

/-- A new key at the front. -/
theorem idxOf_cons_le (x y : α) (l : List α) : (y :: l).idxOf x ≤ l.idxOf x + 1 := by
  by_cases h : y = x
  · simp [h]
  · exact Nat.le_of_eq (List.idxOf_cons_ne _ h)

theorem idxOf_touch_le (x y : α) (l : List α) : (touch y l).idxOf x ≤ l.idxOf x + 1 := by
  by_cases h : x = y
  · simp [touch, h]
  · exact Nat.le_trans (idxOf_cons_le x y _) (Nat.succ_le_succ (idxOf_erase_le h l))

/-- Only the key at the end leaves with the end. -/
theorem mem_dropLast {x : α} {l : List α} (hx : x ∈ l) (h : l.idxOf x + 1 < l.length) :
    x ∈ l.dropLast := by
  rw [List.mem_dropLast_iff_idxOf_lt hx]
  omega

theorem idxOf_dropLast {x : α} {l : List α} (hx : x ∈ l.dropLast) : l.dropLast.idxOf x = l.idxOf x :=
  (List.dropLast_prefix l).idxOf_eq_of_mem hx

end Recency

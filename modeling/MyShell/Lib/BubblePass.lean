/-
One pass of a bubble sort. It carries the greatest element so far to the end of
the list. That sorts the list only if no element stands behind two that belong
behind it (`pass_sorted`); the first element is the least only if it is among
the first two (`pass_least`).
-/
import Mathlib.Data.List.Triplewise
import Mathlib.Order.Lattice
import Mathlib.Tactic.Common

namespace BubblePass

variable {α β : Type} [LinearOrder β] (key : α → β) {a b c d : α} {l : List α}

/-- The pass over `a :: l`, which carries `a` until it meets a greater element. -/
def pass : α → List α → List α
  | a, [] => [a]
  | a, b :: l => if key b < key a then b :: pass a l else a :: pass b l

theorem pass_perm (a : α) (l : List α) : (pass key a l).Perm (a :: l) := by
  induction l generalizing a with
  | nil => exact .refl _
  | cons b l ih =>
    rw [pass]
    split
    · exact ((ih a).cons b).trans (.swap a b l)
    · exact (ih b).cons a

/-- Of two elements one goes ahead and the other is carried on. -/
theorem triplewise_cons_cons (h : c = a ∧ d = b ∨ c = b ∧ d = a) (hle : key c ≤ key d) :
    (a :: b :: l).Triplewise (fun x y z => key x ≤ key z ∨ key y ≤ key z) ↔
      (∀ z ∈ l, key c ≤ key z) ∧ (d :: l).Triplewise fun x y z => key x ≤ key z ∨
      key y ≤ key z := by
  have hpair (z : α) : key a ≤ key z ∨ key b ≤ key z ↔ key c ≤ key z := by
    obtain ⟨rfl, rfl⟩ | ⟨rfl, rfl⟩ := h
    · exact ⟨fun h => h.elim id (le_trans hle), .inl⟩
    · exact ⟨fun h => h.elim (le_trans hle) id, .inr⟩
  have hfirst (hc : ∀ z ∈ l, key c ≤ key z) : l.Pairwise fun y z => key c ≤ key z ∨ key y ≤ key z :=
    List.pairwise_of_forall_mem_list fun y _ z hz => .inl (hc z hz)
  simp only [List.triplewise_cons, List.pairwise_cons, hpair]
  obtain ⟨rfl, rfl⟩ | ⟨rfl, rfl⟩ := h
  · constructor
    · intro ⟨⟨hc, _⟩, hd, hl⟩
      exact ⟨hc, hd, hl⟩
    · intro ⟨hc, hd, hl⟩
      exact ⟨⟨hc, hfirst hc⟩, hd, hl⟩
  · constructor
    · intro ⟨⟨hc, hd⟩, _, hl⟩
      exact ⟨hc, hd, hl⟩
    · intro ⟨hc, hd, hl⟩
      exact ⟨⟨hc, hd⟩, hfirst hc, hl⟩

theorem pass_sorted (a : α) (l : List α) : (pass key a l).Pairwise (fun x y => key x ≤ key y) ↔
    (a :: l).Triplewise fun x y z => key x ≤ key z ∨ key y ≤ key z := by
  induction l generalizing a with
  | nil => simp [pass]
  | cons b l ih =>
    have hcarried (c d : α) (hle : key c ≤ key d) :
      (c :: pass key d l).Pairwise (fun x y => key x ≤ key y) ↔
        (∀ z ∈ l, key c ≤ key z) ∧ (d :: l).Triplewise fun x y z => key x ≤ key z ∨
        key y ≤ key z := by
      rw [List.pairwise_cons, ih]
      refine and_congr_left' ?_
      simp [(pass_perm key d l).mem_iff, hle]
    rw [pass]
    split
    · next hlt =>
      have hle := le_of_lt hlt
      rw [hcarried b a hle, triplewise_cons_cons key (.inr ⟨rfl, rfl⟩) hle]
    · next hlt =>
      have hle := le_of_not_gt hlt
      rw [hcarried a b hle, triplewise_cons_cons key (.inl ⟨rfl, rfl⟩) hle]

/-- The element in front. -/
theorem pass_head (a : α) (l : List α) : ∃ b ∈ (a :: l).take 2, (pass key a l).head? = some b ∧
    ∀ c ∈ (a :: l).take 2, key b ≤ key c := by
  cases l with
  | nil => exact ⟨a, by simp, rfl, by simp⟩
  | cons b l =>
    rw [pass]
    split
    · next hlt => exact ⟨b, by simp, rfl, by simp [le_of_lt hlt]⟩
    · next hlt => exact ⟨a, by simp, rfl, by simp [le_of_not_gt hlt]⟩

theorem pass_least (h : (pass key a l).head? = some b) : (∀ z ∈ a :: l, key b ≤ key z) ↔
    ∃ c ∈ (a :: l).take 2, ∀ z ∈ a :: l, key c ≤ key z := by
  obtain ⟨b', hmem, hhead, hleast⟩ := pass_head key a l
  obtain rfl := Option.some.inj (h.symm.trans hhead)
  constructor
  · exact fun hb => ⟨b, hmem, hb⟩
  · intro ⟨c, hc, hall⟩ z hz
    exact le_trans (hleast c hc) (hall z hz)

end BubblePass

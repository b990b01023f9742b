/-
Loops whose next turn depends on a position only. The loop ends where some turn
leaves it; a turn that comes back to its own position is repeated for ever.
-/
import Mathlib.Tactic.Common

namespace Turns

variable {α : Type} (next : α → Option α) {a b : α}

/-- The position after `n` turns, if the loop has not been left. -/
def turns : Nat → α → Option α
  | 0, a => some a
  | n + 1, a => (next a).bind (turns n)

/-- The loop is left after some turn. -/
def Ends (a : α) : Prop := ∃ n, turns next n a = none

/-- Every turn that does not leave the loop goes on to a greater position. -/
def Advances [LT α] (a : α) : Prop := ∀ n b c, turns next n a = some b → next b = some c → b < c

variable {next}

theorem ends_of_none (h : next a = none) : Ends next a := ⟨1, by simp [turns, h]⟩

theorem ends_iff (h : next a = some b) : Ends next a ↔ Ends next b := by
  have hturns (n : Nat) : turns next (n + 1) a = turns next n b := by simp [turns, h]
  constructor
  · intro ⟨n, hn⟩
    cases n with
    | zero => cases hn
    | succ n => exact ⟨n, hturns n ▸ hn⟩
  · intro ⟨n, hn⟩
    exact ⟨n + 1, (hturns n).trans hn⟩

theorem not_ends_of_self (h : next a = some a) : ¬ Ends next a := by
  have hturns (n : Nat) : turns next n a = some a := by
    induction n with
    | zero => rfl
    | succ n ih => simp [turns, h, ih]
  intro ⟨n, hn⟩
  simp [hturns n] at hn

variable [LT α]

theorem advances_of_none (h : next a = none) : Advances next a := by
  intro n b c hn hc
  cases n with
  | zero =>
    obtain rfl := Option.some.inj hn
    simp [h] at hc
  | succ n => simp [turns, h] at hn

theorem advances_iff (h : next a = some b) : Advances next a ↔ a < b ∧ Advances next b := by
  constructor
  · intro hadv
    exact ⟨hadv 0 a b rfl h, fun n c d hn hd => hadv (n + 1) c d (by simp [turns, h, hn]) hd⟩
  · intro ⟨hlt, hadv⟩ n c d hn hd
    cases n with
    | zero =>
      obtain rfl := Option.some.inj hn
      obtain rfl := Option.some.inj (h.symm.trans hd)
      exact hlt
    | succ n => exact hadv n c d (by simpa [turns, h] using hn) hd

end Turns

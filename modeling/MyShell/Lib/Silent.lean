/-
Commands that do not use the store from a given state on: their answer and
their state are the same on every store, which stays as it is.
-/
import MyShell.Lib.Command

namespace Storage.Cmd

variable {κ β S α γ : Type} {m : Cmd κ β S α} {f : α → Cmd κ β S γ} {s s' : S} {a : α}
  {r : Option (γ × S)}

/-- From `s` on the command neither reads nor writes a cell, and ends with `r`. -/
def Silent (m : Cmd κ β S α) (s : S) (r : Option (α × S)) : Prop := m s = .pure r

namespace Silent

theorem pure (a : α) (s : S) : Silent (Pure.pure a : Cmd κ β S α) s (some (a, s)) := rfl

theorem bind (h : Silent m s (some (a, s'))) (h' : Silent (f a) s' r) : Silent (m >>= f) s r := by
  have h : m s = .pure (some (a, s')) := h
  change (m s).bind _ = _
  rw [h]
  exact h'

theorem getState {f : S → Cmd κ β S γ} (h : Silent (f s) s r) :
    Silent ((Cmd.getState : Cmd κ β S S) >>= f) s r :=
  bind (show Silent Cmd.getState s (some (s, s)) from rfl) h

theorem modifyState (g : S → S) : Silent (Cmd.modifyState g : Cmd κ β S Unit) s (some ((), g s)) := rfl

theorem ofOption {o : Option α} (h : o = some a) :
    Silent (Cmd.ofOption o : Cmd κ β S α) s (some (a, s)) := by
  subst h
  rfl

/-- On any store. -/
theorem run {σ : Type} [Store σ κ β] (h : Silent m s (some (a, s'))) (d : σ) :
    m.run s d = some (a, s', d) := by
  have h : m s = .pure (some (a, s')) := h
  unfold Cmd.run
  rw [h]
  rfl

end Silent

end Storage.Cmd

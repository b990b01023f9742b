/-
Partial correctness of commands (Command.lean): what holds after a command that
returns, from what held before it. There is one rule for each way to build a
command.
-/
import MyShell.Lib.Command

namespace Storage.Cmd

variable {κ β S T α γ : Type} [DecidableEq κ]

/-- If `P` holds before the command and it returns, `Q` holds of its answer and
of what it leaves. -/
def Ensures (P : S → (κ → β) → Prop) (m : Cmd κ β S α) (Q : α → S → (κ → β) → Prop) : Prop :=
  ∀ s v a s' v', P s v → m.exec s v = some (a, s', v') → Q a s' v'

namespace Ensures

variable {P P' : S → (κ → β) → Prop} {m : Cmd κ β S α} {f : α → Cmd κ β S γ}
  {Q Q' : α → S → (κ → β) → Prop} {R : γ → S → (κ → β) → Prop}

theorem pure {a : α} (h : ∀ s v, P s v → Q a s v) : Ensures P (Pure.pure a) Q :=
  fun s v _ _ _ hp hexec => by
  cases hexec
  exact h s v hp

theorem fault : Ensures P (Cmd.fault : Cmd κ β S α) Q := fun _ _ _ _ _ _ hexec => by cases hexec

theorem bind (hm : Ensures P m Q) (hf : ∀ a, Ensures (Q a) (f a) R) : Ensures P (m >>= f) R :=
  fun s v c s' v' hp hexec => by
    rw [exec_bind, Option.bind_eq_some_iff] at hexec
    obtain ⟨⟨a, s₁, v₁⟩, hfirst, hrest⟩ := hexec
    exact hf a _ _ _ _ _ (hm _ _ _ _ _ hp hfirst) hrest

theorem weaken (h : Ensures P m Q) (hpre : ∀ s v, P' s v → P s v)
    (hpost : ∀ a s v, Q a s v → Q' a s v) :
    Ensures P' m Q' := fun s v a s' v' hp hexec => hpost a s' v' (h s v a s' v' (hpre s v hp) hexec)

theorem pre (h : Ensures P m Q) (hpre : ∀ s v, P' s v → P s v) : Ensures P' m Q :=
  h.weaken hpre fun _ _ _ => id

theorem post (h : Ensures P m Q) (hpost : ∀ a s v, Q a s v → Q' a s v) : Ensures P m Q' :=
  h.weaken (fun _ _ => id) hpost

/-- What holds before the command for any state may be assumed. -/
theorem assume {φ : Prop} (hφ : ∀ s v, P s v → φ) (h : φ → Ensures P m Q) : Ensures P m Q :=
  fun s v a s' v' hp => h (hφ s v hp) s v a s' v' hp

/-- The state that is read is the one that `P` holds of. -/
theorem getState {f : S → Cmd κ β S γ} (hf : ∀ s₀, Ensures (fun s v => s = s₀ ∧ P s v) (f s₀) R) :
    Ensures P (Cmd.getState >>= f) R := fun s v c s' v' hp hexec => by
  rw [exec_bind, exec_getState, Option.bind_some] at hexec
  exact hf s s v c s' v' ⟨rfl, hp⟩ hexec

theorem modifyState {g : S → S} {Q : Unit → S → (κ → β) → Prop} (h : ∀ s v, P s v → Q () (g s) v) :
    Ensures P (Cmd.modifyState g) Q := fun s v _ _ _ hp hexec => by
  cases hexec
  exact h s v hp

theorem ofOption {o : Option α} (h : ∀ a, o = some a → ∀ s v, P s v → Q a s v) :
    Ensures P (Cmd.ofOption o) Q := by
  cases o with
  | none => exact fault
  | some a => exact pure (h a rfl)

theorem read {k : κ} {Q : β → S → (κ → β) → Prop} (h : ∀ s v, P s v → Q (v k) s v) :
    Ensures P (Cmd.read k) Q :=
  fun s v _ _ _ hp hexec => by
    rw [exec_read] at hexec
    cases hexec
    exact h s v hp

theorem ite {c : Prop} [Decidable c] {m' : Cmd κ β S α} (h : c → Ensures P m Q)
    (h' : ¬ c → Ensures P m' Q) : Ensures P (if c then m else m') Q := by
  split
  · next hc => exact h hc
  · next hc => exact h' hc

/-- A command on a part of the state, whose answer satisfies `A`. -/
theorem zoom {get : S → T} {put : T → S → S} {n : Cmd κ β T α} {A : α → Prop}
    (hn : Ensures (fun _ _ => True) n fun a _ _ => A a)
    (h : ∀ a t s v v', P s v → A a → Q a (put t s) v') :
    Ensures P (Cmd.zoom get put n) Q := fun s v a s' v' hp hexec => by
  rw [exec_zoom, Option.map_eq_some_iff] at hexec
  obtain ⟨⟨a', t, v''⟩, hrun, hexec⟩ := hexec
  cases hexec
  exact h _ _ _ _ _ hp (hn _ _ _ _ _ trivial hrun)

end Ensures

/-- The command changes nothing: what holds before it holds after it. -/
def Reads (m : Cmd κ β S α) : Prop := ∀ P, Ensures P m fun _ => P

namespace Reads

theorem pure (a : α) : Reads (Pure.pure a : Cmd κ β S α) := fun _ => .pure fun _ _ => id

theorem fault : Reads (Cmd.fault : Cmd κ β S α) := fun _ => .fault

theorem bind {m : Cmd κ β S α} {f : α → Cmd κ β S γ} (hm : Reads m) (hf : ∀ a, Reads (f a)) :
    Reads (m >>= f) :=
  fun P => (hm P).bind fun a => hf a P

theorem ite {c : Prop} [Decidable c] {m m' : Cmd κ β S α} (h : Reads m) (h' : Reads m') :
    Reads (if c then m else m') :=
  fun P => .ite (fun _ => h P) fun _ => h' P

theorem ofOption (o : Option α) : Reads (Cmd.ofOption o : Cmd κ β S α) :=
  fun _ => .ofOption fun _ _ _ _ => id

theorem read (k : κ) : Reads (Cmd.read k : Cmd κ β S β) := fun _ => .read fun _ _ => id

theorem getState {f : S → Cmd κ β S γ} (hf : ∀ s, Reads (f s)) : Reads (Cmd.getState >>= f) :=
  fun P => .getState fun s => (hf s P).pre fun _ _ h => h.2

theorem exec {m : Cmd κ β S α} {s s' : S} {v v' : κ → β} {a : α} (hm : Reads m)
    (hexec : m.exec s v = some (a, s', v')) :
    s' = s ∧ v' = v := hm (fun t w => t = s ∧ w = v) s v a s' v' ⟨rfl, rfl⟩ hexec

end Reads

end Storage.Cmd

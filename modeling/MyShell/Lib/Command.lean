/-
Commands: programs over a store that also carry a state of their own and can
fault. On a plain map a command is a partial function of its state and the
map (`exec`); `exec_bind` and its companions run it symbolically.
-/
import MyShell.Lib.Storage

namespace Storage

/-- A command on a store with cells `κ → β` and its own state `S`; `none` is
a fault, from which nothing is promised. -/
def Cmd (κ β S α : Type) : Type := S → Prog κ β (Option (α × S))

namespace Cmd

variable {κ β S T α γ : Type}

protected def pure (a : α) : Cmd κ β S α := fun s => .pure (some (a, s))

protected def bind (m : Cmd κ β S α) (f : α → Cmd κ β S γ) : Cmd κ β S γ := fun s =>
  (m s).bind fun r => match r with
    | some (a, s') => f a s'
    | none => .pure none

instance : Monad (Cmd κ β S) where
  pure := Cmd.pure
  bind := Cmd.bind

def getState : Cmd κ β S S := fun s => .pure (some (s, s))

def setState (s : S) : Cmd κ β S Unit := fun _ => .pure (some ((), s))

def modifyState (f : S → S) : Cmd κ β S Unit := fun s => .pure (some ((), f s))

def fault : Cmd κ β S α := fun _ => .pure none

/-- A value that may be missing, whose absence is a fault. -/
def ofOption : Option α → Cmd κ β S α
  | some a => pure a
  | none => fault

/-- A program, as a command that leaves its own state alone. -/
def lift (p : Prog κ β α) : Cmd κ β S α := fun s => p.bind fun a => .pure (some (a, s))

/-- The contents of cell `k`. -/
def read (k : κ) : Cmd κ β S β := lift (.get k)

/-- Sets cell `k`. -/
def write (k : κ) (b : β) : Cmd κ β S Unit := lift (.put k b)

/-- A command on one part of the state. -/
def zoom (get : S → T) (put : T → S → S) (m : Cmd κ β T α) : Cmd κ β S α := fun s =>
  (m (get s)).bind fun r => .pure (r.map fun (a, t) => (a, put t s))

variable [DecidableEq κ]

/-- The command on a plain map: its answer, its state and the map after it. -/
def exec (m : Cmd κ β S α) (s : S) (v : κ → β) : Option (α × S × (κ → β)) :=
  ((m s).exec v).1.map fun (a, s') => (a, s', ((m s).exec v).2)

@[simp] theorem exec_pure (a : α) (s : S) (v : κ → β) :
    (pure a : Cmd κ β S α).exec s v = some (a, s, v) := rfl

@[simp] theorem exec_getState (s : S) (v : κ → β) :
    (getState : Cmd κ β S S).exec s v = some (s, s, v) := rfl

@[simp] theorem exec_setState (s s' : S) (v : κ → β) :
    (setState s' : Cmd κ β S Unit).exec s v = some ((), s', v) := rfl

@[simp] theorem exec_modifyState (f : S → S) (s : S) (v : κ → β) :
    (modifyState f : Cmd κ β S Unit).exec s v = some ((), f s, v) := rfl

@[simp] theorem exec_fault (s : S) (v : κ → β) : (fault : Cmd κ β S α).exec s v = none := rfl

@[simp] theorem exec_ofOption (o : Option α) (s : S) (v : κ → β) :
    (ofOption o : Cmd κ β S α).exec s v = o.map fun a => (a, s, v) := by
  cases o <;> rfl

@[simp] theorem exec_lift (p : Prog κ β α) (s : S) (v : κ → β) :
    (lift p : Cmd κ β S α).exec s v = some ((p.exec v).1, s, (p.exec v).2) := by
  have h := Prog.exec_bind p (fun a => (.pure (some (a, s)) : Prog κ β (Option (α × S)))) v
  change (p.bind _).exec v = _ at h
  simp only [exec, lift, h]
  rfl

@[simp] theorem exec_read (k : κ) (s : S) (v : κ → β) :
    (read k : Cmd κ β S β).exec s v = some (v k, s, v) := exec_lift _ _ _

@[simp] theorem exec_write (k : κ) (b : β) (s : S) (v : κ → β) :
    (write k b : Cmd κ β S Unit).exec s v = some ((), s, Function.update v k b) := exec_lift _ _ _

@[simp] theorem exec_bind (m : Cmd κ β S α) (f : α → Cmd κ β S γ) (s : S) (v : κ → β) :
    (m >>= f).exec s v = (m.exec s v).bind fun r => (f r.1).exec r.2.1 r.2.2 := by
  have h := Prog.exec_bind (m s) (fun r => match r with
    | some (a, s') => f a s'
    | none => (.pure none : Prog κ β (Option (γ × S)))) v
  change ((m s).bind _).exec v = _ at h
  change (Cmd.bind m f).exec s v = _
  simp only [exec, Cmd.bind, h]
  cases ((m s).exec v).1 with
  | none => rfl
  | some r => rfl

@[simp] theorem exec_zoom (get : S → T) (put : T → S → S) (m : Cmd κ β T α) (s : S) (v : κ → β) :
    (zoom get put m).exec s v = (m.exec (get s) v).map fun r => (r.1, put r.2.1 s, r.2.2) := by
  have h := Prog.exec_bind (m (get s))
    (fun r => (.pure (r.map fun (a, t) => (a, put t s)) : Prog κ β (Option (α × S)))) v
  change ((m (get s)).bind _).exec v = _ at h
  simp only [exec, zoom, h]
  cases ((m (get s)).exec v).1 with
  | none => rfl
  | some r => rfl

@[simp] theorem exec_ite {c : Prop} [Decidable c] (m n : Cmd κ β S α) (s : S) (v : κ → β) :
    (if c then m else n).exec s v = if c then m.exec s v else n.exec s v := by
  split <;> rfl

/-- The command on a store. -/
def run {σ : Type} [Store σ κ β] (m : Cmd κ β S α) (s : S) (d : σ) : Option (α × S × σ) :=
  ((m s).run d).1.map fun (a, s') => (a, s', ((m s).run d).2)

/-- A command on a store with a view is the command on the viewed map. -/
theorem run_exec {σ : Type} [Store σ κ β] (V : View σ) (m : Cmd κ β S α) (s : S) (d : σ) :
    (m.run s d).map (fun r => (r.1, r.2.1, V.view r.2.2)) = m.exec s (V.view d) := by
  simp only [run, exec, ← V.run_eq (m s) d, Option.map_map]
  rfl

/-! ## Commands without a state -/

/-- The command leaves its own state alone. -/
def Keeps (m : Cmd κ β S α) : Prop := ∀ s v a s' v', m.exec s v = some (a, s', v') → s' = s

theorem Keeps.pure (a : α) : Keeps (pure a : Cmd κ β S α) := by
  intro s v a' s' v' h
  cases h
  rfl

theorem Keeps.fault : Keeps (fault : Cmd κ β S α) := by
  intro s v a s' v' h
  cases h

theorem Keeps.read (k : κ) : Keeps (Cmd.read k : Cmd κ β S β) := by
  intro s v a s' v' h
  rw [exec_read] at h
  cases h
  rfl

theorem Keeps.write (k : κ) (b : β) : Keeps (Cmd.write k b : Cmd κ β S Unit) := by
  intro s v a s' v' h
  rw [exec_write] at h
  cases h
  rfl

theorem Keeps.bind {m : Cmd κ β S α} {f : α → Cmd κ β S γ} (hm : m.Keeps) (hf : ∀ a, (f a).Keeps) :
    (m >>= f).Keeps := by
  intro s v c s' v' h
  rw [exec_bind, Option.bind_eq_some_iff] at h
  obtain ⟨⟨a, s₁, v₁⟩, hfirst, hrest⟩ := h
  rw [hf a _ _ _ _ _ hrest, hm _ _ _ _ _ hfirst]

theorem Keeps.ite {c : Prop} [Decidable c] {m n : Cmd κ β S α} (hm : m.Keeps) (hn : n.Keeps) :
    (if c then m else n).Keeps := by
  split
  · exact hm
  · exact hn

/-! ## Invariants of the state -/

/-- Whatever the command returns, it keeps what holds of its state. -/
def Preserves (I : S → Prop) (m : Cmd κ β S α) : Prop :=
  ∀ s v a s' v', I s → m.exec s v = some (a, s', v') → I s'

section preserves

variable {I : S → Prop}

theorem Preserves.pure (a : α) : Preserves I (Pure.pure a : Cmd κ β S α) := fun _ _ _ _ _ hs h => by
  cases h
  exact hs

theorem Preserves.fault : Preserves I (fault : Cmd κ β S α) := fun _ _ _ _ _ _ h => by cases h

theorem Preserves.read (k : κ) : Preserves I (read k : Cmd κ β S β) := fun _ _ _ _ _ hs h => by
  rw [exec_read] at h
  cases h
  exact hs

theorem Preserves.setState {s : S} (hs : I s) : Preserves I (setState s : Cmd κ β S Unit) :=
  fun _ _ _ _ _ _ h => by
  cases h
  exact hs

theorem Preserves.modifyState {f : S → S} (hf : ∀ s, I s → I (f s)) :
    Preserves I (modifyState f : Cmd κ β S Unit) :=
  fun s _ _ _ _ hs h => by
    cases h
    exact hf s hs

theorem Preserves.ofOption (o : Option α) : Preserves I (ofOption o : Cmd κ β S α) := by
  cases o with
  | none => exact .fault
  | some a => exact .pure a

theorem Preserves.bind {m : Cmd κ β S α} {f : α → Cmd κ β S γ} (hm : m.Preserves I)
    (hf : ∀ a, (f a).Preserves I) : (m >>= f).Preserves I := fun s v c s' v' hs h => by
  rw [exec_bind, Option.bind_eq_some_iff] at h
  obtain ⟨⟨a, s₁, v₁⟩, hfirst, hrest⟩ := h
  exact hf a _ _ _ _ _ (hm _ _ _ _ _ hs hfirst) hrest

/-- What is made of the state is made of one that it holds of. -/
theorem Preserves.getState {f : S → Cmd κ β S γ} (hf : ∀ s, I s → (f s).Preserves I) :
    ((getState : Cmd κ β S S) >>= f).Preserves I := fun s v c s' v' hs h => by
  rw [exec_bind, exec_getState, Option.bind_some] at h
  exact hf s hs _ _ _ _ _ hs h

theorem Preserves.zoom {get : S → T} {put : T → S → S} {m : Cmd κ β T α}
    (hput : ∀ t s, I s → I (put t s)) : (zoom get put m).Preserves I := fun s v a s' v' hs h => by
  rw [exec_zoom, Option.map_eq_some_iff] at h
  obtain ⟨⟨a', t, v''⟩, -, h⟩ := h
  cases h
  exact hput t s hs

theorem Preserves.keeps {m : Cmd κ β S α} (hm : m.Keeps) : m.Preserves I := fun s v a s' v' hs h => by
  rw [hm s v a s' v' h]
  exact hs

end preserves

end Cmd

end Storage

/-
Programs over a store of numbered cells, and what it takes for one store to
stand for another.

A `Prog` reads and writes cells and knows nothing of how they are kept. It
runs on any `Store`; on a plain map from keys to contents it is `exec`. A
store whose contents can be read off as such a map (`View`) gives every
program the answers the map gives and ends with the map the program ends with
(`View.run_eq`), so what is proved of `exec` holds of every store with a view.
-/
import Mathlib.Logic.Function.Basic

namespace Storage

variable {κ β α γ : Type}

/-- A program that reads and writes cells of a store. -/
inductive Prog (κ β α : Type) : Type where
  | pure (a : α)
  | read (k : κ) (cont : β → Prog κ β α)
  | write (k : κ) (b : β) (next : Prog κ β α)

namespace Prog

def bind : Prog κ β α → (α → Prog κ β γ) → Prog κ β γ
  | .pure a, f => f a
  | .read k cont, f => .read k fun b => (cont b).bind f
  | .write k b next, f => .write k b (next.bind f)

instance : Monad (Prog κ β) where
  pure := .pure
  bind := .bind

/-- The contents of cell `k`. -/
def get (k : κ) : Prog κ β β := .read k .pure

/-- Sets cell `k`. -/
def put (k : κ) (b : β) : Prog κ β Unit := .write k b (.pure ())

theorem bind_pure (p : Prog κ β α) : p.bind .pure = p := by
  induction p with
  | pure a => rfl
  | read k cont ih => simp only [bind, ih]
  | write k b next ih => simp only [bind, ih]

theorem bind_assoc {δ : Type} (p : Prog κ β α) (f : α → Prog κ β γ) (g : γ → Prog κ β δ) :
    (p.bind f).bind g = p.bind fun a => (f a).bind g := by
  induction p with
  | pure a => rfl
  | read k cont ih => simp only [bind, ih]
  | write k b next ih => simp only [bind, ih]

instance : LawfulMonad (Prog κ β) :=
  LawfulMonad.mk' _ (fun p => bind_pure p) (fun _ _ => rfl) (fun p f g => bind_assoc p f g)

/-! ## On a plain map -/

variable [DecidableEq κ]

/-- The program on a map from keys to contents. -/
def exec : Prog κ β α → (κ → β) → α × (κ → β)
  | .pure a, m => (a, m)
  | .read k cont, m => (cont (m k)).exec m
  | .write k b next, m => next.exec (Function.update m k b)

@[simp] theorem exec_pure (a : α) (m : κ → β) : (Pure.pure a : Prog κ β α).exec m = (a, m) := rfl

@[simp] theorem exec_get (k : κ) (m : κ → β) : (get k : Prog κ β β).exec m = (m k, m) := rfl

@[simp] theorem exec_put (k : κ) (b : β) (m : κ → β) :
    (put k b).exec m = ((), Function.update m k b) := rfl

@[simp] theorem exec_bind (p : Prog κ β α) (f : α → Prog κ β γ) (m : κ → β) :
    (p >>= f).exec m = (f (p.exec m).1).exec (p.exec m).2 := by
  change (p.bind f).exec m = _
  induction p generalizing m with
  | pure a => rfl
  | read k cont ih => simp only [bind, exec, ih]
  | write k b next ih => simp only [bind, exec, ih]

@[simp] theorem exec_map (p : Prog κ β α) (f : α → γ) (m : κ → β) :
    (f <$> p).exec m = (f (p.exec m).1, (p.exec m).2) := by
  rw [← bind_pure_comp, exec_bind, exec_pure]

end Prog

/-! ## On a store -/

/-- A store of cells that answers reads, changing state as it does. -/
class Store (σ : Type) (κ β : outParam Type) where
  read : σ → κ → β × σ
  write : σ → κ → β → σ

/-- The program on a store. -/
def Prog.run {σ : Type} [Store σ κ β] : Prog κ β α → σ → α × σ
  | .pure a, s => (a, s)
  | .read k cont, s => (cont (Store.read s k).1).run (Store.read s k).2
  | .write k b next, s => next.run (Store.write s k b)

/-- A reading of a store as a plain map that its operations keep. -/
structure View (σ : Type) {κ β : Type} [DecidableEq κ] [Store σ κ β] where
  view : σ → κ → β
  read_fst : ∀ s k, (Store.read s k).1 = view s k
  read_view : ∀ s k, view (Store.read s k).2 = view s
  write_view : ∀ s k b, view (Store.write s k b) = Function.update (view s) k b

namespace View

variable {σ : Type} [DecidableEq κ] [Store σ κ β] (V : View σ)

/-- A program on a store with a view is the program on the viewed map. -/
theorem run_eq (p : Prog κ β α) (s : σ) :
    ((p.run s).1, V.view (p.run s).2) = p.exec (V.view s) := by
  induction p generalizing s with
  | pure a => rfl
  | read k cont ih => simp only [Prog.run, Prog.exec, ih, V.read_view, V.read_fst]
  | write k b next ih => simp only [Prog.run, Prog.exec, ih, V.write_view]

end View

end Storage

/-
Arrays that grow: a write past the end makes the array longer, and the places
that no write reached hold zero.
-/
import Mathlib.Data.List.GetD
import Mathlib.Data.List.MinMax

/-- An array of some length, zero beyond it. -/
structure Growable (α : Type) [Zero α] where
  length : Nat
  get : Nat → α
  tail : ∀ pos, length ≤ pos → get pos = 0

namespace Growable

variable {α : Type} [Zero α]

/-- `n` zeros. -/
def zeros (n : Nat) : Growable α := ⟨n, fun _ => 0, fun _ _ => rfl⟩

/-- The list, and zeros up to length `n`. -/
def ofList (n : Nat) (xs : List α) (h : xs.length ≤ n) : Growable α where
  length := n
  get pos := xs.getD pos 0
  tail pos hpos := List.getD_eq_default _ _ (by omega)

def write (a : Growable α) (ofs : Nat) (xs : List α) : Growable α where
  length := max a.length (ofs + xs.length)
  get pos := if ofs ≤ pos ∧ pos < ofs + xs.length then xs.getD (pos - ofs) 0 else a.get pos
  tail pos hpos := by
    rw [if_neg (by omega)]
    exact a.tail pos (by omega)

/-- At most `size` elements from `ofs` on. -/
def read (a : Growable α) (size ofs : Nat) : List α :=
  (List.range (min size (a.length - ofs))).map fun k => a.get (ofs + k)

@[simp] theorem length_zeros (n : Nat) : (zeros n : Growable α).length = n := rfl

@[simp] theorem get_zeros (n pos : Nat) : (zeros n : Growable α).get pos = 0 := rfl

@[simp] theorem length_write (a : Growable α) (ofs : Nat) (xs : List α) :
    (a.write ofs xs).length = max a.length (ofs + xs.length) := rfl

theorem get_write (a : Growable α) (ofs : Nat) (xs : List α) (pos : Nat) : (a.write ofs xs).get pos =
    if ofs ≤ pos ∧ pos < ofs + xs.length then xs.getD (pos - ofs) 0 else a.get pos := rfl

@[simp] theorem length_read (a : Growable α) (size ofs : Nat) :
    (a.read size ofs).length = min size (a.length - ofs) := by
  simp [read]

theorem getElem_read (a : Growable α) {size ofs k : Nat} (hk : k < (a.read size ofs).length) :
    (a.read size ofs)[k] = a.get (ofs + k) := by
  simp [read]

theorem read_write (a : Growable α) (ofs : Nat) (xs : List α) :
    (a.write ofs xs).read xs.length ofs = xs := by
  refine List.ext_getElem (by simp; omega) fun k hk hk' => ?_
  rw [getElem_read, get_write, if_pos (by omega), Nat.add_sub_cancel_left, List.getD_eq_getElem _ _ hk']

/-- The last element after a write that ends with a zero. -/
theorem last_write {a : Growable α} (hlast : a.length ≠ 0 → a.get (a.length - 1) = 0) (ofs : Nat)
    (xs : List α) : (a.write ofs (xs ++ [0])).get ((a.write ofs (xs ++ [0])).length - 1) = 0 := by
  rw [length_write, get_write, List.length_append, List.length_singleton]
  rcases Nat.lt_or_ge (ofs + (xs.length + 1)) a.length with hlt | hle
  · rw [Nat.max_eq_left hlt.le, if_neg (by omega)]
    exact hlast (by omega)
  · rw [Nat.max_eq_right hle, if_pos (by omega), List.getD_append_right _ _ _ _ (by omega),
      show ofs + (xs.length + 1) - 1 - ofs - xs.length = 0 by omega]
    rfl

/-- A shorter read of an array that ends before the longer read does. -/
theorem read_eq_take {a : Growable α} {size ofs : Nat} (h : a.length ≤ ofs + size) (k : Nat) :
    a.read k ofs = (a.read size ofs).take k := by
  rw [read, read, ← List.map_take, List.take_range, Nat.min_eq_right (by omega : a.length - ofs ≤ size)]

theorem read_write_of_disjoint {a : Growable α} {ofs pos size : Nat} {xs : List α}
    (hle : pos + size ≤ a.length) (hne : pos + size ≤ ofs ∨ ofs + xs.length ≤ pos) :
    (a.write ofs xs).read size pos = a.read size pos := by
  have hmin : min size ((a.write ofs xs).length - pos) = min size (a.length - pos) := by
    rw [length_write]
    omega
  rw [read, read, hmin]
  refine List.map_congr_left fun k hk => ?_
  have := List.mem_range.1 hk
  rw [get_write, if_neg (by omega)]

end Growable

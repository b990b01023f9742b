/-
Heaps of allocated objects, newest first. A pointer is a number that is never
given out twice, so the pointer to a freed object points to nothing, whatever
is allocated after.
-/
import Mathlib.Data.List.Nodup
import Mathlib.Tactic.Common

abbrev Ptr := Nat

/-- Allocated objects, each under its own pointer. -/
@[ext] structure Heap (α : Type) where
  next : Ptr
  cells : List (Ptr × α)
  fresh : ∀ x ∈ cells, x.1 < next
  nodup : (cells.map Prod.fst).Nodup

namespace Heap

variable {α : Type}

def empty : Heap α := ⟨0, [], by simp, by simp⟩

instance : Inhabited (Heap α) := ⟨empty⟩

/-- The object under a pointer. -/
def get (h : Heap α) (p : Ptr) : Option α := (h.cells.find? fun x => x.1 = p).map Prod.snd

/-- A new object; its pointer is `h.next`. -/
def alloc (h : Heap α) (a : α) : Heap α where
  next := h.next + 1
  cells := (h.next, a) :: h.cells
  fresh x hx := by
    rcases List.mem_cons.1 hx with rfl | hx
    · exact Nat.lt_succ_self _
    · exact Nat.lt_succ_of_lt (h.fresh x hx)
  nodup := by
    rw [List.map_cons, List.nodup_cons]
    refine ⟨fun hm => ?_, h.nodup⟩
    obtain ⟨x, hx, he⟩ := List.mem_map.1 hm
    exact absurd (h.fresh x hx) (he ▸ Nat.lt_irrefl _)

/-- Changes the object under `p`, if there is one. -/
def modify (h : Heap α) (p : Ptr) (f : α → α) : Heap α where
  next := h.next
  cells := h.cells.map fun x => if x.1 = p then (x.1, f x.2) else x
  fresh x hx := by
    obtain ⟨y, hy, rfl⟩ := List.mem_map.1 hx
    have := h.fresh y hy
    split <;> exact this
  nodup := by
    rw [List.map_map]
    have : (Prod.fst ∘ fun x : Ptr × α => if x.1 = p then (x.1, f x.2) else x) = Prod.fst := by
      funext x; simp only [Function.comp_apply]; split <;> rfl
    rw [this]; exact h.nodup

def free (h : Heap α) (p : Ptr) : Heap α where
  next := h.next
  cells := h.cells.filter fun x => x.1 ≠ p
  fresh x hx := h.fresh x (List.mem_filter.1 hx).1
  nodup := h.nodup.sublist (List.filter_sublist.map _)

theorem cells_free (h : Heap α) (p : Ptr) : (h.free p).cells = h.cells.filter fun x => x.1 ≠ p := rfl

theorem mem_of_get {h : Heap α} {p : Ptr} {a : α} (hg : h.get p = some a) : (p, a) ∈ h.cells := by
  rw [get, Option.map_eq_some_iff] at hg
  obtain ⟨⟨q, b⟩, hf, rfl⟩ := hg
  have hq : q = p := by simpa using List.find?_some hf
  subst hq
  exact List.mem_of_find?_eq_some hf

theorem get_of_mem {h : Heap α} {p : Ptr} {a : α} (hm : (p, a) ∈ h.cells) : h.get p = some a := by
  have hn := h.nodup
  rw [get]
  generalize h.cells = l at hm hn
  induction l with
  | nil => cases hm
  | cons x l ih =>
    rw [List.map_cons, List.nodup_cons] at hn
    rcases List.mem_cons.1 hm with rfl | hm
    · simp
    · have hx : x.1 ≠ p := by rintro rfl; exact hn.1 (List.mem_map.2 ⟨_, hm, rfl⟩)
      simpa [List.find?_cons, hx] using ih hm hn.2

theorem mem_cells {h : Heap α} {p : Ptr} {a : α} : (p, a) ∈ h.cells ↔ h.get p = some a :=
  ⟨get_of_mem, mem_of_get⟩

theorem get_next (h : Heap α) : h.get h.next = none := by
  cases hg : h.get h.next with
  | none => rfl
  | some a => exact absurd (h.fresh _ (mem_of_get hg)) (Nat.lt_irrefl _)

theorem get_alloc (h : Heap α) (a : α) (p : Ptr) :
    (h.alloc a).get p = if p = h.next then some a else h.get p := by
  rw [get, alloc, List.find?_cons]
  by_cases hp : p = h.next
  · simp [hp]
  · simp [hp, Ne.symm hp, get]

theorem get_modify (h : Heap α) (p : Ptr) (f : α → α) (q : Ptr) :
    (h.modify p f).get q = if q = p then (h.get p).map f else h.get q := by
  simp only [get, modify]
  induction h.cells with
  | nil => simp
  | cons x l ih =>
    rw [List.map_cons, List.find?_cons, List.find?_cons, List.find?_cons]
    have hfst : (if x.1 = p then (x.1, f x.2) else x).1 = x.1 := by split <;> rfl
    rw [hfst]
    by_cases hxq : x.1 = q
    · subst hxq
      by_cases hxp : x.1 = p
      · simp [hxp]
      · simp [hxp]
    · by_cases hxp : x.1 = p
      · subst hxp
        have hq : ¬ q = x.1 := Ne.symm hxq
        simpa [hxq, hq] using ih
      · simpa [hxq, hxp] using ih

theorem get_modify_iff {m : Heap α} {p p' : Ptr} {f : α → α} {a b : α} (hp : m.get p = some a) :
    (m.modify p f).get p' = some b ↔ if p' = p then b = f a else m.get p' = some b := by
  rw [get_modify]
  split
  · rw [hp, Option.map_some, Option.some.injEq, eq_comm]
  · rfl

/-- The object is set to what it is. -/
theorem modify_same {h : Heap α} {p : Ptr} {a : α} (hg : h.get p = some a) :
    h.modify p (fun _ => a) = h := by
  refine Heap.ext rfl ((List.map_congr_left fun x hx => ?_).trans (List.map_id _))
  split
  · next hp =>
    have hx : h.get x.1 = some x.2 := get_of_mem hx
    rw [hp, hg] at hx
    rw [Option.some.inj hx]
    rfl
  · rfl

theorem get_free (h : Heap α) (p q : Ptr) : (h.free p).get q = if q = p then none else h.get q := by
  cases hg : (h.free p).get q with
  | none =>
    by_cases hq : q = p
    · rw [if_pos hq]
    · rw [if_neg hq]
      cases hg' : h.get q with
      | none => rfl
      | some a =>
        have hm : (q, a) ∈ (h.free p).cells := List.mem_filter.2 ⟨mem_of_get hg', by simpa using hq⟩
        rw [get_of_mem hm] at hg
        cases hg
  | some a =>
    obtain ⟨hm, hq⟩ := List.mem_filter.1 (mem_of_get hg)
    have hq : q ≠ p := by simpa using hq
    rw [if_neg hq, get_of_mem hm]

@[simp] theorem get_empty (p : Ptr) : (empty : Heap α).get p = none := rfl

/-! ## One object and the others -/

/-- The objects are the one under `p` and those that stay when it is freed. -/
theorem cells_perm {h : Heap α} {p : Ptr} {a : α} (hg : h.get p = some a) :
    h.cells.Perm ((p, a) :: (h.free p).cells) := by
  have hm := mem_of_get hg
  have hn := h.nodup
  simp only [free]
  generalize h.cells = l at hm hn
  induction l with
  | nil => cases hm
  | cons x l ih =>
    rw [List.map_cons, List.nodup_cons] at hn
    rcases List.mem_cons.1 hm with rfl | hm
    · have hl : l.filter (fun y => decide (y.1 ≠ p)) = l := by
        refine List.filter_eq_self.2 fun y hy => ?_
        have hne : y.1 ≠ p := by rintro rfl; exact hn.1 (List.mem_map.2 ⟨y, hy, rfl⟩)
        simpa using hne
      rw [List.filter_cons_of_neg (by simp), hl]
    · have hx : x.1 ≠ p := by rintro rfl; exact hn.1 (List.mem_map.2 ⟨_, hm, rfl⟩)
      rw [List.filter_cons_of_pos (by simpa using hx)]
      exact ((ih hm hn.2).cons x).trans (.swap _ _ _)

theorem cells_free_of_none {h : Heap α} {p : Ptr} (hg : h.get p = none) :
    (h.free p).cells = h.cells := by
  refine List.filter_eq_self.2 fun x hx => ?_
  have hne : x.1 ≠ p := by
    rintro rfl
    rw [get_of_mem hx] at hg
    cases hg
  simpa using hne

theorem free_modify (h : Heap α) (p : Ptr) (f : α → α) : (h.modify p f).free p = h.free p := by
  refine Heap.ext rfl ?_
  simp only [free, modify]
  induction h.cells with
  | nil => rfl
  | cons x l ih =>
    by_cases hx : x.1 = p
    · rw [List.map_cons, if_pos hx, List.filter_cons_of_neg (by simpa using hx), ih,
        List.filter_cons_of_neg (by simpa using hx)]
    · rw [List.map_cons, if_neg hx, List.filter_cons_of_pos (by simpa using hx), ih,
        List.filter_cons_of_pos (by simpa using hx)]

theorem free_free (h : Heap α) (p q : Ptr) : (h.free p).free q = (h.free q).free p := by
  refine Heap.ext rfl ?_
  simp only [free, List.filter_filter, Bool.and_comm]

theorem cells_free_alloc (h : Heap α) (a : α) {p : Ptr} (hp : p ≠ h.next) :
    ((h.alloc a).free p).cells = (h.next, a) :: (h.free p).cells := by
  simp [free, alloc, Ne.symm hp]

theorem cells_alloc_free (h : Heap α) (a : α) : ((h.alloc a).free h.next).cells = h.cells := by
  have hg := h.get_next
  rw [← cells_free_of_none hg]
  simp [free, alloc]

end Heap

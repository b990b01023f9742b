/-
Frames: which lines of the shell memory hold which pages. A page in memory
has a frame of its own, three lines from a multiple of three on, and all lines
outside these frames are free; so `frame_alloc` finds a frame exactly while
there are fewer pages in memory than frames.
-/
import MyShell.Paging.Pcb
import MyShell.Lib.DemandPaging
import MyShell.Lib.Heap
import Mathlib.Data.List.Perm.Subperm

namespace MyShell.Paging

open DemandPaging (pages)

theorem pidStr_ne_vacant (pid : Nat) : pidStr pid ≠ vacant := by
  intro h
  have hdigit : 'n'.isDigit = true := by
    refine Nat.isDigit_of_mem_toDigits (b := 10) (n := pid) (by decide) (by decide) ?_
    rw [← Nat.toList_repr, show pid.repr.toList = vacant from h]
    decide
  exact absurd hdigit (by decide)

theorem pageTableSize_eq (n : Nat) : pageTableSize n = pages n := by
  rw [pageTableSize, pages]
  split <;> omega

/-- The pages in memory, each in its frame. -/
structure Frames (size : Nat) (frame : Ptr × Nat → Nat) (recent : List (Ptr × Nat)) (m : Memory) :
    Prop where
  nodup : recent.Nodup
  lt : ∀ x ∈ recent, frame x < size / 3
  inj : ∀ x ∈ recent, ∀ y ∈ recent, frame x = frame y → x = y
  used : ∀ x ∈ recent, ∀ pos, pos / 3 = frame x → (m pos).var ≠ vacant
  free : ∀ pos < size, (m pos).var ≠ vacant → ∃ x ∈ recent, frame x = pos / 3

namespace Frames

variable {size : Nat} {frame : Ptr × Nat → Nat} {recent : List (Ptr × Nat)} {m : Memory}

theorem map_nodup (h : Frames size frame recent m) : (recent.map frame).Nodup :=
  h.nodup.map_on fun x hx y hy he => h.inj x hx y hy he

theorem map_lt (h : Frames size frame recent m) : recent.map frame ⊆ List.range (size / 3) :=
  fun f hf => by
  obtain ⟨x, hx, rfl⟩ := List.mem_map.1 hf
  exact List.mem_range.2 (h.lt x hx)

theorem exists_free (frame : Ptr × Nat → Nat) (hlt : recent.length < size / 3) :
    ∃ f < size / 3, ∀ x ∈ recent, frame x ≠ f := by
  by_contra hno
  have hsub : List.range (size / 3) ⊆ recent.map frame := fun f hf => by
    by_contra hf'
    exact hno ⟨f, List.mem_range.1 hf, fun x hx he => hf' (List.mem_map.2 ⟨x, hx, he⟩)⟩
  have := (List.subperm_of_subset List.nodup_range hsub).length_le
  simp at this
  omega

theorem all_used (h : Frames size frame recent m) (hfull : recent.length = size / 3) {f : Nat}
    (hf : f < size / 3) : ∃ x ∈ recent, frame x = f := by
  have hperm := (List.subperm_of_subset h.map_nodup h.map_lt).perm_of_length_le (by simp [hfull])
  exact List.mem_map.1 (hperm.mem_iff.2 (List.mem_range.2 hf))

theorem frameFree_iff {i : Nat} :
    frameFree size m i = true ↔ i + 3 ≤ size ∧ ∀ j < 3, (m (i + j)).var = vacant := by
  have hall : (∀ j < 3, (m (i + j)).var = vacant) ↔
      (m i).var = vacant ∧ (m (i + 1)).var = vacant ∧ (m (i + 2)).var = vacant :=
    ⟨fun h => ⟨h 0 (by omega), h 1 (by omega), h 2 (by omega)⟩, fun ⟨h0, h1, h2⟩ j hj => by
      match j, hj with
      | 0, _ => exact h0
      | 1, _ => exact h1
      | 2, _ => exact h2⟩
  rw [hall]
  simp [frameFree]

/-- A frame that no page has is free. -/
theorem frameFree_of_unused (h : Frames size frame recent m) {f : Nat} (hf : f < size / 3)
    (hunused : ∀ x ∈ recent, frame x ≠ f) : frameFree size m (3 * f) = true := by
  refine frameFree_iff.2 ⟨by omega, fun j hj => ?_⟩
  by_contra hv
  obtain ⟨x, hx, he⟩ := h.free (3 * f + j) (by omega) hv
  exact hunused x hx (by omega)

theorem unused_of_frameFree (h : Frames size frame recent m) {i : Nat}
    (hi : frameFree size m i = true) : ∀ x ∈ recent, frame x ≠ i / 3 := fun x hx he =>
  h.used x hx i he.symm ((frameFree_iff.1 hi).2 0 (by omega))

/-- The lines of a frame, taken for a process. -/
def taken (m : Memory) (start : Nat) (pid : Text) : Memory := fun k =>
  if start ≤ k ∧ k < start + 3 then { m k with var := pid } else m k

theorem alloc (h : Frames size frame recent m) (hlt : recent.length < size / 3) (pid : Text) :
    ∃ f < size / 3, (∀ x ∈ recent, frame x ≠ f) ∧
      frameAlloc size pid m = some (3 * f, taken m (3 * f) pid) := by
  obtain ⟨f₀, hf₀, hunused₀⟩ := exists_free frame hlt
  cases hfind : (List.range size).find? (frameFree size m) with
  | none =>
    have hnone := List.find?_eq_none.1 hfind (3 * f₀) (List.mem_range.2 (by omega))
    exact absurd (h.frameFree_of_unused hf₀ hunused₀) hnone
  | some i =>
    obtain ⟨hi, hrange, hfirst⟩ := List.find?_range_eq_some.1 hfind
    have hunused := h.unused_of_frameFree hi
    have hsize := (frameFree_iff.1 hi).1
    -- an earlier line of the same frame would have been found first
    have hstart : i = 3 * (i / 3) := by
      by_contra hne
      have := hfirst (3 * (i / 3)) (by omega)
      rw [h.frameFree_of_unused (by omega) hunused] at this
      cases this
    refine ⟨i / 3, by omega, hunused, ?_⟩
    rw [frameAlloc, hfind, ← hstart]
    rfl

theorem alloc_none (h : Frames size frame recent m) (hfull : recent.length = size / 3) (pid : Text) :
    frameAlloc size pid m = none := by
  rw [frameAlloc, Option.map_eq_none_iff, List.find?_eq_none]
  intro i _ hi
  obtain ⟨x, hx, he⟩ := h.all_used hfull (f := i / 3) (by have := (frameFree_iff.1 hi).1; omega)
  exact h.unused_of_frameFree hi x hx he

/-- A page more, in a frame that was free; only the lines of the frame change. -/
theorem add (h : Frames size frame recent m) {x : Ptr × Nat} {f : Nat} {m' : Memory}
    (hx : x ∉ recent) (hf : f < size / 3) (hunused : ∀ y ∈ recent, frame y ≠ f)
    (hused : ∀ pos, pos / 3 = f → (m' pos).var ≠ vacant)
    (hkeep : ∀ pos, pos / 3 ≠ f → m' pos = m pos) :
    Frames size (Function.update frame x f) (x :: recent) m' := by
  have hne : ∀ y ∈ recent, Function.update frame x f y = frame y := fun y hy =>
    Function.update_of_ne (by rintro rfl; exact hx hy) _ _
  have hself : Function.update frame x f x = f := Function.update_self ..
  refine ⟨List.nodup_cons.2 ⟨hx, h.nodup⟩, ?_, ?_, ?_, ?_⟩
  · intro y hy
    rcases List.mem_cons.1 hy with rfl | hy
    · rwa [hself]
    · rw [hne y hy]
      exact h.lt y hy
  · intro y hy z hz he
    rcases List.mem_cons.1 hy with hy | hy <;> rcases List.mem_cons.1 hz with hz | hz
    · rw [hy, hz]
    · rw [hy, hself, hne z hz] at he
      exact absurd he.symm (hunused z hz)
    · rw [hz, hself, hne y hy] at he
      exact absurd he (hunused y hy)
    · rw [hne y hy, hne z hz] at he
      exact h.inj y hy z hz he
  · intro y hy pos hpos
    rcases List.mem_cons.1 hy with rfl | hy
    · exact hused pos (hpos.trans hself)
    · rw [hne y hy] at hpos
      rw [hkeep pos (hpos ▸ hunused y hy)]
      exact h.used y hy pos hpos
  · intro pos hpos hv
    by_cases he : pos / 3 = f
    · exact ⟨x, List.mem_cons_self, hself.trans he.symm⟩
    · rw [hkeep pos he] at hv
      obtain ⟨y, hy, hye⟩ := h.free pos hpos hv
      exact ⟨y, List.mem_cons_of_mem _ hy, (hne y hy).trans hye⟩

/-- A page less; the lines of its frame are free. -/
theorem remove (h : Frames size frame recent m) {x : Ptr × Nat} {recent' : List (Ptr × Nat)}
    {m' : Memory} (hperm : recent.Perm (x :: recent'))
    (hfree : ∀ pos, pos / 3 = frame x → (m' pos).var = vacant)
    (hkeep : ∀ pos, pos / 3 ≠ frame x → m' pos = m pos) : Frames size frame recent' m' := by
  have hmem : ∀ y ∈ recent', y ∈ recent := fun y hy => hperm.mem_iff.2 (List.mem_cons_of_mem _ hy)
  have hx : x ∈ recent := hperm.mem_iff.2 List.mem_cons_self
  obtain ⟨hnot, hnodup⟩ := List.nodup_cons.1 (hperm.nodup_iff.1 h.nodup)
  have hother : ∀ y ∈ recent', frame y ≠ frame x :=
    fun y hy he => hnot (h.inj y (hmem y hy) x hx he ▸ hy)
  refine ⟨hnodup, fun y hy => h.lt y (hmem y hy),
    fun y hy z hz => h.inj y (hmem y hy) z (hmem z hz), ?_, ?_⟩
  · intro y hy pos hpos
    rw [hkeep pos (hpos ▸ hother y hy)]
    exact h.used y (hmem y hy) pos hpos
  · intro pos hpos hv
    have hne : pos / 3 ≠ frame x := fun he => hv (hfree pos he)
    rw [hkeep pos hne] at hv
    obtain ⟨y, hy, he⟩ := h.free pos hpos hv
    rcases List.mem_cons.1 (hperm.mem_iff.1 hy) with rfl | hy
    · exact absurd he.symm hne
    · exact ⟨y, hy, he⟩

theorem perm (h : Frames size frame recent m) {recent' : List (Ptr × Nat)} (hp : recent.Perm recent') :
    Frames size frame recent' m where
  nodup := hp.nodup_iff.1 h.nodup
  lt x hx := h.lt x (hp.mem_iff.2 hx)
  inj x hx y hy := h.inj x (hp.mem_iff.2 hx) y (hp.mem_iff.2 hy)
  used x hx := h.used x (hp.mem_iff.2 hx)
  free pos hpos hv := by
    obtain ⟨x, hx, he⟩ := h.free pos hpos hv
    exact ⟨x, hp.mem_iff.1 hx, he⟩

theorem congr (h : Frames size frame recent m) {m' : Memory} (hm : ∀ pos < size, m' pos = m pos) :
    Frames size frame recent m' where
  nodup := h.nodup
  lt := h.lt
  inj := h.inj
  used x hx pos hpos := by
    have := h.lt x hx
    rw [hm pos (by omega)]
    exact h.used x hx pos hpos
  free pos hpos := by
    rw [hm pos hpos]
    exact h.free pos hpos

end Frames

end MyShell.Paging

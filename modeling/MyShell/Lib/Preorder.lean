/-
Trees of blocks whose blocks have consecutive numbers, each list before the
blocks that it lists. From one data block to the next there are at most as many
numbers as there are levels in the tree, and one more where a new tree begins
(`Laid.spaced`, `LaidF.spaced`).
-/
import MyShell.Lib.BlockTree

namespace BlockTree

/-- Numbers of `m` data blocks: the first is at most `d` behind `a`, the last is
in front of `b`, and each is behind the one before it, by `g` at most. -/
structure Spaced (D : Nat → Nat) (m a b d g : Nat) : Prop where
  start : a ≤ D 0
  near : D 0 ≤ a + d
  last : D (m - 1) + 1 = b
  step : ∀ i, i + 1 < m → D i < D (i + 1) ∧ D (i + 1) ≤ D i + g

section spaced

variable {D D' : Nat → Nat} {m m' a b c d d' g g' : Nat}

theorem Spaced.mono (h : Spaced D m a b d g) (hd : d ≤ d') (hg : g ≤ g') : Spaced D m a b d' g' :=
  ⟨h.start, h.near.trans (Nat.add_le_add_left hd a), h.last,
    fun i hi => ⟨(h.step i hi).1, (h.step i hi).2.trans (by omega)⟩⟩

theorem Spaced.congr (h : Spaced D m a b d g) (hm : 0 < m) (hD : ∀ i < m, D' i = D i) :
    Spaced D' m a b d g := by
  refine ⟨by rw [hD 0 hm]; exact h.start, by rw [hD 0 hm]; exact h.near,
    by rw [hD _ (by omega)]; exact h.last, fun i hi => ?_⟩
  rw [hD i (by omega), hD (i + 1) hi]
  exact h.step i hi

/-- One after the other. -/
theorem Spaced.append (h : Spaced D m a c d g) (h' : Spaced D' m' c b d' g) (hm : 0 < m)
    (hm' : 0 < m') (hg : d' + 1 ≤ g) :
    Spaced (fun i => if i < m then D i else D' (i - m)) (m + m') a b d g := by
  have hfirst (i : Nat) (hi : i < m) : (if i < m then D i else D' (i - m)) = D i := if_pos hi
  have hsecond (i : Nat) (hi : m ≤ i) : (if i < m then D i else D' (i - m)) = D' (i - m) :=
    if_neg (by omega)
  constructor
  · rw [hfirst 0 hm]
    exact h.start
  · rw [hfirst 0 hm]
    exact h.near
  · rw [hsecond _ (by omega), show m + m' - 1 - m = m' - 1 by omega]
    exact h'.last
  · intro i hi
    rcases Nat.lt_trichotomy (i + 1) m with hlt | heq | hgt
    · rw [hfirst i (by omega), hfirst _ hlt]
      exact h.step i hlt
    · -- from the last of the first to the first of the second
      rw [hfirst i (by omega), hsecond _ (by omega), heq, Nat.sub_self]
      have hlast := h.last
      rw [← heq, Nat.add_sub_cancel] at hlast
      have := h'.start
      have := h'.near
      omega
    · rw [hsecond i (by omega), hsecond _ (by omega), show i + 1 - m = i - m + 1 by omega]
      exact h'.step _ (by omega)

end spaced

variable {κ β : Type} (L : Layout κ β) (num : κ → Nat)

/-- The property `f` of the entries that the first `m` places fall in, each with
the numbers from where the one before it ends. -/
def InRow (f : κ → Nat → Nat → Nat → Prop) (unit : Nat) : List κ → Nat → Nat → Nat → Prop
  | [], _, a, b => a = b
  | q :: qs, m, a, b =>
    if m = 0 then a = b else ∃ c, f q (min m unit) a c ∧ InRow f unit qs (m - unit) c b

/-- The blocks on the way to the first `m` data blocks under `p` have the numbers
from `a` to `b`, in the order of a walk that comes to a list before its entries. -/
def Laid (v : κ → β) : Nat → κ → Nat → Nat → Nat → Prop
  | 0, p, _, a, b => p ≠ L.null ∧ num p = a ∧ a + 1 = b
  | l + 1, p, m, a, b =>
    p ≠ L.null ∧ num p = a ∧ InRow (Laid v l) (L.width ^ l) (L.children (v p)) m (a + 1) b

/-- A forest of such trees, one after the other. -/
def LaidF (v : κ → β) : Forest κ → Nat → Nat → Nat → Prop
  | [], _, a, b => a = b
  | r :: A, m, a, b => if m = 0 then a = b else
    ∃ c, Laid L num v r.1 r.2 (min m (L.width ^ r.1)) a c ∧ LaidF v A (m - L.width ^ r.1) c b

section laid

variable {L num} {v v' : κ → β} {A B : Forest κ} {p : κ} {l m a b c d : Nat}

theorem laidF_level (qs : List κ) :
    InRow (Laid L num v l) (L.width ^ l) qs m a b ↔ LaidF L num v (level l qs) m a b := by
  induction qs generalizing m a with
  | nil => rfl
  | cons q qs ih => simp only [InRow, level_cons, LaidF, ih]

theorem laid_succ : Laid L num v (l + 1) p m a b ↔
    p ≠ L.null ∧ num p = a ∧ LaidF L num v (level l (L.children (v p))) m (a + 1) b := by
  rw [Laid, laidF_level]

theorem laidF_zero : LaidF L num v A 0 a b ↔ a = b := by
  cases A <;> simp [LaidF]

theorem laidF_append (hA : LaidF L num v A (min m (capacity L A)) a c)
    (hB : LaidF L num v B (m - capacity L A) c b) : LaidF L num v (A ++ B) m a b := by
  induction A generalizing m a with
  | nil =>
    obtain rfl : a = c := hA
    simpa using hB
  | cons r A ih =>
    have hpos := L.width_pow_pos r.1
    rw [capacity_cons] at hA hB
    rw [List.cons_append, LaidF]
    by_cases hm : m = 0
    · subst hm
      rw [Nat.zero_min, laidF_zero] at hA
      rw [Nat.zero_sub, laidF_zero] at hB
      rw [if_pos rfl, hA, hB]
    · rw [LaidF, if_neg (by omega)] at hA
      obtain ⟨k, hr, hA⟩ := hA
      rw [if_neg hm]
      have hmin : min m (L.width ^ r.1) =
          min (min m (L.width ^ r.1 + capacity L A)) (L.width ^ r.1) := by omega
      refine ⟨k, by rwa [hmin], ih ?_ ?_⟩
      · rwa [show min (m - L.width ^ r.1) (capacity L A) =
          min m (L.width ^ r.1 + capacity L A) - L.width ^ r.1 by omega]
      · rwa [Nat.sub_sub]

/-! ## Data blocks -/

section data

variable [DecidableEq κ]

theorem LaidF.spaced_of (h : LaidF L num v A m a b)
    (hA : ∀ r ∈ A, r.1 ≤ d ∧ ∀ m a b, 0 < m → m ≤ L.width ^ r.1 →
    Laid L num v r.1 r.2 m a b → Spaced (fun i => num (data L v r.1 r.2 i)) m a b r.1 r.1) (hm :
    0 < m) (hle : m ≤ capacity L A) :
    Spaced (fun i => num (dataF L v A i)) m a b d (d + 1) := by
  induction A generalizing m a with
  | nil => simp at hle; omega
  | cons r A ih =>
    have hpos := L.width_pow_pos r.1
    obtain ⟨hr, htree⟩ := hA r List.mem_cons_self
    rw [LaidF, if_neg (by omega)] at h
    obtain ⟨c, hfirst, hrest⟩ := h
    have hone := (htree _ _ _ (by omega) (Nat.min_le_right _ _) hfirst).mono hr (Nat.le_succ_of_le hr)
    by_cases hmore : m ≤ L.width ^ r.1
    · rw [Nat.min_eq_left hmore] at hone
      rw [Nat.sub_eq_zero_of_le hmore, laidF_zero] at hrest
      subst hrest
      exact hone.congr hm fun i hi => by rw [dataF, if_pos (by omega)]
    · rw [Nat.min_eq_right (by omega)] at hone
      rw [capacity_cons] at hle
      have htwo := ih hrest (fun r' hr' => hA r' (List.mem_cons_of_mem _ hr')) (by omega) (by omega)
      have hboth := hone.append htwo hpos (by omega) (Nat.le_refl _)
      rw [show L.width ^ r.1 + (m - L.width ^ r.1) = m by omega] at hboth
      exact hboth.congr hm fun i _ => by
        rw [dataF]
        split <;> rfl

/-- In a tree the gaps are as wide as it has levels of lists. -/
theorem Laid.spaced (h : Laid L num v l p m a b) (hm : 0 < m) (hle : m ≤ L.width ^ l) :
    Spaced (fun i => num (data L v l p i)) m a b l l := by
  induction l generalizing p m a b with
  | zero =>
    obtain ⟨-, hp, hb⟩ := h
    refine ⟨hp.ge, hp.le, by rw [data, hp, hb], fun i hi => ?_⟩
    rw [Nat.pow_zero] at hle
    omega
  | succ l ih =>
    obtain ⟨hp, -, h⟩ := laid_succ.1 h
    have hforest : Spaced (fun i => num (dataF L v (level l (L.children (v p))) i)) m (a + 1) b l
        (l + 1) := by
      refine h.spaced_of (fun r hr =>
        ?_) hm (by rw [capacity_entries _ (L.length_children _)]; exact hle)
      obtain ⟨q, -, rfl⟩ := List.mem_map.1 hr
      exact ⟨Nat.le_refl l, fun m a b hm hle h => ih h hm hle⟩
    have hspaced : Spaced (fun i => num (data L v (l + 1) p i)) m (a + 1) b l (l + 1) :=
      hforest.congr hm fun i _ => by rw [data_succ hp]
    exact ⟨by have := hspaced.start; omega, by have := hspaced.near; omega, hspaced.last, hspaced.step⟩

/-- In a forest they are wider by one. -/
theorem LaidF.spaced (h : LaidF L num v A m a b) (hd : ∀ r ∈ A, r.1 ≤ d) (hm : 0 < m)
    (hle : m ≤ capacity L A) : Spaced (fun i => num (dataF L v A i)) m a b d (d + 1) :=
  h.spaced_of (fun r hr => ⟨hd r hr, fun _ _ _ hm hle h => h.spaced hm hle⟩) hm hle

end data

/-! ## What a layout depends on -/

theorem LaidF.le_of (h : LaidF L num v A m a b)
    (hA : ∀ r ∈ A, ∀ m a b, Laid L num v r.1 r.2 m a b → a ≤ b) : a ≤ b := by
  induction A generalizing m a with
  | nil => exact Nat.le_of_eq h
  | cons r A ih =>
    rw [LaidF] at h
    split at h
    · exact Nat.le_of_eq h
    · obtain ⟨c, hfirst, hrest⟩ := h
      exact (hA r List.mem_cons_self _ _ _ hfirst).trans
        (ih hrest fun r' hr' => hA r' (List.mem_cons_of_mem _ hr'))

theorem Laid.lt (h : Laid L num v l p m a b) : a < b := by
  induction l generalizing p m a b with
  | zero => exact Nat.lt_of_succ_le (Nat.le_of_eq h.2.2)
  | succ l ih =>
    refine Nat.lt_of_succ_le ((laid_succ.1 h).2.2.le_of fun r hr => ?_)
    obtain ⟨q, -, rfl⟩ := List.mem_map.1 hr
    exact fun m a b h => (ih h).le

theorem LaidF.le (h : LaidF L num v A m a b) : a ≤ b := h.le_of fun _ _ _ _ _ h => h.lt.le

theorem LaidF.congr_of (h : LaidF L num v A m a b) (hv : ∀ s, a ≤ num s → num s < b → v' s = v s)
    (hA : ∀ r ∈ A, ∀ m a b, Laid L num v r.1 r.2 m a b → (∀ s, a ≤ num s → num s < b → v' s = v s) →
      Laid L num v' r.1 r.2 m a b) : LaidF L num v' A m a b := by
  induction A generalizing m a with
  | nil => exact h
  | cons r A ih =>
    rw [LaidF] at h ⊢
    split at h
    · next hm => rw [if_pos hm]; exact h
    · next hm =>
      obtain ⟨c, hfirst, hrest⟩ := h
      have hac := hfirst.lt
      have hcb := hrest.le
      rw [if_neg hm]
      exact ⟨c, hA r List.mem_cons_self _ _ _ hfirst fun s hs hc => hv s hs (by omega),
        ih hrest (fun s hs hb => hv s (by omega) hb) fun r' hr' => hA r' (List.mem_cons_of_mem _ hr')⟩

/-- A layout is decided by the blocks with these numbers. -/
theorem Laid.congr (h : Laid L num v l p m a b) (hv : ∀ s, a ≤ num s → num s < b → v' s = v s) :
    Laid L num v' l p m a b := by
  induction l generalizing p m a b with
  | zero => exact h
  | succ l ih =>
    have hlt := h.lt
    obtain ⟨hp, hnum, h⟩ := laid_succ.1 h
    refine laid_succ.2 ⟨hp, hnum, ?_⟩
    rw [hv p hnum.ge (by omega)]
    refine h.congr_of (fun s hs hb => hv s (by omega) hb) fun r hr => ?_
    obtain ⟨q, -, rfl⟩ := List.mem_map.1 hr
    exact fun m a b h hv => ih h hv

theorem LaidF.congr (h : LaidF L num v A m a b) (hv : ∀ s, a ≤ num s → num s < b → v' s = v s) :
    LaidF L num v' A m a b :=
  h.congr_of hv fun _ _ _ _ _ h hv => h.congr hv

end laid

end BlockTree

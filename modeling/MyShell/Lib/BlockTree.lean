/-
Trees of blocks, as file systems keep the blocks of a file: a block at level
0 is data, a block at level `l + 1` lists the blocks under it, and one number
stands for "no block".

A forest is a list of roots with their levels. `dataF` is its `i`-th data
block, `occF` counts how often a block occurs in it, `missingF` lists the
blocks a walk that fills its first `n` data blocks has to supply, in the order
of the walk. Where no block occurs twice, data blocks are told apart by their
positions (`dataF_inj`) and from index blocks (`not_indexF_dataF`).
-/
import Mathlib.Algebra.BigOperators.Group.List.Basic
import Mathlib.Algebra.GroupWithZero.Nat
import Mathlib.Algebra.Order.BigOperators.Group.List
import Mathlib.Algebra.Order.Monoid.Canonical.Basic
import Mathlib.Algebra.Order.Group.Nat
import Mathlib.Data.List.Forall2
import Mathlib.Tactic.Common

namespace BlockTree

/-- How blocks `β` list the blocks under them, and the number for no block. -/
structure Layout (κ β : Type) where
  null : κ
  width : Nat
  width_pos : 0 < width
  children : β → List κ
  length_children : ∀ b, (children b).length = width

/-- The two ways a block is used. -/
inductive Kind where
  | data
  | index
  deriving DecidableEq

variable {κ β : Type} [DecidableEq κ] (L : Layout κ β)

/-! ## One tree -/

/-- `f` at the entry of a list that position `i` falls in, `unit` positions
to an entry. -/
def pick (f : κ → Nat → κ) (unit : Nat) : List κ → Nat → κ
  | [], _ => L.null
  | q :: qs, i => if i < unit then f q i else pick f unit qs (i - unit)

/-- The answers of `f` on the entries that the first `n` positions fall in. -/
def spread {γ : Type} (f : κ → Nat → List γ) (unit : Nat) : List κ → Nat → List γ
  | [], _ => []
  | q :: qs, n => if n = 0 then [] else f q (min n unit) ++ spread f unit qs (n - unit)

/-- The `i`-th data block under `p`. -/
def data (v : κ → β) : Nat → κ → Nat → κ
  | 0, p, _ => p
  | level + 1, p, i =>
    if p = L.null then L.null else pick L (data v level) (L.width ^ level) (L.children (v p)) i

/-- How often `s` is a block of the tree under `p`. -/
def occ (v : κ → β) : Nat → κ → κ → Nat
  | 0, p, s => if p = L.null then 0 else if p = s then 1 else 0
  | level + 1, p, s =>
    if p = L.null then 0
    else (if p = s then 1 else 0) + ((L.children (v p)).map fun q => occ v level q s).sum

/-- `s` is a block of the tree under `p` that lists others. -/
def IsIndex (v : κ → β) : Nat → κ → κ → Prop
  | 0, _, _ => False
  | level + 1, p, s => p ≠ L.null ∧ (s = p ∨ ∃ q ∈ L.children (v p), IsIndex v level q s)

/-- The entries under `p`, none of them in use where `p` is no block. -/
def entries (v : κ → β) (p : κ) : List κ :=
  if p = L.null then List.replicate L.width L.null else L.children (v p)

/-- The blocks to supply so that the first `n` data blocks under `p` exist. -/
def missing (v : κ → β) : Nat → κ → Nat → List Kind
  | 0, p, _ => if p = L.null then [.data] else []
  | level + 1, p, n =>
    (if p = L.null then [.index] else []) ++
      spread (missing v level) (L.width ^ level) (entries L v p) n

/-- The blocks on the way to the first `n` data blocks under `p`, each after
those under it. -/
def visited (v : κ → β) : Nat → κ → Nat → List κ
  | 0, p, _ => [p]
  | level + 1, p, n =>
    if p = L.null then [L.null]
    else spread (visited v level) (L.width ^ level) (L.children (v p)) n ++ [p]

/-- The blocks of the tree under `p`. -/
def blocks (v : κ → β) : Nat → κ → List κ
  | 0, p => if p = L.null then [] else [p]
  | level + 1, p => if p = L.null then [] else p :: (L.children (v p)).flatMap (blocks v level)

/-! ## Forests -/

abbrev Forest (κ : Type) := List (Nat × κ)

/-- The forest of trees of one level. -/
def level (l : Nat) (qs : List κ) : Forest κ := qs.map fun q => (l, q)

/-- The number of data blocks a forest has places for. -/
def capacity (A : Forest κ) : Nat := (A.map fun r => L.width ^ r.1).sum

def dataF (v : κ → β) : Forest κ → Nat → κ
  | [], _ => L.null
  | r :: A, i => if i < L.width ^ r.1 then data L v r.1 r.2 i else dataF v A (i - L.width ^ r.1)

def occF (v : κ → β) (A : Forest κ) (s : κ) : Nat := (A.map fun r => occ L v r.1 r.2 s).sum

def IsIndexF (v : κ → β) (A : Forest κ) (s : κ) : Prop := ∃ r ∈ A, IsIndex L v r.1 r.2 s

def missingF (v : κ → β) : Forest κ → Nat → List Kind
  | [], _ => []
  | r :: A, n =>
    if n = 0 then []
    else missing L v r.1 r.2 (min n (L.width ^ r.1)) ++ missingF v A (n - L.width ^ r.1)

def visitedF (v : κ → β) : Forest κ → Nat → List κ
  | [], _ => []
  | r :: A, n =>
    if n = 0 then []
    else visited L v r.1 r.2 (min n (L.width ^ r.1)) ++ visitedF v A (n - L.width ^ r.1)

def blocksF (v : κ → β) (A : Forest κ) : List κ := A.flatMap fun r => blocks L v r.1 r.2

/-- A forest of the same shape without blocks. -/
def bare (A : Forest κ) : Forest κ := A.map fun r => (r.1, L.null)

section forests

variable {L} {v v' : κ → β} {A B : Forest κ} {r : Nat × κ} {s : κ} {i n l : Nat}

section shapes

omit [DecidableEq κ]

theorem Layout.width_pow_pos (L : Layout κ β) (l : Nat) : 0 < L.width ^ l := Nat.pow_pos L.width_pos

@[simp] theorem level_nil : level l ([] : List κ) = [] := rfl

@[simp] theorem level_cons (q : κ) (qs : List κ) : level l (q :: qs) = (l, q) :: level l qs := rfl

@[simp] theorem capacity_nil : capacity L [] = 0 := rfl

@[simp] theorem capacity_cons : capacity L (r :: A) = L.width ^ r.1 + capacity L A := by
  simp [capacity]

@[simp] theorem capacity_append : capacity L (A ++ B) = capacity L A + capacity L B := by
  simp [capacity]

@[simp] theorem capacity_level (qs : List κ) : capacity L (level l qs) = qs.length * L.width ^ l := by
  induction qs with
  | nil => simp
  | cons q qs ih => rw [level_cons, capacity_cons, ih, List.length_cons, Nat.succ_mul, Nat.add_comm]

theorem capacity_entries (qs : List κ) (h : qs.length = L.width) :
    capacity L (level l qs) = L.width ^ (l + 1) := by
  rw [capacity_level, h, Nat.pow_succ, Nat.mul_comm]

@[simp] theorem bare_nil : bare L [] = [] := rfl

@[simp] theorem bare_cons : bare L (r :: A) = (r.1, L.null) :: bare L A := rfl

theorem bare_level (qs : List κ) : bare L (level l qs) = level l (List.replicate qs.length L.null) := by
  simp [bare, level, Function.comp_def, List.map_const']

@[simp] theorem not_indexF_nil : ¬ IsIndexF L v [] s := by simp [IsIndexF]

@[simp] theorem indexF_cons : IsIndexF L v (r :: A) s ↔ IsIndex L v r.1 r.2 s ∨ IsIndexF L v A s := by
  simp [IsIndexF]

@[simp] theorem indexF_append : IsIndexF L v (A ++ B) s ↔ IsIndexF L v A s ∨ IsIndexF L v B s := by
  simp only [IsIndexF, List.mem_append, or_and_right, exists_or]

@[simp] theorem not_index_null : ¬ IsIndex L v l L.null s := by cases l <;> simp [IsIndex]

theorem index_succ {p : κ} (hp : p ≠ L.null) : IsIndex L v (l + 1) p s ↔
    s = p ∨ IsIndexF L v (level l (L.children (v p))) s := by
  simp [IsIndex, IsIndexF, level, hp]

theorem not_indexF_null (k : Nat) : ¬ IsIndexF L v (level l (List.replicate k L.null)) s := by
  simp only [IsIndexF, level, List.map_replicate, List.mem_replicate]
  rintro ⟨r, ⟨-, rfl⟩, h⟩
  exact not_index_null h

end shapes

@[simp] theorem occF_nil : occF L v [] s = 0 := rfl

@[simp] theorem occF_cons : occF L v (r :: A) s = occ L v r.1 r.2 s + occF L v A s := by simp [occF]

@[simp] theorem occF_append : occF L v (A ++ B) s = occF L v A s + occF L v B s := by simp [occF]

theorem dataF_append : dataF L v (A ++ B) i =
    if i < capacity L A then dataF L v A i else dataF L v B (i - capacity L A) := by
  induction A generalizing i with
  | nil => simp
  | cons r A ih =>
    simp only [List.cons_append, dataF, ih, capacity_cons]
    by_cases h : i < L.width ^ r.1
    · rw [if_pos h, if_pos (by omega), if_pos h]
    · rw [if_neg h, if_neg h]
      by_cases h' : i - L.width ^ r.1 < capacity L A
      · rw [if_pos h', if_pos (by omega)]
      · rw [if_neg h', if_neg (by omega), Nat.sub_add_eq]

theorem dataF_of_le (h : capacity L A ≤ i) : dataF L v A i = L.null := by
  induction A generalizing i with
  | nil => rfl
  | cons r A ih =>
    rw [capacity_cons] at h
    rw [dataF, if_neg (by omega), ih (by omega)]

theorem missingF_append : missingF L v (A ++ B) n =
    missingF L v A n ++ missingF L v B (n - capacity L A) := by
  induction A generalizing n with
  | nil => simp [missingF]
  | cons r A ih =>
    simp only [List.cons_append, missingF, capacity_cons]
    by_cases hn : n = 0
    · subst hn
      cases B <;> simp [missingF]
    · rw [if_neg hn, if_neg hn, ih, List.append_assoc, Nat.sub_add_eq]

theorem missingF_min : missingF L v A (min n (capacity L A)) = missingF L v A n := by
  induction A generalizing n with
  | nil => rfl
  | cons r A ih =>
    have hpos := Nat.pow_pos (n := r.1) L.width_pos
    simp only [missingF, capacity_cons]
    by_cases hn : n = 0
    · simp [hn]
    · rw [if_neg hn, if_neg (by omega), ← ih (n := n - L.width ^ r.1)]
      congr 2 <;> omega

@[simp] theorem missingF_zero : missingF L v A 0 = [] := by cases A <;> simp [missingF]

/-! ## A node and the forest under it -/

theorem pick_eq (qs : List κ) : pick L (data L v l) (L.width ^ l) qs i = dataF L v (level l qs) i := by
  induction qs generalizing i with
  | nil => rfl
  | cons q qs ih => simp only [pick, level_cons, dataF, ih]

theorem spread_eq (qs : List κ) :
    spread (missing L v l) (L.width ^ l) qs n = missingF L v (level l qs) n := by
  induction qs generalizing n with
  | nil => rfl
  | cons q qs ih => simp only [spread, level_cons, missingF, ih]

theorem visited_succ {p : κ} (hp : p ≠ L.null) :
    visited L v (l + 1) p n = visitedF L v (level l (L.children (v p))) n ++ [p] := by
  have h : ∀ qs n, spread (visited L v l) (L.width ^ l) qs n = visitedF L v (level l qs) n := by
    intro qs
    induction qs with
    | nil => intro n; rfl
    | cons q qs ih => intro n; simp only [spread, level_cons, visitedF, ih]
  rw [visited, if_neg hp, h]

theorem occ_sum_eq (qs : List κ) : (qs.map fun q => occ L v l q s).sum = occF L v (level l qs) s := by
  rw [occF, level, List.map_map]; rfl

variable {p : κ}

@[simp] theorem data_null : data L v l L.null i = L.null := by cases l <;> simp [data]

@[simp] theorem occ_null : occ L v l L.null s = 0 := by cases l <;> simp [occ]

theorem data_succ (hp : p ≠ L.null) :
    data L v (l + 1) p i = dataF L v (level l (L.children (v p))) i := by
  rw [data, if_neg hp, pick_eq]

theorem occ_succ (hp : p ≠ L.null) : occ L v (l + 1) p s =
    (if p = s then 1 else 0) + occF L v (level l (L.children (v p))) s := by
  rw [occ, if_neg hp, occ_sum_eq]

theorem missing_succ : missing L v (l + 1) p n =
    (if p = L.null then [.index] else []) ++ missingF L v (level l (entries L v p)) n := by
  rw [missing, spread_eq]

theorem missing_null : missing L v (l + 1) L.null n =
    .index :: missingF L v (level l (List.replicate L.width L.null)) n := by
  rw [missing_succ, if_pos rfl, entries, if_pos rfl]; rfl

theorem missing_ne (hp : p ≠ L.null) : missing L v (l + 1) p n =
    missingF L v (level l (L.children (v p))) n := by
  rw [missing_succ, if_neg hp, entries, if_neg hp]; rfl

theorem entries_null : entries L v L.null = List.replicate L.width L.null := by simp [entries]

theorem entries_ne (hp : p ≠ L.null) : entries L v p = L.children (v p) := by simp [entries, hp]

@[simp] theorem length_entries : (entries L v p).length = L.width := by
  rw [entries]; split
  · simp
  · exact L.length_children _

/-- Without a block, the first `n` places of a level of data are all missing. -/
theorem missingF_leaves (k : Nat) :
    missingF L v (level 0 (List.replicate k L.null)) n = List.replicate (min n k) .data := by
  induction k generalizing n with
  | zero => simp [missingF]
  | succ k ih =>
    rw [List.replicate_succ, level_cons, missingF]
    by_cases hn : n = 0
    · simp [hn]
    · rw [if_neg hn, ih, Nat.pow_zero, show min n (k + 1) =
        min (n - 1) k + 1 by omega, List.replicate_succ]
      simp [missing]

/-- A level of lists of data needs a list for every `width` places. -/
theorem length_missingF_lists (k : Nat) : (missingF L v (level 1 (List.replicate k L.null)) n).length =
    min n (k * L.width) + min k ((n + L.width - 1) / L.width) := by
  have hw := L.width_pos
  induction k generalizing n with
  | zero => simp [missingF]
  | succ k ih =>
    rw [List.replicate_succ, level_cons, missingF]
    by_cases hn : n = 0
    · rw [if_pos hn, hn, Nat.div_eq_of_lt (by omega)]
      simp
    · have hlists : (n + L.width - 1) / L.width = (n - L.width + L.width - 1) / L.width + 1 := by
        by_cases hle : n ≤ L.width
        · rw [show n - L.width = 0 by omega, Nat.div_eq_of_lt (a := 0 + L.width - 1) (by omega),
            show n + L.width - 1 = n - 1 + L.width by
              omega, Nat.add_div_right _ hw, Nat.div_eq_of_lt (by omega)]
        · rw [show n + L.width - 1 = (n - L.width + L.width - 1) + L.width by omega,
            Nat.add_div_right _ hw]
      rw [if_neg hn, List.length_append, ih, Nat.pow_one, missing_null, missingF_leaves, hlists,
        Nat.succ_mul]
      simp only [List.length_cons, List.length_replicate]
      omega

theorem dataF_null (k : Nat) : dataF L v (level l (List.replicate k L.null)) i = L.null := by
  induction k generalizing i with
  | zero => rfl
  | succ k ih =>
    simp only [List.replicate_succ, level_cons, dataF, data_null]
    split
    · rfl
    · exact ih

theorem occF_null (k : Nat) : occF L v (level l (List.replicate k L.null)) s = 0 := by
  simp [occF, level]

/-! ## What a forest depends on -/

/-- A tree is decided by the contents of its index blocks. -/
theorem tree_congr (l : Nat) (p : κ) (h : ∀ s, IsIndex L v l p s → v' s = v s) :
    (∀ i, data L v' l p i = data L v l p i) ∧ (∀ s, occ L v' l p s = occ L v l p s) ∧
      (∀ s, IsIndex L v' l p s ↔ IsIndex L v l p s) ∧ ∀ n, missing L v' l p n = missing L v l p n := by
  induction l generalizing p with
  | zero => simp [data, occ, IsIndex, missing]
  | succ l ih =>
    by_cases hp : p = L.null
    · subst hp
      refine ⟨by simp, by simp, by simp, fun n => ?_⟩
      -- no index block yet: the walk meets only entries that are not in use
      simp only [missing_succ, entries_null]
      congr 1
      suffices H : ∀ k n, missingF L v' (level l (List.replicate k L.null)) n =
          missingF L v (level l (List.replicate k L.null)) n from H _ _
      intro k
      induction k with
      | zero => intro n; rfl
      | succ k ihk =>
        intro n
        simp only [List.replicate_succ, level_cons, missingF,
          (ih L.null fun s hs => absurd hs not_index_null).2.2.2, ihk]
    · have hv : v' p = v p := h p ((index_succ hp).2 (.inl rfl))
      have hq : ∀ q ∈ L.children (v p), ∀ s, IsIndex L v l q s → v' s = v s := fun q hq s hs =>
        h s ((index_succ hp).2 (.inr ⟨(l, q), List.mem_map.2 ⟨q, hq, rfl⟩, hs⟩))
      simp only [data_succ hp, occ_succ hp, index_succ hp, missing_succ, entries_ne hp, hv]
      generalize L.children (v p) = qs at hq
      induction qs with
      | nil => simp [dataF, missingF]
      | cons q qs ihq =>
        obtain ⟨h₁, h₂, h₃, h₄⟩ := ih q (hq q (by simp))
        obtain ⟨g₁, g₂, g₃, g₄⟩ := ihq fun q' hq' => hq q' (by simp [hq'])
        simp only [List.append_cancel_left_eq, Nat.add_left_cancel_iff] at g₂ g₄
        refine ⟨fun i => ?_, fun s => ?_, fun s => ?_, fun n => ?_⟩
        · simp only [level_cons, dataF, h₁, g₁]
        · simp only [level_cons, occF_cons, h₂, g₂]
        · have := g₃ s
          simp only [level_cons, indexF_cons, h₃]
          tauto
        · simp only [level_cons, missingF, h₄, g₄]

theorem dataF_congr (h : ∀ s, IsIndexF L v A s → v' s = v s) (i : Nat) :
    dataF L v' A i = dataF L v A i := by
  induction A generalizing i with
  | nil => rfl
  | cons r A ih =>
    simp only [dataF, (tree_congr r.1 r.2 fun s hs => h s (indexF_cons.2 (.inl hs))).1,
      ih fun s hs => h s (indexF_cons.2 (.inr hs))]

theorem occF_congr (h : ∀ s, IsIndexF L v A s → v' s = v s) (s : κ) : occF L v' A s = occF L v A s := by
  induction A with
  | nil => rfl
  | cons r A ih =>
    simp only [occF_cons, (tree_congr r.1 r.2 fun s hs => h s (indexF_cons.2 (.inl hs))).2.1,
      ih fun s hs => h s (indexF_cons.2 (.inr hs))]

theorem indexF_congr (h : ∀ s, IsIndexF L v A s → v' s = v s) (s : κ) :
    IsIndexF L v' A s ↔ IsIndexF L v A s := by
  induction A with
  | nil => simp
  | cons r A ih =>
    simp only [indexF_cons, (tree_congr r.1 r.2 fun s hs => h s (indexF_cons.2 (.inl hs))).2.2.1,
      ih fun s hs => h s (indexF_cons.2 (.inr hs))]

theorem missingF_congr (h : ∀ s, IsIndexF L v A s → v' s = v s) (n : Nat) :
    missingF L v' A n = missingF L v A n := by
  induction A generalizing n with
  | nil => rfl
  | cons r A ih =>
    simp only [missingF, (tree_congr r.1 r.2 fun s hs => h s (indexF_cons.2 (.inl hs))).2.2.2,
      ih fun s hs => h s (indexF_cons.2 (.inr hs))]

/-! ## Forests without repeated blocks -/

theorem occF_of_occ (hA : ∀ r ∈ A, ∀ i, data L v r.1 r.2 i ≠ L.null →
    1 ≤ occ L v r.1 r.2 (data L v r.1 r.2 i)) (h : dataF L v A i ≠ L.null) :
    1 ≤ occF L v A (dataF L v A i) := by
  induction A generalizing i with
  | nil => exact absurd rfl h
  | cons r A ih =>
    simp only [dataF, occF_cons] at h ⊢
    split at h
    · rename_i hi
      have := hA r (by simp) i h
      rw [if_pos hi]; omega
    · rename_i hi
      have := ih (fun r hr => hA r (by simp [hr])) h
      rw [if_neg hi]; omega

theorem occ_data (l : Nat) (p : κ) (i : Nat) (h : data L v l p i ≠ L.null) :
    1 ≤ occ L v l p (data L v l p i) := by
  induction l generalizing p i with
  | zero => simp only [data] at h; simp [occ, data, h]
  | succ l ih =>
    have hp : p ≠ L.null := by rintro rfl; simp at h
    rw [data_succ hp] at h ⊢
    rw [occ_succ hp]
    have := occF_of_occ (A := level l (L.children (v p))) (by
      intro r hr i
      obtain ⟨q, -, rfl⟩ := List.mem_map.1 hr
      exact ih q i) h
    omega

/-- A data block occurs in its forest. -/
theorem occF_dataF (h : dataF L v A i ≠ L.null) : 1 ≤ occF L v A (dataF L v A i) :=
  occF_of_occ (fun r _ i => occ_data r.1 r.2 i) h

theorem index_occ (l : Nat) (p s : κ) (h : IsIndex L v l p s) : 1 ≤ occ L v l p s := by
  induction l generalizing p with
  | zero => exact absurd h id
  | succ l ih =>
    obtain ⟨hp, hs⟩ := h
    rw [occ, if_neg hp]
    rcases hs with rfl | ⟨q, hq, hs⟩
    · simp
    · have h₁ : occ L v l q s ∈ (L.children (v p)).map fun q => occ L v l q s :=
        List.mem_map.2 ⟨q, hq, rfl⟩
      have h₂ := List.single_le_sum (by simp) _ h₁
      have := ih q hs
      omega

/-- An index block occurs in its forest. -/
theorem indexF_occ (h : IsIndexF L v A s) : 1 ≤ occF L v A s := by
  obtain ⟨r, hr, hs⟩ := h
  have h₁ : occ L v r.1 r.2 s ∈ A.map fun r => occ L v r.1 r.2 s := List.mem_map.2 ⟨r, hr, rfl⟩
  have h₂ := List.single_le_sum (by simp) _ h₁
  have := index_occ _ _ _ hs
  simp only [occF]
  omega

theorem occ_zero_null (l : Nat) (p : κ) : occ L v l p L.null = 0 := by
  induction l generalizing p with
  | zero => rw [occ]; split <;> rfl
  | succ l ih =>
    rw [occ]; split
    · rfl
    · simp [*]

theorem occF_zero_null : occF L v A L.null = 0 := by simp [occF, occ_zero_null]

/-- The places of a forest in which one data block is, each counted. -/
theorem two_le_occF (hA : ∀ r ∈ A, (∀ i j, i < L.width ^ r.1 → j < L.width ^ r.1 → i ≠ j →
      data L v r.1 r.2 i ≠ L.null → data L v r.1 r.2 i = data L v r.1 r.2 j →
      2 ≤ occ L v r.1 r.2 (data L v r.1 r.2 i)))
    {i j : Nat} (hij : i < j) (h : dataF L v A i ≠ L.null) (he : dataF L v A i = dataF L v A j) :
    2 ≤ occF L v A (dataF L v A i) := by
  induction A generalizing i j with
  | nil => exact absurd rfl h
  | cons r A ih =>
    simp only [dataF, occF_cons] at h he ⊢
    by_cases hi : i < L.width ^ r.1
    · rw [if_pos hi] at h he ⊢
      by_cases hj : j < L.width ^ r.1
      · rw [if_pos hj] at he
        have := hA r (by simp) i j hi hj (by omega) h he
        omega
      · rw [if_neg hj] at he
        have h₁ := occ_data r.1 r.2 i h
        have h₂ := occF_dataF (A := A) (i := j - L.width ^ r.1) (he ▸ h)
        rw [← he] at h₂
        omega
    · rw [if_neg hi] at h he ⊢
      rw [if_neg (by omega)] at he
      have := ih (fun r hr => hA r (by simp [hr]))
        (show i - L.width ^ r.1 < j - L.width ^ r.1 by omega) h he
      omega

theorem two_le_occ (l : Nat) (p : κ) (i j : Nat) (hi : i < L.width ^ l) (hj : j < L.width ^ l)
    (hij : i ≠ j) (h : data L v l p i ≠ L.null) (he : data L v l p i = data L v l p j) :
    2 ≤ occ L v l p (data L v l p i) := by
  induction l generalizing p i j with
  | zero => simp only [Nat.pow_zero, Nat.lt_one_iff] at hi hj; omega
  | succ l ih =>
    have hp : p ≠ L.null := by rintro rfl; simp at h
    rw [data_succ hp, data_succ hp] at he
    rw [data_succ hp] at h ⊢
    rw [occ_succ hp]
    have hA : ∀ r ∈ level l (L.children (v p)), (∀ i j, i < L.width ^ r.1 → j < L.width ^ r.1 →
      i ≠ j →
        data L v r.1 r.2 i ≠ L.null → data L v r.1 r.2 i = data L v r.1 r.2 j →
        2 ≤ occ L v r.1 r.2 (data L v r.1 r.2 i)) := by
      intro r hr
      obtain ⟨q, -, rfl⟩ := List.mem_map.1 hr
      exact ih q
    rcases Nat.lt_or_gt_of_ne hij with hlt | hlt
    · have := two_le_occF hA hlt h he
      omega
    · have := two_le_occF hA hlt (he ▸ h) he.symm
      rw [← he] at this
      omega

/-- Where no block occurs twice, equal data blocks are one place. -/
theorem dataF_inj (hA : ∀ s, occF L v A s ≤ 1) {i j : Nat} (h : dataF L v A i ≠ L.null)
    (he : dataF L v A i = dataF L v A j) : i = j := by
  have hocc : ∀ r ∈ A, (∀ i j, i < L.width ^ r.1 → j < L.width ^ r.1 → i ≠ j →
      data L v r.1 r.2 i ≠ L.null → data L v r.1 r.2 i = data L v r.1 r.2 j →
      2 ≤ occ L v r.1 r.2 (data L v r.1 r.2 i)) := fun r _ i j => two_le_occ r.1 r.2 i j
  by_contra hij
  have := hA (dataF L v A i)
  rcases Nat.lt_or_gt_of_ne hij with hlt | hlt
  · have := two_le_occF hocc hlt h he
    omega
  · have := two_le_occF hocc hlt (he ▸ h) he.symm
    rw [← he] at this
    omega

theorem two_le_occF_index (hA : ∀ r ∈ A, ∀ i, data L v r.1 r.2 i ≠ L.null →
      IsIndex L v r.1 r.2 (data L v r.1 r.2 i) → 2 ≤ occ L v r.1 r.2 (data L v r.1 r.2 i))
    (h : dataF L v A i ≠ L.null) (hs : IsIndexF L v A (dataF L v A i)) :
    2 ≤ occF L v A (dataF L v A i) := by
  induction A generalizing i with
  | nil => exact absurd rfl h
  | cons r A ih =>
    simp only [dataF, occF_cons, indexF_cons] at h hs ⊢
    by_cases hi : i < L.width ^ r.1
    · simp only [if_pos hi] at h hs ⊢
      have h₁ := occ_data r.1 r.2 i h
      rcases hs with hs | hs
      · have := hA r (by simp) i h hs
        omega
      · have := indexF_occ hs
        omega
    · simp only [if_neg hi] at h hs ⊢
      have h₁ := occF_dataF h
      rcases hs with hs | hs
      · have := index_occ _ _ _ hs
        omega
      · have := ih (fun r hr => hA r (by simp [hr])) h hs
        omega

theorem two_le_occ_index (l : Nat) (p : κ) (i : Nat) (h : data L v l p i ≠ L.null)
    (hs : IsIndex L v l p (data L v l p i)) : 2 ≤ occ L v l p (data L v l p i) := by
  induction l generalizing p i with
  | zero => exact absurd hs id
  | succ l ih =>
    have hp : p ≠ L.null := by rintro rfl; simp at h
    rw [data_succ hp] at h hs ⊢
    rw [occ_succ hp]
    rw [index_succ hp] at hs
    have h₁ := occF_dataF h
    rcases hs with hs | hs
    · rw [if_pos hs.symm]
      omega
    · have := two_le_occF_index (A := level l (L.children (v p))) (by
        intro r hr i
        obtain ⟨q, -, rfl⟩ := List.mem_map.1 hr
        exact ih q i) h hs
      omega

/-- Where no block occurs twice, no data block is an index block. -/
theorem not_indexF_dataF (hA : ∀ s, occF L v A s ≤ 1) (h : dataF L v A i ≠ L.null) :
    ¬ IsIndexF L v A (dataF L v A i) := by
  intro hs
  have := two_le_occF_index (fun r _ i => two_le_occ_index r.1 r.2 i) h hs
  have := hA (dataF L v A i)
  omega

/-! ## The blocks on the way -/

@[simp] theorem visitedF_zero : visitedF L v A 0 = [] := by cases A <;> simp [visitedF]

theorem visitedF_min : visitedF L v A (min n (capacity L A)) = visitedF L v A n := by
  induction A generalizing n with
  | nil => rfl
  | cons r A ih =>
    have hpos := L.width_pow_pos r.1
    simp only [visitedF, capacity_cons]
    by_cases hn : n = 0
    · simp [hn]
    · rw [if_neg hn, if_neg (by omega), ← ih (n := n - L.width ^ r.1)]
      congr 2 <;> omega

theorem visitedF_append : visitedF L v (A ++ B) n =
    visitedF L v A n ++ visitedF L v B (n - capacity L A) := by
  induction A generalizing n with
  | nil => simp [visitedF]
  | cons r A ih =>
    simp only [List.cons_append, visitedF, capacity_cons]
    by_cases hn : n = 0
    · subst hn; simp
    · rw [if_neg hn, if_neg hn, ih, List.append_assoc, Nat.sub_add_eq]

theorem count_visitedF_of_visited (hA : ∀ r ∈ A, ∀ n, 0 < n →
      (∀ i < n, i < L.width ^ r.1 → data L v r.1 r.2 i ≠ L.null) →
      ∀ s, (visited L v r.1 r.2 n).count s ≤ occ L v r.1 r.2 s)
    (h : ∀ i < n, i < capacity L A → dataF L v A i ≠ L.null) (s : κ) :
    (visitedF L v A n).count s ≤ occF L v A s := by
  induction A generalizing n with
  | nil => simp [visitedF]
  | cons r A ih =>
    have hpos := L.width_pow_pos r.1
    rw [visitedF, occF_cons]
    split
    · simp
    · have h₁ := hA r (by simp) (min n (L.width ^ r.1)) (by omega) (fun i hi hi' => by
        have := h i (by omega) (by rw [capacity_cons]; omega)
        rwa [dataF, if_pos hi'] at this) s
      have h₂ := ih (fun r hr => hA r (by simp [hr])) (n := n - L.width ^ r.1) (fun i hi hi' => by
        have := h (i + L.width ^ r.1) (by omega) (by rw [capacity_cons]; omega)
        rwa [dataF, if_neg (by omega), Nat.add_sub_cancel] at this)
      rw [List.count_append]; omega

theorem count_visited (l : Nat) (p : κ) (hn : 0 < n)
    (h : ∀ i < n, i < L.width ^ l → data L v l p i ≠ L.null) (s : κ) :
    (visited L v l p n).count s ≤ occ L v l p s := by
  induction l generalizing p n s with
  | zero =>
    have hp : p ≠ L.null := h 0 hn (by simp)
    rw [visited, occ, if_neg hp, List.count_singleton]
    simp
  | succ l ih =>
    have hp : p ≠ L.null := by
      rintro rfl
      exact h 0 hn (L.width_pow_pos _) data_null
    have hA := count_visitedF_of_visited (A := level l (L.children (v p))) (n := n) (by
      intro r hr n hn h s
      obtain ⟨q, -, rfl⟩ := List.mem_map.1 hr
      exact ih q hn h s) (fun i hi hi' => by
        rw [capacity_entries _ (L.length_children _)] at hi'
        have := h i hi hi'
        rwa [data_succ hp] at this) s
    rw [visited_succ hp, occ_succ hp, List.count_append, List.count_singleton]
    simp only [beq_iff_eq]
    omega

/-- Where the first `n` data blocks exist, the way to them meets no block
more often than the forest has it. -/
theorem count_visitedF (h : ∀ i < n, i < capacity L A → dataF L v A i ≠ L.null) (s : κ) :
    (visitedF L v A n).count s ≤ occF L v A s :=
  count_visitedF_of_visited (fun r _ _ hn h => count_visited r.1 r.2 hn h) h s

theorem visitedF_congr_of (hA : ∀ r ∈ A, ∀ n, visited L v' r.1 r.2 n = visited L v r.1 r.2 n)
    (n : Nat) : visitedF L v' A n = visitedF L v A n := by
  induction A generalizing n with
  | nil => rfl
  | cons r A ih => simp only [visitedF, hA r (by simp), ih fun r hr => hA r (by simp [hr])]

theorem visited_congr (l : Nat) (p : κ) (h : ∀ s, IsIndex L v l p s → v' s = v s) (n : Nat) :
    visited L v' l p n = visited L v l p n := by
  induction l generalizing p n with
  | zero => rfl
  | succ l ih =>
    by_cases hp : p = L.null
    · simp [visited, hp]
    · rw [visited_succ hp, visited_succ hp, h p ((index_succ hp).2 (.inl rfl))]
      congr 1
      refine visitedF_congr_of (fun r hr n => ?_) n
      obtain ⟨q, hq, rfl⟩ := List.mem_map.1 hr
      exact ih q (fun s hs => h s ((index_succ hp).2 (.inr ⟨(l, q), hr, hs⟩))) n

theorem visitedF_congr (h : ∀ s, IsIndexF L v A s → v' s = v s) (n : Nat) :
    visitedF L v' A n = visitedF L v A n :=
  visitedF_congr_of (fun r hr n => visited_congr r.1 r.2 (fun s hs => h s ⟨r, hr, hs⟩) n) n

/-! ## Counting blocks -/

theorem count_blocks (l : Nat) (p s : κ) : (blocks L v l p).count s = occ L v l p s := by
  induction l generalizing p with
  | zero =>
    rw [blocks, occ]
    split
    · simp
    · rw [List.count_singleton]
      simp
  | succ l ih =>
    rw [blocks, occ]
    split
    · simp
    · rw [List.count_cons, List.count_flatMap, Nat.add_comm]
      simp only [beq_iff_eq, Function.comp_def, ih]

theorem count_blocksF (s : κ) : (blocksF L v A).count s = occF L v A s := by
  rw [blocksF, List.count_flatMap, occF]
  simp only [Function.comp_def, count_blocks]

theorem mem_blocksF : s ∈ blocksF L v A ↔ 1 ≤ occF L v A s := by
  rw [← count_blocksF, Nat.one_le_iff_ne_zero, ← Nat.pos_iff_ne_zero, List.count_pos_iff]

theorem blocks_congr (l : Nat) (p : κ) (h : ∀ s, IsIndex L v l p s → v' s = v s) :
    blocks L v' l p = blocks L v l p := by
  induction l generalizing p with
  | zero => rfl
  | succ l ih =>
    by_cases hp : p = L.null
    · simp [blocks, hp]
    · rw [blocks, blocks, if_neg hp, if_neg hp, h p ((index_succ hp).2 (.inl rfl))]
      congr 1
      refine List.flatMap_congr fun q hq => ih q fun s hs =>
        h s ((index_succ hp).2 (.inr ⟨(l, q), ?_, hs⟩))
      exact List.mem_map.2 ⟨q, hq, rfl⟩

theorem blocksF_congr (h : ∀ s, IsIndexF L v A s → v' s = v s) : blocksF L v' A = blocksF L v A :=
  List.flatMap_congr fun r hr => blocks_congr r.1 r.2 fun s hs => h s ⟨r, hr, hs⟩

theorem length_visitedF_of (hA : ∀ r ∈ A, ∀ n, 0 < n →
      (∀ i < n, i < L.width ^ r.1 → data L v r.1 r.2 i ≠ L.null) →
      (visited L v r.1 r.2 n).length = (missing L v r.1 L.null n).length)
    (h : ∀ i < n, i < capacity L A → dataF L v A i ≠ L.null) :
    (visitedF L v A n).length = (missingF L v (bare L A) n).length := by
  induction A generalizing n with
  | nil => rfl
  | cons r A ih =>
    have hpos := L.width_pow_pos r.1
    rw [bare_cons, visitedF, missingF]
    by_cases hn : n = 0
    · rw [if_pos hn, if_pos hn]
      rfl
    · have h₁ := hA r (by simp) (min n (L.width ^ r.1)) (by omega) fun i hi hi' => by
        have := h i (by omega) (by rw [capacity_cons]; omega)
        rwa [dataF, if_pos hi'] at this
      have h₂ := ih (fun r hr => hA r (by simp [hr])) (n := n - L.width ^ r.1) fun i hi hi' => by
        have := h (i + L.width ^ r.1) (by omega) (by rw [capacity_cons]; omega)
        rwa [dataF, if_neg (by omega), Nat.add_sub_cancel] at this
      rw [if_neg hn, if_neg hn, List.length_append, List.length_append, h₁, h₂]

theorem length_visited (l : Nat) (p : κ) (hn : 0 < n)
    (h : ∀ i < n, i < L.width ^ l → data L v l p i ≠ L.null) :
    (visited L v l p n).length = (missing L v l L.null n).length := by
  induction l generalizing p n with
  | zero => simp [visited, missing]
  | succ l ih =>
    have hp : p ≠ L.null := by
      rintro rfl
      exact h 0 hn (L.width_pow_pos _) data_null
    have hA := length_visitedF_of (A := level l (L.children (v p))) (n := n) (by
      intro r hr n hn h
      obtain ⟨q, -, rfl⟩ := List.mem_map.1 hr
      exact ih q hn h) (fun i hi hi' => by
        rw [capacity_entries _ (L.length_children _)] at hi'
        have := h i hi hi'
        rwa [data_succ hp] at this)
    rw [bare_level, L.length_children] at hA
    rw [visited_succ hp, missing_null, List.length_append, hA]
    rfl

/-- Where the first `n` data blocks exist, the way to them has as many blocks
as a walk that starts without any supplies. -/
theorem length_visitedF (h : ∀ i < n, i < capacity L A → dataF L v A i ≠ L.null) :
    (visitedF L v A n).length = (missingF L v (bare L A) n).length :=
  length_visitedF_of (fun r _ _ hn h => length_visited r.1 r.2 hn h) h

theorem length_missingF_of {m : Nat} (hA : ∀ r ∈ A, ∀ n m, n ≤ m → 0 < m →
      (∀ i < n, i < L.width ^ r.1 → data L v r.1 r.2 i ≠ L.null) →
      (missing L v r.1 r.2 m).length + (if n = 0 then 0 else (missing L v r.1 L.null n).length) ≤
        (missing L v r.1 L.null m).length)
    (hle : n ≤ m) (h : ∀ i < n, i < capacity L A → dataF L v A i ≠ L.null) :
    (missingF L v A m).length + (missingF L v (bare L A) n).length ≤
    (missingF L v (bare L A) m).length := by
  induction A generalizing n m with
  | nil => simp [missingF]
  | cons r A ih =>
    have hpos := L.width_pow_pos r.1
    simp only [bare_cons, missingF]
    by_cases hm : m = 0
    · rw [if_pos hm, if_pos (by omega), if_pos hm]
      simp
    · have h₁ := hA r (by simp) (min n (L.width ^ r.1)) (min m (L.width ^ r.1)) (by omega)
        (by omega) fun i hi hi' => by
        have := h i (by omega) (by rw [capacity_cons]; omega)
        rwa [dataF, if_pos hi'] at this
      have h₂ := ih (fun r hr => hA r (by simp [hr])) (n := n - L.width ^ r.1)
          (m := m - L.width ^ r.1) (by omega)
        fun i hi hi' => by
          have := h (i + L.width ^ r.1) (by omega) (by rw [capacity_cons]; omega)
          rwa [dataF, if_neg (by omega), Nat.add_sub_cancel] at this
      rw [if_neg hm, if_neg hm, List.length_append, List.length_append]
      by_cases hn : n = 0
      · subst hn
        rw [Nat.zero_min, if_pos rfl] at h₁
        rw [Nat.zero_sub] at h₂
        rw [if_pos rfl, List.length_nil]
        omega
      · rw [if_neg (by omega)] at h₁
        rw [if_neg hn, List.length_append]
        omega

theorem length_missing (l : Nat) (p : κ) {m : Nat} (hle : n ≤ m) (hm : 0 < m)
    (h : ∀ i < n, i < L.width ^ l → data L v l p i ≠ L.null) :
    (missing L v l p m).length + (if n = 0 then 0 else (missing L v l L.null n).length) ≤
      (missing L v l L.null m).length := by
  induction l generalizing p n m with
  | zero =>
    by_cases hn : n = 0
    · subst hn
      simp only [missing]
      split <;> simp
    · have hp : p ≠ L.null := h 0 (by omega) (by simp)
      simp [missing, hp, hn]
  | succ l ih =>
    by_cases hp : p = L.null
    · subst hp
      obtain rfl : n = 0 := by
        by_contra hn
        exact h 0 (by omega) (L.width_pow_pos _) data_null
      simp
    · have hA := length_missingF_of (A := level l (L.children (v p))) (by
        intro r hr n m hle hm h
        obtain ⟨q, -, rfl⟩ := List.mem_map.1 hr
        exact ih q hle hm h) hle (fun i hi hi' => by
          rw [capacity_entries _ (L.length_children _)] at hi'
          have := h i hi hi'
          rwa [data_succ hp] at this)
      rw [bare_level, L.length_children] at hA
      rw [missing_ne hp, missing_null, missing_null, List.length_cons, List.length_cons]
      split <;> omega

/-- Where the first `n` data blocks exist, a walk to `m` of them supplies at
most what it would have to supply beyond `n` if it had started without any. -/
theorem length_missingF {m : Nat} (hle : n ≤ m)
    (h : ∀ i < n, i < capacity L A → dataF L v A i ≠ L.null) :
    (missingF L v A m).length + (missingF L v (bare L A) n).length ≤
    (missingF L v (bare L A) m).length :=
  length_missingF_of (fun r _ _ _ hle hm h => length_missing r.1 r.2 hle hm h) hle h

/-- A forest with no more blocks than the way to its first `n` data blocks
needs consists of these. -/
theorem visitedF_perm (h : ∀ i < n, i < capacity L A → dataF L v A i ≠ L.null)
    (hlen : (blocksF L v A).length ≤ (missingF L v (bare L A) n).length) :
    (visitedF L v A n).Perm (blocksF L v A) := by
  have hsub : (visitedF L v A n).Subperm (blocksF L v A) := by
    rw [List.subperm_ext_iff]
    intro s _
    rw [count_blocksF]
    exact count_visitedF h s
  refine hsub.perm_of_length_le ?_
  rw [length_visitedF h]
  exact hlen

/-! ## Growing roots -/

variable (L) in
/-- `B` is `A` with roots put where `A` has none. -/
def Le (A B : Forest κ) : Prop :=
  List.Forall₂ (fun r r' => r.1 = r'.1 ∧ (r.2 = L.null ∨ r.2 = r'.2)) A B

section le

omit [DecidableEq κ]

theorem Le.refl (A : Forest κ) : Le L A A := List.forall₂_same.2 fun _ _ => ⟨rfl, .inr rfl⟩

theorem Le.trans {C : Forest κ} (h : Le L A B) (h' : Le L B C) : Le L A C := by
  induction h generalizing C with
  | nil => exact h'
  | @cons r r' A B hr _ ih =>
    obtain ⟨r'', C, hr', hC, rfl⟩ := List.forall₂_cons_left_iff.1 h'
    refine .cons ⟨hr.1.trans hr'.1, ?_⟩ (ih hC)
    rcases hr.2 with h₁ | h₁
    · exact .inl h₁
    · rcases hr'.2 with h₂ | h₂
      · exact .inl (h₁.trans h₂)
      · exact .inr (h₁.trans h₂)

theorem bare_le (A : Forest κ) : Le L (bare L A) A := by
  rw [Le, bare, List.forall₂_map_left_iff]
  exact List.forall₂_same.2 fun r _ => ⟨rfl, .inl rfl⟩

theorem Le.append {A' B' : Forest κ} (h : Le L A B) (h' : Le L A' B') : Le L (A ++ A') (B ++ B') :=
  List.rel_append h h'

theorem Le.capacity (h : Le L A B) : capacity L A = capacity L B := by
  induction h with
  | nil => rfl
  | cons hr _ ih => rw [capacity_cons, capacity_cons, ih, hr.1]

theorem Le.indexF (h : Le L A B) (hs : IsIndexF L v A s) : IsIndexF L v B s := by
  induction h with
  | nil => exact hs
  | @cons r r' A B hr _ ih =>
    obtain ⟨h₁, h₂⟩ := hr
    rw [indexF_cons] at hs ⊢
    rcases hs with hs | hs
    · rcases h₂ with h₂ | h₂
      · rw [h₂] at hs; exact absurd hs not_index_null
      · rw [← h₁, ← h₂]; exact .inl hs
    · exact .inr (ih hs)

end le

/-- Under a root that `A` has, `A` and `B` have the same data blocks. -/
theorem Le.dataF_ne (h : Le L A B) (hi : dataF L v A i ≠ L.null) : dataF L v' A i = dataF L v' B i := by
  induction h generalizing i with
  | nil => rfl
  | @cons r r' A B hr _ ih =>
    obtain ⟨h₁, h₂⟩ := hr
    simp only [dataF] at hi ⊢
    rw [← h₁]
    split
    · rename_i hlt
      rw [if_pos hlt] at hi
      rcases h₂ with h₂ | h₂
      · rw [h₂, data_null] at hi; exact absurd rfl hi
      · rw [h₂]
    · rename_i hlt
      rw [if_neg hlt] at hi
      exact ih hi

theorem Le.occF (h : Le L A B) (s : κ) : occF L v A s ≤ BlockTree.occF L v B s := by
  induction h with
  | nil => exact Nat.le_refl _
  | @cons r r' A B hr _ ih =>
    obtain ⟨h₁, h₂⟩ := hr
    simp only [occF_cons]
    rcases h₂ with h₂ | h₂
    · rw [h₂, occ_null]; omega
    · rw [h₁, h₂]; omega

theorem Le.blocksF (h : Le L A B) : (BlockTree.blocksF L v A).Subperm (BlockTree.blocksF L v B) := by
  rw [List.subperm_ext_iff]
  intro s _
  rw [count_blocksF, count_blocksF]
  exact h.occF s

end forests

end BlockTree

/-
Stamps from a clock that goes on by one whenever it is read. No two places
bear the same stamp but those that were never stamped, which bear 0; so among
stamped places the oldest is one place. Where places are used in turn, the one
that was begun first is the one that was used last the longest ago.
-/
import Mathlib.Data.List.MinMax
import Mathlib.Tactic.Common

namespace Clock

variable {ι : Type} {now : Nat} {stamp : ι → Nat} {bound : Nat} {l : List ι} {i j : ι}

/-- The stamps that have been given when the clock stands at `now`. -/
structure Given (now : Nat) (stamp : ι → Nat) : Prop where
  le : ∀ i, stamp i ≤ now
  inj : ∀ i j, stamp i = stamp j → i = j ∨ stamp i = 0

theorem Given.zero (now : Nat) : Given now fun _ : ι => 0 :=
  ⟨fun _ => Nat.zero_le _, fun _ _ _ => .inr rfl⟩

theorem Given.later (h : Given now stamp) : Given (now + 1) stamp :=
  ⟨fun i => Nat.le_succ_of_le (h.le i), h.inj⟩

theorem Given.tick [DecidableEq ι] (h : Given now stamp) (i : ι) :
    Given (now + 1) (Function.update stamp i (now + 1)) where
  le j := by
    by_cases hj : j = i
    · rw [hj, Function.update_self]
    · rw [Function.update_of_ne hj]
      exact Nat.le_succ_of_le (h.le j)
  inj j j' heq := by
    have hle := h.le j
    have hle' := h.le j'
    by_cases hj : j = i
    · by_cases hj' : j' = i
      · exact .inl (hj.trans hj'.symm)
      · rw [hj, Function.update_self, Function.update_of_ne hj'] at heq
        omega
    · by_cases hj' : j' = i
      · rw [hj', Function.update_self, Function.update_of_ne hj] at heq
        omega
      · rw [Function.update_of_ne hj] at heq ⊢
        rw [Function.update_of_ne hj'] at heq
        exact h.inj j j' heq

/-- Two places with the smallest stamp are one, if it was given. -/
theorem Given.unique (h : Given now stamp) (hi : stamp i ≤ stamp j) (hj : stamp j ≤ stamp i)
    (hpos : 0 < stamp i) : i = j :=
  (h.inj i j (Nat.le_antisymm hi hj)).resolve_right (Nat.ne_of_gt hpos)

/-- The place with the smallest stamp of those below a bound, the first of them where there are more. -/
def oldest (stamp : ι → Nat) (bound : Nat) (l : List ι) : Option ι :=
  (l.filter fun i => stamp i < bound).argmin stamp

theorem oldest_spec (h : oldest stamp bound l = some i) :
    i ∈ l ∧ stamp i < bound ∧ ∀ j ∈ l, stamp i ≤ stamp j := by
  have hmem := List.argmin_mem (Option.mem_def.2 h)
  rw [List.mem_filter, decide_eq_true_eq] at hmem
  refine ⟨hmem.1, hmem.2, fun j hj => ?_⟩
  by_cases hlt : stamp j < bound
  · exact List.le_of_mem_argmin (List.mem_filter.2 ⟨hj, decide_eq_true hlt⟩) (Option.mem_def.2 h)
  · omega

theorem oldest_isSome : (∃ i, oldest stamp bound l = some i) ↔ ∃ i ∈ l, stamp i < bound := by
  rw [← Option.isSome_iff_exists, Option.isSome_iff_ne_none, oldest, Ne, List.argmin_eq_none,
    List.filter_eq_nil_iff]
  simp

/-- A search along the list, with the smallest stamp and the place found so far. -/
def search (stamp : ι → Nat) : List ι → Nat → Option ι → Option ι
  | [], _, found => found
  | i :: l, time, found =>
    if stamp i < time then search stamp l (stamp i) (some i) else search stamp l time found

theorem search_eq (stamp : ι → Nat) (bound : Nat) (l : List ι) :
    search stamp l bound none = oldest stamp bound l := by
  suffices h : ∀ found : Option ι, (∀ i ∈ found, stamp i < bound) →
    search stamp l (found.elim bound stamp) found =
      (l.filter fun i => stamp i < bound).foldl (List.argAux fun b c => stamp b < stamp c) found from
    h none fun _ hi => by cases hi
  induction l with
  | nil => exact fun _ _ => rfl
  | cons i l ih =>
    intro found hfound
    cases found with
    | none =>
      rw [Option.elim_none, search]
      by_cases hlt : stamp i < bound
      · rw [if_pos hlt, List.filter_cons_of_pos (by simpa using hlt)]
        exact ih (some i) fun j hj => by cases hj; exact hlt
      · rw [if_neg hlt, List.filter_cons_of_neg (by simpa using hlt)]
        exact ih none hfound
    | some b =>
      have hb := hfound b rfl
      rw [Option.elim_some, search]
      by_cases hlt : stamp i < stamp b
      · have hbound := Nat.lt_trans hlt hb
        rw [if_pos hlt, List.filter_cons_of_pos (by simpa using hbound), List.foldl_cons,
          show List.argAux (fun b c => stamp b < stamp c) (some b) i = some i from if_pos hlt]
        exact ih (some i) fun j hj => by cases hj; exact hbound
      · rw [if_neg hlt]
        by_cases hbound : stamp i < bound
        · rw [List.filter_cons_of_pos (by simpa using hbound), List.foldl_cons,
            show List.argAux (fun b c => stamp b < stamp c) (some b) i = some b from if_neg hlt]
          exact ih (some b) hfound
        · rw [List.filter_cons_of_neg (by simpa using hbound)]
          exact ih (some b) hfound

/-! ## Places that are used in turn -/

variable {first last : ι → Nat}

/-- With the stamps of the first and of the last use of each place: a place is
not used any more when another one is begun. -/
def InTurn (first last : ι → Nat) (l : List ι) : Prop :=
  ∀ i ∈ l, ∀ j ∈ l, first i < first j → last i < first j

theorem InTurn.congr {first' last' : ι → Nat} (h : InTurn first last l)
    (hfirst : ∀ j ∈ l, first' j = first j) (hlast : ∀ j ∈ l, last' j = last j) :
    InTurn first' last' l := by
  intro i hi j hj hlt
  rw [hfirst i hi, hfirst j hj] at hlt
  rw [hlast i hi, hfirst j hj]
  exact h i hi j hj hlt

theorem InTurn.begin [DecidableEq ι] (h : InTurn first last l) (hfirst : ∀ j ∈ l, first j ≤ now)
    (hlast : ∀ j ∈ l, last j ≤ now) (i : ι) :
    InTurn (Function.update first i (now + 1)) (Function.update last i (now + 1)) l := by
  intro j hj j' hj' hlt
  by_cases hji : j = i
  · subst hji
    rw [Function.update_self] at hlt
    by_cases hji' : j' = j
    · rw [hji', Function.update_self] at hlt
      omega
    · rw [Function.update_of_ne hji'] at hlt
      have := hfirst j' hj'
      omega
  · rw [Function.update_of_ne hji] at hlt ⊢
    by_cases hji' : j' = i
    · subst hji'
      rw [Function.update_self]
      have := hlast j hj
      omega
    · rw [Function.update_of_ne hji'] at hlt ⊢
      exact h j hj j' hj' hlt

theorem InTurn.resume [DecidableEq ι] (h : InTurn first last l) (hi : ∀ j ∈ l, first j ≤ first i)
    (time : Nat) : InTurn first (Function.update last i time) l := by
  intro j hj j' hj' hlt
  by_cases hji : j = i
  · have := hi j' hj'
    rw [hji] at hlt
    omega
  · rw [Function.update_of_ne hji]
    exact h j hj j' hj' hlt

/-- The place that was begun first, where that is one place. -/
theorem InTurn.oldest (h : InTurn first last l) (hle : ∀ j ∈ l, first j ≤ last j) (hi : i ∈ l)
    (hmin : ∀ j ∈ l, j = i ∨ first i < first j) : ∀ j ∈ l, last i ≤ last j := by
  intro j hj
  rcases hmin j hj with rfl | hlt
  · exact Nat.le_refl _
  · have := h i hi j hj hlt
    have := hle j hj
    omega

end Clock

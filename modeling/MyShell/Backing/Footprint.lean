/-
The lines of the memory that `load_file`, `load_frame` and `remove_frame` read
as part of a frame, fill or free. They are lines of the frame store unless the
last frame reaches beyond it and is looked at or evicted.
-/
import MyShell.Backing.PageTable

namespace MyShell.Backing

open Paging (Text)

/-! ## Lines that are looked at -/

namespace Store

variable {threshold i j : Nat} {m m' : Store}

/-- Line `i` is there, and is free. -/
def IsFree (m : Store) (i : Nat) : Prop := ∃ s ∈ m.lines[i]?, str s.var = "none".toList

instance (m : Store) (i : Nat) : Decidable (m.IsFree i) :=
  inferInstanceAs (Decidable (∃ s ∈ m.lines[i]?, str s.var = "none".toList))

/-- The lines of the frame at `i` that `find_available_slot` looks at. -/
def frameReads (m : Store) (i : Nat) : List Nat :=
  i :: if m.IsFree i then (i + 1) :: if m.IsFree (i + 1) then [i + 2] else [] else []

/-- The lines it looks at, from these frames on. -/
def slotReads (m : Store) : List Nat → List Nat
  | [] => []
  | i :: is => m.frameReads i ++ if m.frameFree i = some false then slotReads m is else []

/-- No frame but the last may reach beyond the frame store; it is looked at where
no other frame is free, and beyond the frame store where its lines before are free. -/
def SearchInside (threshold : Nat) (m : Store) : Prop :=
  3 ∣ threshold ∨ (∃ i, i + 2 < threshold ∧ 3 ∣ i ∧ m.frameFree i = some true) ∨
    ∃ j, threshold - threshold % 3 ≤ j ∧ j < threshold ∧ ¬ m.IsFree j

theorem mem_frameReads (h : j ∈ m.frameReads i) : i ≤ j ∧ j ≤ i + 2 := by
  unfold frameReads at h
  split at h
  · split at h
    · simp at h
      omega
    · simp at h
      omega
  · simp at h
    omega

theorem frameReads_free (h : m.frameFree i = some true) : i + 2 ∈ m.frameReads i := by
  have hfree (d : Nat) (hd : d < 3) : m.IsFree (i + d) := by
    obtain ⟨s, hs, hvar⟩ := frameFree_true h d hd
    exact ⟨s, hs, hvar⟩
  have h₀ : m.IsFree i := hfree 0 (by decide)
  rw [frameReads, if_pos h₀, if_pos (hfree 1 (by decide))]
  simp

/-- A frame inside the memory can be looked at. -/
theorem frameFree_isSome (h : i + 2 < m.lines.length) : ∃ b, m.frameFree i = some b := by
  have h₀ : m.lines[i]? = some m.lines[i] := List.getElem?_eq_getElem (by omega)
  have h₁ : m.lines[i + 1]? = some m.lines[i + 1] := List.getElem?_eq_getElem (by omega)
  have h₂ : m.lines[i + 2]? = some m.lines[i + 2] := List.getElem?_eq_getElem h
  unfold frameFree
  simp only [h₀, h₁, h₂, Option.bind_eq_bind, Option.bind_some]
  split
  · exact ⟨_, rfl⟩
  · split
    · exact ⟨_, rfl⟩
    · exact ⟨_, rfl⟩

theorem slotReads_lt {is : List Nat} {bound : Nat} (h : ∀ i ∈ is, i + 2 < bound) :
    ∀ j ∈ m.slotReads is, j < bound := by
  induction is with
  | nil => exact fun j hj => absurd hj List.not_mem_nil
  | cons i is ih =>
    intro j hj
    rw [slotReads, List.mem_append] at hj
    obtain hj | hj := hj
    · have := (mem_frameReads hj).2
      have := h i List.mem_cons_self
      omega
    · split at hj
      · exact ih (fun i hi => h i (List.mem_cons_of_mem _ hi)) j hj
      · cases hj

theorem slotReads_append (is is' : List Nat) :
    m.slotReads (is ++ is') =
      m.slotReads is ++ if m.firstFree is = some none then m.slotReads is' else [] := by
  induction is with
  | nil => rfl
  | cons i is ih =>
    rw [List.cons_append, slotReads, slotReads, ih, firstFree]
    cases hfree : m.frameFree i with
    | none => simp
    | some b => cases b <;> simp

/-- Frames inside the memory can be searched. -/
theorem firstFree_isSome {is : List Nat} (h : ∀ i ∈ is, i + 2 < m.lines.length) :
    ∃ slot, m.firstFree is = some slot := by
  induction is with
  | nil => exact ⟨none, rfl⟩
  | cons i is ih =>
    obtain ⟨b, hb⟩ := frameFree_isSome (h i List.mem_cons_self)
    obtain ⟨slot, hslot⟩ := ih fun i hi => h i (List.mem_cons_of_mem _ hi)
    rw [firstFree, hb]
    cases b with
    | true => exact ⟨some i, rfl⟩
    | false => exact ⟨slot, hslot⟩

/-- The last frame is the one that is not whole. -/
theorem frameStarts_eq (h : ¬ 3 ∣ threshold) :
    frameStarts threshold = frameStarts (threshold - threshold % 3) ++ [threshold - threshold % 3] := by
  obtain ⟨n, hn | hn⟩ : ∃ n, threshold = 3 * n + 1 ∨ threshold = 3 * n + 2 :=
    ⟨threshold / 3, by omega⟩
  all_goals have hdvd : 3 ∣ 3 * n := Nat.dvd_mul_right 3 n
  · have hlast : threshold - threshold % 3 = 3 * n := by omega
    rw [hlast, hn, frameStarts, List.range_succ, List.filter_append]
    simp [frameStarts, hdvd]
  · have hlast : threshold - threshold % 3 = 3 * n := by omega
    rw [hlast, hn, frameStarts, List.range_succ, List.range_succ, List.filter_append,
      List.filter_append]
    have hnot : ¬ 3 ∣ 3 * n + 1 := by omega
    simp [frameStarts, hdvd, hnot]

/-- **A search** stays in the frame store. -/
theorem slotReads_inside (h : threshold ≤ m.lines.length) :
    (∀ j ∈ m.slotReads (frameStarts threshold), j < threshold) ↔ m.SearchInside threshold := by
  by_cases hdvd : 3 ∣ threshold
  · refine iff_of_true (slotReads_lt fun i hi => ?_) (.inl hdvd)
    obtain ⟨hlt, hi⟩ := mem_frameStarts.1 hi
    omega
  generalize hlast : threshold - threshold % 3 = last
  have hrange : ∀ i ∈ frameStarts last, i + 2 < last := fun i hi => by
    obtain ⟨hlt, hi⟩ := mem_frameStarts.1 hi
    omega
  have hwhole : ∀ j ∈ m.slotReads (frameStarts last), j < threshold := fun j hj => by
    have := slotReads_lt hrange j hj
    omega
  obtain ⟨slot, hslot⟩ := firstFree_isSome (m := m) fun i hi => by
    have := hrange i hi
    omega
  rw [frameStarts_eq hdvd, hlast, slotReads_append, hslot]
  cases slot with
  | some i =>
    -- a whole frame is free
    obtain ⟨hmem, hfree⟩ := firstFree_some _ hslot
    have hi := hrange i hmem
    refine iff_of_true (fun j hj => hwhole j (by simpa using hj)) (.inr (.inl ⟨i, by omega, ?_, hfree⟩))
    exact (mem_frameStarts.1 hmem).2
  | none =>
    have hnone : ¬ ∃ i, i + 2 < threshold ∧ 3 ∣ i ∧ m.frameFree i = some true :=
      fun ⟨i, hi, hi3, hfree⟩ => by
      have hmem : i ∈ frameStarts last := mem_frameStarts.2 ⟨by omega, hi3⟩
      rw [firstFree_none _ hslot i hmem] at hfree
      cases hfree
    have hlook : (∀ j ∈ m.frameReads last, j < threshold) ↔ ∃ j, last ≤ j ∧ j < threshold ∧
        ¬ m.IsFree j := by
      constructor
      · intro hall
        by_contra hnot
        have hfree (j : Nat) (hle : last ≤ j) (hlt : j < threshold) : m.IsFree j := by
          by_contra hused
          exact hnot ⟨j, hle, hlt, hused⟩
        have h₀ : m.IsFree last := hfree last (Nat.le_refl _) (by omega)
        by_cases hone : threshold = last + 1
        · have := hall (last + 1) (by simp [frameReads, h₀])
          omega
        · have h₁ : m.IsFree (last + 1) := hfree (last + 1) (by omega) (by omega)
          have := hall (last + 2) (by simp [frameReads, h₀, h₁])
          omega
      · intro ⟨j, hle, hlt, hused⟩ j' hj'
        rw [frameReads] at hj'
        obtain rfl | hne := Nat.eq_or_lt_of_le hle
        · rw [if_neg hused] at hj'
          rw [List.mem_singleton.1 hj']
          exact hlt
        · obtain rfl : j = last + 1 := by omega
          rw [if_neg hused] at hj'
          split at hj'
          · simp at hj'
            omega
          · simp at hj'
            omega
    have hreads : m.slotReads [last] = m.frameReads last := by simp [slotReads]
    rw [if_pos rfl, hreads, List.forall_mem_append, and_iff_right hwhole, hlook, SearchInside,
      hlast, or_iff_right hdvd, or_iff_right hnone]

/-- A frame that is found was looked at as a whole. -/
theorem slotReads_found {is : List Nat} (h : m.firstFree is = some (some i)) :
    i + 2 ∈ m.slotReads is := by
  induction is with
  | nil => cases h
  | cons j is ih =>
    obtain ⟨b, hb, h⟩ := Option.bind_eq_some_iff.1 h
    rw [slotReads, List.mem_append]
    cases b with
    | true =>
      cases h
      exact .inl (frameReads_free hb)
    | false =>
      rw [if_pos hb]
      exact .inr (ih h)

theorem SearchInside.slot (h : m.SearchInside threshold) (hsize : threshold ≤ m.lines.length)
    (hslot : m.findAvailableSlot threshold = some (some i)) : i + 2 < threshold :=
  (slotReads_inside hsize).2 h (i + 2) (slotReads_found hslot)

theorem frameFree_congr (h : ∀ j ∈ m.frameReads i, m'.lines[j]? = m.lines[j]?) :
    m'.frameFree i = m.frameFree i := by
  have h₀ : m'.lines[i]? = m.lines[i]? := h i (by simp [frameReads])
  cases hs₀ : m.lines[i]? with
  | none => simp [frameFree, h₀, hs₀]
  | some s₀ =>
    by_cases hfree₀ : str s₀.var = "none".toList
    · have hline₀ : m.IsFree i := ⟨s₀, hs₀, hfree₀⟩
      have h₁ : m'.lines[i + 1]? = m.lines[i + 1]? := h (i + 1) (by simp [frameReads, hline₀])
      cases hs₁ : m.lines[i + 1]? with
      | none => simp [frameFree, h₀, h₁, hs₀, hs₁]
      | some s₁ =>
        by_cases hfree₁ : str s₁.var = "none".toList
        · have hline₁ : m.IsFree (i + 1) := ⟨s₁, hs₁, hfree₁⟩
          have h₂ : m'.lines[i + 2]? = m.lines[i + 2]? :=
            h (i + 2) (by simp [frameReads, hline₀, hline₁])
          simp only [frameFree, h₀, h₁, h₂]
        · simp only [frameFree, h₀, h₁, hs₀, hs₁, hfree₀, hfree₁, Option.bind_eq_bind,
            Option.bind_some, ne_eq, not_true_eq_false, not_false_eq_true, if_true, if_false]
    · simp only [frameFree, h₀, hs₀, hfree₀, Option.bind_eq_bind, Option.bind_some, ne_eq,
        not_false_eq_true, if_true]

/-- **What the search finds** depends on the lines it looks at only. -/
theorem firstFree_congr {is : List Nat} (h : ∀ j ∈ m.slotReads is, m'.lines[j]? = m.lines[j]?) :
    m'.firstFree is = m.firstFree is := by
  induction is with
  | nil => rfl
  | cons i is ih =>
    rw [slotReads, List.forall_mem_append] at h
    obtain ⟨hframe, hrest⟩ := h
    rw [firstFree, firstFree, frameFree_congr hframe]
    cases hfree : m.frameFree i with
    | none => rfl
    | some b =>
      cases b with
      | true => rfl
      | false =>
        rw [if_pos hfree] at hrest
        exact ih hrest

end Store

/-! ## Lines that are filled -/

/-- The line that a turn of a loop fills. -/
def Loading.target (s : Loading) : List Nat :=
  if ¬ s.file.eof ∧ s.file.fgets.1.isSome then [s.frameIndex] else []

/-- The lines that `load_file` fills in its loop over the lines of a page. -/
def pageLines : Nat → Loading → List Nat
  | 0, _ => []
  | n + 1, s =>
    (if s.linesLoaded < 6 then s.target else []) ++ match loadPage 1 s with
      | none => []
      | some s => pageLines n s

/-- Those it fills in its loop over pages. -/
def pagesLines (threshold : Nat) : Nat → Loading → List Nat
  | 0, _ => []
  | n + 1, s =>
    if ¬ s.file.eof ∧ s.loadNextPage ∧ (threshold < 2 ∨ s.frameIndex < threshold - 2) then
      pageLines 3 s ++ match loadPage 3 s with
        | none => []
        | some s => if threshold < s.frameIndex then [] else pagesLines threshold n s
    else []

/-- The lines that `load_frame` fills in its loop. -/
def fillLines : Nat → Loading → List Nat
  | 0, _ => []
  | n + 1, s =>
    s.target ++ match fillFrame 1 s with
      | none => []
      | some s => fillLines n s

section loops

variable {n threshold : Nat} {s s' : Loading}

theorem mem_target {j : Nat} (h : j ∈ s.target) : j = s.frameIndex := by
  unfold Loading.target at h
  split at h
  · exact List.mem_singleton.1 h
  · cases h

/-- A turn of `load_file`'s loop leaves the other lines. -/
theorem loadPage_turn (h : loadPage 1 s = some s') : s'.frameIndex ≤ s.frameIndex + 1 ∧
    ∀ j, j ∉ (if s.linesLoaded < 6 then s.target else []) → s'.store.lines[j]? = s.store.lines[j]? := by
  rw [loadPage] at h
  split at h
  · cases h
    exact ⟨Nat.le_succ _, fun j _ => rfl⟩
  · next hgo =>
    rw [not_or, not_not] at hgo
    obtain ⟨hsix, heof⟩ := hgo
    cases hget : s.file.fgets with
    | mk line file =>
      rw [hget] at h
      cases line with
      | none =>
        cases h
        exact ⟨Nat.le_succ _, fun j _ => rfl⟩
      | some line =>
        obtain ⟨store, hput, h⟩ := Option.bind_eq_some_iff.1 h
        obtain ⟨ht, -⟩ := Store.touched_putLine hput
        have hlines : ∀ j, j ∉ (if s.linesLoaded < 6 then s.target else []) →
            store.lines[j]? = s.store.lines[j]? := by
          intro j hj
          rw [if_pos hsix, Loading.target, if_pos ⟨heof, by rw [hget]; rfl⟩, List.mem_singleton] at hj
          rw [ht.get, if_neg (Ne.symm hj)]
        dsimp only at h
        split at h
        · obtain ⟨pcb, -, h⟩ := Option.bind_eq_some_iff.1 h
          cases h
          exact ⟨Nat.le_refl _, hlines⟩
        · cases h
          exact ⟨Nat.le_refl _, hlines⟩

theorem loadPage_succ (n : Nat) (s : Loading) :
    loadPage (n + 1) s = (loadPage 1 s).bind (loadPage n) := by
  rw [loadPage, loadPage]
  by_cases hstop : ¬ s.linesLoaded < 6 ∨ s.file.eof = true
  · rw [if_pos hstop, if_pos hstop, Option.bind_some]
    cases n with
    | zero => rfl
    | succ n => rw [loadPage, if_pos hstop]
  · rw [if_neg hstop, if_neg hstop]
    cases s.file.fgets with
    | mk line file =>
      cases line with
      | none => rfl
      | some line =>
        simp only [Option.bind_eq_bind, Option.bind_assoc]
        congr 1
        funext store
        split
        · rw [Option.bind_assoc]
          rfl
        · rfl

theorem pageLines_spec : (∀ j ∈ pageLines n s, j < s.frameIndex + n) ∧
    ∀ s', loadPage n s = some s' → ∀ j, j ∉ pageLines n s →
      s'.store.lines[j]? = s.store.lines[j]? := by
  induction n generalizing s with
  | zero =>
    refine ⟨fun j hj => absurd hj List.not_mem_nil, fun s' h j _ => ?_⟩
    cases h
    rfl
  | succ n ih =>
    have htarget : ∀ j ∈ (if s.linesLoaded < 6 then s.target else []), j = s.frameIndex := by
      intro j hj
      split at hj
      · exact mem_target hj
      · cases hj
    rw [pageLines, loadPage_succ n]
    cases hturn : loadPage 1 s with
    | none =>
      refine ⟨fun j hj => ?_, fun s' h => by cases h⟩
      rw [List.append_nil] at hj
      rw [htarget j hj]
      omega
    | some s₁ =>
      obtain ⟨hindex, hlines⟩ := loadPage_turn hturn
      obtain ⟨hlt, hrest⟩ := ih (s := s₁)
      refine ⟨fun j hj => ?_, fun s' h j hj => ?_⟩
      · obtain hj | hj := List.mem_append.1 hj
        · rw [htarget j hj]
          omega
        · have := hlt j hj
          omega
      · rw [List.mem_append, not_or] at hj
        rw [hrest s' h j hj.2, hlines j hj.1]

/-- Past a store of one line, `load_file` fills lines of the frame store only. -/
theorem pagesLines_spec : (2 ≤ threshold → ∀ j ∈ pagesLines threshold n s, j < threshold) ∧
    ∀ r s', loadPages threshold n s = some (r, s') → ∀ j, j ∉ pagesLines threshold n s →
      s'.store.lines[j]? = s.store.lines[j]? := by
  induction n generalizing s with
  | zero => exact ⟨fun _ j hj => absurd hj List.not_mem_nil, fun r s' h => by cases h⟩
  | succ n ih =>
    obtain ⟨hlt, hlines⟩ := pageLines_spec (n := 3) (s := s)
    rw [pagesLines, loadPages]
    split
    · next hgo =>
      cases hpage : loadPage 3 s with
      | none =>
        refine ⟨fun htwo j hj => ?_, fun r s' h => by cases h⟩
        rw [List.append_nil] at hj
        have := hlt j hj
        omega
      | some s₁ =>
        obtain ⟨hrestlt, hrest⟩ := ih (s := s₁)
        simp only [Option.bind_eq_bind, Option.bind_some]
        refine ⟨fun htwo j hj => ?_, fun r s' h j hj => ?_⟩
        · obtain hj | hj := List.mem_append.1 hj
          · have := hlt j hj
            omega
          · split at hj
            · cases hj
            · exact hrestlt htwo j hj
        · rw [List.mem_append, not_or] at hj
          rw [← hlines s₁ hpage j hj.1]
          split at h
          · cases h
            rfl
          · next hover =>
            rw [if_neg hover] at hj
            exact hrest r s' h j hj.2
    · refine ⟨fun _ j hj => absurd hj List.not_mem_nil, fun r s' h j _ => ?_⟩
      cases h
      rfl

theorem fillFrame_turn (h : fillFrame 1 s = some s') : s'.frameIndex ≤ s.frameIndex + 1 ∧
    ∀ j, j ∉ s.target → s'.store.lines[j]? = s.store.lines[j]? := by
  rw [fillFrame] at h
  split at h
  · cases h
    exact ⟨Nat.le_succ _, fun j _ => rfl⟩
  · next heof =>
    cases hget : s.file.fgets with
    | mk line file =>
      rw [hget] at h
      cases line with
      | none =>
        cases h
        exact ⟨Nat.le_succ _, fun j _ => rfl⟩
      | some line =>
        obtain ⟨store, hput, h⟩ := Option.bind_eq_some_iff.1 h
        obtain ⟨ht, -⟩ := Store.touched_putLine hput
        cases h
        refine ⟨Nat.le_refl _, fun j hj => ?_⟩
        rw [Loading.target, if_pos ⟨heof, by rw [hget]; rfl⟩, List.mem_singleton] at hj
        exact (ht.get j).trans (if_neg (Ne.symm hj))

theorem fillFrame_succ (n : Nat) (s : Loading) :
    fillFrame (n + 1) s = (fillFrame 1 s).bind (fillFrame n) := by
  rw [fillFrame, fillFrame]
  by_cases hstop : s.file.eof = true
  · rw [if_pos hstop, if_pos hstop, Option.bind_some]
    cases n with
    | zero => rfl
    | succ n => rw [fillFrame, if_pos hstop]
  · rw [if_neg hstop, if_neg hstop]
    cases s.file.fgets with
    | mk line file =>
      cases line with
      | none => rfl
      | some line =>
        simp only [Option.bind_eq_bind, Option.bind_assoc]
        rfl

theorem fillLines_spec : (∀ j ∈ fillLines n s, j < s.frameIndex + n) ∧
    ∀ s', fillFrame n s = some s' → ∀ j, j ∉ fillLines n s →
      s'.store.lines[j]? = s.store.lines[j]? := by
  induction n generalizing s with
  | zero =>
    refine ⟨fun j hj => absurd hj List.not_mem_nil, fun s' h j _ => ?_⟩
    cases h
    rfl
  | succ n ih =>
    rw [fillLines, fillFrame_succ n]
    cases hturn : fillFrame 1 s with
    | none =>
      refine ⟨fun j hj => ?_, fun s' h => by cases h⟩
      rw [List.append_nil] at hj
      rw [mem_target hj]
      omega
    | some s₁ =>
      obtain ⟨hindex, hlines⟩ := fillFrame_turn hturn
      obtain ⟨hlt, hrest⟩ := ih (s := s₁)
      refine ⟨fun j hj => ?_, fun s' h j hj => ?_⟩
      · obtain hj | hj := List.mem_append.1 hj
        · rw [mem_target hj]
          omega
        · have := hlt j hj
          omega
      · rw [List.mem_append, not_or] at hj
        rw [hrest s' h j hj.2, hlines j hj.1]

end loops

/-! ## The calls -/

/-- The lines that `load_file` looks at and fills. -/
def fileLines (threshold : Nat) (content filename : Text) (pcb : PCB) (m : Store) : List Nat :=
  m.slotReads (Store.frameStarts threshold) ++ match m.findAvailableSlot threshold with
    | some (some i) =>
      pagesLines threshold 3
        ⟨m, { pcb.place i with filename := filename }, ⟨content, false⟩, i, 0, true⟩
    | _ => []

/-- What `load_frame` goes on with in the file, unless it is not there or ends before. -/
def pageFile (content : Option Text) (pcb : PCB) : Option Stream :=
  content.bind fun content => skipLines (pcb.pageCounter * 3) ⟨content, false⟩

/-- The lines that `load_frame` looks at and fills. -/
def frameLines (threshold : Nat) (content : Option Text) (pcb : PCB) (m : Store) : List Nat :=
  match pageFile content pcb with
  | none => []
  | some file =>
    m.slotReads (Store.frameStarts threshold) ++ match m.findAvailableSlot threshold with
      | some (some i) => fillLines 3 ⟨m, pcb.place i, file, i, 0, true⟩
      | _ => []

/-- The lines of the victim, which `remove_frame` prints and `mem_free_lines_between`
frees. Without a victim the first of them is line -1. -/
def victimLines (threshold : Nat) (m : Store) : List Int :=
  match m.findReplacementSlot threshold with
  | some (some i) => [(i : Int), i + 1, i + 2]
  | some none => [-1]
  | none => []

/-- The lines of `remove_frame`: the first ones of the frames, for their stamps, and the victim's. -/
def removeLines (threshold : Nat) (content : Option Text) (m : Store) : List Int :=
  match content with
  | none => []
  | some _ => (Store.frameStarts threshold).map Int.ofNat ++ victimLines threshold m

/-- The lines of a page fault. -/
def faultLines (threshold : Nat) (content : Option Text) (pcb : PCB) (m : Store) : List Int :=
  (frameLines threshold content pcb m).map Int.ofNat ++ match loadFrame threshold content pcb m with
    | none => []
    | some (error, pcb, m) =>
      if error = -1 then
        removeLines threshold content m ++ match removeFrame threshold content pcb m with
          | none => []
          | some (_, pcb, m) => (frameLines threshold content pcb m).map Int.ofNat
      else []

/-- The page that is missing is not in the file, or it goes to a frame inside the
frame store, a free one or the victim's. -/
def FaultInside (threshold : Nat) (content : Option Text) (pcb : PCB) (m : Store) : Prop :=
  pageFile content pcb = none ∨ m.SearchInside threshold ∧ (m.findAvailableSlot threshold = some none →
    ∃ i, m.findReplacementSlot threshold = some (some i) ∧ i + 2 < threshold)

section calls

variable {threshold i : Nat} {content : Option Text} {pcb pcb' : PCB} {m m' : Store}

theorem fileLines_lt {text filename : Text} (hsize : threshold ≤ m.lines.length) :
    (∀ j ∈ fileLines threshold text filename pcb m, j < threshold) ↔ m.SearchInside threshold := by
  unfold fileLines
  rw [List.forall_mem_append, Store.slotReads_inside hsize, and_iff_left_iff_imp]
  intro h j hj
  split at hj
  · next i hslot =>
    have hi := h.slot hsize hslot
    exact pagesLines_spec.1 (by omega) j hj
  · cases hj

/-- `load_file` leaves the lines it does not fill. -/
theorem loadFile_frame {text filename : Text} {r : Nat}
    (h : loadFile threshold text filename pcb m = some (r, pcb', m')) (j : Nat)
    (hj : j ∉ fileLines threshold text filename pcb m) : m'.lines[j]? = m.lines[j]? := by
  unfold loadFile at h
  obtain ⟨slot, hslot, h⟩ := Option.bind_eq_some_iff.1 h
  cases slot with
  | none =>
    cases h
    rfl
  | some i =>
    obtain ⟨⟨error, s⟩, hpages, h⟩ := Option.bind_eq_some_iff.1 h
    cases h
    rw [fileLines, hslot, List.mem_append, not_or] at hj
    exact pagesLines_spec.2 _ s hpages j hj.2

theorem frameLines_lt (hsize : threshold ≤ m.lines.length) :
    (∀ j ∈ frameLines threshold content pcb m, j < threshold) ↔
    pageFile content pcb = none ∨ m.SearchInside threshold := by
  unfold frameLines
  cases pageFile content pcb with
  | none => exact iff_of_true (fun j hj => absurd hj List.not_mem_nil) (.inl rfl)
  | some file =>
    simp only [reduceCtorEq, false_or]
    rw [List.forall_mem_append, Store.slotReads_inside hsize, and_iff_left_iff_imp]
    intro h j hj
    split at hj
    · next i hslot =>
      have hi := h.slot hsize hslot
      have := fillLines_spec.1 j hj
      exact Nat.lt_of_lt_of_le this hi
    · cases hj

theorem loadFrame_frame {r : Int} (h : loadFrame threshold content pcb m = some (r, pcb', m'))
    (j : Nat) (hj : j ∉ frameLines threshold content pcb m) : m'.lines[j]? = m.lines[j]? := by
  cases content with
  | none => cases h
  | some text =>
  simp only [loadFrame, Option.bind_eq_bind, Option.bind_some] at h
  have hpage : pageFile (some text) pcb = skipLines (pcb.pageCounter * 3) ⟨text, false⟩ := rfl
  cases hskip : skipLines (pcb.pageCounter * 3) ⟨text, false⟩ with
  | none =>
    rw [hskip] at h
    cases h
    rfl
  | some file =>
    rw [hskip] at h hpage
    obtain ⟨slot, hslot, h⟩ := Option.bind_eq_some_iff.1 h
    cases slot with
    | none =>
      cases h
      rfl
    | some i =>
      obtain ⟨s, hfill, h⟩ := Option.bind_eq_some_iff.1 h
      obtain ⟨pcb₁, -, h⟩ := Option.bind_eq_some_iff.1 h
      cases h
      rw [frameLines, hpage] at hj
      simp only [hslot, List.mem_append, not_or] at hj
      exact fillLines_spec.2 s hfill j hj.2

theorem Store.memFreeLines_frame {is : List Nat} (h : m.memFreeLines is = some m') (j : Nat)
    (hj : j ∉ is) : m'.lines[j]? = m.lines[j]? := by
  induction is generalizing m with
  | nil =>
    cases h
    rfl
  | cons i is ih =>
    obtain ⟨hne, hj⟩ := List.ne_and_not_mem_of_not_mem_cons hj
    rw [memFreeLines] at h
    split at h
    · obtain ⟨m₁, hline, h⟩ := Option.bind_eq_some_iff.1 h
      obtain ⟨ht, -⟩ := touched_freeLine hline
      rw [ih h hj, ht.get, if_neg (Ne.symm hne)]
    · cases h
      rfl

theorem removeFrame_frame {r : Int} (h : removeFrame threshold content pcb m = some (r, pcb', m'))
    (j : Nat) (hj : (j : Int) ∉ removeLines threshold content m) : m'.lines[j]? = m.lines[j]? := by
  cases content with
  | none =>
    cases h
    rfl
  | some text =>
    obtain ⟨i, hslot, -, hfree, -, -⟩ := removeFrame_cases h
    refine Store.memFreeLines_frame hfree j fun hmem => hj ?_
    rw [removeLines, List.mem_append, victimLines, hslot]
    refine .inr ?_
    simp at hmem ⊢
    omega

theorem forall_ofNat {lines : List Nat} :
    (∀ j ∈ lines.map Int.ofNat, 0 ≤ j ∧ j < (threshold : Int)) ↔ ∀ j ∈ lines, j < threshold := by
  rw [List.forall_mem_map]
  refine forall₂_congr fun j _ => ?_
  rw [Int.ofNat_eq_natCast]
  omega

/-- Where the page is not in the file, `load_frame` does not come to its search. -/
theorem loadFrame_ended (h : pageFile content pcb = none) :
    loadFrame threshold content pcb m = content.map fun _ => (-2, pcb, m) := by
  cases content with
  | none => rfl
  | some text =>
    have hskip : skipLines (pcb.pageCounter * 3) ⟨text, false⟩ = none := h
    simp only [loadFrame, hskip, Option.bind_eq_bind, Option.bind_some]
    rfl

theorem loadFrame_slot {file : Stream} (h : pageFile content pcb = some file) :
    loadFrame threshold content pcb m = (m.findAvailableSlot threshold).bind fun
      | none => some (-1, pcb, m)
      | some i =>
        (fillFrame 3 ⟨m, pcb.place i, file, i, 0, true⟩).bind fun s =>
          s.pcb.countPage.map fun pcb =>
        (0, { pcb with stop := s.frameIndex - 1 }, s.store) := by
  cases content with
  | none => cases h
  | some text =>
    have hskip : skipLines (pcb.pageCounter * 3) ⟨text, false⟩ = some file := h
    simp only [loadFrame, hskip, Option.bind_eq_bind, Option.bind_some]
    cases m.findAvailableSlot threshold with
    | none => rfl
    | some slot =>
      cases slot with
      | none => rfl
      | some i =>
        simp only [Option.bind_some, Option.map_eq_bind]
        rfl

theorem victimLines_inside (hsize : threshold ≤ m.lines.length) :
    (∀ j ∈ victimLines threshold m, 0 ≤ j ∧ j < (threshold : Int)) ↔
    ∃ i, m.findReplacementSlot threshold = some (some i) ∧ i + 2 < threshold := by
  unfold victimLines
  rw [Store.findReplacementSlot_eq hsize]
  cases Clock.oldest m.policyStamp 9999 (Store.frameStarts threshold) with
  | none => simp
  | some i =>
    simp
    omega

/-- Once the victim is freed, its frame is free. -/
theorem removeFrame_searchInside {r : Int} {text : Text} (hm : m.Stamped)
    (hsize : threshold ≤ m.lines.length) (hfull : m.findAvailableSlot threshold = some none)
    (hvictim : m.findReplacementSlot threshold = some (some i)) (hi : i + 2 < threshold)
    (h : removeFrame threshold (some text) pcb m = some (r, pcb', m')) :
    threshold ≤ m'.lines.length ∧ m'.SearchInside threshold := by
  obtain ⟨i', hvictim', hmem, hrange, hfree, -, -⟩ := (removeFrame_some hsize).1 h
  obtain rfl : i' = i := by
    rw [hvictim] at hvictim'
    exact (Option.some.inj (Option.some.inj hvictim')).symm
  have hlength := (hm.memFreeLines (fun j hj => by simp at hj; omega) hfree).2.1
  have hfreed := Store.findAvailableSlot_freed hm hfull hmem hrange hfree
  refine ⟨hlength ▸ hsize, .inr (.inl ⟨i', hi, (Store.mem_frameStarts.1 hmem).2, ?_⟩)⟩
  exact (Store.firstFree_some _ hfreed).2

/-- **The lines of a page fault** -/
theorem faultLines_inside (hm : m.Stamped) (hsize : threshold ≤ m.lines.length) :
    (∀ j ∈ faultLines threshold content pcb m, 0 ≤ j ∧ j < (threshold : Int)) ↔
    FaultInside threshold content pcb m := by
  unfold faultLines FaultInside
  rw [List.forall_mem_append, forall_ofNat, frameLines_lt hsize]
  cases hfile : pageFile content pcb with
  | none =>
    rw [loadFrame_ended hfile]
    refine iff_of_true ⟨.inl rfl, ?_⟩ (.inl rfl)
    cases content with
    | none => exact fun j hj => absurd hj List.not_mem_nil
    | some text => exact fun j hj => absurd hj List.not_mem_nil
  | some file =>
    simp only [reduceCtorEq, false_or]
    refine and_congr_right fun hin => ?_
    have hload := @loadFrame_slot threshold content pcb m file hfile
    cases hslot : m.findAvailableSlot threshold with
    | none =>
      rw [hslot, Option.bind_none] at hload
      simp [hload]
    | some slot =>
      rw [hslot, Option.bind_some] at hload
      cases slot with
      | some i =>
        -- a frame is free
        refine iff_of_true ?_ (fun h => by cases h)
        cases hanswer : loadFrame threshold content pcb m with
        | none => exact fun j hj => absurd hj List.not_mem_nil
        | some x =>
          rw [hanswer] at hload
          obtain ⟨s, -, hload⟩ := Option.bind_eq_some_iff.1 hload.symm
          obtain ⟨pcb₁, -, rfl⟩ := Option.map_eq_some_iff.1 hload
          exact fun j hj => absurd hj List.not_mem_nil
      | none =>
        -- the victim makes room, and the page goes to its frame
        simp only [hload, if_true, true_imp_iff]
        rw [List.forall_mem_append]
        obtain ⟨text, rfl⟩ : ∃ text, content = some text := by
          cases content with
          | none => cases hfile
          | some text => exact ⟨text, rfl⟩
        have hstarts : ∀ j ∈ (Store.frameStarts threshold).map Int.ofNat, 0 ≤ j ∧
            j < (threshold : Int) :=
          forall_ofNat.2 fun j hj => (Store.mem_frameStarts.1 hj).1
        rw [removeLines, List.forall_mem_append, and_iff_right hstarts, victimLines_inside hsize,
          and_iff_left_iff_imp]
        intro ⟨i, hvictim, hi⟩
        cases hremove : removeFrame threshold (some text) pcb m with
        | none => exact fun j hj => absurd hj List.not_mem_nil
        | some x =>
          obtain ⟨r, pcb', m'⟩ := x
          obtain ⟨hsize', hin'⟩ := removeFrame_searchInside hm hsize hslot hvictim hi hremove
          exact forall_ofNat.2 ((frameLines_lt hsize').2 (.inr hin'))

end calls

end MyShell.Backing

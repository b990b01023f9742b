/-
What the clean-up after a batch does to the variables. `free_PCB` clears three
lines from each of the three lines of every page, so two lines more than the
frame has, and for a page that has no frame the lines its placeholders name.
-/
import MyShell.Paging.Execution

namespace MyShell.Paging

variable {σ : Type} {k k' : Kernel σ}

/-! ## The lines cleared -/

/-- The lines that `free_PCB` clears, for the pages of a process. -/
def clearedLines (pages : List Page) : List Nat :=
  pages.flatMap fun page =>
    [page.index 0, page.index 1, page.index 2].flatMap fun i => [i, i + 1, i + 2]

/-- The lines cleared with a process. -/
def Kernel.processLines (k : Kernel σ) (p : Ptr) : List Nat :=
  match k.pcbs.get p with
  | none => []
  | some pcb => clearedLines pcb.pageTable

/-- The lines that the clean-up clears. -/
def cleanUpLines (k : Kernel σ) : List Nat := k.allPcb.flatMap k.processLines

theorem foldl_memFreeAt_mem {l : List Nat} : ∀ {m : Memory} {pos : Nat}, pos ∈ l →
    l.foldl memFreeAt m pos = ⟨vacant, vacant⟩ := by
  induction l with
  | nil => exact fun h => by cases h
  | cons i l ih =>
    intro m pos hpos
    rw [List.foldl_cons]
    by_cases hl : pos ∈ l
    · exact ih hl
    · obtain rfl := (List.mem_cons.1 hpos).resolve_right hl
      rw [foldl_memFreeAt hl, memFreeAt, Function.update_self]

theorem clearPages_eq (pages : List Page) (m : Memory) :
    clearPages pages m = (clearedLines pages).foldl memFreeAt m := by
  induction pages generalizing m with
  | nil => rfl
  | cons page pages ih =>
    rw [clearPages, List.foldl_cons]
    rw [clearedLines, List.flatMap_cons, List.foldl_append]
    exact ih _

theorem freeAll_live :
    ∀ {l : List Ptr} {k : Kernel σ}, freeAll l k = some k' → ∀ p ∈ l, (k.pcbs.get p).isSome
  | [], _, _ => by simp
  | q :: l, k, h => by
    obtain ⟨k₁, hfree, h⟩ := Option.bind_eq_some_iff.1 h
    rw [freePcb] at hfree
    obtain ⟨pcb, hpcb, hfree⟩ := Option.bind_eq_some_iff.1 hfree
    obtain rfl := Option.some.inj hfree
    intro p hp
    rcases List.mem_cons.1 hp with rfl | hp
    · rw [hpcb]
      rfl
    · have hlive := freeAll_live h p hp
      rw [Heap.get_free] at hlive
      split at hlive
      · cases hlive
      · exact hlive

theorem freeAll_memory : ∀ {l : List Ptr} {k : Kernel σ}, freeAll l k = some k' →
    k'.memory = (l.flatMap k.processLines).foldl memFreeAt k.memory
  | [], k, h => by
    obtain rfl := Option.some.inj h
    rfl
  | q :: l, k, h => by
    obtain ⟨k₁, hfree, h⟩ := Option.bind_eq_some_iff.1 h
    rw [freePcb] at hfree
    obtain ⟨pcb, hpcb, hfree⟩ := Option.bind_eq_some_iff.1 hfree
    obtain rfl := Option.some.inj hfree
    have hother : ∀ p ∈ l, (k.pcbs.free q).get p = k.pcbs.get p := fun p hp => by
      have hlive := freeAll_live h p hp
      rw [Heap.get_free] at hlive ⊢
      split at hlive
      · cases hlive
      · rw [if_neg ‹_›]
    have hlines : l.flatMap { k with
        memory := clearPages pcb.pageTable k.memory, pcbs := k.pcbs.free q }.processLines =
        l.flatMap k.processLines := List.flatMap_congr fun p hp => by
      unfold Kernel.processLines
      rw [hother p hp]
    have hfirst : k.processLines q = clearedLines pcb.pageTable := by
      unfold Kernel.processLines
      rw [hpcb]
    rw [freeAll_memory h, hlines, List.flatMap_cons, List.foldl_append, hfirst, ← clearPages_eq]

theorem cleanUp_memory (h : cleanUp k = some k') :
    k'.memory = (cleanUpLines k).foldl memFreeAt k.memory := by
  rw [cleanUp] at h
  obtain ⟨k₁, hfree, h⟩ := Option.bind_eq_some_iff.1 h
  obtain rfl := Option.some.inj h
  have hmemory := freeAll_memory hfree
  exact hmemory

/-! ## Variables -/

/-- The clean-up writes inside the memory, and changes nothing from the border on. -/
def KeepsVariables (frameStoreSize varStoreSize : Nat) (k k' : Kernel σ) : Prop :=
  (∀ pos ∈ cleanUpLines k, pos < frameStoreSize + varStoreSize) ∧
    ∀ pos, frameStoreSize ≤ pos → k'.memory pos = k.memory pos

/-- Of the three lines from an index of a page on, each is below the border or a variable
that is free. -/
def Clear (frameStoreSize varStoreSize : Nat) (k : Kernel σ) : Prop :=
  ∀ p ∈ k.allPcb, ∀ pcb, k.pcbs.get p = some pcb → ∀ page ∈ pcb.pageTable, ∀ j : Fin 3, ∀ d < 3,
    page.index j + d < frameStoreSize ∨
      page.index j + d < frameStoreSize + varStoreSize ∧ k.memory (page.index j + d) = ⟨vacant, vacant⟩

theorem mem_clearedLines {pages : List Page} {pos : Nat} : pos ∈ clearedLines pages ↔
    ∃ page ∈ pages, ∃ j : Fin 3, ∃ d < 3, pos = page.index j + d := by
  rw [clearedLines, List.mem_flatMap]
  refine exists_congr fun page => and_congr_right fun _ => ⟨fun h => ?_, ?_⟩
  · obtain ⟨i, hi, hpos⟩ := List.mem_flatMap.1 h
    obtain ⟨j, rfl⟩ : ∃ j, i = page.index j := by
      simp only [List.mem_cons, List.not_mem_nil, or_false] at hi
      rcases hi with rfl | rfl | rfl
      · exact ⟨0, rfl⟩
      · exact ⟨1, rfl⟩
      · exact ⟨2, rfl⟩
    simp only [List.mem_cons, List.not_mem_nil, or_false] at hpos
    rcases hpos with rfl | rfl | rfl
    · exact ⟨j, 0, by decide, rfl⟩
    · exact ⟨j, 1, by decide, rfl⟩
    · exact ⟨j, 2, by decide, rfl⟩
  · rintro ⟨j, d, hd, rfl⟩
    refine List.mem_flatMap.2 ⟨page.index j, ?_, ?_⟩
    · match j with
      | 0 => simp
      | 1 => simp
      | 2 => simp
    · match d, hd with
      | 0, _ => simp
      | 1, _ => simp
      | 2, _ => simp

theorem mem_cleanUpLines {pos : Nat} :
    pos ∈ cleanUpLines k ↔ ∃ p ∈ k.allPcb, ∃ pcb, k.pcbs.get p = some pcb ∧
    ∃ page ∈ pcb.pageTable, ∃ j : Fin 3, ∃ d < 3, pos = page.index j + d := by
  rw [cleanUpLines, List.mem_flatMap]
  refine exists_congr fun p => and_congr_right fun _ => ?_
  unfold Kernel.processLines
  cases hp : k.pcbs.get p with
  | none => simp
  | some pcb =>
    refine ⟨fun h => ⟨pcb, rfl, mem_clearedLines.1 h⟩, fun ⟨_, heq, h⟩ => ?_⟩
    obtain rfl := Option.some.inj heq
    exact mem_clearedLines.2 h

/-- **Main result.** The clean-up leaves the variables alone exactly where
every line it clears lies below the border or is a variable that is free. -/
theorem cleanUp_variables {frameStoreSize varStoreSize : Nat} (h : cleanUp k = some k') :
    KeepsVariables frameStoreSize varStoreSize k k' ↔ Clear frameStoreSize varStoreSize k := by
  have hmemory := cleanUp_memory h
  constructor
  · intro ⟨hinside, hkeeps⟩ p hp pcb hpcb page hpage j d hd
    have hmem : page.index j + d ∈ cleanUpLines k :=
      mem_cleanUpLines.2 ⟨p, hp, pcb, hpcb, page, hpage, j, d, hd, rfl⟩
    by_cases hlt : page.index j + d < frameStoreSize
    · exact .inl hlt
    · refine .inr ⟨hinside _ hmem, ?_⟩
      rw [← hkeeps _ (Nat.le_of_not_lt hlt), hmemory, foldl_memFreeAt_mem hmem]
  · intro hclear
    refine ⟨fun pos hpos => ?_, fun pos hle => ?_⟩
    · obtain ⟨p, hp, pcb, hpcb, page, hpage, j, d, hd, rfl⟩ := mem_cleanUpLines.1 hpos
      have := hclear p hp pcb hpcb page hpage j d hd
      omega
    · rw [hmemory]
      by_cases hpos : pos ∈ cleanUpLines k
      · rw [foldl_memFreeAt_mem hpos]
        obtain ⟨p, hp, pcb, hpcb, page, hpage, j, d, hd, rfl⟩ := mem_cleanUpLines.1 hpos
        exact ((hclear p hp pcb hpcb page hpage j d hd).resolve_left (Nat.not_lt.2 hle)).2.symm
      · exact foldl_memFreeAt hpos

/-- A process of four lines, run to its end with the variable `x` set. -/
def fourLinesRun (frameStoreSize : Nat) : Option (Kernel Unit) := do
  let sh := { bareShell with frameStoreSize := frameStoreSize }
  let k ← newProc frameStoreSize (some "help\nhelp\nhelp\nhelp".toList)
    { kernelSetup () with memory := memSetValue sh "x".toList "1".toList memInit }
  let k ← turn (parseInput sh 0) frameStoreSize 0 { k with queue := [] }
  let k ← turn (parseInput sh 0) frameStoreSize 0 { k with queue := [] }
  turn (parseInput sh 0) frameStoreSize 0 { k with queue := [] }

/-- Two frames in eight lines: the lines cleared behind the second frame are no variables. -/
theorem cleanUp_variables_eight : ∃ k k', fourLinesRun 8 = some k ∧ queueDone k k.queue = some true ∧
    cleanUp k = some k' ∧ KeepsVariables 8 2 k k' := by
  have hrun : ((fourLinesRun 8).map fun k => (queueDone k k.queue, (cleanUp k).isSome,
      decide (∀ pos ∈ cleanUpLines k, pos < 8))) = some (some true, true, true) := by decide +kernel
  obtain ⟨k, hk, hfacts⟩ := Option.map_eq_some_iff.1 hrun
  obtain ⟨hdone, hclean, hlines⟩ : _ ∧ _ ∧ _ := by simpa only [Prod.mk.injEq] using hfacts
  obtain ⟨k', hk'⟩ := Option.isSome_iff_exists.1 hclean
  refine ⟨k, k', hk, hdone, hk', (cleanUp_variables hk').2
    fun p hp pcb hpcb page hpage j d hd => .inl ?_⟩
  exact of_decide_eq_true hlines _ (mem_cleanUpLines.2 ⟨p, hp, pcb, hpcb, page, hpage, j, d, hd, rfl⟩)

/-- In six lines they are. -/
theorem cleanUp_variables_six : ∃ k k', fourLinesRun 6 = some k ∧ queueDone k k.queue = some true ∧
    cleanUp k = some k' ∧ ¬KeepsVariables 6 2 k k' := by
  have hrun : ((fourLinesRun 6).map fun k => (queueDone k k.queue, (cleanUp k).isSome,
      decide (6 ∈ cleanUpLines k), decide (k.memory 6 = ⟨vacant, vacant⟩))) =
      some (some true, true, true, false) := by
    decide +kernel
  obtain ⟨k, hk, hfacts⟩ := Option.map_eq_some_iff.1 hrun
  obtain ⟨hdone, hclean, hline, hused⟩ : _ ∧ _ ∧ _ ∧ _ := by simpa only [Prod.mk.injEq] using hfacts
  obtain ⟨k', hk'⟩ := Option.isSome_iff_exists.1 hclean
  refine ⟨k, k', hk, hdone, hk', fun hkeeps => of_decide_eq_false hused ?_⟩
  rw [← hkeeps.2 6 (by decide), cleanUp_memory hk', foldl_memFreeAt_mem (of_decide_eq_true hline)]

end MyShell.Paging

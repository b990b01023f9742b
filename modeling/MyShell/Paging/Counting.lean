/-
`count_lines` against `fgets`: the size of a process is the number of lines its
file has if exactly one of them is blank or lacks its newline
(`count_lines_agrees`). A process with a size and no line left faults for ever.
-/
import MyShell.Paging.Execution

namespace MyShell.Paging

/-- The reads `fgets(line, 999, file)` that succeed on a file. -/
def reads (script : Text) : Nat := (pieces script).length

/-- A line that `count_lines` does not count. -/
def Uncounted (l : Text) : Prop := l = ['\n'] ∨ '\n' ∉ l

instance : DecidablePred Uncounted := fun _ => inferInstanceAs (Decidable (_ ∨ _))

/-! ## Newlines and lines -/

theorem uncounted_cons {c : Char} {l : Text} (hc : c ≠ '\n') : Uncounted (c :: l) ↔ '\n' ∉ l := by
  simp [Uncounted, hc, Ne.symm hc]

/-- A newline is counted for the line that it ends, except where it is the whole
line; the first line may go on from a character before it. -/
theorem countNewlines_eq (last : Char) (s : Text) : countNewlines last s =
    (lines s).countP (fun l => ¬ Uncounted l) + if last ≠ '\n' ∧
    (lines s).head? = some ['\n'] then 1 else 0 := by
  induction s generalizing last with
  | nil => simp [countNewlines, lines]
  | cons c s ih =>
    rw [countNewlines, ih, lines]
    by_cases hc : c = '\n'
    · have hblank : Uncounted [c] := .inl (by rw [hc])
      have hcount : ([c] :: lines s).countP (fun l => ¬ Uncounted l) = (lines s).countP fun l =>
        ¬ Uncounted l :=
        List.countP_cons_of_neg (by simpa using hblank)
      rw [if_pos hc, hcount]
      simp [hc, Nat.add_comm]
    · rw [if_neg fun h => hc h.1, if_neg hc]
      cases hs : lines s with
      | nil =>
        have hopen : Uncounted [c] := (uncounted_cons hc).2 List.not_mem_nil
        simp [hc, hopen]
      | cons l ls =>
        have hfirst : (if ¬ Uncounted (c :: l) then 1 else 0) =
            (if ¬ Uncounted l then 1 else 0) + if l = ['\n'] then 1 else 0 := by
          by_cases hblank : l = ['\n']
          · simp [hblank, Uncounted]
          · simp [hblank, hc, Ne.symm hc, Uncounted]
        simp only [List.countP_cons, decide_eq_true_eq, hfirst, List.head?_cons]
        simp [hc]
        omega

theorem countLines_eq (script : Text) :
    countLines script = (lines script).countP (fun l => ¬ Uncounted l) + 1 := by
  rw [countLines, countNewlines_eq]
  simp

theorem countLines_eq_length (script : Text) :
    countLines script = (lines script).length ↔ (lines script).countP (fun l => Uncounted l) = 1 := by
  have hsplit := List.length_eq_countP_add_countP (fun l => decide (Uncounted l)) (l := lines script)
  rw [countLines_eq]
  simp only [decide_eq_true_eq] at hsplit
  omega

/-! ## What a process reads -/

/-- The script, and what is left of it after each page that is read from it. -/
inductive Read (script : Text) : Nat → Text → Prop
  | start : Read script 0 script
  | load {n size : Nat} {pid src src' : Text} {page page' : Page} {m m' : Memory} : Read script n src →
      loadPage size pid page src m = some (page', src', m') → Read script (n + 1) src'

/-- Of the pages that a process reads one after the other, the lines below its size are
there, and no others. -/
def Served (script : Text) : Prop :=
  ∀ {n size : Nat} {pid src src' : Text} {page page' : Page} {m m' : Memory}, Read script n src →
    loadPage size pid page src m = some (page', src', m') →
    ∀ j : Fin 3, page'.validBit j = true ↔ 3 * n + (j : Nat) < countLines script

theorem loadPage_reads {size : Nat} {pid src src' : Text} {page page' : Page} {m m' : Memory}
    (h : loadPage size pid page src m = some (page', src', m')) :
    pieces src' = (pieces src).drop 3 ∧ ∀ j : Fin 3, page'.validBit j = true ↔
    (j : Nat) < reads src := by
  obtain ⟨⟨start, taken⟩, -, hread⟩ := Option.map_eq_some_iff.1 h
  obtain ⟨src₁, m₁, hpage, hsrc, -, -⟩ := readLines_page pid page start src taken
  rw [hpage] at hread
  obtain ⟨rfl, hrest⟩ := Prod.mk.inj hread
  obtain ⟨rfl, -⟩ := Prod.mk.inj hrest
  exact ⟨hsrc, fun j => decide_eq_true_iff⟩

theorem Read.pieces {script src : Text} {n : Nat} (h : Read script n src) :
    MyShell.Paging.pieces src = (MyShell.Paging.pieces script).drop (3 * n) := by
  induction h with
  | start => rfl
  | load _ hload ih => rw [(loadPage_reads hload).1, ih, List.drop_drop, Nat.mul_succ]

/-- **`count_lines` counts the reads** of a script without long lines if exactly one of its lines
is blank or not ended, and then every page has the lines below the size of the process. -/
theorem count_lines_agrees {script : Text} (h : ∀ l ∈ lines script, l.length ≤ 901) :
    (countLines script = reads script ↔ (lines script).countP (fun l => Uncounted l) = 1) ∧
      ((lines script).countP (fun l => Uncounted l) = 1 → Served script) := by
  have hreads : reads script = (lines script).length := congrArg List.length (pieces_eq_lines rfl h)
  have hagree : countLines script = reads script ↔ (lines script).countP (fun l => Uncounted l) =
      1 := by
    rw [hreads]
    exact countLines_eq_length script
  refine ⟨hagree, fun hone n size pid src src' page page' m m' hread hload j => ?_⟩
  have hleft : reads src = countLines script - 3 * n := by
    rw [hagree.2 hone, reads, hread.pieces, List.length_drop, reads]
  rw [(loadPage_reads hload).2 j, hleft]
  omega

/-- A blank line, and a newline after the last. -/
theorem count_lines_agrees_blank :
    countLines "help\n\nset x 1\n".toList = reads "help\n\nset x 1\n".toList :=
  (count_lines_agrees (by decide)).1.2 (by decide)

/-! ## No line left -/

/-- The page that the next line of a process is on. -/
abbrev PCB.current (pcb : PCB) : Nat := pcb.programCounter.findIdx (· ≠ 3)

/-- A process that has a size and is at the end of its file, its next line not in memory. -/
structure Starved (pcb : PCB) : Prop where
  unfinished : 0 < pcb.size
  atEnd : pcb.sourceFile = []
  missing : ∃ pc ∈ pcb.programCounter[pcb.current]?, ∃ page ∈ pcb.pageTable[pcb.current]?,
    ∃ h : pc < 3, page.validBit ⟨pc, h⟩ = false

instance : DecidablePred Starved := fun _ => decidable_of_iff (_ ∧ _ ∧ _)
  ⟨fun ⟨hunfinished, hend, hmissing⟩ => ⟨hunfinished, hend, hmissing⟩,
    fun h => ⟨h.unfinished, h.atEnd, h.missing⟩⟩

theorem pieces_eq_nil {s : Text} : pieces s = [] ↔ s = [] := by
  cases s with
  | nil => simp [pieces_none (s := []) rfl]
  | cons c s => simp [pieces_some (s := c :: s) rfl]

namespace Starved

variable {size i : Nat} {pcb pcb' : PCB} {m m' : Memory} {page : Page}

/-- A page without valid lines does not help. -/
theorem setPage (h : Starved pcb) (hpage : ∀ j, page.validBit j = false) :
    Starved { pcb with pageTable := pcb.pageTable.set i page } := by
  obtain ⟨pc, hpc, old, hold, hlt, hvalid⟩ := h.missing
  refine ⟨h.unfinished, h.atEnd, ?_⟩
  by_cases hi : i = pcb.current
  · have hbound : i < pcb.pageTable.length := hi ▸ (List.getElem?_eq_some_iff.1 hold).1
    exact ⟨pc, hpc, page, hi ▸ List.getElem?_set_self hbound, hlt, hpage _⟩
  · exact ⟨pc, hpc, old, (List.getElem?_set_ne hi).trans hold, hlt, hvalid⟩

theorem load (h : Starved pcb) (hload : pcb.load size i m = some (pcb', m')) : Starved pcb' := by
  obtain ⟨page, -, hload⟩ := Option.bind_eq_some_iff.1 hload
  obtain ⟨⟨page', src', m₁⟩, hpage, hload⟩ := Option.bind_eq_some_iff.1 hload
  obtain ⟨rfl, -⟩ := Prod.mk.inj (Option.some.inj hload)
  rw [h.atEnd] at hpage
  obtain ⟨hrest, hvalid⟩ := loadPage_reads hpage
  have hnone : pieces [] = [] := pieces_none rfl
  rw [hnone, List.drop_nil, pieces_eq_nil] at hrest
  rw [reads, hnone] at hvalid
  have hempty : ∀ j, page'.validBit j = false := by
    intro j
    rw [← Bool.not_eq_true, hvalid j]
    exact Nat.not_lt_zero _
  have hset := h.setPage (i := i) hempty
  exact ⟨hset.unfinished, hrest, hset.missing⟩

theorem not_done (h : Starved pcb) : pcbDone pcb = false := by
  obtain ⟨pc, hpc, -, -, hlt, -⟩ := h.missing
  rw [pcbDone, List.all_eq_false]
  have hmem : pc ∈ pcb.programCounter := List.mem_of_getElem? hpc
  exact ⟨pc, hmem, by simpa using Nat.ne_of_lt hlt⟩

end Starved

variable {σ : Type} {parse : Parse σ} {size i : Nat} {k k' : Kernel σ} {p : Ptr} {b : Bool}

/-- The process under `p` is starved. -/
def Starving (p : Ptr) (k : Kernel σ) : Prop := ∃ pcb ∈ k.pcbs.get p, Starved pcb

instance (p : Ptr) (k : Kernel σ) : Decidable (Starving p k) :=
  inferInstanceAs (Decidable (∃ pcb ∈ k.pcbs.get p, Starved pcb))

namespace Starving

theorem after_loadPcb (h : Starving p k) (hload : loadPcb size p i k = some (b, k')) :
    Starving p k' ∧ k'.queue = k.queue := by
  obtain ⟨pcb, hget, hpcb⟩ := h
  rw [loadPcb, hget, Option.bind_eq_bind, Option.bind_some] at hload
  split at hload
  · cases hload
  · split at hload
    · obtain ⟨-, rfl⟩ := Prod.mk.inj (Option.some.inj hload)
      exact ⟨⟨pcb, hget, hpcb⟩, rfl⟩
    · rename_i pcb' m hone
      obtain ⟨-, rfl⟩ := Prod.mk.inj (Option.some.inj hload)
      refine ⟨⟨pcb', ?_, hpcb.load hone⟩, rfl⟩
      change (k.pcbs.modify p fun _ => pcb').get p = some pcb'
      rw [Heap.get_modify, if_pos rfl, hget, Option.map_some]

theorem after_evictTail (h : Starving p k) (hevict : evictTail k = some k') :
    Starving p k' ∧ k'.queue = k.queue := by
  obtain ⟨pcb, hget, hpcb⟩ := h
  simp only [evictTail, Option.bind_eq_bind, Option.bind_eq_some_iff, Option.pure_def,
    Option.some.injEq] at hevict
  obtain ⟨victim, -, page, -, owner, -, pcb', -, evicted, -, rfl⟩ := hevict
  refine ⟨?_, rfl⟩
  by_cases hp : p = owner
  · refine ⟨{ pcb with
        pageTable := pcb.pageTable.set page.pageIndex (pageEvict evicted k.memory).1 }, ?_,
      hpcb.setPage fun _ => rfl⟩
    simp [Heap.get_modify, ← hp, Option.mem_def.1 hget]
  · refine ⟨pcb, ?_, hpcb⟩
    simp only [Heap.get_modify, if_neg hp, hget]

theorem after_pageFault (h : Starving p k) (hq : k.queue = [])
    (hfault : pageFault size p i k = some k') : Starving p k' ∧ k'.queue = [p] := by
  rw [pageFault] at hfault
  obtain ⟨⟨b, k₁⟩, hload, hfault⟩ := Option.bind_eq_some_iff.1 hfault
  obtain ⟨h₁, hq₁⟩ := h.after_loadPcb hload
  cases b with
  | true =>
    change some _ = some k' at hfault
    obtain rfl := Option.some.inj hfault
    exact ⟨h₁, by simp only [hq₁, hq, List.nil_append]⟩
  | false =>
    change Option.bind (evictTail k₁) _ = some k' at hfault
    obtain ⟨k₂, hevict, hfault⟩ := Option.bind_eq_some_iff.1 hfault
    obtain ⟨⟨b, k₃⟩, hreload, hfault⟩ := Option.bind_eq_some_iff.1 hfault
    change some _ = some k' at hfault
    obtain rfl := Option.some.inj hfault
    obtain ⟨h₂, hq₂⟩ := h₁.after_evictTail hevict
    obtain ⟨h₃, hq₃⟩ := h₂.after_loadPcb hreload
    exact ⟨h₃, by simp only [hq₃, hq₂, hq₁, hq, List.nil_append]⟩

/-- The line faults, and the process is where it was. -/
theorem after_runLine {r : Int} (h : Starving p k) (hq : k.queue = [])
    (hrun : runLine parse size p k = some (r, k')) : r = 1 ∧ Starving p k' ∧ k'.queue = [p] := by
  obtain ⟨pcb, hget, hpcb⟩ := h
  obtain ⟨pc, hpc, page, hpage, hlt, hvalid⟩ := hpcb.missing
  have hmiss : cpuRun parse p pcb.current k = some (1, k) := by
    simp only [cpuRun, Option.mem_def.1 hget, Option.mem_def.1 hpage, Option.mem_def.1 hpc,
      Option.bind_eq_bind, Option.bind_some, dif_pos hlt, hvalid]
    rfl
  rw [runLine, hget, Option.bind_eq_bind, Option.bind_some, runProc, hmiss, Option.bind_eq_bind,
    Option.bind_some] at hrun
  obtain ⟨k₁, hfault, hrun⟩ := Option.bind_eq_some_iff.1 hrun
  obtain ⟨rfl, rfl⟩ := Prod.mk.inj (Option.some.inj hrun)
  have hstarving : Starving p k := ⟨pcb, hget, hpcb⟩
  exact ⟨rfl, hstarving.after_pageFault hq hfault⟩

theorem after_turn (h : Starving p k) (hq : k.queue = []) (hturn : turn parse size p k = some k') :
    Starving p k' ∧ k'.queue = [p] := by
  obtain ⟨pcb, hget, hpcb⟩ := h
  have hpositive := hpcb.unfinished
  rw [turn, hget, Option.bind_eq_bind, Option.bind_some] at hturn
  split at hturn
  · obtain ⟨⟨r, k₁⟩, hrun, hturn⟩ := Option.bind_eq_some_iff.1 hturn
    obtain ⟨rfl, h₁⟩ := after_runLine ⟨pcb, hget, hpcb⟩ hq hrun
    obtain rfl := Option.some.inj hturn
    exact h₁
  · have hone : pcb.size = 1 := by omega
    rw [if_pos hone] at hturn
    obtain ⟨⟨r, k₁⟩, hrun, hturn⟩ := Option.bind_eq_some_iff.1 hturn
    obtain rfl := Option.some.inj hturn
    exact (after_runLine ⟨pcb, hget, hpcb⟩ hq hrun).2

/-- **A starving process faults for ever**: where it is the only one, the scheduler does not return. -/
theorem no_end {n : Nat} (h : Starving p k) (hq : k.queue = [p]) : runProcRR parse size n k = none := by
  induction n generalizing k with
  | zero => rfl
  | succ n ih =>
    have hdone : queueDone k k.queue = some false := by
      obtain ⟨pcb, hget, hpcb⟩ := h
      rw [hq, queueDone, hget, Option.bind_eq_bind, Option.bind_some, hpcb.not_done]
      rfl
    rw [runProcRR, hdone, Option.bind_eq_bind, Option.bind_some, if_neg (by decide)]
    simp only [hq]
    cases hturn : turn parse size p { k with queue := [] } with
    | none => rfl
    | some k₁ =>
      have hk : Starving p { k with queue := [] } := h
      obtain ⟨h₁, hq₁⟩ := hk.after_turn rfl hturn
      exact ih h₁ hq₁

end Starving

/-- One line that is ended. -/
def helpScript : Text := "help\n".toList

/-- It counts for two, is read once, and its process never ends. -/
theorem count_lines_starves : (∀ l ∈ lines helpScript, l.length ≤ 901) ∧
    countLines helpScript = 2 ∧ reads helpScript = 1 ∧
    ∀ n, exec (parseInput bareShell 0) 6 n [some helpScript] (kernelSetup ()) = none := by
  have hshort : ∀ l ∈ lines helpScript, l.length ≤ 901 := by decide
  refine ⟨hshort, by decide, congrArg List.length (pieces_eq_lines rfl hshort), fun n => ?_⟩
  -- the first turn runs the line, and faults on the next
  have hfirst : ∃ k ∈ newProcs 6 [some helpScript] (kernelSetup ()), k.queue = [0] ∧
    queueDone k k.queue = some false ∧
      ∃ k' ∈ turn (parseInput bareShell 0) 6 0 { k with queue := [] }, k'.queue = [0] ∧
      Starving 0 k' := by decide +kernel
  obtain ⟨k, hnew, hqueue, hdone, k', hturn, hqueue', hstarving⟩ := hfirst
  rw [exec, if_neg (by decide), Option.mem_def.1 hnew, Option.bind_eq_bind, Option.bind_some]
  cases n with
  | zero => rfl
  | succ n =>
    rw [runProcRR, hdone, Option.bind_eq_bind, Option.bind_some, if_neg (by decide)]
    simp only [hqueue, Option.mem_def.1 hturn]
    exact hstarving.no_end hqueue'

end MyShell.Paging

/-
`run_proc_FIFO`. It looks for the next line of a process by the valid bits,
which stay set when a line has run, where the round robin goes by the program
counters. So it runs the first line as often as the process has lines, which is
what the round robin does only if these lines are all alike
(`fifo_rr_same_lines`).
-/
import MyShell.Paging.PageFault

namespace MyShell.Paging

open DemandPaging (pages first)

variable {σ : Type} (parseInput : Parse σ) (frameStoreSize : Nat)

/-! ## The scheduler -/

/-- `cpu_run` on the line `j` of page `i`. -/
def cpuRunAt (p : Ptr) (i : Nat) (j : Fin 3) (k : Kernel σ) : Option (Int × Kernel σ) := do
  let pcb ← k.pcbs.get p
  let page ← pcb.pageTable[i]?
  let _ ← pcb.programCounter[i]?
  if page.validBit j then
    let line := (k.memory (page.index j)).value
    let (ret, k) ← parseInput line (k.pass pcb.pid line)
    let _ ← k.pcbs.get p
    pure (ret, { k with pcbs := k.pcbs.modify p fun pcb => pcb.advance i })
  else pure (1, k)

/-- `run_proc` on the line `j` of page `i`. -/
def runProcAt (p : Ptr) (i : Nat) (j : Fin 3) (k : Kernel σ) : Option (Int × Kernel σ) := do
  let (ret, k) ← cpuRunAt parseInput p i j k
  if ret = 1 then
    let k ← pageFault frameStoreSize p i k
    pure (1, k)
  else
    let page ← k.page (p, i)
    let (x, rest) ← k.removeElem (page.index 0) k.lruCache
    pure (0, { k with lruCache := x :: rest })

/-- The page and the line of the first valid bit, from page `i` on. -/
def firstValid : Nat → List Page → Option (Nat × Fin 3)
  | _, [] => none
  | i, page :: pages =>
    match [0, 1, 2].find? page.validBit with
    | some j => some (i, j)
    | none => firstValid (i + 1) pages

/-- The loop of `run_proc_FIFO` over the lines of a process, at most `n` of them. -/
def runLines : Nat → Ptr → Kernel σ → Option (Kernel σ)
  | 0, _, _ => none
  | n + 1, p, k => do
    let pcb ← k.pcbs.get p
    if pcb.size ≤ 0 then pure k
    else
      let (i, j) ← firstValid 0 pcb.pageTable
      let (_, k) ← runProcAt parseInput frameStoreSize p i j k
      runLines n p k

/-- `run_proc_FIFO`, at most `n` processes of it. -/
def runProcFIFO : Nat → Kernel σ → Option (Int × Kernel σ)
  | 0, _ => none
  | n + 1, k =>
    match k.queue with
    | [] => some (0, k)
    | p :: queue => do
      let k ← runLines parseInput frameStoreSize n p { k with queue := queue }
      let k ← freePcb p k
      runProcFIFO n k

/-- `exec` with the policy FIFO. -/
def execFIFO (n : Nat) (scripts : List (Option Text)) (k : Kernel σ) : Option (Int × Kernel σ) :=
  if 3 < scripts.length then some (1, k)
  else do
    let k ← newProcs frameStoreSize scripts k
    runProcFIFO parseInput frameStoreSize n k

variable {parseInput : Parse σ} {size : Nat} {k k' k₁ : Kernel σ} {p : Ptr} {pcb : PCB}
  {page : Page} {Good : σ → Prop}

/-- The round robin calls `run_proc` with the line at the program counter. -/
theorem runProc_eq {i pc : Nat} (hpcb : k.pcbs.get p = some pcb)
    (hpc : pcb.programCounter[i]? = some pc) (hlt : pc < 3) :
    runProc parseInput size p i k = runProcAt parseInput size p i ⟨pc, hlt⟩ k := by
  have hcpu : cpuRun parseInput p i k = cpuRunAt parseInput p i ⟨pc, hlt⟩ k := by
    rw [cpuRun, cpuRunAt, hpcb]
    simp only [Option.bind_eq_bind, Option.bind_some, hpc, dif_pos hlt]
    rfl
  rw [runProc, runProcAt, hcpu]

/-! ## A process under FIFO -/

/-- The process, alone and out of the queue, has `left` lines to go; its first
page is in memory, and `line` is the first line of it. -/
structure Repeats (size : Nat) (Good : σ → Prop) (p : Ptr) (page : Page) (line : Text)
    (pid left : Nat) (k : Kernel σ) : Prop where
  pcb : ∃ pcb, k.pcbs.get p = some pcb ∧ pcb.pid = pid ∧ pcb.size = left ∧
    pcb.pageTable[0]? = some page ∧ (pcb.programCounter[0]?).isSome
  valid : page.validBit 0 = true
  framed : page.index 0 < size
  value : (k.memory (page.index 0)).value = line
  recent : (p, 0) ∈ k.lruCache
  listed : ∀ x ∈ k.lruCache, (k.page x).isSome
  queue : k.queue = []
  good : Good k.shell

theorem removeElem_perm (k : Kernel σ) {start : Nat} :
    ∀ {l : List (Ptr × Nat)} {x : Ptr × Nat} {rest : List (Ptr × Nat)},
    k.removeElem start l = some (x, rest) → l.Perm (x :: rest)
  | [], _, _, h => by cases h
  | y :: l, x, rest, h => by
    rw [Kernel.removeElem] at h
    obtain ⟨b, -, h⟩ := Option.bind_eq_some_iff.1 h
    cases b with
    | true =>
      obtain ⟨rfl, rfl⟩ := Prod.mk.inj (Option.some.inj h)
      exact .refl _
    | false =>
      obtain ⟨⟨z, rest'⟩, hrest, h⟩ := Option.bind_eq_some_iff.1 h
      obtain ⟨rfl, rfl⟩ := Prod.mk.inj (Option.some.inj h)
      exact ((removeElem_perm k hrest).cons y).trans (.swap _ _ _)

variable {line : Text} {pid left : Nat}

/-- One line more, which is the first one again. -/
theorem Repeats.runProcAt (h : Repeats size Good p page line pid (left + 1) k)
    (hquiet : Harmless parseInput size Good [line]) :
    ∃ k', MyShell.Paging.runProcAt parseInput size p 0 0 k = some (0, k') ∧
      Repeats size Good p page line pid left k' ∧ k'.passed = k.passed ++ [(pid, line)] := by
  obtain ⟨pcb, hget, hpid, hsize, htable, hcounter⟩ := h.pcb
  obtain ⟨pc, hpc⟩ := Option.isSome_iff_exists.1 hcounter
  obtain ⟨r, k₁, hparse, hr, hsame, hgood⟩ := hquiet line List.mem_cons_self (k.pass pid line) h.good
  have hpcbs : k₁.pcbs = k.pcbs := hsame.pcbs
  have hlru : k₁.lruCache = k.lruCache := hsame.lruCache
  let k₂ : Kernel σ := { k₁ with pcbs := k₁.pcbs.modify p fun pcb => pcb.advance 0 }
  have hcpu : cpuRunAt parseInput p 0 0 k = some (r, k₂) := by
    rw [cpuRunAt, hget]
    simp only [Option.bind_eq_bind, Option.bind_some, htable, hpc, h.valid, if_true, h.value, hpid,
      hparse, hpcbs, hget]
    simp only [k₂, hpcbs]
    rfl
  have hget₂ : k₂.pcbs.get p = some (pcb.advance 0) := by
    simp only [k₂, hpcbs, Heap.get_modify, if_pos, hget, Option.map_some]
  have hpages : ∀ x, k₂.page x = k.page x := fun x => by
    simp only [Kernel.page, k₂, hpcbs, Heap.get_modify]
    split
    · subst_vars
      rw [hget]
      rfl
    · rfl
  have hpage : k₂.page (p, 0) = some page := by rw [Kernel.page, hget₂]; exact htable
  obtain ⟨y, rest, hremove⟩ := removeElem_isSome k₂ hpage rfl (l := k.lruCache) h.recent fun x hx => by
    rw [hpages]
    exact h.listed x hx
  have hperm := removeElem_perm k₂ hremove
  refine ⟨{ k₂ with lruCache := y :: rest }, ?_, ?_, hsame.passed⟩
  · rw [MyShell.Paging.runProcAt, hcpu]
    simp only [Option.bind_eq_bind, Option.bind_some, if_neg hr, hpage]
    rw [show k₂.lruCache = k.lruCache from hlru, hremove]
    rfl
  · refine ⟨⟨_, hget₂, hpid, ?_, htable, ?_⟩, h.valid, h.framed, ?_, hperm.mem_iff.1 h.recent,
      fun x hx => ?_, ?_, hgood⟩
    · change pcb.size - 1 = _
      rw [hsize]
      omega
    · rw [PCB.advance, List.getElem?_modify, hpc]
      rfl
    · exact (congrArg Slot.value (hsame.memory _ h.framed)).trans h.value
    · change (k₂.page x).isSome
      rw [hpages]
      exact h.listed x (hperm.mem_iff.2 hx)
    · exact hsame.queue.trans h.queue

theorem Repeats.firstValid {pages : List Page} (hvalid : page.validBit 0 = true)
    (htable : pages[0]? = some page) : MyShell.Paging.firstValid 0 pages = some (0, 0) := by
  cases pages with
  | nil => cases htable
  | cons q pages =>
    obtain rfl : q = page := by simpa using htable
    simp [MyShell.Paging.firstValid, hvalid]

/-- All lines of the process are its first line. -/
theorem Repeats.runLines (hquiet : Harmless parseInput size Good [line]) :
    ∀ {left : Nat} {k : Kernel σ}, Repeats size Good p page line pid left k →
    ∃ k', (∀ n, left < n → MyShell.Paging.runLines parseInput size n p k = some k') ∧
      Repeats size Good p page line pid 0 k' ∧ k'.passed = k.passed ++ List.replicate left (pid, line)
  | 0, k, h => by
    obtain ⟨pcb, hget, -, hsize, -⟩ := h.pcb
    refine ⟨k, fun n hn => ?_, h, by simp⟩
    obtain ⟨n, rfl⟩ := Nat.exists_eq_add_of_lt hn
    rw [Nat.zero_add, MyShell.Paging.runLines, hget, Option.bind_eq_bind, Option.bind_some,
      if_pos (by omega)]
    rfl
  | left + 1, k, h => by
    obtain ⟨pcb, hget, -, hsize, htable, -⟩ := h.pcb
    obtain ⟨k₁, hone, h₁, hpassed₁⟩ := h.runProcAt hquiet
    obtain ⟨k', hrest, h', hpassed'⟩ := h₁.runLines hquiet
    refine ⟨k', fun n hn => ?_, h', ?_⟩
    · obtain ⟨n, rfl⟩ : ∃ m, n = m + 1 := ⟨n - 1, by omega⟩
      rw [MyShell.Paging.runLines, hget, Option.bind_eq_bind, Option.bind_some, if_neg (by omega),
        Repeats.firstValid h.valid htable, Option.bind_eq_bind, Option.bind_some]
      simp only [hone, Option.bind_eq_bind, Option.bind_some]
      exact hrest n (Nat.lt_of_succ_lt_succ hn)
    · rw [hpassed', hpassed₁, List.append_assoc, List.replicate_succ]
      rfl

/-! ## A script under both schedulers -/

/-- The new process of a script stands before its first line. -/
theorem Idle.repeats {text : Text} (h : Idle size k) (hcounted : Counted text)
    (hfits : pages (countLines text) ≤ size / 3) (hgood : Good k.shell) :
    ∃ k₁ p page line, newProcs size [some text] k = some k₁ ∧ k₁.queue = [p] ∧
      k₁.passed = k.passed ∧ (scriptLines text).head? = some line ∧
      Repeats size Good p page line k.pidCounter (scriptLines text).length { k₁ with queue := [] } := by
  have hlength := hcounted.length_scriptLines
  have hpos : 0 < (scriptLines text).length := by
    rw [hlength, countLines]
    omega
  have hfirst : 0 < first (scriptLines text).length ∧ first (scriptLines text).length ≤ size / 3 := by
    rw [← hlength] at hfits
    rw [first]
    rw [pages] at hfits ⊢
    omega
  have hall : ∀ t ∈ [text], Counted t := fun t ht => List.mem_singleton.1 ht ▸ hcounted
  obtain ⟨s₀, hfollows, hfresh⟩ := h.follows
  obtain ⟨k₁, ps, pid, script, frame, s, hnew, h₁, hfresh₁, hqueue₁, hpids, hscripts, -, hshell⟩ :=
    newProcs_ok hfollows hfresh h.queue hall
      (by simpa [DemandPaging.weight_nil] using hfirst.2)
  obtain ⟨p, rfl⟩ : ∃ p, ps = [p] :=
    List.length_eq_one_iff.1 (by simpa using congrArg List.length hpids)
  have hpid : pid p = k.pidCounter := by simpa using hpids
  have hscript : script p = scriptLines text := by simpa using hscripts
  have hp : p ∈ [p] := List.mem_singleton_self p
  have hrecent : (p, 0) ∈ s.recent := (hfresh₁.mem _).2 ⟨hp, by rw [hscript]; exact hfirst.1⟩
  obtain ⟨pcb, hget, hproc⟩ := h₁.proc p hp
  obtain ⟨page, hpage, hat, hstored⟩ := hproc.resident 0 (h₁.owner _ hrecent).2 hrecent
  have hindex : page.index 0 = 3 * frame (p, 0) := hat.index 0
  rw [hfresh₁.done p hp] at hproc
  obtain ⟨new, hpassed, howner, htake⟩ := h₁.passed
  have hnone : new = [] := by
    have hnil := htake p hp
    rw [hfresh₁.done p hp, List.take_zero, List.map_eq_nil_iff,
      List.filter_eq_self.2 fun x hx => ?_] at hnil
    · exact hnil
    · obtain ⟨q, hq, he⟩ := howner x hx
      rw [List.mem_singleton.1 hq] at he
      simpa using he
  refine ⟨k₁, p, page, (scriptLines text)[0], hnew, hqueue₁, by rw [hpassed, hnone, List.append_nil],
    List.head?_eq_getElem? ▸ List.getElem?_eq_getElem hpos, ?_⟩
  refine ⟨⟨pcb, hget, hproc.pidEq.trans hpid, ?_, hpage, ?_⟩, ?_, ?_, ?_, ?_, fun x hx => ?_, rfl, ?_⟩
  · rw [hproc.sizeEq, hscript]
    simp
  · rw [hproc.countersEq, counters, hscript, List.getElem?_map, List.getElem?_range]
    · rfl
    · rw [pages]
      omega
  · exact hat.valid 0 (by rw [hscript]; exact hpos)
  · have := h₁.frames.lt _ hrecent
    rw [hindex]
    omega
  · have hvalue := (hstored 0).2 (by rw [hscript]; exact hpos)
    simp only [hscript] at hvalue
    rw [hindex]
    exact hvalue
  · rw [h₁.recent]
    exact hrecent
  · obtain ⟨page', hpage', -⟩ := h₁.page_resident (h₁.recent ▸ hx)
    exact Option.isSome_iff_exists.2 ⟨page', hpage'⟩
  · change Good k₁.shell
    rw [hshell]
    exact hgood

/-- FIFO runs the first line as often as the script has lines. -/
theorem Idle.execFIFO {text line : Text} (h : Idle size k) (hcounted : Counted text)
    (hfits : pages (countLines text) ≤ size / 3) (hgood : Good k.shell)
    (hline : (scriptLines text).head? = some line)
    (hquiet : Harmless parseInput size Good [line]) :
    ∃ k', (∀ n, (scriptLines text).length + 2 ≤ n →
        MyShell.Paging.execFIFO parseInput size n [some text] k = some (0, k')) ∧
      k'.passed = k.passed ++ List.replicate (scriptLines text).length (k.pidCounter, line) := by
  obtain ⟨k₁, p, page, line', hnew, hqueue, hpassed, hline', hrepeats⟩ := h.repeats hcounted hfits hgood
  obtain rfl : line = line' := Option.some.inj (hline.symm.trans hline')
  obtain ⟨k₂, hrun, hend, hpassed₂⟩ := hrepeats.runLines hquiet
  obtain ⟨pcb, hget, -⟩ := hend.pcb
  refine ⟨{ k₂ with memory := clearPages pcb.pageTable k₂.memory, pcbs := k₂.pcbs.free p },
    fun n hn => ?_, ?_⟩
  · obtain ⟨n, rfl⟩ : ∃ m, n = m + 2 := ⟨n - 2, by omega⟩
    have hfree : freePcb p k₂ = some { k₂ with
        memory := clearPages pcb.pageTable k₂.memory, pcbs := k₂.pcbs.free p } := by
      rw [freePcb, hget]
      rfl
    rw [MyShell.Paging.execFIFO, if_neg (by simp), hnew, Option.bind_eq_bind, Option.bind_some,
      runProcFIFO, hqueue]
    simp only [hrun (n + 1) (by omega), hfree, Option.bind_eq_bind, Option.bind_some]
    rw [runProcFIFO]
    simp only [hend.queue]
  · rw [← hpassed]
    exact hpassed₂

theorem Idle.execRR {text : Text} (h : Idle size k) (hcounted : Counted text)
    (hfits : pages (countLines text) ≤ size / 3) (hgood : Good k.shell)
    (hquiet : Harmless parseInput size Good (scriptLines text)) :
    ∃ N k', (∀ n, N ≤ n → MyShell.Paging.exec parseInput size n [some text] k = some (0, k')) ∧
      k'.passed = k.passed ++ (scriptLines text).map fun line => (k.pidCounter, line) := by
  obtain ⟨N, k', new, hexec, -, -, -, hpassed, hpids, hlines⟩ := h.exec_counted
    (show [text].length ≤ 3 by simp) (fun t ht => List.mem_singleton.1 ht ▸ hcounted)
    (by
      rw [List.map_singleton, List.sum_singleton, hcounted.length_scriptLines, first]
      omega)
    hgood (fun t ht => List.mem_singleton.1 ht ▸ hquiet)
  refine ⟨N, k', fun n hn => exec_mono hexec hn, hpassed.trans (congrArg (k.passed ++ ·) ?_)⟩
  have hpid : ∀ x ∈ new, x.1 = k.pidCounter := fun x hx => by
    have := hpids x hx
    rw [List.length_singleton] at this
    omega
  have hall : (scriptLines text) = new.map Prod.snd := by
    have := hlines 0 (by simp)
    rw [List.filter_eq_self.2 fun x hx => by simpa using hpid x hx] at this
    exact this.symm
  rw [hall, List.map_map]
  conv_lhs => rw [← List.map_id new]
  exact List.map_congr_left fun x hx => Prod.ext (hpid x hx) rfl

/-- Every line but the last ends in a newline. -/
theorem lines_newline :
    ∀ {s l : Text} {ls : List Text}, lines s = l :: ls → ls ≠ [] → l.getLast? = some '\n'
  | [], _, _, h, _ => by cases h
  | c :: s, l, ls, h, hls => by
    rw [lines] at h
    split at h
    · obtain ⟨rfl, -⟩ := List.cons.inj h
      rename_i hc
      rw [hc]
      rfl
    · cases hs : lines s with
      | nil =>
        rw [hs] at h
        exact absurd (List.cons.inj h).2.symm hls
      | cons m ms =>
        rw [hs] at h
        obtain ⟨rfl, rfl⟩ := List.cons.inj h
        have hm := lines_newline hs hls
        have hne : m ≠ [] := fun hnil => by
          rw [hnil] at hm
          cases hm
        rw [List.getLast?_cons_of_ne_nil hne, hm]

/-- A text that does not end in a newline has a line that does not. -/
theorem lines_unended :
    ∀ {s : Text}, s ≠ [] → s.getLast? ≠ some '\n' → ∃ l ∈ lines s, l.getLast? ≠ some '\n'
  | [], h, _ => absurd rfl h
  | c :: s, _, hend => by
    rw [lines]
    by_cases hs : s = []
    · rw [hs] at hend ⊢
      refine ⟨[c], ?_, hend⟩
      split <;> exact List.mem_cons_self
    · rw [List.getLast?_cons_of_ne_nil hs] at hend
      obtain ⟨l, hl, hlast⟩ := lines_unended hs hend
      split
      · exact ⟨l, List.mem_cons_of_mem _ hl, hlast⟩
      · rename_i hc
        cases hms : lines s with
        | nil => exact absurd (lines_eq_nil.1 hms) hs
        | cons m ms =>
          rw [hms] at hl
          rcases List.mem_cons.1 hl with rfl | hl
          · refine ⟨c :: l, List.mem_cons_self, ?_⟩
            cases l with
            | nil => simpa using hc
            | cons d l => rwa [List.getLast?_cons_cons]
          · exact ⟨l, List.mem_cons_of_mem _ hl, hlast⟩

/-- The lines of a script are alike only if there is one. -/
theorem Counted.lines_alike {text : Text} (h : Counted text) :
    (∀ l ∈ lines text, some l = (lines text).head?) ↔ (lines text).length = 1 := by
  cases hls : lines text with
  | nil => exact absurd (lines_eq_nil.1 hls) h.nonempty
  | cons l ls =>
    constructor
    · intro hall
      obtain ⟨l', hl', hlast⟩ := lines_unended h.nonempty h.unended
      rw [hls] at hl'
      have hnil : ls = [] := by
        by_contra hne
        exact hlast (Option.some.inj (hall l' hl') ▸ lines_newline hls hne)
      rw [hnil]
      rfl
    · intro hone
      rw [List.length_cons, Nat.add_eq_right, List.length_eq_zero_iff] at hone
      simp [hone]

/-- **Main result.** A script that fits into the frames, no line of which
answers 1 or runs a script, passes the same lines under FIFO and under the round
robin exactly if these are all alike. Where no line is over 900 characters that
is a script of one line. -/
theorem fifo_rr_same_lines {sh : Shell σ} {depth : Nat} {text : Text} (h : Idle sh.frameStoreSize k)
    (hcounted : Counted text) (hfits : pages (countLines text) ≤ sh.frameStoreSize / 3)
    (hgood : Good k.shell) (hplain : ∀ line ∈ scriptLines text, Plain line)
    (hanswers : ∀ line ∈ scriptLines text, ∀ k : Kernel σ, Good k.shell →
      ∃ r k', Paging.parseInput sh depth line k = some (r, k') ∧ r ≠ 1 ∧ Good k'.shell) :
    ∃ N k₁ k₂,
      (∀ n, N ≤ n → execFIFO (Paging.parseInput sh depth) sh.frameStoreSize n [some text] k =
        some (0, k₁) ∧
        exec (Paging.parseInput sh depth) sh.frameStoreSize n [some text] k = some (0, k₂)) ∧
      (k₁.passed = k₂.passed ↔ ∀ line ∈ scriptLines text, some line = (scriptLines text).head?) ∧
      ((∀ line ∈ lines text, line.length ≤ 901) →
        (k₁.passed = k₂.passed ↔ (lines text).length = 1)) := by
  have hquiet : Harmless (Paging.parseInput sh depth) sh.frameStoreSize Good (scriptLines text) :=
    fun line hl k hk => by
    obtain ⟨r, k', hparse, hr, hgood'⟩ := hanswers line hl k hk
    exact ⟨r, k', hparse, hr, parseInput_same (hplain line hl) hparse, hgood'⟩
  obtain ⟨line, hline⟩ : ∃ line, (scriptLines text).head? = some line := by
    cases hls : scriptLines text with
    | nil =>
      have := hcounted.length_scriptLines
      rw [hls, List.length_nil, countLines] at this
      omega
    | cons l ls => exact ⟨l, rfl⟩
  obtain ⟨k₁, hfifo, hpassed₁⟩ := h.execFIFO hcounted hfits hgood hline fun l hl =>
    hquiet l (List.mem_singleton.1 hl ▸ List.mem_of_mem_head? hline)
  obtain ⟨N, k₂, hrr, hpassed₂⟩ := h.execRR hcounted hfits hgood hquiet
  have hsame : k₁.passed = k₂.passed ↔ ∀ l ∈ scriptLines text, some l = (scriptLines text).head? := by
    rw [hpassed₁, hpassed₂, List.append_cancel_left_eq, hline, eq_comm, List.eq_replicate_iff]
    simp
  refine ⟨max N ((scriptLines text).length + 2), k₁, k₂,
    fun n hn => ⟨hfifo n (by omega), hrr n (by omega)⟩, hsame, fun hshort => hsame.trans ?_⟩
  rw [Proper.scriptLines_eq ⟨hcounted.nonempty, hcounted.notBlank, hshort, hcounted.unended⟩]
  exact hcounted.lines_alike

theorem fifo_rr_same_lines_help : ∃ N k₁ k₂,
    (∀ n, N ≤ n → execFIFO (Paging.parseInput bareShell 0) 6 n [some "help".toList]
      (kernelSetup ()) = some (0, k₁) ∧
      exec (Paging.parseInput bareShell 0) 6 n [some "help".toList] (kernelSetup ()) = some (0, k₂)) ∧
    k₁.passed = k₂.passed := by
  have hcounted : Counted "help".toList := ⟨by decide, by decide, by decide⟩
  have hlines : scriptLines "help".toList = ["help".toList] :=
    Proper.scriptLines_eq ⟨by decide, by decide, by decide, by decide⟩
  obtain ⟨N, k₁, k₂, hrun, -, hone⟩ := @fifo_rr_same_lines Unit (kernelSetup ())
    (fun _ => True) bareShell 0 "help".toList ⟨rfl, rfl, rfl, fun _ _ => rfl⟩ hcounted
    (by decide) trivial
    (by rw [hlines]; unfold Plain; decide)
    (fun line hl k _ => by
      rw [hlines, List.mem_singleton] at hl
      subst hl
      exact ⟨0, _, rfl, by decide, trivial⟩)
  exact ⟨N, k₁, k₂, hrun, (hone (by decide)).2 (by decide)⟩

def twoCommands : Text := "help\nset x 1".toList

/-- Under FIFO the first line runs twice, and the second never. -/
theorem fifo_repeats_first_line : Counted twoCommands ∧ pages (countLines twoCommands) ≤ 6 / 3 ∧
    (∀ line ∈ scriptLines twoCommands, Plain line ∧
      ∀ k, ∃ r k', Paging.parseInput bareShell 0 line k = some (r, k') ∧ r ≠ 1) ∧
    (execFIFO (Paging.parseInput bareShell 0) 6 4 [some twoCommands] (kernelSetup ())).map
    (fun x => (x.1, x.2.passed)) =
      some (0, [(1, "help\n".toList), (1, "help\n".toList)]) ∧
    (exec (Paging.parseInput bareShell 0) 6 4 [some twoCommands] (kernelSetup ())).map
    (fun x => (x.1, x.2.passed)) =
      some (0, [(1, "help\n".toList), (1, "set x 1".toList)]) := by
  have hlines : scriptLines twoCommands = ["help\n".toList, "set x 1".toList] :=
    (Proper.scriptLines_eq ⟨by decide, by decide, by decide, by decide⟩).trans (by decide)
  refine ⟨⟨by decide, by decide, by decide⟩, by decide, ?_, by decide +kernel, by decide +kernel⟩
  intro line hl
  rw [hlines] at hl
  simp only [List.mem_cons, List.not_mem_nil, or_false] at hl
  rcases hl with rfl | rfl <;> exact ⟨by unfold Plain; decide, fun k => ⟨0, _, rfl, by decide⟩⟩

end MyShell.Paging

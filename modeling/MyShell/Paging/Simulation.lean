/-
The scheduler follows the abstract demand paging: a line of a process and a
page fault do to the kernel what `run` and `fault` do to the abstract state.
-/
import MyShell.Paging.Process
import MyShell.Paging.Scheduler

namespace MyShell.Paging

open DemandPaging (pages)

variable {σ : Type} {parseInput : Parse σ} {size : Nat} {frame : Ptr × Nat → Nat} {ps : List Ptr}
  {pid : Ptr → Nat} {script : Ptr → List Text} {older : List (Nat × Text)} {k k' : Kernel σ}
  {s : DemandPaging.State Ptr} {p : Ptr}

/-- The kernel state of the processes `ps`, in the abstract state `s`; the queue is left open.
`older` are the lines passed before these processes were there. -/
structure Follows (size : Nat) (frame : Ptr × Nat → Nat) (ps : List Ptr) (pid : Ptr → Nat)
    (script : Ptr → List Text)
    (older : List (Nat × Text)) (k : Kernel σ) (s : DemandPaging.State Ptr) : Prop where
  recent : k.lruCache = s.recent
  all : k.allPcb = ps
  frames : Frames size frame s.recent k.memory
  pids : ∀ p ∈ ps, ∀ q ∈ ps, pid p = pid q → p = q
  proc : ∀ p ∈ ps, ∃ pcb, k.pcbs.get p = some pcb ∧
    Proc frame s.recent k.memory p (pid p) (script p) (s.done p) (s.loaded p) pcb
  owner : ∀ x ∈ s.recent, x.1 ∈ ps ∧ x.2 < pages (script x.1).length
  pidLt : ∀ p ∈ ps, pid p < k.pidCounter
  passed : ∃ new, k.passed = older ++ new ∧ (∀ x ∈ new, ∃ p ∈ ps, x.1 = pid p) ∧
    ∀ p ∈ ps, (new.filter fun x => x.1 = pid p).map Prod.snd = (script p).take (s.done p)

/-- What a command that runs no script leaves alone. -/
structure Same (size : Nat) (k k' : Kernel σ) : Prop where
  memory : ∀ pos < size, k'.memory pos = k.memory pos
  pcbs : k'.pcbs = k.pcbs
  queue : k'.queue = k.queue
  lruCache : k'.lruCache = k.lruCache
  allPcb : k'.allPcb = k.allPcb
  pidCounter : k'.pidCounter = k.pidCounter
  passed : k'.passed = k.passed

/-- The line goes to `parseInput`. -/
def Kernel.pass (k : Kernel σ) (pid : Nat) (line : Text) : Kernel σ :=
  { k with passed := k.passed ++ [(pid, line)] }

theorem Proc.advance {recent : List (Ptr × Nat)} {m : Memory} {i : Nat} {lines : List Text}
    {done loaded : Nat} {pcb : PCB} (h : Proc frame recent m p i lines done loaded pcb) :
    Proc frame recent m p i lines (done + 1) loaded (pcb.advance (done / 3)) where
  pidEq := h.pidEq
  sizeEq := by
    change pcb.size - 1 = _
    rw [h.sizeEq]
    omega
  countersEq := by rw [PCB.advance, h.countersEq, counters_modify]
  table := h.table
  source := h.source
  resident := h.resident
  missing := h.missing

namespace Follows

theorem page_resident (h : Follows size frame ps pid script older k s) {x : Ptr × Nat}
    (hx : x ∈ s.recent) :
    ∃ page, k.page x = some page ∧ PageAt (frame x) x.2 (pid x.1) (script x.1).length page := by
  obtain ⟨hp, hc⟩ := h.owner x hx
  obtain ⟨pcb, hget, hproc⟩ := h.proc x.1 hp
  obtain ⟨page, hpage, hat, -⟩ := hproc.resident x.2 hc hx
  exact ⟨page, by rw [Kernel.page, hget, Option.bind_some, hpage], hat⟩

/-- `PAGE_equal` identifies a page in memory. -/
theorem pageEqual (h : Follows size frame ps pid script older k s) {x y : Ptr × Nat}
    (hx : x ∈ s.recent) (hy : y ∈ s.recent) :
    k.pageEqual (3 * frame x) y = some (decide (y = x)) := by
  obtain ⟨page, hpage, hat⟩ := h.page_resident hy
  rw [Kernel.pageEqual, hpage, Option.map_some, hat.index]
  refine congrArg some (decide_eq_decide.2 ⟨fun he => ?_, fun he => by rw [he]; rfl⟩)
  refine h.frames.inj y hy x hx ?_
  simp at he
  omega

theorem removeElem_of (k : Kernel σ) {start : Nat} {x : Ptr × Nat} : ∀ {l : List (Ptr × Nat)}, x ∈ l →
    (∀ y ∈ l, k.pageEqual start y = some (decide (y = x))) → k.removeElem start l = some (x, l.erase x)
  | [], hx, _ => by cases hx
  | y :: l, hx, heq => by
    rw [Kernel.removeElem, heq y List.mem_cons_self]
    by_cases hy : y = x
    · simp [hy]
    · have ih := removeElem_of k ((List.mem_cons.1 hx).resolve_left (Ne.symm hy))
        fun z hz => heq z (List.mem_cons_of_mem _ hz)
      rw [List.erase_cons_tail (by simpa using hy)]
      simp [hy, ih]

theorem removeElem (h : Follows size frame ps pid script older k s) {x : Ptr × Nat}
    (hx : x ∈ s.recent) : k.removeElem (3 * frame x) k.lruCache = some (x, s.recent.erase x) := by
  rw [h.recent]
  exact removeElem_of k hx fun y hy => h.pageEqual hx hy

/-- A state that differs only where the processes do not look. -/
theorem congr (h : Follows size frame ps pid script older k s) (hsame : Same size k k') :
    Follows size frame ps pid script older k' s where
  recent := hsame.lruCache.trans h.recent
  all := hsame.allPcb.trans h.all
  frames := h.frames.congr hsame.memory
  pids := h.pids
  proc p hp := by
    obtain ⟨pcb, hget, hproc⟩ := h.proc p hp
    rw [hsame.pcbs]
    refine ⟨pcb, hget, hproc.congr (fun _ => Iff.rfl) (fun _ _ => rfl)
      fun c hc pos hpos => hsame.memory pos ?_⟩
    have := h.frames.lt _ hc
    omega
  owner := h.owner
  pidLt := by
    rw [hsame.pidCounter]
    exact h.pidLt
  passed := by
    rw [hsame.passed]
    exact h.passed

theorem queue (h : Follows size frame ps pid script older k s) {s' : DemandPaging.State Ptr}
    (q : List Ptr) (hrecent : s'.recent = s.recent) (hdone : s'.done = s.done)
    (hloaded : s'.loaded = s.loaded) :
    Follows size frame ps pid script older { k with queue := q } s' := by
  obtain ⟨queue, gone, recent, done, loaded⟩ := s'
  obtain rfl : recent = s.recent := hrecent
  obtain rfl : done = s.done := hdone
  obtain rfl : loaded = s.loaded := hloaded
  exact ⟨h.recent, h.all, h.frames, h.pids, h.proc, h.owner, h.pidLt, h.passed⟩

/-! ## A line -/

/-- `cpu_run` on a page in memory hands the next line of the script to `parseInput`. -/
theorem cpuRun_resident (h : Follows size frame ps pid script older k s) (hp : p ∈ ps)
    (hlt : s.done p < (script p).length) (hcur : s.current p ∈ s.recent) :
    cpuRun parseInput p (s.done p / 3) k = (do
      let (ret, k) ← parseInput (script p)[s.done p] (k.pass (pid p) (script p)[s.done p])
      let _ ← k.pcbs.get p
      pure (ret, { k with pcbs := k.pcbs.modify p fun pcb => pcb.advance (s.done p / 3) })) := by
  obtain ⟨pcb, hget, hproc⟩ := h.proc p hp
  obtain ⟨page, hpage, hat, hstored⟩ := hproc.resident _ (page_lt hlt) hcur
  have hmod : s.done p % 3 < 3 := Nat.mod_lt _ (by decide)
  have hnext : 3 * (s.done p / 3) + s.done p % 3 = s.done p := by omega
  have hline : (k.memory (3 * frame (p, s.done p / 3) + s.done p % 3)).value =
      (script p)[s.done p] := by
    rw [(hstored ⟨s.done p % 3, hmod⟩).2 (by simp only [hnext]; exact hlt)]
    simp only [hnext]
  rw [cpuRun, hget]
  simp only [Option.bind_eq_bind, Option.bind_some, hpage, hproc.countersEq, counters_current hlt,
    dif_pos hmod, hproc.pidEq]
  rw [if_pos (hat.valid _ (by simp only [hnext]; exact hlt))]
  simp only [hat.index, hline]
  rfl

/-- `cpu_run` on a page that is not in memory faults. -/
theorem cpuRun_missing (h : Follows size frame ps pid script older k s) (hp : p ∈ ps)
    (hlt : s.done p < (script p).length) (hcur : s.current p ∉ s.recent) :
    cpuRun parseInput p (s.done p / 3) k = some (1, k) := by
  obtain ⟨pcb, hget, hproc⟩ := h.proc p hp
  obtain ⟨page, hpage, -, -, hvalid⟩ := hproc.missing _ (page_lt hlt) hcur
  have hmod : s.done p % 3 < 3 := Nat.mod_lt _ (by decide)
  rw [cpuRun, hget]
  simp only [Option.bind_eq_bind, Option.bind_some, hpage, hproc.countersEq, counters_current hlt,
    dif_pos hmod, hvalid]
  rfl

theorem runLine_eq (h : Follows size frame ps pid script older k s) (hp : p ∈ ps)
    (hlt : s.done p < (script p).length) :
    runLine parseInput size p k = runProc parseInput size p (s.done p / 3) k := by
  obtain ⟨pcb, hget, hproc⟩ := h.proc p hp
  rw [runLine, hget, Option.bind_eq_bind, Option.bind_some, hproc.countersEq, findIdx_counters hlt]

/-- The state after a line of the process `p`. -/
def ran (k : Kernel σ) (s : DemandPaging.State Ptr) (p : Ptr) (pid : Nat) (line : Text) : Kernel σ :=
  { k.pass pid line with
    pcbs := k.pcbs.modify p fun pcb => pcb.advance (s.done p / 3)
    lruCache := Recency.touch (s.current p) s.recent }

theorem run (h : Follows size frame ps pid script older k s) (hp : p ∈ ps)
    (hlt : s.done p < (script p).length) (hcur : s.current p ∈ s.recent) :
    Follows size frame ps pid script older (ran k s p (pid p) (script p)[s.done p]) (s.run p) := by
  have hdone : ∀ q, (s.run p).done q = if q = p then s.done p + 1 else s.done q := fun q => by
    rw [DemandPaging.State.run]
    exact Function.update_apply ..
  have hmem : ∀ x, x ∈ (s.run p).recent ↔ x ∈ s.recent := fun x => Recency.mem_touch hcur
  refine ⟨rfl, h.all, h.frames.perm (List.perm_cons_erase hcur), h.pids, fun q hq => ?_,
    fun x hx => h.owner x ((hmem x).1 hx), h.pidLt, ?_⟩
  · obtain ⟨pcb, hget, hproc⟩ := h.proc q hq
    have hproc := hproc.congr (fun c => hmem (q, c)) (fun _ _ => rfl) fun _ _ _ _ => rfl
    rw [hdone, ran, Heap.get_modify]
    by_cases hqp : q = p
    · subst hqp
      rw [if_pos rfl, if_pos rfl, hget]
      exact ⟨_, rfl, hproc.advance⟩
    · rw [if_neg hqp, if_neg hqp]
      exact ⟨pcb, hget, hproc⟩
  · obtain ⟨new, hnew, howner, htake⟩ := h.passed
    refine ⟨new ++ [(pid p, (script p)[s.done p])], ?_, fun x hx => ?_, fun q hq => ?_⟩
    · rw [ran, Kernel.pass, hnew, List.append_assoc]
    · rcases List.mem_append.1 hx with hx | hx
      · exact howner x hx
      · exact ⟨p, hp, by rw [List.mem_singleton.1 hx]⟩
    · rw [List.filter_append, List.map_append, htake q hq, hdone]
      by_cases hqp : q = p
      · subst hqp
        simp
      · have hne : pid p ≠ pid q := fun he => hqp (h.pids q hq p hp he.symm)
        simp [hqp, hne]

/-- A line runs: the page moves to the front of the recency list. -/
theorem runLine_resident (h : Follows size frame ps pid script older k s) (hp : p ∈ ps)
    (hlt : s.done p < (script p).length) (hcur : s.current p ∈ s.recent) {r : Int} {k₁ : Kernel σ}
    (hparse : parseInput (script p)[s.done p] (k.pass (pid p) (script p)[s.done p]) = some (r, k₁))
    (hr : r ≠ 1) (hsame : Same size (k.pass (pid p) (script p)[s.done p]) k₁) :
    ∃ k', runLine parseInput size p k = some (0, k') ∧
      Follows size frame ps pid script older k' (s.run p) ∧
      k'.queue = k.queue ∧ k'.pidCounter = k.pidCounter ∧ k'.shell = k₁.shell := by
  -- but for the line passed, the command leaves the scheduler as it was
  have hsame₀ : Same size k { k₁ with passed := k.passed } :=
    ⟨hsame.memory, hsame.pcbs, hsame.queue, hsame.lruCache, hsame.allPcb, hsame.pidCounter, rfl⟩
  have hrun := (h.congr hsame₀).run hp hlt hcur
  have hran : ran { k₁ with passed := k.passed } s p (pid p) (script p)[s.done p] =
      { k₁ with
        pcbs := k₁.pcbs.modify p fun pcb => pcb.advance (s.done p / 3)
        lruCache := Recency.touch (s.current p) s.recent } := by
    simp [ran, Kernel.pass, hsame.passed]
  rw [hran] at hrun
  refine ⟨_, ?_, hrun, hsame.queue, hsame.pidCounter, rfl⟩
  let k₂ : Kernel σ := { k₁ with pcbs := k₁.pcbs.modify p fun pcb => pcb.advance (s.done p / 3) }
  have hmem : ∀ x, x ∈ s.recent → x ∈ (s.run p).recent := fun x => (Recency.mem_touch hcur).2
  obtain ⟨page, hpage, hat⟩ : ∃ page, k₂.page (s.current p) = some page ∧
      PageAt (frame (s.current p)) (s.done p / 3) (pid p) (script p).length page :=
        hrun.page_resident (hmem _ hcur)
  have hremove : k₂.removeElem (3 * frame (s.current p)) k₂.lruCache =
      some (s.current p, s.recent.erase (s.current p)) := by
    rw [show k₂.lruCache = s.recent from hsame.lruCache.trans h.recent]
    exact removeElem_of k₂ hcur fun y hy => hrun.pageEqual (hmem _ hcur) (hmem y hy)
  have hcpu : cpuRun parseInput p (s.done p / 3) k = some (r, k₂) := by
    obtain ⟨pcb, hget, -⟩ := h.proc p hp
    have hget₁ : k₁.pcbs.get p = some pcb := by
      rw [hsame.pcbs]
      exact hget
    rw [h.cpuRun_resident hp hlt hcur, hparse]
    simp only [Option.bind_eq_bind, Option.bind_some, hget₁]
    rfl
  rw [h.runLine_eq hp hlt, runProc, hcpu]
  simp only [Option.bind_eq_bind, Option.bind_some, if_neg hr]
  rw [show k₂.page (p, s.done p / 3) = _ from hpage, Option.bind_some]
  rw [show page.index 0 = 3 * frame (s.current p) from hat.index 0]
  change (k₂.removeElem (3 * frame (s.current p)) k₂.lruCache).bind _ = _
  rw [hremove]
  rfl

/-! ## A page fault -/

/-- `load_PAGE` on the next page of the process, while there are frames. -/
theorem loadPcb_ok (h : Follows size frame ps pid script older k s) (hp : p ∈ ps)
    (hlt : s.done p < (script p).length) (hloaded : s.loaded p = s.done p / 3)
    (hcur : s.current p ∉ s.recent) (hroom : s.recent.length < size / 3) :
    ∃ f pcb m, loadPcb size p (s.done p / 3) k =
        some (true, { k with memory := m, pcbs := k.pcbs.modify p fun _ => pcb }) ∧
      Follows size (Function.update frame (s.current p) f) ps pid script older
        { k with
          memory := m, pcbs := k.pcbs.modify p fun _ => pcb
          lruCache := s.current p :: k.lruCache }
        { s with
          loaded := Function.update s.loaded p (s.loaded p + 1)
          recent := s.current p :: s.recent } := by
  obtain ⟨pcb, hget, hproc⟩ := h.proc p hp
  have hpage := page_lt hlt
  have hnot : (p, s.loaded p) ∉ s.recent := by rw [hloaded]; exact hcur
  obtain ⟨f, pcb', m', hload, hunused, hkeep, hframes, hproc'⟩ :=
    hproc.load h.frames hroom hnot (by rw [hloaded]; exact hpage)
  rw [hloaded] at hload hframes hproc'
  refine ⟨f, pcb', m', ?_, ?_⟩
  · rw [loadPcb, hget, Option.bind_eq_bind, Option.bind_some,
      if_neg (by rw [hproc.table]; omega), hload]
    rfl
  · refine ⟨congrArg _ h.recent, h.all, hframes, h.pids, fun q hq => ?_, fun x hx => ?_, h.pidLt,
      h.passed⟩
    · change ∃ pcb, (k.pcbs.modify p fun _ => pcb').get q = some pcb ∧ _
      rw [Heap.get_modify]
      by_cases hqp : q = p
      · subst hqp
        rw [if_pos rfl, hget]
        refine ⟨pcb', rfl, ?_⟩
        change Proc _ _ _ _ _ _ _ (Function.update s.loaded q (s.loaded q + 1) q) _
        rw [Function.update_self, hloaded]
        exact hproc'
      · obtain ⟨pcbq, hgetq, hprocq⟩ := h.proc q hq
        have hne : ∀ c, (q, c) ≠ s.current p := fun c he => hqp (Prod.mk.inj he).1
        rw [if_neg hqp]
        refine ⟨pcbq, hgetq, ?_⟩
        change Proc _ _ _ _ _ _ _ (Function.update s.loaded p (s.loaded p + 1) q) _
        rw [Function.update_of_ne hqp]
        refine hprocq.congr (fun c => ?_) (fun c _ => Function.update_of_ne (hne c) ..)
          fun c hc pos hpos => ?_
        · exact ⟨fun hm => (List.mem_cons.1 hm).resolve_left (hne c), List.mem_cons_of_mem _⟩
        · exact hkeep pos (hpos ▸ hunused _ hc)
    · rcases List.mem_cons.1 hx with rfl | hx
      · exact ⟨hp, hpage⟩
      · exact h.owner x hx

theorem loadPcb_full (h : Follows size frame ps pid script older k s) (hp : p ∈ ps)
    (hlt : s.done p < (script p).length) (hfull : s.recent.length = size / 3) :
    loadPcb size p (s.done p / 3) k = some (false, k) := by
  obtain ⟨pcb, hget, hproc⟩ := h.proc p hp
  have hpage := page_lt hlt
  have hload : pcb.load size (s.done p / 3) k.memory = none := by
    rw [PCB.load, List.getElem?_eq_getElem (by rw [hproc.table]; exact hpage)]
    simp [loadPage, h.frames.alloc_none hfull]
  rw [loadPcb, hget, Option.bind_eq_bind, Option.bind_some, if_neg (by rw [hproc.table]; omega), hload]
  rfl

theorem ownerOf_of (h : Follows size frame ps pid script older k s) :
    ∀ {l : List Ptr}, p ∈ l → (∀ q ∈ l, q ∈ ps) → ownerOf k (pid p) l = some p
  | [], hp, _ => by cases hp
  | q :: l, hp, hl => by
    obtain ⟨pcb, hget, hproc⟩ := h.proc q (hl q List.mem_cons_self)
    rw [ownerOf, hget, Option.bind_eq_bind, Option.bind_some, hproc.pidEq]
    by_cases hq : pid q = pid p
    · have hpps : p ∈ ps := hl p hp
      rw [if_pos hq, h.pids q (hl q List.mem_cons_self) p hpps hq]
      rfl
    · rw [if_neg hq]
      refine ownerOf_of h ((List.mem_cons.1 hp).resolve_left ?_) fun q hq =>
        hl q (List.mem_cons_of_mem _ hq)
      rintro rfl
      exact hq rfl

/-- The page used least recently gives up its frame. -/
theorem evictTail_ok (h : Follows size frame ps pid script older k s) (hne : s.recent ≠ []) :
    ∃ m pcbs, evictTail k = some { k with lruCache := s.recent.dropLast, memory := m, pcbs := pcbs } ∧
      Follows size frame ps pid script older
        { k with lruCache := s.recent.dropLast, memory := m, pcbs := pcbs }
        { s with recent := s.recent.dropLast } := by
  obtain ⟨⟨q, c⟩, hlast⟩ : ∃ x, s.recent.getLast? = some x :=
    ⟨_, List.getLast?_eq_some_getLast hne⟩
  have hsplit : s.recent.Perm ((q, c) :: s.recent.dropLast) := by
    conv_lhs => rw [← List.dropLast_append_getLast? _ hlast]
    exact List.perm_append_singleton _ _
  have hmem : (q, c) ∈ s.recent := hsplit.mem_iff.2 List.mem_cons_self
  obtain ⟨hq, hc⟩ := h.owner _ hmem
  obtain ⟨pcb, hget, hproc⟩ := h.proc q hq
  obtain ⟨page, blank, m', hpage, hindex, hpid, hevict, hkeep, hframes, hproc'⟩ :=
    hproc.evict h.frames hsplit hc
  refine ⟨m', k.pcbs.modify q fun pcb => { pcb with pageTable := pcb.pageTable.set c blank }, ?_, ?_⟩
  · have hkpage : k.page (q, c) = some page := by rw [Kernel.page, hget, Option.bind_some, hpage]
    have howner : ownerOf k (pid q) k.allPcb = some q :=
      h.ownerOf_of (by rw [h.all]; exact hq) (by simp [h.all])
    rw [evictTail, h.recent, hlast]
    simp only [Option.bind_eq_bind, Option.bind_some, hkpage, hpid, howner, hget, hindex, hpage, hevict]
    rfl
  · refine ⟨rfl, h.all, hframes, h.pids, fun r hr => ?_,
      fun x hx => h.owner x (List.dropLast_subset _ hx), h.pidLt, h.passed⟩
    change ∃ pcb, (k.pcbs.modify q _).get r = some pcb ∧ _
    rw [Heap.get_modify]
    by_cases hrq : r = q
    · subst hrq
      rw [if_pos rfl, hget]
      exact ⟨_, rfl, hproc'⟩
    · obtain ⟨pcbr, hgetr, hprocr⟩ := h.proc r hr
      have hne : ∀ c', (r, c') ≠ (q, c) := fun c' he => hrq (Prod.mk.inj he).1
      rw [if_neg hrq]
      refine ⟨pcbr, hgetr, hprocr.congr (fun c' => ?_) (fun _ _ => rfl)
        fun c' hc' pos hpos => hkeep pos fun he => ?_⟩
      · exact ⟨fun hm => List.dropLast_subset _ hm, fun hm =>
          (List.mem_cons.1 (hsplit.mem_iff.1 hm)).resolve_left (hne c')⟩
      · exact hne c' (h.frames.inj _ hc' _ hmem (hpos.symm.trans he))

/-- A page fault: the process goes to the end of the queue, its page to the front of the
recency list. -/
theorem runLine_missing (parseInput : Parse σ) (h : Follows size frame ps pid script older k s)
    (hp : p ∈ ps) (hlt : s.done p < (script p).length) (hloaded : s.loaded p = s.done p / 3)
    (hcur : s.current p ∉ s.recent) (hlen : s.recent.length ≤ size / 3) (hpos : 0 < size / 3) :
    ∃ k' frame', runLine parseInput size p k = some (1, k') ∧
      Follows size frame' ps pid script older k' (s.fault (size / 3) p) ∧ k'.queue = k.queue ++ [p] ∧
      k'.pidCounter = k.pidCounter ∧ k'.shell = k.shell := by
  have hrun : ∀ k', pageFault size p (s.done p / 3) k = some k' → runLine parseInput size p k =
      some (1, k') := by
    intro k' hk'
    rw [h.runLine_eq hp hlt, runProc, h.cpuRun_missing hp hlt hcur]
    simp only [Option.bind_eq_bind, Option.bind_some, if_true, hk']
    rfl
  by_cases hroom : s.recent.length < size / 3
  · obtain ⟨f, pcb, m, hload, hfollow⟩ := h.loadPcb_ok hp hlt hloaded hcur hroom
    let k' : Kernel σ := { k with
      memory := m
      pcbs := k.pcbs.modify p fun _ => pcb
      lruCache := s.current p :: k.lruCache
      queue := k.queue ++ [p] }
    refine ⟨k', Function.update frame (s.current p) f, hrun _ ?_, ?_, rfl, rfl, rfl⟩
    · rw [pageFault, hload]
      rfl
    · rw [DemandPaging.State.fault, if_pos hroom]
      exact hfollow.queue _ rfl rfl rfl
  · have hfull : s.recent.length = size / 3 := by omega
    have hne : s.recent ≠ [] := by
      intro he
      rw [he] at hfull
      simp at hfull
      omega
    obtain ⟨m₁, pcbs₁, hevict, hfollow₁⟩ := h.evictTail_ok hne
    obtain ⟨f, pcb, m, hload, hfollow⟩ := hfollow₁.loadPcb_ok hp hlt hloaded
      (fun hm => hcur (List.dropLast_subset _ hm)) (by simp; omega)
    let k' : Kernel σ := { k with
      memory := m
      pcbs := pcbs₁.modify p fun _ => pcb
      lruCache := s.current p :: s.recent.dropLast
      queue := k.queue ++ [p] }
    refine ⟨k', Function.update frame (s.current p) f, hrun _ ?_, ?_, rfl, rfl, rfl⟩
    · rw [pageFault, h.loadPcb_full hp hlt hfull]
      simp only [Option.bind_eq_bind, Option.bind_some, Bool.false_eq_true, if_false, hevict]
      rw [hload]
      rfl
    · rw [DemandPaging.State.fault, if_neg hroom]
      exact hfollow.queue _ rfl rfl rfl

end Follows

end MyShell.Paging

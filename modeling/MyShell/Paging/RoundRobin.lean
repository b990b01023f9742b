/-
Demand paging executes the programs: a batch of scripts whose first pages fit
runs to its end under the round robin, and every process hands each line of
its script to `parseInput` once, in order.
-/
import MyShell.Paging.Simulation

namespace MyShell.Paging

open DemandPaging (pages first Fair Turn weight work)

variable {σ : Type} {parseInput : Parse σ} {size : Nat} {frame : Ptr × Nat → Nat} {ps : List Ptr}
  {pid : Ptr → Nat} {script : Ptr → List Text} {older : List (Nat × Text)} {k k' : Kernel σ}
  {s : DemandPaging.State Ptr} {p : Ptr} {Good : σ → Prop}

/-- On the lines of the list, and where the rest of the shell is as it should
be, `parseInput` answers, but not with the 1 of a page fault, and runs no script. -/
def Harmless (parseInput : Parse σ) (size : Nat) (Good : σ → Prop) (ls : List Text) : Prop :=
  ∀ line ∈ ls, ∀ k, Good k.shell →
    ∃ r k', parseInput line k = some (r, k') ∧ r ≠ 1 ∧ Same size k k' ∧ Good k'.shell

/-! ## One turn -/

theorem Follows.line (h : Follows size frame ps pid script older k s) (hgood : Good k.shell)
    (hquiet : ∀ p ∈ ps, Harmless parseInput size Good (script p)) (hp : p ∈ ps)
    (hlt : s.done p < (script p).length) (hcur : s.current p ∈ s.recent) :
    ∃ k', runLine parseInput size p k = some (0, k') ∧
      Follows size frame ps pid script older k' (s.run p) ∧
      k'.queue = k.queue ∧ k'.pidCounter = k.pidCounter ∧ Good k'.shell := by
  obtain ⟨r, k₁, hparse, hr, hsame, hgood₁⟩ := hquiet p hp (script p)[s.done p] (List.getElem_mem hlt)
    (k.pass (pid p) (script p)[s.done p]) hgood
  obtain ⟨k', hrun, hfollow, hqueue, hpid, hshell⟩ := h.runLine_resident hp hlt hcur hparse hr hsame
  exact ⟨k', hrun, hfollow, hqueue, hpid, by rw [hshell]; exact hgood₁⟩

/-- A turn of the kernel is a turn of the abstract paging. -/
theorem Follows.turn {q : List Ptr} (h : Follows size frame ps pid script older k s)
    (hf : Fair (size / 3) (fun p => (script p).length) ps s) (hq : s.queue = p :: q) (hkq : k.queue = q)
    (hgood : Good k.shell) (hquiet : ∀ p ∈ ps, Harmless parseInput size Good (script p)) :
    ∃ k' s' frame', turn parseInput size p k = some k' ∧
      Turn (size / 3) (fun p => (script p).length) p s s' ∧
      Follows size frame' ps pid script older k' s' ∧ k'.queue = s'.queue ∧
      k'.pidCounter = k.pidCounter ∧
      Good k'.shell := by
  have hp := hf.head_mem hq
  obtain ⟨pcb, hget, hproc⟩ := h.proc p hp
  have hdone := hf.doneLe p hp
  have hpos : 0 < size / 3 ∨ (script p).length = 0 := by
    have := hf.frames_pos hp
    rcases Nat.eq_zero_or_pos (script p).length with h0 | h0
    · exact .inr h0
    · have := DemandPaging.first_pos h0
      omega
  have hbind : ∀ {α : Type} (f : PCB → Option α), (k.pcbs.get p).bind f = f pcb := fun f => by
    rw [hget, Option.bind_some]
  rw [MyShell.Paging.turn, Option.bind_eq_bind, hbind]
  rcases Nat.lt_trichotomy (s.done p + 1) (script p).length with hlt | hlt | hlt
  · rw [if_pos (by rw [hproc.sizeEq]; omega)]
    by_cases hcur : s.current p ∈ s.recent
    · obtain ⟨k₁, hline, h₁, hqueue₁, hpid₁, hgood₁⟩ := h.line hgood hquiet hp (by omega) hcur
      have hdone₁ := s.run_done_self p
      rw [hline]
      simp only [Option.bind_eq_bind, Option.bind_some, if_neg (by decide : ¬(0 : Int) = 1)]
      by_cases hnext : (s.run p).current p ∈ (s.run p).recent
      · obtain ⟨k₂, hline₂, h₂, hqueue₂, hpid₂, hgood₂⟩ :=
          h₁.line hgood₁ hquiet hp (by omega) hnext
        rw [hline₂]
        refine ⟨_, _, frame, rfl, .twice hlt hcur hnext, ?_, ?_, hpid₂.trans hpid₁, hgood₂⟩
        · exact h₂.queue _ rfl rfl rfl
        · change k₂.queue ++ [p] = s.queue.tail ++ [p]
          rw [hqueue₂, hqueue₁, hkq, hq, List.tail_cons]
      · have hloaded := hf.loaded_of_missing_next hp hlt hcur hnext
        obtain ⟨k₂, frame', hline₂, h₂, hqueue₂, hpid₂, hshell₂⟩ :=
          h₁.runLine_missing parseInput hp (by omega) (by rw [hdone₁]; exact hloaded) hnext
          (by rw [DemandPaging.State.run, Recency.length_touch hcur]; exact hf.recentLength) (by omega)
        rw [hline₂]
        refine ⟨_, _, frame', rfl, .runFault hlt hcur hnext, ?_, ?_,
          hpid₂.trans hpid₁, by rw [hshell₂]; exact hgood₁⟩
        · exact h₂.queue _ rfl rfl rfl
        · change k₂.queue = s.queue.tail ++ [p]
          rw [hqueue₂, hqueue₁, hkq, hq, List.tail_cons]
    · obtain ⟨k₁, frame', hline, h₁, hqueue₁, hpid₁, hshell₁⟩ := h.runLine_missing parseInput hp
        (by omega) (hf.loaded_of_missing hp (by omega) hcur) hcur hf.recentLength (by omega)
      rw [hline]
      refine ⟨_, _, frame', rfl, .fault (by omega) hcur, ?_, ?_, hpid₁, by rw [hshell₁]; exact hgood⟩
      · exact h₁.queue _ rfl rfl rfl
      · change k₁.queue = s.queue.tail ++ [p]
        rw [hqueue₁, hkq, hq, List.tail_cons]
  · rw [if_neg (by rw [hproc.sizeEq]; omega), if_pos (by rw [hproc.sizeEq]; omega)]
    by_cases hcur : s.current p ∈ s.recent
    · obtain ⟨k₁, hline, h₁, hqueue₁, hpid₁, hgood₁⟩ := h.line hgood hquiet hp (by omega) hcur
      rw [hline]
      refine ⟨_, _, frame, rfl, .last hlt hcur, ?_, ?_, hpid₁, hgood₁⟩
      · exact h₁.queue _ rfl rfl rfl
      · change k₁.queue = s.queue.tail
        rw [hqueue₁, hkq, hq, List.tail_cons]
    · obtain ⟨k₁, frame', hline, h₁, hqueue₁, hpid₁, hshell₁⟩ := h.runLine_missing parseInput hp
        (by omega) (hf.loaded_of_missing hp (by omega) hcur) hcur hf.recentLength (by omega)
      rw [hline]
      refine ⟨_, _, frame', rfl, .fault (by omega) hcur, ?_, ?_, hpid₁, by rw [hshell₁]; exact hgood⟩
      · exact h₁.queue _ rfl rfl rfl
      · change k₁.queue = s.queue.tail ++ [p]
        rw [hqueue₁, hkq, hq, List.tail_cons]
  · rw [if_neg (by rw [hproc.sizeEq]; omega), if_neg (by rw [hproc.sizeEq]; omega)]
    refine ⟨_, _, frame, rfl, .idle (by omega), ?_, ?_, rfl, hgood⟩
    · exact h.queue _ rfl rfl rfl
    · change k.queue = s.queue.tail
      rw [hkq, hq, List.tail_cons]

/-! ## The whole run -/

theorem Follows.queueDone (h : Follows size frame ps pid script older k s)
    (hf : Fair (size / 3) (fun p => (script p).length) ps s) : ∀ {l : List Ptr}, (∀ p ∈ l, p ∈ ps) →
    ∃ b, queueDone k l = some b ∧ (b = true → ∀ p ∈ l, s.done p = (script p).length) ∧
      (b = false → l ≠ [])
  | [], _ => ⟨true, rfl, by simp, by simp⟩
  | p :: l, hl => by
    obtain ⟨b, hdone, htrue, -⟩ := h.queueDone hf fun q hq => hl q (List.mem_cons_of_mem p hq)
    have hp := hl p List.mem_cons_self
    obtain ⟨pcb, hget, hproc⟩ := h.proc p hp
    rw [MyShell.Paging.queueDone, hget, Option.bind_eq_bind, Option.bind_some]
    by_cases hpcb : pcbDone pcb = true
    · have hfin : (script p).length ≤ s.done p := le_done_of_counters (n := (script p).length) (by
        simpa [pcbDone, hproc.countersEq] using hpcb)
      refine ⟨b, by rw [if_pos hpcb, hdone], fun hb => ?_, by simp⟩
      intro q hq
      rcases List.mem_cons.1 hq with rfl | hq
      · exact Nat.le_antisymm (hf.doneLe q hp) hfin
      · exact htrue hb q hq
    · exact ⟨false, by rw [if_neg hpcb]; rfl, by simp, by simp⟩

/-- The round robin comes to the point where every process is done. -/
theorem Follows.runProcRR (hquiet : ∀ p ∈ ps, Harmless parseInput size Good (script p)) :
    ∀ {n : Nat} {k : Kernel σ} {s : DemandPaging.State Ptr} {frame : Ptr × Nat → Nat},
      work (fun p => (script p).length) s < n → Follows size frame ps pid script older k s →
      Fair (size / 3) (fun p => (script p).length) ps s → k.queue = s.queue → Good k.shell →
      ∃ k' s' frame', Follows size frame' ps pid script older k' s' ∧
        (∀ p ∈ ps, s'.done p = (script p).length) ∧ k'.pidCounter = k.pidCounter ∧ Good k'.shell ∧
        runProcRR parseInput size n k = (cleanUp k').bind fun k => some (0, k)
  | 0, _, _, _, hn, _, _, _, _ => absurd hn (Nat.not_lt_zero _)
  | n + 1, k, s, frame, hn, h, hf, hqueue, hgood => by
    have hps : ∀ p ∈ s.queue, p ∈ ps := fun p hp => hf.perm.mem_iff.1 (List.mem_append_left _ hp)
    obtain ⟨b, hdone, htrue, hfalse⟩ := h.queueDone hf hps
    cases b with
    | true =>
      refine ⟨k, s, frame, h, fun p hp => ?_, rfl, hgood, ?_⟩
      · rcases List.mem_append.1 (hf.perm.mem_iff.2 hp) with hp | hp
        · exact htrue rfl p hp
        · exact hf.goneDone p hp
      · rw [MyShell.Paging.runProcRR, hqueue, hdone]
        rfl
    | false =>
      obtain ⟨p, q, hq⟩ := List.exists_cons_of_ne_nil (hfalse rfl)
      obtain ⟨k₁, s₁, frame₁, hturn, hstep, h₁, hqueue₁, hpid₁, hgood₁⟩ :=
        (h.queue q rfl rfl rfl).turn hf hq rfl hgood hquiet
      have hwork := hf.work_turn hq hstep
      obtain ⟨k', s', frame', h', hdone', hpid', hgood', hrun⟩ :=
        Follows.runProcRR (n := n) hquiet (by omega) h₁ (hf.turn hq hstep).1 hqueue₁ hgood₁
      refine ⟨k', s', frame', h', hdone', hpid'.trans hpid₁, hgood', ?_⟩
      rw [MyShell.Paging.runProcRR, hqueue, hdone, ← hrun, hq]
      simp only [Option.bind_eq_bind, Option.bind_some, hturn]
      rfl

/-! ## The end of a batch -/

/-- No process is there, and all frames are free. -/
structure Idle (size : Nat) (k : Kernel σ) : Prop where
  queue : k.queue = []
  lruCache : k.lruCache = []
  allPcb : k.allPcb = []
  free : ∀ pos < size, (k.memory pos).var = vacant

theorem memFreeAt_used {m : Memory} {i pos : Nat} (h : (memFreeAt m i pos).var ≠ vacant) :
    (m pos).var ≠ vacant ∧ pos ≠ i := by
  rw [memFreeAt, Function.update_apply] at h
  split at h
  · exact absurd rfl h
  · exact ⟨h, ‹_›⟩

theorem clearFrame_used {m : Memory} {i pos : Nat} (h : (clearFrame m i pos).var ≠ vacant) :
    (m pos).var ≠ vacant ∧ pos ≠ i := by
  rw [clearFrame, List.foldl_cons, List.foldl_cons, List.foldl_cons, List.foldl_nil] at h
  exact memFreeAt_used (memFreeAt_used (memFreeAt_used h).1).1

theorem clearPages_used {pages : List Page} :
    ∀ {m : Memory} {pos : Nat}, (clearPages pages m pos).var ≠ vacant →
    (m pos).var ≠ vacant ∧ ∀ page ∈ pages, ∀ j, pos ≠ page.index j := by
  induction pages with
  | nil => exact fun h => ⟨h, by simp⟩
  | cons page pages ih =>
    intro m pos h
    obtain ⟨h, hpages⟩ := ih h
    simp only [List.foldl_cons, List.foldl_nil] at h
    obtain ⟨h, h2⟩ := clearFrame_used h
    obtain ⟨h, h1⟩ := clearFrame_used h
    obtain ⟨h, h0⟩ := clearFrame_used h
    refine ⟨h, fun page' hp j => ?_⟩
    rcases List.mem_cons.1 hp with rfl | hp
    · match j with
      | 0 => exact h0
      | 1 => exact h1
      | 2 => exact h2
    · exact hpages page' hp j

/-- All processes of the list are freed, and what their pages had in memory with them. -/
theorem freeAll_ok :
    ∀ {l : List Ptr} {k : Kernel σ}, l.Nodup → (∀ p ∈ l, ∃ pcb, k.pcbs.get p = some pcb) →
    ∃ m pcbs, freeAll l k = some { k with memory := m, pcbs := pcbs } ∧
      ∀ pos, (m pos).var ≠ vacant → (k.memory pos).var ≠ vacant ∧
        ∀ p ∈ l, ∀ pcb, k.pcbs.get p = some pcb → ∀ page ∈ pcb.pageTable, ∀ j, pos ≠
        page.index j
  | [], k, _, _ => ⟨k.memory, k.pcbs, rfl, fun _ h => ⟨h, by simp⟩⟩
  | p :: l, k, hn, hget => by
    obtain ⟨hp, hn⟩ := List.nodup_cons.1 hn
    obtain ⟨pcb, hpcb⟩ := hget p List.mem_cons_self
    have hother : ∀ q ∈ l, (k.pcbs.free p).get q = k.pcbs.get q := fun q hq => by
      rw [Heap.get_free, if_neg (by rintro rfl; exact hp hq)]
    obtain ⟨m, pcbs, hfree, hused⟩ := freeAll_ok (k := { k with
        memory := clearPages pcb.pageTable k.memory
        pcbs := k.pcbs.free p }) hn fun q hq => by
      obtain ⟨pcb, hq'⟩ := hget q (List.mem_cons_of_mem _ hq)
      exact ⟨pcb, (hother q hq).trans hq'⟩
    refine ⟨m, pcbs, ?_, fun pos hpos => ?_⟩
    · rw [freeAll, freePcb, hpcb]
      exact hfree
    · obtain ⟨h, hl⟩ := hused pos hpos
      obtain ⟨h, hpages⟩ := clearPages_used h
      refine ⟨h, fun q hq pcbq hgetq => ?_⟩
      rcases List.mem_cons.1 hq with rfl | hq
      · obtain rfl : pcb = pcbq := Option.some.inj (hpcb.symm.trans hgetq)
        exact hpages
      · exact hl q hq pcbq ((hother q hq).trans hgetq)

theorem Follows.cleanUp (h : Follows size frame ps pid script older k s) (hn : ps.Nodup) :
    ∃ k', cleanUp k = some k' ∧ Idle size k' ∧ k'.passed = k.passed ∧ k'.pidCounter = k.pidCounter ∧
      k'.shell = k.shell := by
  obtain ⟨m, pcbs, hfree, hused⟩ :=
    freeAll_ok (k := k) hn fun p hp => (h.proc p hp).imp fun _ hpcb => hpcb.1
  refine ⟨{ k with memory := m, pcbs := pcbs, queue := [], lruCache := [], allPcb := [] }, ?_,
    ⟨rfl, rfl, rfl, ?_⟩, rfl, rfl, rfl⟩
  · rw [MyShell.Paging.cleanUp, h.all, hfree]
    rfl
  · intro pos hpos
    by_contra hv
    obtain ⟨hk, hpages⟩ := hused pos hv
    -- a line in use belongs to a page in memory, which has been cleared
    obtain ⟨x, hx, hframe⟩ := h.frames.free pos hpos hk
    obtain ⟨hp, hc⟩ := h.owner x hx
    obtain ⟨pcb, hget, hproc⟩ := h.proc x.1 hp
    obtain ⟨page, hpage, hat, -⟩ := hproc.resident x.2 hc hx
    refine hpages x.1 hp pcb hget page (List.mem_of_getElem? hpage) ⟨pos % 3,
      Nat.mod_lt _ (by decide)⟩ ?_
    rw [hat.index, hframe]
    simp only
    omega

end MyShell.Paging

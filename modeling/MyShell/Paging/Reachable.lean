/-
The states a batch passes through, and what holds in each of them: the recency
list names the pages that have frames, and the frames are as the pages and the
keys of the memory say.
-/
import MyShell.Paging.Execution

namespace MyShell.Paging

open DemandPaging (pages first Fair Turn weight)

variable {σ : Type} {parse : Parse σ} {size : Nat} {batch : List Text} {k₀ k k' : Kernel σ} {p : Ptr}

/-! ## The steps of a batch -/

/-- Where a batch is: some scripts have no process yet, the round robin takes
the next process, or it is between the two lines of one. -/
inductive Phase
  | adding (texts : List Text)
  | looping
  | midway (p : Ptr)

/-- The states of a batch that starts in `k₀`: after each `new_proc`, and after
each `run_proc` of the round robin. -/
inductive Reached (parse : Parse σ) (size : Nat) (batch : List Text) (k₀ : Kernel σ) :
    Phase → Kernel σ → Prop
  | start : Reached parse size batch k₀ (.adding batch) k₀
  | newProc {text : Text} {texts : List Text} {k k' : Kernel σ} :
      Reached parse size batch k₀ (.adding (text :: texts)) k →
      newProc size (some text) k = some k' → Reached parse size batch k₀ (.adding texts) k'
  | added {k : Kernel σ} : Reached parse size batch k₀ (.adding []) k →
      Reached parse size batch k₀ .looping k
  | first {k k' : Kernel σ} {p : Ptr} {q : List Ptr} {pcb : PCB} {r : Int} :
      Reached parse size batch k₀ .looping k →
      queueDone k k.queue = some false → k.queue = p :: q → k.pcbs.get p = some pcb → 0 < pcb.size →
      runLine parse size p { k with queue := q } = some (r, k') →
      Reached parse size batch k₀ (if r = 1 ∨ pcb.size = 1 then .looping else .midway p) k'
  | second {k k' : Kernel σ} {p : Ptr} {r : Int} : Reached parse size batch k₀ (.midway p) k →
      runLine parse size p k = some (r, k') →
      Reached parse size batch k₀ .looping (if r = 1 then k' else { k' with queue := k'.queue ++ [p] })
  | skip {k : Kernel σ} {p : Ptr} {q : List Ptr} {pcb : PCB} : Reached parse size batch k₀ .looping k →
      queueDone k k.queue = some false → k.queue = p :: q → k.pcbs.get p = some pcb → pcb.size ≤ 0 →
      Reached parse size batch k₀ .looping { k with queue := q }

theorem Reached.turn {q : List Ptr} (h : Reached parse size batch k₀ .looping k)
    (hdone : queueDone k k.queue = some false) (hq : k.queue = p :: q)
    (hturn : turn parse size p { k with queue := q } = some k') :
    Reached parse size batch k₀ .looping k' := by
  rw [MyShell.Paging.turn] at hturn
  obtain ⟨pcb, hpcb, hturn⟩ := Option.bind_eq_some_iff.1 hturn
  split at hturn
  · obtain ⟨⟨r, k₁⟩, hline, hturn⟩ := Option.bind_eq_some_iff.1 hturn
    have h₁ := h.first hdone hq hpcb (by omega) hline
    simp only at hturn
    split at hturn
    · obtain rfl := Option.some.inj hturn
      rwa [if_pos (.inl ‹_›)] at h₁
    · rw [if_neg (by omega)] at h₁
      obtain ⟨⟨r₂, k₂⟩, hline₂, hturn⟩ := Option.bind_eq_some_iff.1 hturn
      have h₂ := h₁.second hline₂
      simp only at hturn
      split at hturn
      · obtain rfl := Option.some.inj hturn
        rwa [if_pos ‹_›] at h₂
      · obtain rfl := Option.some.inj hturn
        rwa [if_neg ‹_›] at h₂
  · split at hturn
    · obtain ⟨⟨r, k₁⟩, hline, hturn⟩ := Option.bind_eq_some_iff.1 hturn
      obtain rfl := Option.some.inj hturn
      have h₁ := h.first hdone hq hpcb (by omega) hline
      rwa [if_pos (.inr ‹_›)] at h₁
    · obtain rfl := Option.some.inj hturn
      exact h.skip hdone hq hpcb (by omega)

theorem Reached.runProcRR :
    ∀ {n : Nat} {k : Kernel σ} {r : Int}, Reached parse size batch k₀ .looping k →
    runProcRR parse size n k = some (r, k') → ∃ k₁, Reached parse size batch k₀ .looping k₁ ∧
    cleanUp k₁ = some k'
  | 0, _, _, _, hrun => by cases hrun
  | n + 1, k, r, h, hrun => by
    rw [MyShell.Paging.runProcRR] at hrun
    obtain ⟨b, hdone, hrun⟩ := Option.bind_eq_some_iff.1 hrun
    cases b with
    | true =>
      obtain ⟨k₁, hclean, hrun⟩ := Option.bind_eq_some_iff.1 hrun
      obtain ⟨-, rfl⟩ := Prod.mk.inj (Option.some.inj hrun)
      exact ⟨k, h, hclean⟩
    | false =>
      simp only [Bool.false_eq_true, if_false] at hrun
      split at hrun
      · cases hrun
      · obtain ⟨k₁, hturn, hrun⟩ := Option.bind_eq_some_iff.1 hrun
        exact (h.turn hdone ‹_› hturn).runProcRR hrun

theorem Reached.newProcs :
    ∀ {texts : List Text} {k : Kernel σ}, Reached parse size batch k₀ (.adding texts) k →
    newProcs size (texts.map some) k = some k' → Reached parse size batch k₀ .looping k'
  | [], k, h, hnew => by
    obtain rfl := Option.some.inj hnew
    exact h.added
  | text :: texts, k, h, hnew => by
    obtain ⟨k₁, hone, hnew⟩ := Option.bind_eq_some_iff.1 hnew
    exact (h.newProc hone).newProcs hnew

/-- `exec` on a batch goes through these states, and cleans up after the last. -/
theorem exec_reached {n : Nat} {r : Int} (hfew : batch.length ≤ 3)
    (h : exec parse size n (batch.map some) k₀ = some (r, k')) :
    ∃ k, Reached parse size batch k₀ .looping k ∧ cleanUp k = some k' := by
  rw [exec, if_neg (by rw [List.length_map]; omega)] at h
  obtain ⟨k₁, hnew, h⟩ := Option.bind_eq_some_iff.1 h
  exact (Reached.start.newProcs hnew).runProcRR h

/-! ## What holds in every state -/

variable {Good : σ → Prop} {frame : Ptr × Nat → Nat} {ps : List Ptr} {pid : Ptr → Nat}
  {script : Ptr → List Text} {older : List (Nat × Text)} {s : DemandPaging.State Ptr}

/-- Lines that run no script and, where they return, answer something but 1. -/
def QuietLines (parse : Parse σ) (size : Nat) (Good : σ → Prop) (ls : List Text) : Prop :=
  ∀ line ∈ ls, ∀ {k r k'}, Good k.shell → parse line k = some (r, k') → r ≠ 1 ∧ Same size k k' ∧
    Good k'.shell

theorem Follows.line_of (h : Follows size frame ps pid script older k s) (hgood : Good k.shell)
    (hquiet : QuietLines parse size Good (script p)) (hp : p ∈ ps) (hlt : s.done p < (script p).length)
    (hcur : s.current p ∈ s.recent) {r : Int} (hrun : runLine parse size p k = some (r, k')) :
    r = 0 ∧ Follows size frame ps pid script older k' (s.run p) ∧ k'.queue = k.queue ∧
    Good k'.shell := by
  cases hparse : parse (script p)[s.done p] (k.pass (pid p) (script p)[s.done p]) with
  | none =>
    rw [h.runLine_eq hp hlt, runProc, h.cpuRun_resident hp hlt hcur, hparse] at hrun
    cases hrun
  | some x =>
    obtain ⟨a, k₁⟩ := x
    have hpass : Good (k.pass (pid p) (script p)[s.done p]).shell := hgood
    obtain ⟨ha, hsame, hgood₁⟩ := hquiet _ (List.getElem_mem hlt) hpass hparse
    obtain ⟨k₂, hrun₂, h₂, hqueue, -, hshell⟩ := h.runLine_resident hp hlt hcur hparse ha hsame
    rw [hrun] at hrun₂
    obtain ⟨rfl, rfl⟩ := Prod.mk.inj (Option.some.inj hrun₂)
    exact ⟨rfl, h₂, hqueue, by rw [hshell]; exact hgood₁⟩

/-- The kernel follows the abstract paging, and the lines of its processes are quiet. -/
structure Running (parse : Parse σ) (size : Nat) (Good : σ → Prop) (frame : Ptr × Nat → Nat)
    (ps : List Ptr) (pid : Ptr → Nat) (script : Ptr → List Text) (k : Kernel σ)
    (s : DemandPaging.State Ptr) : Prop where
  follows : ∃ older, Follows size frame ps pid script older k s
  quiet : ∀ p ∈ ps, QuietLines parse size Good (script p)
  good : Good k.shell

/-- What holds of the kernel, by the place the batch is at. -/
def During (parse : Parse σ) (size : Nat) (Good : σ → Prop) (k : Kernel σ) : Phase → Prop
  | .adding texts => ∃ frame ps pid script s, Running parse size Good frame ps pid script k s ∧
      Fresh (fun p => (script p).length) ps s ∧ ps.Nodup ∧ k.queue = ps ∧
      (∀ text ∈ texts, Counted text ∧ QuietLines parse size Good (scriptLines text)) ∧
      weight (fun p => (script p).length) ps +
        (texts.map fun text => first (scriptLines text).length).sum ≤ size / 3
  | .looping => ∃ frame ps pid script s, Running parse size Good frame ps pid script k s ∧
      Fair (size / 3) (fun p => (script p).length) ps s ∧ k.queue = s.queue
  | .midway p => ∃ frame ps pid script s q, Running parse size Good frame ps pid script k (s.run p) ∧
      Fair (size / 3) (fun p => (script p).length) ps s ∧ s.queue = p :: q ∧ k.queue = q ∧
      s.done p + 1 < (script p).length ∧ s.current p ∈ s.recent

theorem During.follows {phase : Phase} (h : During parse size Good k phase) :
    ∃ frame ps pid script older s, Follows size frame ps pid script older k s := by
  cases phase with
  | adding texts =>
    obtain ⟨frame, ps, pid, script, s, ⟨⟨older, h⟩, -, -⟩, -⟩ := h
    exact ⟨frame, ps, pid, script, older, s, h⟩
  | looping =>
    obtain ⟨frame, ps, pid, script, s, ⟨⟨older, h⟩, -, -⟩, -⟩ := h
    exact ⟨frame, ps, pid, script, older, s, h⟩
  | midway p =>
    obtain ⟨frame, ps, pid, script, s, q, ⟨⟨older, h⟩, -, -⟩, -⟩ := h
    exact ⟨frame, ps, pid, script, older, s.run p, h⟩

theorem During.newProc {text : Text} {texts : List Text}
    (h : During parse size Good k (.adding (text :: texts)))
    (hnew : newProc size (some text) k = some k') : During parse size Good k' (.adding texts) := by
  obtain ⟨frame, ps, pid, script, s, ⟨⟨older, h⟩, hquiet, hgood⟩, hfresh, hn, hqueue, htexts,
      hfits⟩ := h
  obtain ⟨hcounted, hlines⟩ := htexts text List.mem_cons_self
  rw [List.map_cons, List.sum_cons] at hfits
  obtain ⟨k₁, frame₁, hnew₁, hnot, h₁, hqueue₁, -, hshell₁⟩ :=
    h.newProc hcounted (by rw [hfresh.length]; omega)
  rw [hnew] at hnew₁
  obtain rfl := Option.some.inj hnew₁
  have hne : ∀ q ∈ ps, q ≠ k.pcbs.next := fun q hq he => hnot (he ▸ hq)
  have hlen : (fun p => (Function.update script k.pcbs.next (scriptLines text) p).length) =
      Function.update (fun p => (script p).length) k.pcbs.next (scriptLines text).length := by
    funext q
    by_cases hq : q = k.pcbs.next
    · simp [hq]
    · simp [hq]
  have hfresh₁ := hfresh.added hnot (scriptLines text).length
  rw [← hlen] at hfresh₁
  have hweight : weight (fun p => (Function.update script k.pcbs.next (scriptLines text) p).length)
    (ps ++ [k.pcbs.next]) =
      weight (fun p => (script p).length) ps + first (scriptLines text).length := by
    rw [hlen, DemandPaging.weight_append, ← weight_congr
      fun q hq => (Function.update_of_ne (hne q hq) _ _).symm]
    simp
  refine ⟨frame₁, _, _, _, _, ⟨⟨older, h₁⟩, fun q hq => ?_, by rw [hshell₁]; exact hgood⟩,
    hfresh₁, by rw [← List.concat_eq_append]; exact hn.concat hnot, by rw [hqueue₁, hqueue],
    fun t ht => htexts t (List.mem_cons_of_mem _ ht), by rw [hweight]; omega⟩
  rcases List.mem_append.1 hq with hq | hq
  · rw [Function.update_of_ne (hne q hq)]
    exact hquiet q hq
  · rw [List.mem_singleton.1 hq, Function.update_self]
    exact hlines

theorem During.added (h : During parse size Good k (.adding [])) :
    During parse size Good k .looping := by
  obtain ⟨frame, ps, pid, script, s, hrunning, hfresh, hn, hqueue, -, hfits⟩ := h
  obtain ⟨older, hfollows⟩ := hrunning.follows
  exact ⟨frame, ps, pid, script, s, hrunning,
    hfresh.fair hn hfollows.frames.nodup (by simpa using hfits), by rw [hqueue, hfresh.queue]⟩

theorem During.skip {q : List Ptr} {pcb : PCB} (h : During parse size Good k .looping)
    (hq : k.queue = p :: q) (hpcb : k.pcbs.get p = some pcb) (hsize : pcb.size ≤ 0) :
    During parse size Good { k with queue := q } .looping := by
  obtain ⟨frame, ps, pid, script, s, ⟨⟨older, h⟩, hquiet, hgood⟩, hf, hqueue⟩ := h
  have hsq : s.queue = p :: q := by rw [← hqueue, hq]
  have hp := hf.head_mem hsq
  obtain ⟨pcb', hget, hproc⟩ := h.proc p hp
  rw [hpcb] at hget
  obtain rfl := Option.some.inj hget
  have hdone := hf.doneLe p hp
  have hturn : Turn (size / 3) (fun p => (script p).length) p s (s.leave p) := .idle (by
    have := hproc.sizeEq
    omega)
  exact ⟨frame, ps, pid, script, s.leave p, ⟨⟨older, h.queue q rfl rfl rfl⟩, hquiet, hgood⟩,
    (hf.turn hsq hturn).1, by rw [DemandPaging.State.leave, hsq]; rfl⟩

theorem During.first {q : List Ptr} {pcb : PCB} {r : Int} (h : During parse size Good k .looping)
    (hq : k.queue = p :: q) (hpcb : k.pcbs.get p = some pcb) (hsize : 0 < pcb.size)
    (hrun : runLine parse size p { k with queue := q } = some (r, k')) :
    During parse size Good k' (if r = 1 ∨ pcb.size = 1 then .looping else .midway p) := by
  obtain ⟨frame, ps, pid, script, s, ⟨⟨older, h⟩, hquiet, hgood⟩, hf, hqueue⟩ := h
  have hsq : s.queue = p :: q := by rw [← hqueue, hq]
  have hp := hf.head_mem hsq
  obtain ⟨pcb', hget, hproc⟩ := h.proc p hp
  rw [hpcb] at hget
  obtain rfl := Option.some.inj hget
  have hlen := hproc.sizeEq
  have hfq : Follows size frame ps pid script older { k with queue := q } s := h.queue q rfl rfl rfl
  by_cases hcur : s.current p ∈ s.recent
  · obtain ⟨rfl, h₁, hqueue₁, hgood₁⟩ := hfq.line_of hgood (hquiet p hp) hp (by omega) hcur hrun
    by_cases hone : pcb.size = 1
    · rw [if_pos (.inr hone)]
      have hturn : Turn (size / 3) (fun p => (script p).length) p s ((s.run p).leave p) :=
        .last (by omega) hcur
      refine ⟨frame, ps, pid, script, (s.run p).leave p,
        ⟨⟨older, h₁.queue k'.queue rfl rfl rfl⟩, hquiet, hgood₁⟩, (hf.turn hsq hturn).1, ?_⟩
      · rw [hqueue₁]
        change q = s.queue.tail
        rw [hsq, List.tail_cons]
    · rw [if_neg (by omega)]
      exact ⟨frame, ps, pid, script, s, q, ⟨⟨older, h₁⟩, hquiet, hgood₁⟩, hf, hsq,
        hqueue₁, by omega, hcur⟩
  · have hpos : 0 < size / 3 := by
      have := hf.frames_pos hp
      have := DemandPaging.first_pos (by omega : 0 < (script p).length)
      omega
    obtain ⟨k₁, frame₁, hline, h₁, hqueue₁, -, hshell₁⟩ := hfq.runLine_missing parse hp (by omega)
      (hf.loaded_of_missing hp (by omega) hcur) hcur hf.recentLength hpos
    rw [hrun] at hline
    obtain ⟨rfl, rfl⟩ := Prod.mk.inj (Option.some.inj hline)
    rw [if_pos (.inl rfl)]
    have hturn : Turn (size / 3) (fun p => (script p).length) p s ((s.fault (size / 3) p).requeue p) :=
      .fault (by omega) hcur
    refine ⟨frame₁, ps, pid, script, (s.fault (size / 3) p).requeue p,
      ⟨⟨older, h₁.queue k'.queue rfl rfl rfl⟩, hquiet, by rw [hshell₁]; exact hgood⟩,
      (hf.turn hsq hturn).1, ?_⟩
    rw [hqueue₁]
    change q ++ [p] = s.queue.tail ++ [p]
    rw [hsq, List.tail_cons]

theorem During.second {r : Int} (h : During parse size Good k (.midway p))
    (hrun : runLine parse size p k = some (r, k')) :
    During parse size Good (if r = 1 then k' else { k' with queue := k'.queue ++ [p] }) .looping := by
  obtain ⟨frame, ps, pid, script, s, q, ⟨⟨older, h⟩, hquiet, hgood⟩, hf, hsq, hqueue, hlt,
      hcur⟩ := h
  have hp := hf.head_mem hsq
  have hdone := s.run_done_self p
  by_cases hnext : (s.run p).current p ∈ (s.run p).recent
  · obtain ⟨rfl, h₁, hqueue₁, hgood₁⟩ := h.line_of hgood (hquiet p hp) hp (by omega) hnext hrun
    rw [if_neg (by decide)]
    have hturn : Turn (size / 3) (fun p => (script p).length) p s (((s.run p).run p).requeue p) :=
      .twice hlt hcur hnext
    refine ⟨frame, ps, pid, script, ((s.run p).run p).requeue p,
      ⟨⟨older, h₁.queue _ rfl rfl rfl⟩, hquiet, hgood₁⟩, (hf.turn hsq hturn).1, ?_⟩
    change k'.queue ++ [p] = s.queue.tail ++ [p]
    rw [hqueue₁, hqueue, hsq, List.tail_cons]
  · have hpos : 0 < size / 3 := by
      have := hf.frames_pos hp
      have := DemandPaging.first_pos (by omega : 0 < (script p).length)
      omega
    obtain ⟨k₁, frame₁, hline, h₁, hqueue₁, -, hshell₁⟩ := h.runLine_missing parse hp (by omega)
      (by rw [hdone]; exact hf.loaded_of_missing_next hp hlt hcur hnext) hnext
      (by rw [DemandPaging.State.run, Recency.length_touch hcur]; exact hf.recentLength) hpos
    rw [hrun] at hline
    obtain ⟨rfl, rfl⟩ := Prod.mk.inj (Option.some.inj hline)
    rw [if_pos rfl]
    have hturn : Turn (size / 3) (fun p => (script p).length) p s
        (((s.run p).fault (size / 3) p).requeue p) :=
      .runFault hlt hcur hnext
    refine ⟨frame₁, ps, pid, script, ((s.run p).fault (size / 3) p).requeue p,
      ⟨⟨older, h₁.queue k'.queue rfl rfl rfl⟩, hquiet, by rw [hshell₁]; exact hgood⟩,
      (hf.turn hsq hturn).1, ?_⟩
    rw [hqueue₁, hqueue]
    change q ++ [p] = s.queue.tail ++ [p]
    rw [hsq, List.tail_cons]

/-- What the steps of a batch need of its scripts and of the memory. -/
structure Fits (parse : Parse σ) (size : Nat) (Good : σ → Prop) (batch : List Text) : Prop where
  scripts : ∀ text ∈ batch, Counted text ∧ QuietLines parse size Good (scriptLines text)
  frames : (batch.map fun text => first (scriptLines text).length).sum ≤ size / 3

theorem Reached.during {phase : Phase} (h : Reached parse size batch k₀ phase k) (hidle : Idle size k₀)
    (hgood : Good k₀.shell) (hfits : Fits parse size Good batch) : During parse size Good k phase := by
  induction h with
  | start =>
    obtain ⟨s, hfollows, hfresh⟩ := hidle.follows
    exact ⟨_, [], _, _, s, ⟨⟨_, hfollows⟩, by simp, hgood⟩, hfresh, List.nodup_nil, hidle.queue,
      hfits.scripts, by
      rw [DemandPaging.weight_nil, Nat.zero_add]
      exact hfits.frames⟩
  | newProc _ hnew ih => exact ih.newProc hnew
  | added _ ih => exact ih.added
  | first _ _ hq hpcb hsize hrun ih => exact ih.first hq hpcb hsize hrun
  | second _ hrun ih => exact ih.second hrun
  | skip _ _ hq hpcb hsize ih => exact ih.skip hq hpcb hsize

/-! ## Frames and the recency list -/

/-- A page of a process that has a frame: its first line is valid. -/
def Kernel.Owns (k : Kernel σ) (x : Ptr × Nat) : Prop :=
  x.1 ∈ k.allPcb ∧ ∃ page, k.page x = some page ∧ page.validBit 0 = true

/-- The recency list and the memory agree about frames; `frame` names the frame of a page. -/
structure Agrees (size : Nat) (frame : Ptr × Nat → Nat) (k : Kernel σ) : Prop where
  nodup : k.lruCache.Nodup
  owns : ∀ x, x ∈ k.lruCache ↔ k.Owns x
  index : ∀ x ∈ k.lruCache, ∃ page, k.page x = some page ∧ ∀ j, page.index j = 3 * frame x + j
  keys : ∀ x ∈ k.lruCache, ∀ page, k.page x = some page →
    ∀ j, (k.memory (page.index j)).var = pidStr page.pagePid
  below : ∀ x ∈ k.lruCache, 3 * frame x + 3 ≤ size
  disjoint : ∀ x ∈ k.lruCache, ∀ y ∈ k.lruCache, frame x = frame y → x = y
  rest : ∀ pos < size, (∀ x ∈ k.lruCache, pos / 3 ≠ frame x) → (k.memory pos).var = vacant
  unique : ∀ x ∈ k.lruCache, ∀ y ∈ k.lruCache, ∀ page, k.page x = some page →
    k.pageEqual (page.index 0) y = some (decide (y = x))
  full : ∀ pid, frameAlloc size pid k.memory = none → ∀ f < size / 3, ∃ x ∈ k.lruCache, frame x = f

theorem Follows.agrees (h : Follows size frame ps pid script older k s) : Agrees size frame k := by
  have hpage : ∀ x ∈ s.recent, ∃ page, k.page x = some page ∧
      PageAt (frame x) x.2 (pid x.1) (script x.1).length page :=
    fun x hx => h.page_resident hx
  have hrecent := h.recent
  refine ⟨by rw [hrecent]; exact h.frames.nodup, fun x => ?_, fun x hx => ?_,
    fun x hx page hx' j => ?_, fun x hx => ?_,
    fun x hx y hy => ?_, fun pos hpos hno => ?_, fun x hx y hy page hx' => ?_, fun a ha f hf => ?_⟩
  · rw [hrecent]
    refine ⟨fun hx => ?_, fun ⟨hp, page, hk, hvalid⟩ => ?_⟩
    · obtain ⟨hp, hc⟩ := h.owner x hx
      obtain ⟨page, hk, hat⟩ := hpage x hx
      exact ⟨by rw [h.all]; exact hp, page, hk,
        hat.valid 0 (by simp only [Fin.val_zero]; rw [pages] at hc; omega)⟩
    · by_contra hx
      obtain ⟨p, c⟩ := x
      obtain ⟨pcb, hget, hproc⟩ := h.proc p (by rw [← h.all]; exact hp)
      rw [Kernel.page, hget, Option.bind_some] at hk
      have hc : c < pages (script p).length := by
        rw [← hproc.table]
        exact (List.getElem?_eq_some_iff.1 hk).1
      obtain ⟨page', hk', -, -, hinvalid⟩ := hproc.missing c hc hx
      rw [hk] at hk'
      obtain rfl := Option.some.inj hk'
      rw [hinvalid] at hvalid
      cases hvalid
  · rw [hrecent] at hx
    obtain ⟨page, hk, hat⟩ := hpage x hx
    exact ⟨page, hk, hat.index⟩
  · rw [hrecent] at hx
    obtain ⟨hp, hc⟩ := h.owner x hx
    obtain ⟨pcb, hget, hproc⟩ := h.proc x.1 hp
    obtain ⟨page', hk, hat, hstored⟩ := hproc.resident x.2 hc hx
    rw [Kernel.page, hget, Option.bind_some, hk] at hx'
    obtain rfl := Option.some.inj hx'
    rw [hat.index, hat.pagePid]
    exact (hstored j).1
  · rw [hrecent] at hx
    have := h.frames.lt x hx
    omega
  · rw [hrecent] at hx hy
    exact h.frames.inj x hx y hy
  · rw [hrecent] at hno
    by_contra hused
    obtain ⟨x, hx, hframe⟩ := h.frames.free pos hpos hused
    exact hno x hx hframe.symm
  · rw [hrecent] at hx hy
    obtain ⟨page', hk, hat⟩ := hpage x hx
    rw [hk] at hx'
    obtain rfl := Option.some.inj hx'
    rw [hat.index]
    exact h.pageEqual hx hy
  · rw [hrecent]
    refine h.frames.all_used ?_ hf
    by_contra hne
    have hle : (s.recent.map frame).length ≤ (List.range (size / 3)).length :=
      (List.subperm_of_subset h.frames.map_nodup h.frames.map_lt).length_le
    rw [List.length_map, List.length_range] at hle
    obtain ⟨f, -, -, halloc⟩ := h.frames.alloc (by omega) a
    rw [halloc] at ha
    cases ha

/-- **Main result.** In every state of a batch the recency list names exactly
the pages that have frames, and the memory is as they say. -/
theorem frames_agree {sh : Shell σ} {depth : Nat} {shell : σ} {phase : Phase} (Good : σ → Prop)
    (hbatch : ∀ text ∈ batch, Counted text ∧ ∀ line ∈ scriptLines text, Plain line ∧
      ∀ {k : Kernel σ} {r k'}, Good k.shell → parseInput sh depth line k = some (r, k') → r ≠ 1 ∧
        Good k'.shell)
    (hfits : (batch.map fun text => first (scriptLines text).length).sum ≤ sh.frameStoreSize / 3)
    (hgood : Good shell)
    (h : Reached (parseInput sh depth) sh.frameStoreSize batch (kernelSetup shell) phase k) :
    ∃ frame, Agrees sh.frameStoreSize frame k := by
  have hidle : Idle sh.frameStoreSize (kernelSetup shell) := ⟨rfl, rfl, rfl, fun _ _ => rfl⟩
  have hscripts : Fits (parseInput sh depth) sh.frameStoreSize Good batch := by
    refine ⟨fun text ht => ⟨(hbatch text ht).1, fun line hl k r k' hk hparse => ?_⟩, hfits⟩
    obtain ⟨hplain, hanswer⟩ := (hbatch text ht).2 line hl
    obtain ⟨hr, hgood'⟩ := hanswer hk hparse
    exact ⟨hr, parseInput_same hplain hparse, hgood'⟩
  obtain ⟨frame, ps, pid, script, older, s, hfollows⟩ := (h.during hidle hgood hscripts).follows
  exact ⟨frame, hfollows.agrees⟩

/-- The process of seven lines, its first two pages in the two frames. -/
theorem frames_agree_sevenLines : ∃ k frame, newProc 6 (some sevenLines) (kernelSetup ()) = some k ∧
    Agrees bareShell.frameStoreSize frame k := by
  have hproper : Proper sevenLines := sevenLines_batch.proper _ List.mem_cons_self
  have hsome : (newProc 6 (some sevenLines) (kernelSetup ())).isSome = true := by decide +kernel
  obtain ⟨k, hnew⟩ := Option.isSome_iff_exists.1 hsome
  have hreached : Reached (parseInput bareShell 0) bareShell.frameStoreSize [sevenLines]
      (kernelSetup ()) (.adding []) k :=
    .newProc .start hnew
  have hbatch : ∀ text ∈ [sevenLines], Counted text ∧ ∀ line ∈ scriptLines text, Plain line ∧
      ∀ {k : Kernel Unit} {r k'}, (fun _ => True) k.shell → parseInput bareShell 0 line k =
      some (r, k') →
        r ≠ 1 ∧ (fun _ => True) k'.shell := fun text ht => by
    obtain rfl := List.mem_singleton.1 ht
    refine ⟨hproper.counted, fun line hl => ?_⟩
    rw [hproper.scriptLines_eq] at hl
    refine ⟨sevenLines_commands.plain _ List.mem_cons_self line hl, fun {k r k'} _ hparse => ?_⟩
    obtain ⟨r', k'', hparse', hr, -⟩ :=
      sevenLines_commands.answers _ List.mem_cons_self line hl k trivial
    rw [hparse] at hparse'
    obtain ⟨rfl, rfl⟩ := Prod.mk.inj (Option.some.inj hparse')
    exact ⟨hr, trivial⟩
  have hfits : ([sevenLines].map fun text => first (scriptLines text).length).sum ≤
      bareShell.frameStoreSize / 3 := by
    rw [List.map_singleton, hproper.scriptLines_eq]
    decide
  obtain ⟨frame, hagrees⟩ := frames_agree (fun _ => True) hbatch hfits trivial hreached
  exact ⟨k, frame, hnew, hagrees⟩

end MyShell.Paging

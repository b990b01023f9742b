/-
`sort_ready_queue` (ready_queue.c) goes through the queue once. Its cursor is
not taken back to the head, so that the second round of the outer loop stands
at the last node, finds nothing to swap and ends the sort
(`Queued.sortReadyQueue_pass`). A queue in which a node stands behind two that
belong behind it is left unsorted.
-/
import Mathlib.Data.Prod.Lex
import MyShell.Backing.ReadyQueue
import MyShell.Lib.BubblePass

namespace MyShell.Backing

open Linked (Relinked)

/-- The place of a process in a sorted queue: priority first, then the score. -/
def PCB.rank (pcb : PCB) : Bool ×ₗ Int := toLex (!pcb.priority, pcb.jobLengthScore)

theorem PCB.rank_lt {a b : PCB} : b.rank < a.rank ↔
    if a.priority = b.priority then b.jobLengthScore < a.jobLengthScore else b.priority = true := by
  rw [PCB.rank, PCB.rank, Prod.Lex.toLex_lt_toLex]
  cases a.priority <;> cases b.priority <;> simp

namespace ReadyQueue

/-- The processes of the nodes. -/
def Processes (pcbs : Heap PCB) (q : ReadyQueue) (ps : List Ptr) (proc : Ptr → PCB) : Prop :=
  ∀ p ∈ ps, ∃ a, q.nodes.get p = some a ∧ pcbs.get a.val = some (proc p)

/-- The order that the sort is to make. -/
def Ordered (proc : Ptr → PCB) (ps : List Ptr) : Prop :=
  ps.Pairwise fun p r => (proc p).rank ≤ (proc r).rank

variable {pcbs : Heap PCB} {q q' : ReadyQueue} {ps ps' front back : List Ptr} {p cur next : Ptr}
  {proc : Ptr → PCB}

theorem Processes.relinked (h : Processes pcbs q ps proc) (hr : Relinked q.nodes q'.nodes)
    (hperm : ps'.Perm ps) : Processes pcbs q' ps' proc := by
  intro p hp
  obtain ⟨a, ha, hproc⟩ := h p (hperm.mem_iff.1 hp)
  obtain ⟨b, hb, hval⟩ := hr.get ha
  exact ⟨b, hb, hval ▸ hproc⟩

theorem Queued.swapNeeded (h : Queued q (front ++ cur :: next :: back))
    (hproc : Processes pcbs q (front ++ cur :: next :: back) proc) :
    q.swapNeeded pcbs cur = some (decide ((proc next).rank < (proc cur).rank)) := by
  obtain ⟨o, -, rfl, a, ha, hnext, -⟩ := Linked.seg_append.1 h
  obtain ⟨a', ha', hcur⟩ := hproc cur (by simp)
  obtain ⟨b, hb, hother⟩ := hproc next (by simp)
  obtain rfl := Option.some.inj (ha.symm.trans ha')
  unfold ReadyQueue.swapNeeded pcbOf
  simp only [ha, hnext, hb, hcur, hother, Option.bind_eq_bind, Option.bind_some, Option.pure_def,
    PCB.rank_lt]
  congr 1
  split <;> simp_all

/-- **The inner loop** is a pass over the rest of the queue; it ends at the last node. -/
theorem Queued.sortPass_pass {n : Nat} (sorted : Bool) (h : Queued q (front ++ cur :: back))
    (hproc : Processes pcbs q (front ++ cur :: back) proc) (hn : back.length < n) :
    ∃ before last sorted' q', ReadyQueue.sortPass pcbs n cur sorted q = some (last, sorted', q') ∧
      front ++ BubblePass.pass (fun p => (proc p).rank) cur back = before ++ [last] ∧
      Queued q' (before ++ [last]) ∧ Relinked q.nodes q'.nodes := by
  induction back generalizing n front cur sorted q with
  | nil =>
    obtain ⟨n, rfl⟩ := Nat.exists_eq_succ_of_ne_zero (Nat.ne_of_gt hn)
    obtain ⟨o, -, rfl, a, ha, hend⟩ := Linked.seg_append.1 h
    have hnext : a.next = none := hend
    refine ⟨front, cur, sorted, q, ?_, rfl, h, .refl _⟩
    rw [ReadyQueue.sortPass, ha]
    simp [hnext]
  | cons next back ih =>
    obtain ⟨n, rfl⟩ := Nat.exists_eq_succ_of_ne_zero (Nat.ne_of_gt (Nat.zero_lt_of_lt hn))
    have hn : back.length < n := Nat.lt_of_succ_lt_succ hn
    obtain ⟨o, -, rfl, a, ha, hnext, -⟩ := Linked.seg_append.1 h
    have hstep : ReadyQueue.sortPass pcbs (n + 1) cur sorted q =
        if (proc next).rank < (proc cur).rank then
          (q.swapWithNext cur).bind fun q' => ReadyQueue.sortPass pcbs n cur false q'
        else ReadyQueue.sortPass pcbs n next sorted q := by
      rw [ReadyQueue.sortPass, ha]
      simp [hnext, h.swapNeeded hproc]
    rw [hstep, BubblePass.pass]
    split
    · obtain ⟨q₁, hswap, h₁, hr₁⟩ := h.swapWithNext
      have hperm : (front ++ next :: cur :: back).Perm (front ++ cur :: next :: back) :=
        (List.Perm.swap cur next back).append_left front
      have hproc₁ := hproc.relinked hr₁ hperm
      rw [hswap, Option.bind_some, List.append_cons front next]
      rw [List.append_cons front next] at h₁ hproc₁
      obtain ⟨before, last, sorted', q', hpass, heq, hq', hr⟩ := ih false h₁ hproc₁ hn
      exact ⟨before, last, sorted', q', hpass, heq, hq', hr₁.trans hr⟩
    · rw [List.append_cons front cur] at h hproc ⊢
      exact ih sorted h hproc hn

/-- **The sort** is one pass. -/
theorem Queued.sortReadyQueue_pass (h : Queued q (p :: ps)) (hproc : Processes pcbs q (p :: ps) proc) :
    ∃ q', q.sortReadyQueue pcbs = some q' ∧ Queued q' (BubblePass.pass (fun p => (proc p).rank) p ps) ∧
      Relinked q.nodes q'.nodes := by
  have hbound : ps.length < q.bound := h.length_le
  obtain ⟨before, last, sorted, q₁, hpass, heq, h₁, hr₁⟩ :=
    @sortPass_pass pcbs q [] ps p proc _ true h hproc (Nat.lt_succ_of_lt hbound)
  rw [List.nil_append] at heq
  refine ⟨q₁, ?_, heq ▸ h₁, hr₁⟩
  -- the next round starts at the last node
  have hlast : ReadyQueue.sortPass pcbs (q₁.bound + 1) last true q₁ = some (last, true, q₁) := by
    obtain ⟨_, _, _, a, ha, hend⟩ := Linked.seg_append.1 h₁
    have hnext : a.next = none := hend
    rw [ReadyQueue.sortPass, ha]
    simp [hnext]
  obtain ⟨n, hn⟩ := Nat.exists_eq_succ_of_ne_zero (Nat.ne_of_gt (Nat.zero_lt_of_lt hbound))
  unfold ReadyQueue.sortReadyQueue
  rw [show q.head = some p from h.1]
  dsimp only
  rw [ReadyQueue.sortLoop, hpass, hn]
  simp only [Option.bind_eq_bind, Option.bind_some]
  split
  · rfl
  · rw [ReadyQueue.sortLoop, hlast]
    rfl

/-- `ready_queue_pop_shortest_job` takes the first node of the sorted queue. -/
theorem popShortestJob_eq (h : Queued q' ps) (hsort : q.sortReadyQueue pcbs = some q') :
    ∃ q'', q.popShortestJob pcbs = some (ps.head?, q'') ∧ Queued q'' ps.tail := by
  obtain ⟨q'', hpop, hq'', -⟩ := h.popHead
  exact ⟨q'', by rw [popShortestJob, hsort, Option.bind_eq_bind, Option.bind_some, hpop], hq''⟩

/-- **`sort_ready_queue` ends** with the nodes it found. They are in order only
where no node stood behind two that belong behind it, and
`ready_queue_pop_shortest_job` returns a node that none precedes only where one
of the first two is such a node. -/
theorem sort_ready_queue_orders (h : Queued q ps) (hproc : Processes pcbs q ps proc) :
    ∃ q' ps' q'', q.sortReadyQueue pcbs = some q' ∧ Queued q' ps' ∧ ps'.Perm ps ∧
      Relinked q.nodes q'.nodes ∧
      (Ordered proc ps' ↔ ps.Triplewise fun p r s => (proc p).rank ≤ (proc s).rank ∨
        (proc r).rank ≤ (proc s).rank) ∧
      q.popShortestJob pcbs = some (ps'.head?, q'') ∧ Queued q'' ps'.tail ∧
      ((∀ p ∈ ps'.head?, ∀ r ∈ ps, (proc p).rank ≤ (proc r).rank) ↔
        (ps ≠ [] → ∃ p ∈ ps.take 2, ∀ r ∈ ps, (proc p).rank ≤ (proc r).rank)) := by
  cases ps with
  | nil =>
    have hsort : q.sortReadyQueue pcbs = some q := by
      unfold ReadyQueue.sortReadyQueue
      rw [show q.head = none from h]
    obtain ⟨q'', hpop, htail⟩ := popShortestJob_eq h hsort
    exact ⟨q, [], q'', hsort, h, .refl _, .refl _, iff_of_true .nil .nil, hpop, htail, by simp⟩
  | cons p ps =>
    obtain ⟨q', hsort, hq', hr⟩ := h.sortReadyQueue_pass hproc
    obtain ⟨q'', hpop, htail⟩ := popShortestJob_eq hq' hsort
    refine ⟨q', _, q'', hsort, hq', BubblePass.pass_perm _ p ps, hr, BubblePass.pass_sorted _ p ps,
      hpop, htail, ?_⟩
    obtain ⟨b, -, hhead, -⟩ := BubblePass.pass_head (fun p => (proc p).rank) p ps
    simpa [hhead] using BubblePass.pass_least (fun p => (proc p).rank) hhead

/-! ## A queue that stays unsorted -/

def jobOfScore (score : Int) : PCB := { makePCB 1 with jobLengthScore := score }

/-- Three jobs. -/
def threeJobs : ReadyQueue :=
  ⟨((Heap.empty.alloc ⟨0, some 1⟩).alloc ⟨1, some 2⟩).alloc ⟨2, none⟩, some 0⟩

def threeProcesses (score : Ptr → Int) : Heap PCB :=
  ((Heap.empty.alloc (jobOfScore (score 0))).alloc (jobOfScore (score 1))).alloc (jobOfScore (score 2))

theorem queued_threeJobs : Queued threeJobs [0, 1, 2] :=
  .cons (a := ⟨0, some 1⟩) rfl (.cons (a := ⟨1, some 2⟩) rfl (.cons (a := ⟨2, none⟩) rfl rfl))

theorem processes_threeJobs (score : Ptr → Int) :
    Processes (threeProcesses score) threeJobs [0, 1, 2] fun p => jobOfScore (score p) := by
  intro p hp
  simp only [List.mem_cons, List.not_mem_nil, or_false] at hp
  obtain rfl | rfl | rfl := hp
  · exact ⟨⟨0, some 1⟩, rfl, rfl⟩
  · exact ⟨⟨1, some 2⟩, rfl, rfl⟩
  · exact ⟨⟨2, none⟩, rfl, rfl⟩

/-- The scores 3, 1 and 2 come in order. -/
theorem sort_ready_queue_orders_three :
    ∃ q' ps' q'', threeJobs.sortReadyQueue (threeProcesses fun p => (p + 2) % 3 + 1) = some q' ∧
    Queued q' ps' ∧ ps'.Perm [0, 1, 2] ∧ Ordered (fun p => jobOfScore ((p + 2) % 3 + 1)) ps' ∧
    threeJobs.popShortestJob (threeProcesses fun p => (p + 2) % 3 + 1) = some (ps'.head?, q'') ∧
    Queued q'' ps'.tail ∧
    ∀ p ∈ ps'.head?, ∀ r ∈ ([0, 1, 2] : List Ptr), (jobOfScore ((p + 2) % 3 + 1)).rank ≤
      (jobOfScore ((r + 2) % 3 + 1)).rank := by
  obtain ⟨q', ps', q'', hsort, hq', hperm, -, hordered, hpop, htail, hleast⟩ :=
    sort_ready_queue_orders queued_threeJobs (processes_threeJobs fun p => (p + 2) % 3 + 1)
  exact ⟨q', ps', q'', hsort, hq', hperm, hordered.2
    (.cons (by decide) (.cons (by decide) (.cons .nil .nil))), hpop, htail,
    hleast.2 fun _ => ⟨1, by decide, by decide⟩⟩

/-- The scores 3, 2 and 1 are left as 2, 1 and 3, and the job of score 2 is taken before
that of score 1. -/
theorem sort_ready_queue_unsorted :
    ∃ q' q'', threeJobs.sortReadyQueue (threeProcesses fun p => 3 - p) = some q' ∧
    Queued q' [1, 2, 0] ∧ ¬ Ordered (fun p => jobOfScore (3 - p)) [1, 2, 0] ∧
    threeJobs.popShortestJob (threeProcesses fun p => 3 - p) = some (some 1, q'') ∧
    (jobOfScore 1).rank < (jobOfScore 2).rank := by
  obtain ⟨q', hsort, hq', -⟩ :=
    queued_threeJobs.sortReadyQueue_pass (processes_threeJobs fun p => 3 - p)
  rw [show BubblePass.pass (fun p : Ptr => (jobOfScore (3 - p)).rank) 0 [1, 2] =
    [1, 2, 0] by decide] at hq'
  obtain ⟨q'', hpop, -⟩ := popShortestJob_eq hq' hsort
  refine ⟨q', q'', hsort, hq', ?_, hpop, by decide⟩
  unfold Ordered
  decide

/-! ## One swap -/

/-- **`ready_queue_swap_with_next`** exchanges a node with the one after it,
wherever in the queue the two are, and does nothing else: the links lead
through the same nodes, each once, and end. -/
theorem swap_with_next_exchanges {next : Ptr} {a : QueueNode} (h : Queued q ps) (hp : p ∈ ps)
    (ha : q.nodes.get p = some a) (hnext : a.next = some next) :
    ∃ front back q', ps = front ++ p :: next :: back ∧ q.swapWithNext p = some q' ∧
      Queued q' (front ++ next :: p :: back) ∧ (front ++ next :: p :: back).Nodup ∧
      Relinked q.nodes q'.nodes := by
  obtain ⟨front, rest, rfl⟩ := List.append_of_mem hp
  obtain ⟨o, -, rfl, b, hb, hrest⟩ := Linked.seg_append.1 h
  obtain rfl := Option.some.inj (ha.symm.trans hb)
  rw [hnext] at hrest
  cases rest with
  | nil => cases hrest
  | cons r back =>
    obtain rfl := Option.some.inj hrest.1
    obtain ⟨q', hswap, hq', hrelinked⟩ := h.swapWithNext
    exact ⟨front, back, q', rfl, hswap, hq', hq'.nodup, hrelinked⟩

theorem swap_with_next_exchanges_last : ∃ front back q', [0, 1, 2] = front ++ 1 :: 2 :: back ∧
    threeJobs.swapWithNext 1 = some q' ∧ Queued q' (front ++ 2 :: 1 :: back) := by
  obtain ⟨front, back, q', hps, hswap, hq', -, -⟩ :=
    swap_with_next_exchanges (p := 1) (a := ⟨1, some 2⟩) queued_threeJobs (by decide) rfl rfl
  exact ⟨front, back, q', hps, hswap, hq'⟩

end ReadyQueue

end MyShell.Backing

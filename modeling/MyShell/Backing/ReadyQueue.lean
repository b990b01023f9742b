/-
`ready_queue.c`: a linked list of processes. Each operation takes a list that
ends to a list that ends, of the same nodes but for the one added or taken.
-/
import MyShell.Backing.Store
import MyShell.Lib.Linked

namespace MyShell.Backing

open Linked (Chain Seg setNext walk Relinked)

/-- A `QueueNode`, with the pointer to its process. -/
abbrev QueueNode := Linked Ptr

structure ReadyQueue where
  nodes : Heap QueueNode
  head : Option Ptr

namespace ReadyQueue

variable (pcbs : Heap PCB)

/-- As many steps as a loop along the queue may take: more than there are
nodes it cannot take unless the queue has a cycle. -/
def bound (q : ReadyQueue) : Nat := q.nodes.cells.length

/-- The process of a node. -/
def pcbOf (node : QueueNode) : Option PCB := pcbs.get node.val

/-- `ready_queue_add_to_tail` -/
def addToTail (p : Ptr) (q : ReadyQueue) : Option ReadyQueue := do
  let _ ← q.nodes.get p
  match q.head with
  | none => pure ⟨setNext q.nodes p none, some p⟩
  | some _ =>
    let cur ← ← walk q.nodes (fun a => some a.next.isNone) q.bound q.head
    pure ⟨setNext (setNext q.nodes cur (some p)) p none, q.head⟩

/-- `ready_queue_add_to_head` -/
def addToHead (p : Ptr) (q : ReadyQueue) : Option ReadyQueue := do
  let _ ← q.nodes.get p
  pure ⟨setNext q.nodes p q.head, some p⟩

/-- `ready_queue_pop_head` -/
def popHead (q : ReadyQueue) : Option (Option Ptr × ReadyQueue) :=
  match q.head with
  | none => some (none, q)
  | some p => do pure (some p, { q with head := (← q.nodes.get p).next })

/-- `terminate_process` -/
def terminateProcess (p : Ptr) (q : ReadyQueue) : Option ReadyQueue := do
  let _ ← q.nodes.get p
  pure { q with nodes := q.nodes.free p }

/-- `ready_queue_decrement_job_length_score` -/
def decrementJobLengthScore (q : ReadyQueue) : Option (Heap PCB) := do
  let ps ← Linked.nodes q.nodes q.bound q.head
  ps.foldlM (fun pcbs p => do
    let node ← q.nodes.get p
    let pcb ← pcbs.get node.val
    pure (if 0 < pcb.jobLengthScore then
        pcbs.modify node.val fun pcb => { pcb with jobLengthScore := pcb.jobLengthScore - 1 }
      else pcbs)) pcbs

/-- `ready_queue_swap_with_next` -/
def swapWithNext (toSwap : Ptr) (q : ReadyQueue) : Option ReadyQueue := do
  let cur := q.head
  let q ← if q.head = some toSwap then do
      let next ← (← q.nodes.get toSwap).next
      let nodes := setNext q.nodes toSwap (← q.nodes.get next).next
      pure ⟨setNext nodes next (some toSwap), some next⟩
    else pure q
  match ← walk q.nodes (fun a => some (a.next = some toSwap)) q.bound cur with
  | none => pure q
  | some cur =>
    let next ← (← q.nodes.get toSwap).next
    let afterNext := (← q.nodes.get next).next
    pure { q with
      nodes := setNext (setNext (setNext q.nodes cur (some next)) next (some toSwap))
        toSwap afterNext }

/-- `swap_needed` -/
def swapNeeded (cur : Ptr) (q : ReadyQueue) : Option Bool := do
  let node ← q.nodes.get cur
  match node.next with
  | none => pure false
  | some next =>
    let a ← pcbOf pcbs node
    let b ← pcbOf pcbs (← q.nodes.get next)
    pure (if a.priority = b.priority then b.jobLengthScore < a.jobLengthScore else b.priority)

/-- The inner loop of `sort_ready_queue` from the node `cur` on: where it ends,
and whether nothing was swapped. -/
def sortPass : Nat → Ptr → Bool → ReadyQueue → Option (Ptr × Bool × ReadyQueue)
  | 0, _, _, _ => none
  | n + 1, cur, sorted, q => do
    match (← q.nodes.get cur).next with
    | none => pure (cur, sorted, q)
    | some next =>
      if ← q.swapNeeded pcbs cur then sortPass n cur false (← q.swapWithNext cur)
      else sortPass n next sorted q

/-- The outer loop, which does not go back to the head. -/
def sortLoop : Nat → Ptr → ReadyQueue → Option ReadyQueue
  | 0, _, _ => none
  | n + 1, cur, q => do
    let (cur, sorted, q) ← sortPass pcbs (q.bound + 1) cur true q
    if sorted then pure q else sortLoop n cur q

def sortReadyQueue (q : ReadyQueue) : Option ReadyQueue :=
  match q.head with
  | none => some q
  | some head => sortLoop pcbs (q.bound + 1) head q

def popShortestJob (q : ReadyQueue) : Option (Option Ptr × ReadyQueue) :=
  do popHead (← q.sortReadyQueue pcbs)

def maxInt : Nat := 2147483646

/-- `ready_queue_get_shortest_job_score` -/
def shortestJobScore (q : ReadyQueue) : Option Int := do
  let ps ← Linked.nodes q.nodes q.bound q.head
  ps.foldlM (fun (shortest : Int) p => do
    let pcb ← pcbOf pcbs (← q.nodes.get p)
    pure (if pcb.jobLengthScore < shortest then pcb.jobLengthScore else shortest)) maxInt

/-- The score of the process of the node is `score`. -/
def hasScore (score : Int) (q : ReadyQueue) (p : Ptr) : Option Bool := do
  let pcb ← pcbOf pcbs (← q.nodes.get p)
  pure (pcb.jobLengthScore = score)

/-- `ready_queue_promote` -/
def promote (score : Int) (q : ReadyQueue) : Option ReadyQueue := do
  if ← q.hasScore pcbs score (← q.head) then pure q
  else
    let cur ← ← walk q.nodes (fun a => match a.next with
      | none => some true
      | some p => q.hasScore pcbs score p) q.bound q.head
    match (← q.nodes.get cur).next with
    | none => pure q
    | some next =>
      let nodes := setNext q.nodes cur (← q.nodes.get next).next
      pure ⟨setNext nodes next q.head, some next⟩

/-! ## The queue as a list -/

/-- The nodes of the queue, from its head on. -/
def Queued (q : ReadyQueue) (ps : List Ptr) : Prop := Chain q.nodes q.head ps

variable {pcbs : Heap PCB} {q q' : ReadyQueue} {ps : List Ptr} {p t next : Ptr} {a : QueueNode}

/-- A walk along the queue is never cut short. -/
theorem Queued.exists_bound (h : Queued q ps) : ∃ n, q.bound = ps.length + n :=
  ⟨q.bound - ps.length, by have := h.length_le; unfold bound; omega⟩

theorem Queued.addToTail (h : Queued q ps) (hp : p ∉ ps) (ha : q.nodes.get p = some a) :
    ∃ q', q.addToTail p = some q' ∧ Queued q' (ps ++ [p]) ∧ Relinked q.nodes q'.nodes := by
  unfold ReadyQueue.addToTail
  rw [ha]
  cases hps : ps.reverse with
  | nil =>
    obtain rfl : ps = [] := List.reverse_eq_nil_iff.1 hps
    have hhead : q.head = none := h
    rw [hhead]
    exact ⟨_, rfl, .cons (Linked.get_setNext_self ha) rfl, Linked.relinked_setNext _ _ _⟩
  | cons last front =>
    obtain rfl : ps = front.reverse ++ [last] := by
      rw [← List.reverse_reverse ps, hps, List.reverse_cons]
    obtain ⟨n, hn⟩ := h.exists_bound
    obtain ⟨r, b, hr, hfront, hb, hend, hlast⟩ := Chain.concat h
    have hwalk : walk q.nodes (fun a => some a.next.isNone) q.bound q.head = some (some last) := by
      rw [hn, List.length_append, List.length_singleton, Nat.add_assoc, Nat.add_comm 1 n, hfront.walk]
      · exact Linked.walk_stop hb (by rw [hend]; rfl) n
      · intro r hr c hc
        rw [← Option.not_isSome, hfront.isSome_next hr hc]
        rfl
    rw [hr] at hwalk ⊢
    simp only [Option.bind_eq_bind, Option.bind_some, hwalk, Option.pure_def]
    rw [List.mem_append, List.mem_singleton, not_or] at hp
    have hne : last ≠ p := Ne.symm hp.2
    refine ⟨_, rfl, Linked.seg_append.2 ⟨some p, Linked.seg_append.2 ⟨some last, ?_, ?_⟩, ?_⟩,
      Relinked.trans (Linked.relinked_setNext _ _ _) (Linked.relinked_setNext _ _ _)⟩
    · exact (hr ▸ hfront.setNext hlast).setNext hp.1
    · refine .cons (a := ⟨b.val, some p⟩) ?_ rfl
      rw [Linked.get_setNext_of_ne hne, Linked.get_setNext_self hb]
    · refine .cons (a := ⟨a.val, none⟩) ?_ rfl
      rw [Linked.get_setNext_self (a := a)]
      rwa [Linked.get_setNext_of_ne hne.symm]

theorem Queued.addToHead (h : Queued q ps) (hp : p ∉ ps) (ha : q.nodes.get p = some a) :
    ∃ q', q.addToHead p = some q' ∧ Queued q' (p :: ps) ∧ Relinked q.nodes q'.nodes := by
  unfold ReadyQueue.addToHead
  rw [ha]
  exact ⟨_, rfl, .cons (Linked.get_setNext_self ha) (Seg.setNext h hp), Linked.relinked_setNext _ _ _⟩

theorem Queued.popHead (h : Queued q ps) :
    ∃ q', q.popHead = some (ps.head?, q') ∧ Queued q' ps.tail ∧ q'.nodes = q.nodes := by
  unfold ReadyQueue.popHead
  cases ps with
  | nil =>
    have hhead : q.head = none := h
    rw [hhead]
    exact ⟨q, rfl, h, rfl⟩
  | cons p ps =>
    obtain ⟨hhead, a, ha, hs⟩ := h
    rw [hhead]
    simp only [ha, Option.bind_eq_bind, Option.bind_some]
    exact ⟨_, rfl, hs, rfl⟩

/-- The head and the node after it. -/
theorem Queued.swapHead {back : List Ptr} (h : Queued q (t :: next :: back)) :
    ∃ q', q.swapWithNext t = some q' ∧ Queued q' (next :: t :: back) ∧ Relinked q.nodes q'.nodes := by
  have hnodup := h.nodup
  obtain ⟨hhead, a, ha, hnext, b, hb, hback⟩ := h
  simp only [List.nodup_cons, List.mem_cons, not_or] at hnodup
  obtain ⟨⟨hne, ht⟩, hn, -⟩ := hnodup
  let q' : ReadyQueue := ⟨setNext (setNext q.nodes t b.next) next (some t), some next⟩
  have hrelinked : Relinked q.nodes q'.nodes :=
    Relinked.trans (Linked.relinked_setNext _ _ _) (Linked.relinked_setNext _ _ _)
  have hrest : Chain q'.nodes (some t) (t :: back) := by
    refine .cons (a := ⟨a.val, b.next⟩) ?_ ((Seg.setNext hback ht).setNext hn)
    rw [Linked.get_setNext_of_ne hne, Linked.get_setNext_self ha]
  have hqueued : Queued q' (next :: t :: back) := by
    refine .cons (a := ⟨b.val, some t⟩) ?_ hrest
    rw [Linked.get_setNext_self (a := b)]
    rwa [Linked.get_setNext_of_ne (Ne.symm hne)]
  refine ⟨q', ?_, hqueued, hrelinked⟩
  -- the search from the old head meets no link to it
  obtain ⟨n, hbound⟩ := hqueued.exists_bound
  have hwalk : walk q'.nodes (fun a => some (a.next = some t)) q'.bound (some t) = some none := by
    rw [hbound, show (next :: t :: back).length + n =
      (t :: back).length + (n + 1) by simp; omega, hrest.walk]
    · exact Linked.walk_none _ _ _
    · intro r hr c hc
      have : c.next ≠ some t := fun heq => by
        rcases hrest.next_mem hr hc heq with hmem | hmem
        · exact ht hmem
        · cases hmem
      simpa using this
  unfold ReadyQueue.swapWithNext
  rw [if_pos hhead, hhead, ha]
  simp only [Option.bind_eq_bind, Option.bind_some, hnext, hb, Option.pure_def]
  rw [hwalk]
  rfl

theorem Queued.swapWithNext {front back : List Ptr} (h : Queued q (front ++ t :: next :: back)) :
    ∃ q', q.swapWithNext t = some q' ∧ Queued q' (front ++ next :: t :: back) ∧
      Relinked q.nodes q'.nodes := by
  cases hfront : front.reverse with
  | nil =>
    obtain rfl : front = [] := List.reverse_eq_nil_iff.1 hfront
    exact h.swapHead
  | cons c before =>
    obtain rfl : front = before.reverse ++ [c] := by
      rw [← List.reverse_reverse front, hfront, List.reverse_cons]
    generalize before.reverse = before at h
    have hnodup := h.nodup
    obtain ⟨n, hbound⟩ := h.exists_bound
    rw [List.append_assoc, List.singleton_append] at h hnodup ⊢
    obtain ⟨o, hbefore, rfl, b, hb, hbt, a, ha, hnext, d, hd, hback⟩ := Linked.seg_append.1 h
    simp only [List.nodup_append, List.nodup_cons, List.mem_cons, not_or] at hnodup
    obtain ⟨-, ⟨⟨hct, hcn, hcback⟩, ⟨htn, htback⟩, hnback, -⟩, hdisjoint⟩ := hnodup
    have hnot (r : Ptr) (hr : r ∈ c :: t :: next :: back) : r ∉ before := fun hmem =>
      hdisjoint r hmem r (by simpa using hr) rfl
    -- the search ends at the node before
    have hwalk : walk q.nodes (fun a => some (a.next = some t)) q.bound q.head = some (some c) := by
      rw [hbound, show (before ++ [c] ++ t :: next :: back).length + n =
        before.length + (back.length + n + 2 + 1) by
        simp; omega, hbefore.walk]
      · exact Linked.walk_stop hb (by rw [hbt]; simp) _
      · intro r hr e he
        have : e.next ≠ some t := fun heq => by
          rcases hbefore.next_mem hr he heq with hmem | hmem
          · exact hnot t (by simp) (List.mem_of_mem_tail hmem)
          · exact hct (Option.some.inj hmem)
        simpa using this
    have hhead : q.head ≠ some t := fun heq => by
      cases before with
      | nil => exact hct (Option.some.inj (hbefore.symm.trans heq))
      | cons r before =>
        obtain rfl := Option.some.inj (hbefore.1.symm.trans heq)
        exact hnot r (by simp) List.mem_cons_self
    unfold ReadyQueue.swapWithNext
    rw [if_neg hhead]
    simp only [Option.bind_eq_bind, Option.bind_some, Option.pure_def, hwalk, ha, hnext, hd]
    refine ⟨_, rfl, Linked.seg_append.2 ⟨some c, ?_, ?_⟩,
      Relinked.trans (Relinked.trans (Linked.relinked_setNext _ _ _)
      (Linked.relinked_setNext _ _ _)) (Linked.relinked_setNext _ _ _)⟩
    · exact ((hbefore.setNext (hnot c (by simp))).setNext (hnot next (by simp))).setNext
        (hnot t (by simp))
    · refine .cons (a := ⟨b.val, some next⟩) ?_
        (.cons (a := ⟨d.val, some t⟩) ?_ (.cons (a := ⟨a.val, d.next⟩) ?_ ?_))
      · rw [Linked.get_setNext_of_ne hct, Linked.get_setNext_of_ne hcn, Linked.get_setNext_self hb]
      · rw [Linked.get_setNext_of_ne (Ne.symm htn), Linked.get_setNext_self (a := d)]
        rwa [Linked.get_setNext_of_ne (Ne.symm hcn)]
      · rw [Linked.get_setNext_self (a := a)]
        rwa [Linked.get_setNext_of_ne htn, Linked.get_setNext_of_ne (Ne.symm hct)]
      · exact ((Seg.setNext hback hcback).setNext hnback).setNext htback

/-! ## Orders of the queue -/

/-- The same nodes in some order, linked anew. -/
def Reordered (q : ReadyQueue) (ps : List Ptr) (q' : ReadyQueue) : Prop :=
  ∃ ps', ps'.Perm ps ∧ Queued q' ps' ∧ Relinked q.nodes q'.nodes

theorem Queued.sortPass {n : Nat} {cur cur' : Ptr} {sorted sorted' : Bool} {front back : List Ptr}
    (h : Queued q (front ++ cur :: back))
    (hs : sortPass pcbs n cur sorted q = some (cur', sorted', q')) :
    ∃ ps, ps.Perm (front ++ cur :: back) ∧ cur' ∈ ps ∧ Queued q' ps ∧ Relinked q.nodes q'.nodes := by
  induction n generalizing front cur back sorted q with
  | zero => cases hs
  | succ n ih =>
    unfold ReadyQueue.sortPass at hs
    obtain ⟨o, -, rfl, a, ha, hback⟩ := Linked.seg_append.1 h
    rw [ha] at hs
    simp only [Option.bind_eq_bind, Option.bind_some] at hs
    cases hnext : a.next with
    | none =>
      rw [hnext] at hs
      obtain ⟨rfl, -, rfl⟩ : cur = cur' ∧ sorted = sorted' ∧ q = q' := by simpa using hs
      exact ⟨_, .refl _, by simp, h, .refl _⟩
    | some next =>
      rw [hnext] at hs hback
      cases back with
      | nil => cases hback
      | cons next' back =>
        obtain rfl : next' = next := (Option.some.inj hback.1).symm
        simp only [Option.bind_eq_some_iff] at hs
        obtain ⟨needed, -, hs⟩ := hs
        cases needed with
        | true =>
          obtain ⟨q₁, hswap, h₁, hr₁⟩ := h.swapWithNext
          simp only [if_true, hswap, Option.bind_some] at hs
          rw [← List.singleton_append (l := cur :: back), ← List.append_assoc] at h₁
          obtain ⟨ps, hperm, hmem, hq, hr⟩ := ih h₁ hs
          refine ⟨ps, hperm.trans ?_, hmem, hq, hr₁.trans hr⟩
          rw [List.append_assoc, List.singleton_append]
          exact (List.Perm.swap _ _ _).append_left _
        | false =>
          simp only [Bool.false_eq_true, if_false] at hs
          rw [← List.singleton_append (l := next' :: back), ← List.append_assoc] at h ⊢
          exact ih h hs

theorem Queued.sortLoop {n : Nat} {cur : Ptr} (h : Queued q ps) (hcur : cur ∈ ps)
    (hs : sortLoop pcbs n cur q = some q') : Reordered q ps q' := by
  induction n generalizing cur q ps with
  | zero => cases hs
  | succ n ih =>
    unfold ReadyQueue.sortLoop at hs
    simp only [Option.bind_eq_bind, Option.bind_eq_some_iff] at hs
    obtain ⟨⟨cur', sorted, q₁⟩, hpass, hs⟩ := hs
    obtain ⟨front, back, rfl⟩ := List.append_of_mem hcur
    obtain ⟨ps₁, hperm₁, hmem, h₁, hr₁⟩ := h.sortPass hpass
    cases sorted with
    | true =>
      obtain rfl : q₁ = q' := by simpa using hs
      exact ⟨ps₁, hperm₁, h₁, hr₁⟩
    | false =>
      obtain ⟨ps', hperm, hq, hr⟩ := ih h₁ hmem hs
      exact ⟨ps', hperm.trans hperm₁, hq, hr₁.trans hr⟩

theorem Queued.sortReadyQueue (h : Queued q ps) (hs : q.sortReadyQueue pcbs = some q') :
    Reordered q ps q' := by
  unfold ReadyQueue.sortReadyQueue at hs
  cases hhead : q.head with
  | none =>
    rw [hhead] at hs
    obtain rfl := Option.some.inj hs
    exact ⟨ps, .refl _, h, .refl _⟩
  | some head =>
    rw [hhead] at hs
    refine h.sortLoop ?_ hs
    cases ps with
    | nil => cases hhead.symm.trans h
    | cons p ps =>
      obtain rfl := Option.some.inj (hhead.symm.trans h.1)
      exact List.mem_cons_self

theorem Queued.promote {score : Int} (h : Queued q ps) (hp : q.promote pcbs score = some q') :
    Reordered q ps q' := by
  unfold ReadyQueue.promote at hp
  simp only [Option.bind_eq_bind, Option.bind_eq_some_iff] at hp
  obtain ⟨head, hhead, first, -, hp⟩ := hp
  cases first with
  | true =>
    obtain rfl : q = q' := by simpa using hp
    exact ⟨ps, .refl _, h, .refl _⟩
  | false =>
    simp only [Bool.false_eq_true, if_false, Option.bind_eq_some_iff] at hp
    obtain ⟨found, hwalk, cur, hfound, a, ha, hp⟩ := hp
    subst hfound
    have hmem := Chain.walk_mem h hwalk
    obtain ⟨front, back, rfl⟩ := List.append_of_mem hmem
    cases hnext : a.next with
    | none =>
      rw [hnext] at hp
      obtain rfl : q = q' := by simpa using hp
      exact ⟨_, .refl _, h, .refl _⟩
    | some next =>
      rw [hnext] at hp
      have hnodup := h.nodup
      obtain ⟨o, hfront, rfl, a', ha', hback⟩ := Linked.seg_append.1 h
      obtain rfl := Option.some.inj (ha.symm.trans ha')
      rw [hnext] at hback
      cases back with
      | nil => cases hback
      | cons next' back =>
        obtain ⟨hnext', b, hb, hback⟩ := hback
        obtain rfl := Option.some.inj hnext'
        simp only [hb, Option.bind_some, Option.pure_def, Option.some.injEq] at hp
        subst hp
        simp only [List.nodup_append, List.nodup_cons, List.mem_cons, not_or] at hnodup
        obtain ⟨-, ⟨⟨hne, hcur⟩, hnext, -⟩, hdisjoint⟩ := hnodup
        have hnot (r : Ptr) (hr : r = cur ∨ r = next) : r ∉ front := fun hm =>
          hdisjoint r hm r (hr.imp_right .inl) rfl
        have hperm : (front ++ cur :: next :: back).Perm (next :: (front ++ cur :: back)) := by
          have hmiddle : (front ++ [cur] ++ next :: back).Perm (next :: (front ++ [cur] ++ back)) :=
            List.perm_middle
          rwa [List.append_assoc, List.append_assoc] at hmiddle
        refine ⟨next :: (front ++ cur :: back), hperm.symm, ?_,
          Relinked.trans (Linked.relinked_setNext _ _ _) (Linked.relinked_setNext _ _ _)⟩
        refine .cons (a := ⟨b.val, q.head⟩) ?_ (Linked.seg_append.2 ⟨some cur, ?_, ?_⟩)
        · rw [Linked.get_setNext_self (a := b)]
          rwa [Linked.get_setNext_of_ne (Ne.symm hne)]
        · exact (hfront.setNext (hnot cur (.inl rfl))).setNext (hnot next (.inr rfl))
        · refine .cons (a := ⟨a.val, b.next⟩) ?_ ((Seg.setNext hback hcur).setNext hnext)
          rw [Linked.get_setNext_of_ne hne, Linked.get_setNext_self ha]

/-! ## The nodes, whatever the queue is -/

variable {o : Option Ptr}

theorem addToTail_relinked (h : q.addToTail p = some q') : Relinked q.nodes q'.nodes := by
  unfold ReadyQueue.addToTail at h
  obtain ⟨a, -, h⟩ := Option.bind_eq_some_iff.1 h
  split at h
  · cases h
    exact Linked.relinked_setNext _ _ _
  · simp only [Option.bind_eq_bind, Option.bind_eq_some_iff] at h
    obtain ⟨_, -, cur, -, h⟩ := h
    cases h
    exact Relinked.trans (Linked.relinked_setNext _ _ _) (Linked.relinked_setNext _ _ _)

theorem addToHead_relinked (h : q.addToHead p = some q') : Relinked q.nodes q'.nodes := by
  obtain ⟨a, -, h⟩ := Option.bind_eq_some_iff.1 h
  cases h
  exact Linked.relinked_setNext _ _ _

theorem popHead_nodes (h : q.popHead = some (o, q')) : q'.nodes = q.nodes := by
  unfold ReadyQueue.popHead at h
  split at h
  · cases h
    rfl
  · obtain ⟨a, -, h⟩ := Option.bind_eq_some_iff.1 h
    cases h
    rfl

theorem swapWithNext_relinked (h : q.swapWithNext t = some q') : Relinked q.nodes q'.nodes := by
  have hthree (nodes : Heap QueueNode) (p₁ p₂ p₃ : Ptr) (o₁ o₂ o₃ : Option Ptr) :
      Relinked nodes (setNext (setNext (setNext nodes p₁ o₁) p₂ o₂) p₃ o₃) :=
    ((Linked.relinked_setNext _ _ _).trans (Linked.relinked_setNext _ _ _)).trans
      (Linked.relinked_setNext _ _ _)
  unfold ReadyQueue.swapWithNext at h
  simp only [Option.bind_eq_bind, Option.pure_def, Option.bind_some] at h
  split at h
  · simp only [Option.bind_eq_some_iff] at h
    obtain ⟨a, -, next, -, b, -, found, -, h⟩ := h
    have h₁ : Relinked q.nodes (setNext (setNext q.nodes t b.next) next (some t)) :=
      Relinked.trans (Linked.relinked_setNext _ _ _) (Linked.relinked_setNext _ _ _)
    split at h
    · cases h
      exact h₁
    · simp only [Option.bind_eq_some_iff] at h
      obtain ⟨a', -, next', -, b', -, h⟩ := h
      cases h
      exact h₁.trans (hthree _ _ _ _ _ _ _)
  · simp only [Option.bind_eq_some_iff] at h
    obtain ⟨found, -, h⟩ := h
    split at h
    · cases h
      exact .refl _
    · simp only [Option.bind_eq_some_iff] at h
      obtain ⟨a', -, next', -, b', -, h⟩ := h
      cases h
      exact hthree _ _ _ _ _ _ _

theorem sortPass_relinked {n : Nat} {cur cur' : Ptr} {sorted sorted' : Bool}
    (h : sortPass pcbs n cur sorted q = some (cur', sorted', q')) : Relinked q.nodes q'.nodes := by
  induction n generalizing cur sorted q with
  | zero => cases h
  | succ n ih =>
    unfold ReadyQueue.sortPass at h
    obtain ⟨a, -, h⟩ := Option.bind_eq_some_iff.1 h
    split at h
    · cases h
      exact .refl _
    · obtain ⟨needed, -, h⟩ := Option.bind_eq_some_iff.1 h
      split at h
      · obtain ⟨q₁, hswap, h⟩ := Option.bind_eq_some_iff.1 h
        exact (swapWithNext_relinked hswap).trans (ih h)
      · exact ih h

theorem sortLoop_relinked {n : Nat} {cur : Ptr} (h : sortLoop pcbs n cur q = some q') :
    Relinked q.nodes q'.nodes := by
  induction n generalizing cur q with
  | zero => cases h
  | succ n ih =>
    unfold ReadyQueue.sortLoop at h
    obtain ⟨⟨cur', sorted, q₁⟩, hpass, h⟩ := Option.bind_eq_some_iff.1 h
    have h₁ := sortPass_relinked hpass
    dsimp only at h
    split at h
    · cases h
      exact h₁
    · exact h₁.trans (ih h)

theorem sortReadyQueue_relinked (h : q.sortReadyQueue pcbs = some q') : Relinked q.nodes q'.nodes := by
  unfold ReadyQueue.sortReadyQueue at h
  split at h
  · cases h
    exact .refl _
  · exact sortLoop_relinked h

theorem promote_relinked {score : Int} (h : q.promote pcbs score = some q') :
    Relinked q.nodes q'.nodes := by
  unfold ReadyQueue.promote at h
  simp only [Option.bind_eq_bind, Option.bind_eq_some_iff] at h
  obtain ⟨head, -, first, -, h⟩ := h
  split at h
  · cases h
    exact .refl _
  · simp only [Option.bind_eq_some_iff] at h
    obtain ⟨_, -, cur, -, a, -, h⟩ := h
    split at h
    · cases h
      exact .refl _
    · obtain ⟨b, -, h⟩ := Option.bind_eq_some_iff.1 h
      cases h
      exact Relinked.trans (Linked.relinked_setNext _ _ _) (Linked.relinked_setNext _ _ _)

end ReadyQueue

end MyShell.Backing

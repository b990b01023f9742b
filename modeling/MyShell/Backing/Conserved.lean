/-
No scheduler loses a process, but for `scheduler_SJF`, which does not look at
what `execute_process` answers: a process that has to wait for a page is left
out of the queue there, and never runs again.
-/
import MyShell.Backing.Commands

namespace MyShell.Backing

open Linked (Chain Relinked)

/-! ## Where the nodes are -/

namespace ReadyQueue

/-- Every allocated node is in the queue or among `out`, and in one place only. -/
structure Accounts (q : ReadyQueue) (out ps : List Ptr) : Prop where
  queued : Queued q ps
  nodup : (out ++ ps).Nodup
  nodes : ∀ p, (q.nodes.get p).isSome ↔ p ∈ out ++ ps

variable {pcbs : Heap PCB} {q q' : ReadyQueue} {out ps ps' : List Ptr} {p : Ptr}

theorem Queued.accounts (h : Queued q ps) : ∃ out, Accounts q out ps ∧ ∀ p ∈ out, p ∉ ps := by
  let out := ((q.nodes.cells.map Prod.fst).filter fun p => p ∉ ps)
  have hout (p : Ptr) : p ∈ out ↔ (q.nodes.get p).isSome ∧ p ∉ ps := by
    simp only [out, List.mem_filter, decide_eq_true_eq]
    refine and_congr_left' ?_
    constructor
    · intro hp
      obtain ⟨⟨p', a⟩, hm, rfl⟩ := List.mem_map.1 hp
      exact Option.isSome_iff_exists.2 ⟨a, Heap.get_of_mem hm⟩
    · intro hp
      obtain ⟨a, ha⟩ := Option.isSome_iff_exists.1 hp
      exact List.mem_map.2 ⟨(p, a), Heap.mem_of_get ha, rfl⟩
  refine ⟨out, ⟨h, ?_, fun p => ?_⟩, fun p hp => ((hout p).1 hp).2⟩
  · rw [List.nodup_append]
    refine ⟨(q.nodes.nodup.filter _), h.nodup, fun p hp p' hp' heq => ((hout p).1 hp).2 (heq ▸ hp')⟩
  · rw [List.mem_append, hout]
    constructor
    · intro hp
      by_cases hmem : p ∈ ps
      · exact .inr hmem
      · exact .inl ⟨hp, hmem⟩
    · rintro (hp | hp)
      · exact hp.1
      · obtain ⟨a, ha⟩ := Linked.Seg.get_of_mem h hp
        rw [ha, Option.isSome_some]

namespace Accounts

theorem get (h : Accounts q out ps) (hp : p ∈ out ++ ps) : ∃ a, q.nodes.get p = some a :=
  Option.isSome_iff_exists.1 ((h.nodes p).2 hp)

/-- The same nodes, in a queue with the same members. -/
theorem relink (h : Accounts q out ps) {out' : List Ptr} (hq : Queued q' ps')
    (hr : Relinked q.nodes q'.nodes) (hperm : (out' ++ ps').Perm (out ++ ps)) :
    Accounts q' out' ps' where
  queued := hq
  nodup := hperm.nodup_iff.2 h.nodup
  nodes p := by rw [hr.isSome, h.nodes, hperm.mem_iff]

theorem popHead (h : Accounts q out (p :: ps)) :
    ∃ q', q.popHead = some (some p, q') ∧ Accounts q' (p :: out) ps := by
  obtain ⟨q', hpop, hq, hnodes⟩ := h.queued.popHead
  exact ⟨q', hpop, h.relink hq (hnodes ▸ .refl _) List.perm_middle.symm⟩

theorem addToTail (h : Accounts q (p :: out) ps) :
    ∃ q', q.addToTail p = some q' ∧ Accounts q' out (ps ++ [p]) := by
  obtain ⟨a, ha⟩ := h.get (p := p) (by simp)
  have hp : p ∉ ps := fun hp => (List.nodup_cons.1 h.nodup).1 (List.mem_append_right _ hp)
  obtain ⟨q', hadd, hq, hr⟩ := h.queued.addToTail hp ha
  refine ⟨q', hadd, h.relink hq hr ?_⟩
  rw [← List.append_assoc]
  exact (List.perm_append_singleton p (out ++ ps))

theorem addToHead (h : Accounts q (p :: out) ps) :
    ∃ q', q.addToHead p = some q' ∧ Accounts q' out (p :: ps) := by
  obtain ⟨a, ha⟩ := h.get (p := p) (by simp)
  have hp : p ∉ ps := fun hp => (List.nodup_cons.1 h.nodup).1 (List.mem_append_right _ hp)
  obtain ⟨q', hadd, hq, hr⟩ := h.queued.addToHead hp ha
  exact ⟨q', hadd, h.relink hq hr List.perm_middle⟩

theorem terminateProcess (h : Accounts q (p :: out) ps) :
    ∃ q', q.terminateProcess p = some q' ∧ Accounts q' out ps ∧ q'.nodes.get p = none := by
  obtain ⟨a, ha⟩ := h.get (p := p) (by simp)
  have hnodup := List.nodup_cons.1 h.nodup
  have hp : p ∉ ps := fun hp => hnodup.1 (List.mem_append_right _ hp)
  unfold ReadyQueue.terminateProcess
  rw [ha]
  have hself : (q.nodes.free p).get p = none := by rw [Heap.get_free, if_pos rfl]
  refine ⟨_, rfl, ⟨?_, hnodup.2, fun r => ?_⟩, hself⟩
  · refine Linked.Seg.congr h.queued fun r hr b hb => ⟨b, ?_, rfl⟩
    rwa [Heap.get_free, if_neg (ne_of_mem_of_not_mem hr hp)]
  · by_cases heq : r = p
    · subst heq
      rw [hself]
      exact iff_of_false (by simp) hnodup.1
    · rw [Heap.get_free, if_neg heq, h.nodes]
      simp [heq]

theorem reorder (h : Accounts q out ps) (hr : Reordered q ps q') :
    ∃ ps', ps'.Perm ps ∧ Accounts q' out ps' := by
  obtain ⟨ps', hperm, hq, hr⟩ := hr
  exact ⟨ps', hperm, h.relink hq hr (hperm.append_left _)⟩

/-- A new node, added to the tail. -/
theorem alloc {c : Ptr} (h : Accounts q out ps)
    (hadd : ReadyQueue.addToTail q.nodes.next { q with nodes := q.nodes.alloc ⟨c, none⟩ } = some q') :
    Accounts q' out (ps ++ [q.nodes.next]) := by
  have hnone : q.nodes.next ∉ out ++ ps := fun hmem => by
    have := (h.nodes _).2 hmem
    rw [Heap.get_next] at this
    cases this
  suffices hnew : Accounts { q with nodes := q.nodes.alloc ⟨c, none⟩ } (q.nodes.next :: out) ps by
    obtain ⟨queue, hadd', hacc⟩ := hnew.addToTail
    obtain rfl := Option.some.inj (hadd.symm.trans hadd')
    exact hacc
  refine ⟨?_, List.nodup_cons.2 ⟨hnone, h.nodup⟩, fun r => ?_⟩
  · refine Linked.Seg.congr h.queued fun r hr b hb => ⟨b, ?_, rfl⟩
    rwa [Heap.get_alloc, if_neg (ne_of_mem_of_not_mem (List.mem_append_right _ hr) hnone)]
  · rw [Heap.get_alloc, List.cons_append, List.mem_cons, ← h.nodes]
    by_cases heq : r = q.nodes.next
    · simp [heq]
    · simp [heq]

end Accounts

end ReadyQueue

open ReadyQueue (Accounts Queued)

/-! ## Lines of a script -/

variable {σ : Type} {ho : Host σ} {k k' k'' : Kernel σ}

/-- What a line of a script does to the queue: it may add new processes at the tail. -/
structure Grows (k k' : Kernel σ) : Prop where
  background : k'.inBackground = k.inBackground
  queue : ∀ {out ps}, Accounts k.queue out ps → ∃ new, Accounts k'.queue out (ps ++ new)

theorem Grows.of_eq (hq : k'.queue = k.queue) (hb : k'.inBackground = k.inBackground) : Grows k k' :=
  ⟨hb, fun h => ⟨[], by rwa [hq, List.append_nil]⟩⟩

theorem Grows.refl (k : Kernel σ) : Grows k k := .of_eq rfl rfl

theorem Grows.trans (h1 : Grows k k') (h2 : Grows k' k'') : Grows k k'' where
  background := h2.background.trans h1.background
  queue h := by
    obtain ⟨new, h⟩ := h1.queue h
    obtain ⟨new', h⟩ := h2.queue h
    exact ⟨new ++ new', by rwa [List.append_assoc] at h⟩

theorem Act.grows (h : Act ho k k') : Grows k k' := by
  cases h with
  | load h =>
    obtain ⟨-, rfl, -⟩ | ⟨_, _, _, _, _, _, -, -, -, -,
        ⟨-, -, rfl⟩ | ⟨-, -, queue, hadd, rfl⟩⟩ :=
      processInitialize_cases h
    · exact .refl _
    · exact .of_eq rfl rfl
    · exact ⟨rfl, fun hacc => ⟨_, hacc.alloc hadd⟩⟩
  | set | get | reset | policy | system | chdir => exact .of_eq rfl rfl

/-- A line that is run while a scheduler runs. -/
theorem parseInput_grows {n : Nat} {line : Paging.Text} {r : Int} (hback : k.inBackground = true)
    (h : parseInput ho n line k = some (r, k')) : Grows k k' := by
  have hacts := parseInput_acts hback h
  clear h
  induction hacts with
  | refl => exact .refl k
  | tail _ hact ih => exact ih.trans hact.grows

/-! ## A turn -/

theorem loadFrame_error {threshold : Nat} {content : Paging.Text} {pcb pcb' : PCB} {m m' : Store}
    {r : Int} (h : loadFrame threshold (some content) pcb m = some (r, pcb', m')) :
    r = -2 ↔ skipLines (pcb.pageCounter * 3) ⟨content, false⟩ = none := by
  unfold loadFrame at h
  simp only [Option.bind_eq_bind, Option.bind_some] at h
  cases hskip : skipLines (pcb.pageCounter * 3) ⟨content, false⟩ with
  | none =>
    rw [hskip] at h
    cases h
    exact iff_of_true rfl rfl
  | some file =>
    rw [hskip] at h
    refine iff_of_false ?_ (by simp)
    rintro rfl
    obtain ⟨slot, -, h⟩ := Option.bind_eq_some_iff.1 h
    cases slot with
    | none => cases h
    | some i =>
      simp only [Option.bind_eq_some_iff] at h
      obtain ⟨s, -, pcb₁, -, h⟩ := h
      cases h

/-- A page fault leaves the queue alone; its answer is -2 where the file has no more lines. -/
theorem pageFault_spec {c : Ptr} {r : Int} (h : pageFault ho c k = some (r, k')) :
    k'.queue = k.queue ∧ ∃ pcb content, k.pcbs.get c = some pcb ∧ ho.fopen pcb.filename k.host =
    some content ∧
      (r = -2 ↔ skipLines (pcb.pageCounter * 3) ⟨content, false⟩ = none) := by
  obtain ⟨pcb, content, _, _, _, _, hpcb, hopen, hload, rfl, -⟩ := pageFault_cases h
  exact ⟨rfl, pcb, content, hpcb, hopen, loadFrame_error hload⟩

theorem fetch_spec {c : Ptr} {line : Paging.Text} (h : fetch c k = some (line, k')) :
    k'.queue = k.queue ∧ k'.inBackground = true := by
  obtain ⟨_, _, -, -, rfl⟩ := fetch_cases h
  exact ⟨rfl, rfl⟩

theorem runLine_grows {n : Nat} {c : Ptr} {line : Paging.Text} {out ps : List Ptr}
    (hback : k.inBackground = true) (h : runLine (parseInput ho n) c line k = some k')
    (hacc : Accounts k.queue out ps) : ∃ new, Accounts k'.queue out (ps ++ new) := by
  unfold runLine at h
  simp only [Option.bind_eq_bind, Option.bind_eq_some_iff] at h
  obtain ⟨pcb, -, ⟨r, k₁⟩, hparse, _, -, h⟩ := h
  have hgrows := parseInput_grows (k := { k with passed := k.passed ++ [(pcb.pid, line)] }) hback hparse
  cases h
  exact hgrows.queue hacc

theorem finish_spec {p : Ptr} {out ps : List Ptr} (h : finish p k = some k')
    (hacc : Accounts k.queue (p :: out) ps) :
    Accounts k'.queue out ps ∧ k'.queue.nodes.get p = none := by
  obtain ⟨q, hq, rfl⟩ := finish_cases h
  obtain ⟨q', hq', hacc', hnone⟩ := hacc.terminateProcess
  obtain rfl := Option.some.inj (hq.symm.trans hq')
  exact ⟨hacc', hnone⟩

/-- A process that is executed is terminated where that is the answer, and
kept out of the queue where it is not. -/
theorem executeLoop_accounts {n quanta : Nat} {p c : Ptr} {done : Bool} {out ps : List Ptr}
    (h : executeLoop ho (parseInput ho n) p c quanta k = some (done, k'))
    (hacc : Accounts k.queue (p :: out) ps) :
    ∃ new, if done then Accounts k'.queue out (ps ++ new) ∧ k'.queue.nodes.get p = none
      else Accounts k'.queue (p :: out) (ps ++ new) := by
  induction quanta generalizing k ps with
  | zero =>
    cases h
    exact ⟨[], by rwa [List.append_nil]⟩
  | succ quanta ih =>
    unfold executeLoop at h
    obtain ⟨pcb, -, h⟩ := Option.bind_eq_some_iff.1 h
    split at h
    · obtain ⟨⟨r, k₁⟩, hfault, h⟩ := Option.bind_eq_some_iff.1 h
      rw [← (pageFault_spec hfault).1] at hacc
      dsimp only at h
      split at h
      · obtain ⟨k₂, hfinish, h⟩ := Option.bind_eq_some_iff.1 h
        cases h
        exact ⟨[], by rw [List.append_nil, if_pos rfl]; exact finish_spec hfinish hacc⟩
      · cases h
        exact ⟨[], by rw [List.append_nil, if_neg Bool.false_ne_true]; exact hacc⟩
    · obtain ⟨⟨line, k₁⟩, hfetch, h⟩ := Option.bind_eq_some_iff.1 h
      obtain ⟨hqueue, hback⟩ := fetch_spec hfetch
      rw [← hqueue] at hacc
      dsimp only at h
      split at h
      · obtain ⟨k₂, hfinish, h⟩ := Option.bind_eq_some_iff.1 h
        cases h
        exact ⟨[], by rw [List.append_nil, if_pos rfl]; exact finish_spec hfinish hacc⟩
      · obtain ⟨k₂, hrun, h⟩ := Option.bind_eq_some_iff.1 h
        obtain ⟨new, hacc⟩ := runLine_grows hback hrun hacc
        obtain ⟨new', h'⟩ := ih h hacc
        exact ⟨new ++ new', by rwa [← List.append_assoc]⟩

/-- The program of process `c` comes to its end within so many lines, and before
it has to wait for a page. -/
inductive Ends (ho : Host σ) (parse : Parse σ) (c : Ptr) : Nat → Kernel σ → Prop
  /-- It needs a page, and the file has no more lines. -/
  | noPage {quanta : Nat} {k : Kernel σ} {pcb : PCB} {content : Paging.Text} : k.pcbs.get c = some pcb →
      pcb.pageCounter < pcb.currentPage → ho.fopen pcb.filename k.host = some content →
      skipLines (pcb.pageCounter * 3) ⟨content, false⟩ = none → Ends ho parse c (quanta + 1) k
  /-- The line it reads is free. -/
  | noLine {quanta : Nat} {k k₁ : Kernel σ} {pcb : PCB} : k.pcbs.get c = some pcb →
      pcb.currentPage ≤ pcb.pageCounter → fetch c k = some ("none".toList, k₁) →
      Ends ho parse c (quanta + 1) k
  | line {quanta : Nat} {k k₁ k₂ : Kernel σ} {pcb : PCB} {text : Paging.Text} :
      k.pcbs.get c = some pcb →
      pcb.currentPage ≤ pcb.pageCounter → fetch c k = some (text, k₁) → text ≠ "none".toList →
      runLine parse c text k₁ = some k₂ → Ends ho parse c quanta k₂ → Ends ho parse c (quanta + 1) k

/-- `execute_process` answers true exactly for a process that comes to its end. -/
theorem executeLoop_ends {parse : Parse σ} {quanta : Nat} {p c : Ptr} {done : Bool}
    (h : executeLoop ho parse p c quanta k = some (done, k')) :
    done = true ↔ Ends ho parse c quanta k := by
  induction quanta generalizing k with
  | zero =>
    cases h
    exact iff_of_false Bool.false_ne_true fun hends => by cases hends
  | succ quanta ih =>
    unfold executeLoop at h
    obtain ⟨pcb, hpcb, h⟩ := Option.bind_eq_some_iff.1 h
    split at h
    · next hmissing =>
      obtain ⟨⟨r, k₁⟩, hfault, h⟩ := Option.bind_eq_some_iff.1 h
      obtain ⟨-, pcb', content, hpcb', hopen, hr⟩ := pageFault_spec hfault
      obtain rfl := Option.some.inj (hpcb.symm.trans hpcb')
      have hskip : Ends ho parse c (quanta + 1) k ↔
          skipLines (pcb.pageCounter * 3) ⟨content, false⟩ = none := by
        constructor
        · intro hends
          cases hends with
          | noPage hpcb' _ hopen' hskip =>
            obtain rfl := Option.some.inj (hpcb.symm.trans hpcb')
            obtain rfl := Option.some.inj (hopen.symm.trans hopen')
            exact hskip
          | noLine hpcb' hle | line hpcb' hle =>
            obtain rfl := Option.some.inj (hpcb.symm.trans hpcb')
            omega
        · exact .noPage hpcb hmissing hopen
      rw [hskip, ← hr]
      dsimp only at h
      split at h
      · next hneg =>
        obtain ⟨k₂, -, h⟩ := Option.bind_eq_some_iff.1 h
        cases h
        exact iff_of_true rfl hneg
      · next hneg =>
        cases h
        exact iff_of_false Bool.false_ne_true hneg
    · next hpage =>
      have hle : pcb.currentPage ≤ pcb.pageCounter := Nat.le_of_not_lt hpage
      obtain ⟨⟨text, k₁⟩, hfetch, h⟩ := Option.bind_eq_some_iff.1 h
      dsimp only at h
      split at h
      · next hnone =>
        obtain ⟨k₂, -, h⟩ := Option.bind_eq_some_iff.1 h
        cases h
        exact iff_of_true rfl (.noLine hpcb hle (hnone ▸ hfetch))
      · next hsome =>
        obtain ⟨k₂, hrun, h⟩ := Option.bind_eq_some_iff.1 h
        rw [ih h]
        constructor
        · exact .line hpcb hle hfetch hsome hrun
        · intro hends
          cases hends with
          | noPage hpcb' hlt =>
            obtain rfl := Option.some.inj (hpcb.symm.trans hpcb')
            omega
          | noLine _ _ hfetch' =>
            obtain ⟨rfl, -⟩ := Prod.mk.inj (Option.some.inj (hfetch.symm.trans hfetch'))
            exact absurd rfl hsome
          | line _ _ hfetch' _ hrun' hends =>
            obtain ⟨rfl, rfl⟩ := Prod.mk.inj (Option.some.inj (hfetch.symm.trans hfetch'))
            obtain rfl := Option.some.inj (hrun.symm.trans hrun')
            exact hends

/-! ## Rounds -/

theorem pickHead_accounts {cur : Ptr} {out ps : List Ptr} (h : pickHead k = some (cur, k'))
    (hacc : Accounts k.queue out ps) :
    ∃ ps', (cur :: ps').Perm ps ∧ Accounts k'.queue (cur :: out) ps' := by
  unfold pickHead at h
  simp only [Option.bind_eq_bind, Option.bind_eq_some_iff] at h
  obtain ⟨⟨top, queue⟩, hpop, cur', htop, h⟩ := h
  cases ps with
  | nil =>
    obtain ⟨q', hpop', -⟩ := hacc.queued.popHead
    obtain ⟨rfl, -⟩ := Prod.mk.inj (Option.some.inj (hpop.symm.trans hpop'))
    cases htop
  | cons p ps =>
    obtain ⟨q', hpop', hacc'⟩ := hacc.popHead
    obtain ⟨rfl, rfl⟩ := Prod.mk.inj (Option.some.inj (hpop.symm.trans hpop'))
    cases htop
    cases h
    exact ⟨ps, .refl _, hacc'⟩

theorem pickShortest_accounts {cur : Ptr} {out ps : List Ptr} (h : pickShortest k = some (cur, k'))
    (hacc : Accounts k.queue out ps) :
    ∃ ps', (cur :: ps').Perm ps ∧ Accounts k'.queue (cur :: out) ps' := by
  unfold pickShortest ReadyQueue.popShortestJob at h
  simp only [Option.bind_eq_bind, Option.bind_eq_some_iff] at h
  obtain ⟨⟨top, queue⟩, ⟨sorted, hsort, hpop⟩, cur', htop, h⟩ := h
  obtain ⟨ps₁, hperm₁, hacc₁⟩ := hacc.reorder (hacc.queued.sortReadyQueue hsort)
  have hpick : pickHead { k with queue := sorted } = some (cur, k') := by
    unfold pickHead
    simp only [Option.bind_eq_bind, Option.bind_eq_some_iff]
    exact ⟨(top, queue), hpop, cur', htop, h⟩
  obtain ⟨ps', hperm, hacc'⟩ := pickHead_accounts hpick hacc₁
  exact ⟨ps', hperm.trans hperm₁, hacc'⟩

theorem pickAging_accounts {cur : Ptr} {out ps : List Ptr} (h : pickAging k = some (cur, k'))
    (hacc : Accounts k.queue out ps) :
    ∃ ps', (cur :: ps').Perm ps ∧ Accounts k'.queue (cur :: out) ps' := by
  unfold pickAging at h
  simp only [Option.bind_eq_bind, Option.bind_eq_some_iff] at h
  obtain ⟨⟨cur₁, k₁⟩, hpick, shortest, -, node, -, pcb, -, h⟩ := h
  obtain ⟨ps₁, hperm₁, hacc₁⟩ := pickHead_accounts hpick hacc
  split at h
  · simp only [Option.bind_eq_some_iff] at h
    obtain ⟨promoted, hpromote, queue, hadd, ⟨cur₂, k₂⟩, hchosen, pcbs, -, h⟩ := h
    cases h
    obtain ⟨ps₂, hperm₂, hacc₂⟩ := hacc₁.reorder (hacc₁.queued.promote hpromote)
    obtain ⟨queue', hadd', hacc₃⟩ := hacc₂.addToTail
    obtain rfl := Option.some.inj (hadd.symm.trans hadd')
    obtain ⟨ps', hperm, hacc'⟩ := pickHead_accounts hchosen hacc₃
    refine ⟨ps', hperm.trans ?_, hacc'⟩
    exact (List.perm_append_singleton _ _).trans ((hperm₂.cons _).trans hperm₁)
  · simp only [Option.pure_def, Option.bind_some, Option.bind_eq_some_iff] at h
    obtain ⟨pcbs, -, h⟩ := h
    cases h
    exact ⟨ps₁, hperm₁, hacc₁⟩

/-- The process that a scheduler takes from the queue. -/
def Policy.pick : Policy → Kernel σ → Option (Ptr × Kernel σ)
  | .sjf => pickShortest
  | .aging => pickAging
  | .fcfs | .rr | .rr30 => pickHead

def Policy.quanta : Policy → Nat
  | .fcfs | .sjf => ReadyQueue.maxInt
  | .rr => 2
  | .aging => 1
  | .rr30 => 30

theorem Policy.pick_accounts {policy : Policy} {cur : Ptr} {out ps : List Ptr}
    (h : policy.pick k = some (cur, k')) (hacc : Accounts k.queue out ps) :
    ∃ ps', (cur :: ps').Perm ps ∧ Accounts k'.queue (cur :: out) ps' := by
  cases policy with
  | sjf => exact pickShortest_accounts h hacc
  | aging => exact pickAging_accounts h hacc
  | fcfs | rr | rr30 => exact pickHead_accounts h hacc

/-- A process goes back into the queue. -/
def Policy.back : Policy → Ptr → ReadyQueue → Option ReadyQueue
  | .aging => ReadyQueue.addToHead
  | _ => ReadyQueue.addToTail

/-- A round takes a process from the queue and executes it. What SJF does not do is to look
at the answer. -/
theorem Policy.round_eq (parse : Parse σ) (policy : Policy) (k : Kernel σ) :
    policy.round ho parse k = (do
    let (cur, k₁) ← policy.pick k
    let (done, k₂) ← executeProcess ho parse cur policy.quanta k₁
    if done ∨ policy = .sjf then pure k₂ else
    pure { k₂ with queue := ← policy.back cur k₂.queue }) := by
  cases policy with
  | sjf =>
    simp only [Policy.round, roundSJF, or_true, if_true]
    rfl
  | fcfs | rr | rr30 | aging =>
    simp only [Policy.round, roundRR, roundAging, turn, reduceCtorEq, or_false]
    rfl

theorem Policy.back_accounts {policy : Policy} {q queue : ReadyQueue} {p : Ptr} {out ps : List Ptr}
    (h : policy.back p q = some queue) (hacc : Accounts q (p :: out) ps) :
    ∃ ps', p ∈ ps' ∧ Accounts queue out ps' := by
  cases policy with
  | aging =>
    obtain ⟨q', hadd, hacc'⟩ := hacc.addToHead
    obtain rfl := Option.some.inj (hadd.symm.trans h)
    exact ⟨_, List.mem_cons_self, hacc'⟩
  | fcfs | sjf | rr | rr30 =>
    obtain ⟨q', hadd, hacc'⟩ := hacc.addToTail
    obtain rfl := Option.some.inj (hadd.symm.trans h)
    exact ⟨_, by simp, hacc'⟩

/-- A round of a run: the node that is popped, the state in which its process is
executed, and the state after the round. -/
structure Round (σ : Type) where
  node : Ptr
  before : Kernel σ
  after : Kernel σ

namespace Round

/-- The process was terminated, or is in the queue exactly once. -/
def Settled (r : Round σ) : Prop :=
  r.after.queue.nodes.get r.node = none ∨ ∃ ps, Queued r.after.queue ps ∧ ps.count r.node = 1

/-- The process comes to its end without having to wait. -/
def Ends (ho : Host σ) (parse : Parse σ) (r : Round σ) : Prop :=
  ∀ node, r.before.queue.nodes.get r.node = some node →
    MyShell.Backing.Ends ho parse node.val ReadyQueue.maxInt r.before

end Round

/-- Rounds of a scheduler from one state to another. -/
inductive Rounds (ho : Host σ) (parse : Parse σ) (policy : Policy) : Kernel σ → List (Round σ) →
    Kernel σ → Prop
  | nil (k : Kernel σ) : Rounds ho parse policy k [] k
  | cons {k k₁ k₂ k' : Kernel σ} {cur : Ptr} {rs : List (Round σ)} : policy.pick k = some (cur, k₁) →
      policy.round ho parse k = some k₂ → Rounds ho parse policy k₂ rs k' →
      Rounds ho parse policy k (⟨cur, k₁, k₂⟩ :: rs) k'

/-- A round settles its process where it looks at the answer, or the answer is true. -/
theorem round_settled {n : Nat} {policy : Policy} {cur : Ptr} {k₁ k₂ : Kernel σ} {out ps : List Ptr}
    (hpick : policy.pick k = some (cur, k₁)) (hround : policy.round ho (parseInput ho n) k = some k₂)
    (hacc : Accounts k.queue out ps) (hends : policy = .sjf →
      Round.Ends ho (parseInput ho n) ⟨cur, k₁, k₂⟩) :
    Round.Settled ⟨cur, k₁, k₂⟩ ∧ ∃ ps', Accounts k₂.queue out ps' := by
  obtain ⟨ps₁, -, hacc₁⟩ := Policy.pick_accounts hpick hacc
  rw [Policy.round_eq, hpick] at hround
  simp only [Option.bind_eq_bind, Option.bind_some, Option.bind_eq_some_iff] at hround
  obtain ⟨⟨done, k₃⟩, hexec, hround⟩ := hround
  unfold executeProcess at hexec
  obtain ⟨node, hnode, hexec⟩ := Option.bind_eq_some_iff.1 hexec
  obtain ⟨new, hacc₃⟩ := executeLoop_accounts hexec hacc₁
  cases done with
  | true =>
    simp only [true_or, if_true] at hround
    cases hround
    rw [if_pos rfl] at hacc₃
    exact ⟨.inl hacc₃.2, _, hacc₃.1⟩
  | false =>
    by_cases hpolicy : policy = .sjf
    · subst hpolicy
      have := (executeLoop_ends hexec).2 (hends rfl node hnode)
      cases this
    · simp only [Bool.false_eq_true, hpolicy, or_self, if_false, Option.bind_eq_some_iff] at hround
      obtain ⟨queue, hback, hround⟩ := hround
      cases hround
      rw [if_neg Bool.false_ne_true] at hacc₃
      obtain ⟨ps', hmem, hacc'⟩ := Policy.back_accounts hback hacc₃
      exact ⟨.inr ⟨ps', hacc'.queued, List.count_eq_one_of_mem hacc'.queued.nodup hmem⟩, ps', hacc'⟩

/-- SJF leaves out a process that does not come to its end. -/
theorem round_lost {n : Nat} {cur : Ptr} {k₁ k₂ : Kernel σ} {out ps : List Ptr}
    (hpick : Policy.sjf.pick k = some (cur, k₁)) (hround : Policy.sjf.round ho (parseInput ho n) k =
      some k₂)
    (hacc : Accounts k.queue out ps) (hends : ¬ Round.Ends ho (parseInput ho n) ⟨cur, k₁, k₂⟩) :
    ¬ Round.Settled ⟨cur, k₁, k₂⟩ ∧ ∃ ps', Accounts k₂.queue (cur :: out) ps' := by
  obtain ⟨ps₁, -, hacc₁⟩ := Policy.pick_accounts hpick hacc
  rw [Policy.round_eq, hpick] at hround
  simp only [Option.bind_eq_bind, Option.bind_some, Option.bind_eq_some_iff, or_true, if_true] at hround
  obtain ⟨⟨done, k₃⟩, hexec, hround⟩ := hround
  cases hround
  unfold executeProcess at hexec
  obtain ⟨node, hnode, hexec⟩ := Option.bind_eq_some_iff.1 hexec
  obtain ⟨new, hacc₃⟩ := executeLoop_accounts hexec hacc₁
  cases done with
  | true =>
    refine absurd (fun node' hnode' => ?_) hends
    obtain rfl := Option.some.inj (hnode.symm.trans hnode')
    exact (executeLoop_ends hexec).1 rfl
  | false =>
    rw [if_neg Bool.false_ne_true] at hacc₃
    refine ⟨?_, _, hacc₃⟩
    rintro (hnone | ⟨qs, hqs, hcount⟩)
    · obtain ⟨a, ha⟩ := hacc₃.get (p := cur) (by simp)
      rw [hnone] at ha
      cases ha
    · obtain rfl := Linked.Chain.unique hqs hacc₃.queued
      have hmem : cur ∈ ps₁ ++ new := List.count_pos_iff.1 (Nat.lt_of_lt_of_eq Nat.one_pos hcount.symm)
      exact (List.nodup_cons.1 hacc₃.nodup).1 (List.mem_append_right _ hmem)

/-! ## Runs -/

theorem Policy.enter_accounts {policy : Policy} {out ps : List Ptr} (h : policy.enter k = some k')
    (hacc : Accounts k.queue out ps) : ∃ ps', ps'.Perm ps ∧ Accounts k'.queue out ps' := by
  cases policy with
  | aging =>
    obtain ⟨queue, hsort, h⟩ := Option.bind_eq_some_iff.1 h
    cases h
    exact hacc.reorder (hacc.queued.sortReadyQueue hsort)
  | fcfs | sjf | rr | rr30 =>
    cases h
    exact ⟨ps, .refl _, hacc⟩

theorem Rounds.settled {n : Nat} {policy : Policy} {rs : List (Round σ)} {out ps : List Ptr}
    (h : Rounds ho (parseInput ho n) policy k rs k') (hacc : Accounts k.queue out ps)
    (hends : policy = .sjf → ∀ r ∈ rs, r.Ends ho (parseInput ho n)) :
    (∀ r ∈ rs, r.Settled) ∧ ∃ ps', Accounts k'.queue out ps' := by
  induction h generalizing ps with
  | nil => exact ⟨fun r hr => (by cases hr), ps, hacc⟩
  | cons hpick hround _ ih =>
    obtain ⟨hsettled, ps₁, hacc₁⟩ :=
      round_settled hpick hround hacc fun hp => hends hp _ List.mem_cons_self
    obtain ⟨hrest, hfinal⟩ := ih hacc₁ fun hp r hr => hends hp r (List.mem_cons_of_mem _ hr)
    exact ⟨List.forall_mem_cons.2 ⟨hsettled, hrest⟩, hfinal⟩

theorem Rounds.ends {n : Nat} {rs : List (Round σ)} {out ps : List Ptr}
    (h : Rounds ho (parseInput ho n) .sjf k rs k') (hacc : Accounts k.queue out ps)
    (hsettled : ∀ r ∈ rs, r.Settled) : ∀ r ∈ rs, r.Ends ho (parseInput ho n) := by
  induction h generalizing out ps with
  | nil => exact fun r hr => (by cases hr)
  | @cons k k₁ k₂ k' cur rs hpick hround _ ih =>
    obtain ⟨hfirst, hrest⟩ := List.forall_mem_cons.1 hsettled
    have hends : Round.Ends ho (parseInput ho n) ⟨cur, k₁, k₂⟩ := by
      by_contra hno
      exact (round_lost hpick hround hacc hno).1 hfirst
    obtain ⟨-, ps₁, hacc₁⟩ := round_settled hpick hround hacc fun _ => hends
    exact List.forall_mem_cons.2 ⟨hends, ih hacc₁ hrest⟩

theorem pickHead_head {r : Ptr × Kernel σ} (h : pickHead k = some r) : k.queue.head ≠ none :=
  fun hhead => by
  unfold pickHead ReadyQueue.popHead at h
  rw [hhead] at h
  cases h

theorem Policy.pick_head {policy : Policy} {r : Ptr × Kernel σ} (h : policy.pick k = some r) :
    k.queue.head ≠ none := by
  cases policy with
  | fcfs | rr | rr30 => exact pickHead_head h
  | sjf =>
    intro hhead
    have hsort : k.queue.sortReadyQueue k.pcbs = some k.queue := by
      unfold ReadyQueue.sortReadyQueue
      rw [hhead]
    have hpop : k.queue.popHead = some (none, k.queue) := by
      unfold ReadyQueue.popHead
      rw [hhead]
    change pickShortest k = some r at h
    unfold pickShortest ReadyQueue.popShortestJob at h
    simp only [Option.bind_eq_bind, hsort, hpop, Option.bind_some, Option.bind_none] at h
    cases h
  | aging =>
    obtain ⟨r₁, hpick, -⟩ := Option.bind_eq_some_iff.1 h
    exact pickHead_head hpick

theorem schedulerLoop_rounds {parse : Parse σ} {policy : Policy} :
    (∃ n, schedulerLoop (policy.round ho parse) n k = some k') ↔
      ∃ rs, Rounds ho parse policy k rs k' ∧ k'.queue.head = none := by
  constructor
  · intro ⟨n, h⟩
    induction n generalizing k with
    | zero => cases h
    | succ n ih =>
      unfold schedulerLoop at h
      split at h
      · next hhead =>
        cases h
        exact ⟨[], .nil _, hhead⟩
      · obtain ⟨k₂, hround, h⟩ := Option.bind_eq_some_iff.1 h
        obtain ⟨rs, hrun, hhead⟩ := ih h
        have hpick := hround
        rw [Policy.round_eq] at hpick
        obtain ⟨⟨cur, k₁⟩, hpick, -⟩ := Option.bind_eq_some_iff.1 hpick
        exact ⟨⟨cur, k₁, k₂⟩ :: rs, .cons hpick hround hrun, hhead⟩
  · intro ⟨rs, hrun, hhead⟩
    induction hrun with
    | nil => exact ⟨1, by unfold schedulerLoop; rw [if_pos hhead]⟩
    | cons hpick hround _ ih =>
      obtain ⟨n, hloop⟩ := ih hhead
      refine ⟨n + 1, ?_⟩
      unfold schedulerLoop
      rw [if_neg (Policy.pick_head hpick), hround]
      exact hloop

/-- A scheduler returns after a run that leaves the queue empty. -/
theorem scheduler_rounds {parse : Parse σ} {policy : Policy} :
    (∃ n, scheduler ho parse n policy k = some k') ↔
      ∃ k₀ rs, policy.enter k = some k₀ ∧ Rounds ho parse policy k₀ rs k' ∧
        k'.queue.head = none := by
  constructor
  · intro ⟨n, h⟩
    obtain ⟨k₀, henter, hloop⟩ := Option.bind_eq_some_iff.1 h
    obtain ⟨rs, hrun⟩ := schedulerLoop_rounds.1 ⟨n, hloop⟩
    exact ⟨k₀, rs, henter, hrun⟩
  · intro ⟨k₀, rs, henter, hrun⟩
    obtain ⟨n, hloop⟩ := schedulerLoop_rounds.2 ⟨rs, hrun⟩
    exact ⟨n, Option.bind_eq_some_iff.2 ⟨k₀, henter, hloop⟩⟩

/-- **No process is lost.** In every run of a scheduler, from every queue, each
process that is popped is terminated or back in the queue exactly once, and when
the queue is empty every process that was in it has been terminated, exactly if
the policy is not SJF, or each process that is popped comes to its end without
having to wait for a page. -/
theorem no_process_lost {n : Nat} {policy : Policy} {k₀ : Kernel σ} {rs : List (Round σ)}
    {ps : List Ptr} (hqueue : Queued k.queue ps) (henter : policy.enter k = some k₀)
    (hrun : Rounds ho (parseInput ho n) policy k₀ rs k') : ((∀ r ∈ rs, r.Settled) ∧
      (k'.queue.head = none → ∀ p, (k'.queue.nodes.get p).isSome → (k.queue.nodes.get p).isSome ∧
        p ∉ ps)) ↔
    (policy = .sjf → ∀ r ∈ rs, r.Ends ho (parseInput ho n)) := by
  obtain ⟨out, hacc, hout⟩ := hqueue.accounts
  obtain ⟨ps₀, -, hacc₀⟩ := Policy.enter_accounts henter hacc
  constructor
  · rintro ⟨hsettled, -⟩ rfl
    exact hrun.ends hacc₀ hsettled
  · intro hends
    obtain ⟨hsettled, ps', hacc'⟩ := hrun.settled hacc₀ hends
    refine ⟨hsettled, fun hhead p hp => ?_⟩
    have hempty : ps' = [] := Linked.Chain.unique hacc'.queued (show Linked.Chain _ _ [] from hhead)
    rw [hacc'.nodes, hempty, List.append_nil] at hp
    exact ⟨(hacc.nodes p).2 (List.mem_append_left _ hp), hout p hp⟩

/-! ## On a host with files only -/

open Paging (Text)

/-- A host that has files and does nothing else, with room for six pages. -/
def diskHost : Host (List (Text × Text)) where
  frameStoreSize := 18
  varStoreSize := 10
  fopen name files := files.lookup name
  create name content files := some ((name, content) :: files)
  countFilesBacking files := files.countP fun f => "backing_store/".toList.isPrefixOf f.1
  system _ files := (0, files)
  chdir _ _ := none
  execAnswer := 0

/-- The host with one script, of seven lines. -/
def sevenLines : List (Text × Text) :=
  [("p".toList, "help\nhelp\nhelp\nhelp\nhelp\nhelp\nhelp\n".toList)]

/-- The script is made a process and scheduled: the states before and after. -/
def scheduled (n : Nat) (policy : Text) :
    Option (Kernel (List (Text × Text)) × Kernel (List (Text × Text))) := do
  let (_, k) ← processInitialize diskHost "p".toList (start diskHost sevenLines)
  let (_, k') ← scheduleByPolicy diskHost (parseInput diskHost 0) n policy k
  pure (k, k')

/-- Under RR the seven lines are run and the process is terminated. -/
theorem no_process_lost_rr :
    ∃ k k' r, scheduleByPolicy diskHost (parseInput diskHost 0) 6 "RR".toList k = some (r, k') ∧
    Queued k.queue [0] ∧ k'.queue.nodes.get 0 = none := by
  have hrun : (scheduled 6 "RR".toList).map (fun r =>
    (r.1.queue.head, (r.1.queue.nodes.get 0).map Linked.next,
      r.1.inBackground, r.2.queue.head)) = some (some 0, some none, false, none) := by decide +kernel
  simp only [scheduled, Option.bind_eq_bind, Option.map_eq_some_iff, Option.bind_eq_some_iff,
    Prod.mk.injEq] at hrun
  obtain ⟨⟨k₁, k₂⟩, ⟨⟨r₀, k⟩, -, ⟨r, k'⟩, hschedule, hk⟩, hhead,
    ⟨node, hnode, hnext⟩, hback,
      hempty⟩ := hrun
  cases hk
  have hqueue : Queued k.queue [0] := ⟨hhead, node, hnode, hnext⟩
  have hscheduler : scheduler diskHost (parseInput diskHost 0) 6 .rr k = some k' := by
    unfold scheduleByPolicy at hschedule
    rw [show policyNames.lookup "RR".toList = some .rr by decide] at hschedule
    dsimp only at hschedule
    rw [if_neg (by rw [hback]; exact Bool.false_ne_true)] at hschedule
    obtain ⟨k₃, hscheduler, hk⟩ := Option.bind_eq_some_iff.1 hschedule
    cases hk
    exact hscheduler
  obtain ⟨k₀, rs, henter, hrounds, -⟩ := scheduler_rounds.1 ⟨6, hscheduler⟩
  have hkept := (no_process_lost hqueue henter hrounds).2 fun hp => by cases hp
  refine ⟨k, k', r, hschedule, hqueue, ?_⟩
  cases hleft : k'.queue.nodes.get 0 with
  | none => rfl
  | some a => exact absurd List.mem_cons_self (hkept.2 hempty 0 (by rw [hleft, Option.isSome_some])).2

/-- Under SJF the process waits for its third page out of the queue, and the
scheduler returns without it. -/
theorem process_lost_sjf :
    ∃ k k' r, scheduleByPolicy diskHost (parseInput diskHost 0) 2 "SJF".toList k = some (r, k') ∧
    Queued k.queue [0] ∧ k'.queue.head = none ∧ (k'.queue.nodes.get 0).isSome := by
  have hrun : (scheduled 2 "SJF".toList).map (fun r => (r.1.queue.head,
    (r.1.queue.nodes.get 0).map Linked.next,
      r.2.queue.head, (r.2.queue.nodes.get 0).isSome)) =
      some (some 0, some none, none, true) := by decide +kernel
  simp only [scheduled, Option.bind_eq_bind, Option.map_eq_some_iff, Option.bind_eq_some_iff,
    Prod.mk.injEq] at hrun
  obtain ⟨⟨k₁, k₂⟩, ⟨⟨r₀, k⟩, -, ⟨r, k'⟩, hschedule, hk⟩, hhead,
    ⟨node, hnode, hnext⟩, hempty,
      hleft⟩ := hrun
  cases hk
  exact ⟨k, k', r, hschedule, ⟨hhead, node, hnode, hnext⟩, hempty, hleft⟩

end MyShell.Backing

/-
Where the processes stand. A process reads the page that its PC is in, and has
at most one page more, in the frame behind it (`PCB.Located`). So a frame with
lines that a process waits to read is one of these two.
-/
import MyShell.Backing.PageTable
import MyShell.Backing.Victims

namespace MyShell.Backing

open Paging (Text)
open ReadyQueue (Queued)
open Linked (Relinked)

/-! ## One process -/

namespace PCB

variable {threshold : Nat} {pcb pcb' : PCB} {m m' : Store} {r : Int}

/-- The frame that the PC is in. -/
def frame (pcb : PCB) : Nat := pcb.pc - pcb.currentLine

/-- The process has read `currentLine` lines of its page, and has at most one page more. -/
structure Located (threshold : Nat) (pcb : PCB) : Prop where
  line : pcb.pc % 3 = pcb.currentLine
  fresh : pcb.pageCounter < pcb.currentPage → pcb.currentLine = 0
  pages : pcb.pageCounter ≤ pcb.currentPage + 1
  inside : pcb.currentPage ≤ pcb.pageCounter →
    pcb.frame + 3 * (pcb.pageCounter - pcb.currentPage) < threshold

theorem Located.read (h : pcb.Located threshold) (hpage : pcb.currentPage ≤ pcb.pageCounter) :
    (advance { pcb with pc := pcb.pc + 1, priority := false }).Located threshold := by
  obtain ⟨hline, -, hpages, hinside⟩ := h
  have hinside := hinside hpage
  unfold frame at hinside
  unfold advance
  split
  · next htwo =>
    dsimp only at htwo
    refine ⟨?_, fun _ => rfl, ?_, fun hle => ?_⟩
    · dsimp only
      omega
    · dsimp only
      omega
    · unfold frame
      dsimp only at hle ⊢
      omega
  · next hnot =>
    dsimp only at hnot
    refine ⟨?_, fun hlt => ?_, hpages, fun _ => ?_⟩
    · dsimp only
      omega
    · dsimp only at hlt
      omega
    · unfold frame
      dsimp only
      omega

theorem located_loaded {pid i : Nat} {filename : Text} {ls : List Text} (hdvd : 3 ∣ i)
    (hi : i < threshold) : (loadedPCB pid i filename ls (room threshold i)).Located threshold := by
  have hpages := Store.pagesCounted_le_room ls (room threshold i)
  have hle : pagesCounted ls (room threshold i) ≤ 2 := Store.pagesCounted_le ls
  refine ⟨Nat.mod_eq_zero_of_dvd hdvd, fun _ => rfl, hle, fun _ => ?_⟩
  change i + 3 * (pagesCounted ls (room threshold i) - 1) < threshold
  -- two pages need room for six lines
  rcases room_le threshold i with hroom | hroom
  · omega
  · have := room_eq_six.1 hroom
    omega

/-- A process without a page is put at the beginning of a frame. -/
theorem Located.place {i : Nat} (h : pcb.Located threshold)
    (hfault : pcb.pageCounter < pcb.currentPage) (hdvd : 3 ∣ i) :
    (pcb.place i).Located threshold := by
  refine ⟨?_, h.fresh, h.pages, fun hle => ?_⟩
  · change i % 3 = pcb.currentLine
    have := h.fresh hfault
    omega
  · change pcb.currentPage ≤ pcb.pageCounter at hle
    omega

theorem Located.loadFrame {content : Text} (h : pcb.Located threshold)
    (hfault : pcb.pageCounter < pcb.currentPage)
    (hload : loadFrame threshold (some content) pcb m = some (r, pcb', m')) :
    pcb'.Located threshold ∧ (r = -1 → pcb' = pcb) := by
  rw [loadFrame_eq] at hload
  split at hload
  · cases hload
    exact ⟨h, fun _ => rfl⟩
  obtain ⟨slot, hslot, hload⟩ := Option.bind_eq_some_iff.1 hload
  cases slot with
  | none =>
    cases hload
    exact ⟨h, fun _ => rfl⟩
  | some i =>
    obtain ⟨hi, hdvd, -⟩ := Store.findAvailableSlot_some hslot
    obtain ⟨store, -, hload⟩ := Option.bind_eq_some_iff.1 hload
    obtain ⟨pcb₁, hcount, hload⟩ := Option.map_eq_some_iff.1 hload
    cases hload
    refine ⟨?_, fun hr => by cases hr⟩
    have hfresh := h.fresh hfault
    unfold countPage at hcount
    split at hcount
    · cases hcount
      refine ⟨?_, fun _ => hfresh, ?_, fun hle => ?_⟩
      · change i % 3 = pcb.currentLine
        omega
      · change pcb.pageCounter + 1 ≤ pcb.currentPage + 1
        omega
      · change pcb.currentPage ≤ pcb.pageCounter + 1 at hle
        change i - pcb.currentLine + 3 * (pcb.pageCounter + 1 - pcb.currentPage) < threshold
        omega
    · cases hcount

theorem Located.removeFrame {content : Text} (h : pcb.Located threshold)
    (hfault : pcb.pageCounter < pcb.currentPage) (hsize : threshold ≤ m.lines.length)
    (hremove : removeFrame threshold (some content) pcb m = some (r, pcb', m')) :
    pcb'.Located threshold ∧ pcb'.pageCounter < pcb'.currentPage := by
  obtain ⟨i, -, hmem, -, -, -, rfl⟩ := (removeFrame_some hsize).1 hremove
  obtain ⟨hline, hfresh, hpages, hinside⟩ := h.place hfault (Store.mem_frameStarts.1 hmem).2
  exact ⟨⟨hline, hfresh, hpages, hinside⟩, hfault⟩

end PCB

/-! ## All processes -/

variable {σ : Type} {ho : Host σ} {k k' : Kernel σ} {place place' : Place} {policy : Policy}
  {p c : Ptr} {quanta i : Nat} {pcb : PCB}

/-- The process as it will be when the line that it may be at has been run. -/
def Place.settle : Place → Ptr → PCB → PCB
  | .line _ _ c _, c', pcb => if c' = c then pcb.advance else pcb
  | _, _, pcb => pcb

theorem Place.settle_self : (Place.line policy p c quanta).settle c pcb = pcb.advance := if_pos rfl

/-- Process `c` of node `p` is executed. -/
def Place.Runs : Place → Ptr → Ptr → Prop
  | .executing _ p c _, p', c' | .line _ p c _, p', c' => p' = p ∧ c' = c
  | _, _, _ => False

/-- The nodes are of different processes, which stand where they should. -/
structure Kernel.Live (ho : Host σ) (place : Place) (k : Kernel σ) : Prop where
  inj : ∀ p p' node node', k.queue.nodes.get p = some node → k.queue.nodes.get p' = some node' →
    node.val = node'.val → p = p'
  located : ∀ p node, k.queue.nodes.get p = some node →
    ∃ pcb, k.pcbs.get node.val = some pcb ∧ (place.settle node.val pcb).Located ho.frameStoreSize
  running : ∀ p c, place.Runs p c → ∃ node, k.queue.nodes.get p = some node ∧ node.val = c

theorem Kernel.Live.next (h : k.Live ho place)
    (hnodes : ∀ p node', k'.queue.nodes.get p = some node' →
      ∃ node, k.queue.nodes.get p = some node ∧ node.val = node'.val)
    (hpcbs : ∀ p node pcb, k'.queue.nodes.get p ≠ none → k.queue.nodes.get p = some node →
      k.pcbs.get node.val = some pcb → (place.settle node.val pcb).Located ho.frameStoreSize →
      ∃ pcb', k'.pcbs.get node.val = some pcb' ∧
        (place'.settle node.val pcb').Located ho.frameStoreSize)
    (hruns : ∀ p c, place'.Runs p c → ∃ node, k'.queue.nodes.get p = some node ∧ node.val = c) :
    k'.Live ho place' := by
  refine ⟨fun p p' node node' hp hp' heq => ?_, fun p node' hp => ?_, hruns⟩
  · obtain ⟨node₁, hp₁, hval⟩ := hnodes p node hp
    obtain ⟨node₂, hp₂, hval'⟩ := hnodes p' node' hp'
    exact h.inj p p' node₁ node₂ hp₁ hp₂ (by rw [hval, hval', heq])
  · obtain ⟨node, hold, hval⟩ := hnodes p node' hp
    obtain ⟨pcb, hpcb, hlocated⟩ := h.located p node hold
    rw [← hval]
    exact hpcbs p node pcb (by rw [hp]; exact Option.some_ne_none _) hold hpcb hlocated

/-- Neither nodes nor processes change, but for links and scores. -/
theorem Kernel.Live.relinked (h : k.Live ho place) (hr : Relinked k.queue.nodes k'.queue.nodes)
    (hpcbs : Rescored k.pcbs k'.pcbs)
    (hsettle : ∀ c pcb, place.settle c pcb = pcb ∧ place'.settle c pcb = pcb)
    (hruns : ∀ p c, place'.Runs p c → ∃ node, k'.queue.nodes.get p = some node ∧ node.val = c) :
    k'.Live ho place' := by
  refine h.next (fun p node' hp => hr.symm.get hp) (fun p node pcb _ _ hpcb hlocated => ?_) hruns
  obtain ⟨score, hget⟩ := hpcbs node.val
  rw [hpcb] at hget
  refine ⟨_, hget, ?_⟩
  rw [(hsettle _ _).2]
  rw [(hsettle _ _).1] at hlocated
  exact ⟨hlocated.line, hlocated.fresh, hlocated.pages, hlocated.inside⟩

/-- A new process comes to the end of the queue. -/
theorem Kernel.Live.addProcess (h : k.Live ho place) {queue : ReadyQueue}
    (hadd : ReadyQueue.addToTail k.queue.nodes.next
      { k.queue with nodes := k.queue.nodes.alloc ⟨k.pcbs.next, none⟩ } = some queue)
    (hnew : pcb.Located ho.frameStoreSize) (hqueue : k'.queue = queue)
    (hpcbs : k'.pcbs = k.pcbs.alloc pcb) : k'.Live ho place := by
  subst hqueue
  have hrelinked := ReadyQueue.addToTail_relinked hadd
  -- the new process is none of those there are
  have hfresh {p : Ptr} {node : QueueNode} (hp : k.queue.nodes.get p = some node) :
      node.val ≠ k.pcbs.next := fun heq => by
    obtain ⟨pcb, hpcb, -⟩ := h.located p node hp
    rw [heq, Heap.get_next] at hpcb
    cases hpcb
  have hget {p : Ptr} {node' : QueueNode} (hp : k'.queue.nodes.get p = some node') :
      p = k.queue.nodes.next ∧ node'.val = k.pcbs.next ∨
        ∃ node, k.queue.nodes.get p = some node ∧ node.val = node'.val := by
    obtain ⟨node, hnode, hval⟩ := hrelinked.symm.get hp
    dsimp only at hnode
    rw [Heap.get_alloc] at hnode
    split at hnode
    · next hnext =>
      cases hnode
      exact .inl ⟨hnext, hval.symm⟩
    · exact .inr ⟨node, hnode, hval⟩
  refine ⟨fun p p' node node' hp hp' heq => ?_, fun p node' hp => ?_, fun p c hruns => ?_⟩
  · rcases hget hp with ⟨hnext, hval⟩ | ⟨node₁, hold, hval⟩
    · rcases hget hp' with ⟨hnext', -⟩ | ⟨node₂, hold', hval'⟩
      · rw [hnext, hnext']
      · exact absurd (by rw [hval', ← heq, hval]) (hfresh hold')
    · rcases hget hp' with ⟨-, hval'⟩ | ⟨node₂, hold', hval'⟩
      · exact absurd (by rw [hval, heq, hval']) (hfresh hold)
      · exact h.inj p p' node₁ node₂ hold hold' (by rw [hval, heq, hval'])
  · rw [hpcbs]
    rcases hget hp with ⟨-, hval⟩ | ⟨node, hold, hval⟩
    · refine ⟨pcb, by rw [Heap.get_alloc, if_pos hval], ?_⟩
      have hsettle : place.settle node'.val pcb = pcb := by
        cases place with
        | line policy p c quanta =>
          obtain ⟨node, hrun, hc⟩ := h.running p c ⟨rfl, rfl⟩
          refine if_neg fun heq => hfresh hrun ?_
          rw [hc, ← heq, hval]
        | prompt | rounds | executing | returned => rfl
      rwa [hsettle]
    · rw [← hval]
      obtain ⟨pcb', hpcb', hlocated⟩ := h.located p node hold
      exact ⟨pcb', by rw [Heap.get_alloc, if_neg (hfresh hold)]; exact hpcb', hlocated⟩
  · obtain ⟨node, hold, hc⟩ := h.running p c hruns
    have hp : p ≠ k.queue.nodes.next := by
      rintro rfl
      rw [Heap.get_next] at hold
      cases hold
    obtain ⟨node', hnode', hval⟩ :=
      hrelinked.get (a := node) (by dsimp only; rw [Heap.get_alloc, if_neg hp]; exact hold)
    exact ⟨node', hnode', hval.trans hc⟩

theorem Act.live (h : k.Live ho place) (hact : Act ho k k') : k'.Live ho place := by
  -- the queue and the processes as they are
  have hsame (hqueue : k'.queue = k.queue) (hpcbs : k'.pcbs = k.pcbs) : k'.Live ho place :=
    ⟨by rw [hqueue]; exact h.inj, by rw [hqueue, hpcbs]; exact h.located,
      by rw [hqueue]; exact h.running⟩
  cases hact with
  | set | get | reset | policy | system | chdir => exact hsame rfl rfl
  | load hact =>
    obtain ⟨-, rfl, -⟩ | ⟨_, _, copy, error, pcb, store, -, -, -, hload,
        ⟨-, -, rfl⟩ | ⟨herror, -, queue, hadd, rfl⟩⟩ :=
      processInitialize_cases hact
    · exact h
    · exact hsame rfl rfl
    · have hlocated : pcb.Located ho.frameStoreSize := by
        obtain ⟨-, rfl, -⟩ | ⟨i, hslot, -, rfl, -⟩ := Store.loadFile_cases hload
        · cases herror
        · obtain ⟨hi, hdvd, -⟩ := Store.findAvailableSlot_some hslot
          exact PCB.located_loaded hdvd hi
      exact h.addProcess hadd hlocated rfl rfl

theorem Kernel.Live.modify {f : PCB → PCB} (h : k.Live ho place) (hqueue : k'.queue = k.queue)
    (hpcbs : k'.pcbs = k.pcbs.modify c f)
    (hother : ∀ c' pcb, c' ≠ c → place'.settle c' pcb = place.settle c' pcb)
    (hself : ∀ pcb, k.pcbs.get c = some pcb → (place.settle c pcb).Located ho.frameStoreSize →
      (place'.settle c (f pcb)).Located ho.frameStoreSize)
    (hruns : ∀ p c, place'.Runs p c → place.Runs p c) : k'.Live ho place' := by
  refine h.next (fun p node' hp => ⟨node', by rwa [← hqueue], rfl⟩)
    (fun p' node pcb _ hp' hpcb hlocated => ?_)
    fun p' c' hrun' => by rw [hqueue]; exact h.running p' c' (hruns p' c' hrun')
  rw [hpcbs, Heap.get_modify]
  by_cases hc : node.val = c
  · rw [if_pos hc]
    rw [hc] at hpcb hlocated ⊢
    exact ⟨f pcb, by rw [hpcb]; rfl, hself pcb hpcb hlocated⟩
  · rw [if_neg hc]
    exact ⟨pcb, hpcb, by rw [hother _ _ hc]; exact hlocated⟩

/-- The running process is terminated, whatever has become of it. -/
theorem Kernel.Live.finish {k₁ : Kernel σ} {f : PCB → PCB}
    (h : k.Live ho (.executing policy p c quanta)) (hqueue : k₁.queue = k.queue)
    (hpcbs : k₁.pcbs = k.pcbs.modify c f) (hfinish : finish p k₁ = some k') :
    k'.Live ho (.returned policy p true) := by
  obtain ⟨queue, hterminate, rfl⟩ := finish_cases hfinish
  obtain ⟨a, -, hterminate⟩ := Option.bind_eq_some_iff.1 hterminate
  cases hterminate
  obtain ⟨node₀, hrun, hc⟩ := h.running p c ⟨rfl, rfl⟩
  have hget (p' : Ptr) : (k₁.queue.nodes.free p).get p' =
      if p' = p then none else k.queue.nodes.get p' := by
    rw [Heap.get_free, hqueue]
  refine h.next (fun p' node' hp' => ?_) (fun p' node pcb hleft hp' hpcb hlocated => ?_)
    fun p' c' hruns => hruns.elim
  · dsimp only at hp'
    rw [hget] at hp'
    split at hp'
    · cases hp'
    · exact ⟨node', hp', rfl⟩
  · dsimp only at hleft ⊢
    rw [hget] at hleft
    have hne : p' ≠ p := by
      rintro rfl
      exact hleft (if_pos rfl)
    have hother : node.val ≠ c := fun heq => hne (h.inj p' p node node₀ hp' hrun (by rw [heq, hc]))
    exact ⟨pcb, by rw [hpcbs, Heap.get_modify, if_neg hother]; exact hpcb, hlocated⟩

theorem pageFault_located {r : Int} (hk : k.Sound ho) (hfault : pageFault ho c k = some (r, k')) :
    ∃ pcb', k'.queue = k.queue ∧ k'.pcbs = k.pcbs.modify c (fun _ => pcb') ∧
      ∀ pcb, k.pcbs.get c = some pcb → pcb.pageCounter < pcb.currentPage →
        pcb.Located ho.frameStoreSize → pcb'.Located ho.frameStoreSize := by
  obtain ⟨pcb, content, pcb₁, store₁, pcb', store', hpcb, -, hload, rfl, hdone⟩ :=
    pageFault_cases hfault
  refine ⟨pcb', rfl, rfl, fun pcb₀ hpcb₀ hmiss hlocated => ?_⟩
  obtain rfl := Option.some.inj (hpcb.symm.trans hpcb₀)
  obtain ⟨hlocated₁, hkept⟩ := hlocated.loadFrame hmiss hload
  obtain ⟨-, rfl, -⟩ | ⟨hr, r₂, pcb₂, store₂, r₃, hremove, hagain⟩ := hdone
  · exact hlocated₁
  · obtain rfl := hkept hr
    have hsize := (hk.store.loadFrame (hk.pcbs c pcb₁ hpcb).1 hload).2.1
    obtain ⟨hlocated₂, hmiss₂⟩ := hlocated.removeFrame hmiss (by rw [hsize]; exact hk.frames_le) hremove
    exact (hlocated₂.loadFrame hmiss₂ hagain).1

/-- **One step.** -/
theorem Step.live (hk : k.Sound ho) (h : k.Live ho place) (hstep : Step ho place k place' k') :
    k'.Live ho place' := by
  cases hstep with
  | command hact | act hact => exact hact.live h
  | @enter policy _ _ henter =>
    refine h.relinked ?_ ?_ (fun _ _ => ⟨rfl, rfl⟩) fun _ _ hruns => hruns.elim
    · cases policy with
      | aging =>
        obtain ⟨queue, hsort, henter⟩ := Option.bind_eq_some_iff.1 henter
        cases henter
        exact ReadyQueue.sortReadyQueue_relinked hsort
      | fcfs | sjf | rr | rr30 =>
        cases henter
        exact .refl _
    · cases policy with
      | aging =>
        obtain ⟨queue, -, henter⟩ := Option.bind_eq_some_iff.1 henter
        cases henter
        exact .refl _
      | fcfs | sjf | rr | rr30 =>
        cases henter
        exact .refl _
  | leave | spent | dropped =>
    exact h.relinked (.refl _) (.refl _) (fun _ _ => ⟨rfl, rfl⟩) fun _ _ hruns => hruns.elim
  | pick hpick hnode =>
    obtain ⟨-, hpcbs, hrelinked⟩ := Policy.pick_store hpick
    refine h.relinked hrelinked hpcbs (fun _ _ => ⟨rfl, rfl⟩) fun p c hruns => ?_
    obtain ⟨rfl, rfl⟩ := hruns
    exact ⟨_, hnode, rfl⟩
  | @back policy _ _ _ hback =>
    refine h.relinked ?_ (.refl _) (fun _ _ => ⟨rfl, rfl⟩) fun _ _ hruns => hruns.elim
    cases policy with
    | aging => exact ReadyQueue.addToHead_relinked hback
    | fcfs | sjf | rr | rr30 => exact ReadyQueue.addToTail_relinked hback
  | noPage _ _ hfault hfinish =>
    obtain ⟨pcb', hqueue, hpcbs, -⟩ := pageFault_located hk hfault
    exact h.finish hqueue hpcbs hfinish
  | fault hpcb hmiss hfault =>
    obtain ⟨pcb', hqueue, hpcbs, hlocated⟩ := pageFault_located hk hfault
    refine h.modify hqueue hpcbs (fun _ _ _ => rfl) (fun pcb hget hold => ?_) fun _ _ hruns =>
      hruns.elim
    obtain rfl := Option.some.inj (hpcb.symm.trans hget)
    exact hlocated _ hpcb hmiss hold
  | noLine _ _ hfetch hfinish =>
    obtain ⟨_, _, -, -, heq⟩ := fetch_cases hfetch
    exact h.finish (by rw [heq]) (by rw [heq]) hfinish
  | fetch hpcb hpage hfetch =>
    obtain ⟨_, _, -, -, rfl⟩ := fetch_cases hfetch
    refine h.modify (f := fun pcb => { pcb with pc := pcb.pc + 1, priority := false }) rfl rfl
      (fun c' pcb hne => if_neg hne) (fun pcb hget hold => ?_) fun _ _ hruns => hruns
    obtain rfl := Option.some.inj (hpcb.symm.trans hget)
    rw [Place.settle_self]
    exact hold.read hpage
  | advance =>
    refine h.modify (f := PCB.advance) rfl rfl (fun c' pcb hne => (if_neg hne).symm)
      (fun pcb _ hold => ?_) fun _ _ hruns => hruns
    rwa [Place.settle_self] at hold

/-- **Every state of a session.** -/
theorem Reached.live (h : Reached ho place k) : k.Live ho place := by
  induction h with
  | start host =>
    refine ⟨fun p p' node node' hp => ?_, fun p node hp => ?_, fun _ _ hruns => hruns.elim⟩
    · cases hp
    · cases hp
  | step hbefore hstep ih => exact hstep.live hbefore.sound ih

/-! ## Lines that are waited for -/

/-- How many lines the process reads before it needs another page. -/
def PCB.linesLeft (pcb : PCB) : Nat := 3 * (pcb.pageCounter + 1 - pcb.currentPage) - pcb.currentLine

/-- Line `i` is one that the process has loaded and is to read through its PC. -/
structure PCB.Awaits (pcb : PCB) (m : Store) (i : Nat) : Prop where
  ahead : pcb.pc ≤ i
  left : i - pcb.pc < pcb.linesLeft
  -- it comes that far
  reads : ∀ j, pcb.pc ≤ j → j < i → ∃ s, m.lines[j]? = some s ∧ str s.value ≠ "none".toList
  own : ∃ s, m.lines[i]? = some s ∧ s.var = some pcb.filename

/-- The process of a node of the queue, other than `c`. -/
def Kernel.Waits (k : Kernel σ) (c : Ptr) (pcb : PCB) : Prop :=
  ∃ ps, Queued k.queue ps ∧ ∃ p ∈ ps, ∃ node, k.queue.nodes.get p = some node ∧ node.val ≠ c ∧
    k.pcbs.get node.val = some pcb

/-- Some line of the frame at `i` is awaited by a process of the queue other than `c`. -/
def Kernel.Awaited (k : Kernel σ) (c : Ptr) (i : Nat) : Prop :=
  ∃ pcb, k.Waits c pcb ∧ ∃ d, d < 3 ∧ pcb.Awaits k.store (i + d)

/-- A line of the frame at `i` is of the process's file, and every line from its PC up to
that one has a text. -/
def PCB.ComesTo (pcb : PCB) (m : Store) (i : Nat) : Prop :=
  ∃ d, d < 3 ∧ pcb.pc ≤ i + d ∧
    (∀ j, pcb.pc ≤ j → j < i + d → ∃ s, m.lines[j]? = some s ∧ str s.value ≠ "none".toList) ∧
    ∃ s, m.lines[i + d]? = some s ∧ s.var = some pcb.filename

/-- A frame is awaited if it is the one that the PC is in, or the next one where the process
has another page. -/
theorem PCB.Located.awaits {threshold : Nat} {m : Store} (h : pcb.Located threshold) (hdvd : 3 ∣ i) :
    (∃ d, d < 3 ∧ pcb.Awaits m (i + d)) ↔ (pcb.currentPage ≤ pcb.pageCounter ∧ i = pcb.frame ∨
      pcb.currentPage < pcb.pageCounter ∧ i = pcb.frame + 3) ∧ pcb.ComesTo m i := by
  obtain ⟨hline, -, hpages, -⟩ := h
  unfold frame
  constructor
  · intro ⟨d, hd, hahead, hleft, hreads, hown⟩
    refine ⟨?_, d, hd, hahead, hreads, hown⟩
    unfold linesLeft at hleft
    omega
  · intro ⟨hframe, d, hd, hahead, hreads, hown⟩
    refine ⟨d, hd, hahead, ?_, hreads, hown⟩
    unfold linesLeft
    omega

theorem Kernel.Live.waits (h : k.Live ho (.executing policy p c quanta)) (hwaits : k.Waits c pcb) :
    pcb.Located ho.frameStoreSize := by
  obtain ⟨ps, -, p', -, node, hnode, -, hpcb⟩ := hwaits
  obtain ⟨pcb', hpcb', hlocated⟩ := h.located p' node hnode
  obtain rfl := Option.some.inj (hpcb.symm.trans hpcb')
  exact hlocated

/-- The victim is not awaited exactly if some frame is older than every awaited one. -/
theorem victim_older (hsize : 3 ∣ ho.frameStoreSize)
    (h : Reached ho (.executing policy p c quanta) k) (hevicts : Evicts ho c k) :
    (∃ i, k.store.findReplacementSlot ho.frameStoreSize = some (some i) ∧ ¬ k.Awaited c i) ↔
    ∃ i ∈ Store.frameStarts ho.frameStoreSize, k.store.policyStamp i < 9999 ∧
      ∀ j ∈ Store.frameStarts ho.frameStoreSize, k.Awaited c j →
        k.store.policyStamp i < k.store.policyStamp j := by
  have hstore := h.sound.store
  rw [Store.findReplacementSlot_eq h.size]
  constructor
  · intro ⟨i, hfound, hnot⟩
    obtain ⟨hmem, hlt, hmin⟩ := Clock.oldest_spec (Option.some.inj hfound)
    have hpos := (hstore.holds_first hevicts.full hmem
        (by have := Store.mem_frameStarts.1 hmem; omega)).policyStamp_pos
    refine ⟨i, hmem, hlt, fun j hj hawaited => ?_⟩
    by_contra hge
    obtain rfl := hstore.policyStamp.unique (hmin j hj) (Nat.le_of_not_lt hge) hpos
    exact hnot hawaited
  · intro ⟨i, hi, hlt, hyounger⟩
    obtain ⟨v, hv⟩ := Clock.oldest_isSome.2 ⟨i, hi, hlt⟩
    obtain ⟨hmem, -, hvmin⟩ := Clock.oldest_spec hv
    refine ⟨v, by rw [hv], fun hawaited => ?_⟩
    have := hyounger v hmem hawaited
    have := hvmin i hi
    omega

/-- **No awaited line is evicted** exactly if some frame, with a stamp below 9999, is older
than the frames in which the other processes of the queue have their PCs, and than the next
ones where they have another page, as far as they come to lines of their own there. -/
theorem victim_not_awaited (hsize : 3 ∣ ho.frameStoreSize)
    (h : Reached ho (.executing policy p c quanta) k) (hevicts : Evicts ho c k) :
    (∃ i, k.store.findReplacementSlot ho.frameStoreSize = some (some i) ∧ ¬ k.Awaited c i) ↔
    ∃ i ∈ Store.frameStarts ho.frameStoreSize, k.store.policyStamp i < 9999 ∧ ∀ pcb, k.Waits c pcb →
      (pcb.currentPage ≤ pcb.pageCounter → pcb.ComesTo k.store pcb.frame →
        k.store.policyStamp i < k.store.policyStamp pcb.frame) ∧
      (pcb.currentPage < pcb.pageCounter → pcb.ComesTo k.store (pcb.frame + 3) →
        k.store.policyStamp i < k.store.policyStamp (pcb.frame + 3)) := by
  rw [victim_older hsize h hevicts]
  refine exists_congr fun i => and_congr_right fun _ => and_congr_right fun _ =>
    ⟨fun hyounger pcb hwaits => ?_, fun hall j hj => ?_⟩
  · have hlocated := h.live.waits hwaits
    have hline := hlocated.line
    have hframe : 3 ∣ pcb.frame := by
      unfold PCB.frame
      omega
    refine ⟨fun hpage hcomes => ?_, fun hpage hcomes => ?_⟩
    · have hinside := hlocated.inside hpage
      exact hyounger _ (Store.mem_frameStarts.2 ⟨by omega, hframe⟩)
        ⟨pcb, hwaits, (hlocated.awaits hframe).2 ⟨.inl ⟨hpage, rfl⟩, hcomes⟩⟩
    · have hinside := hlocated.inside (Nat.le_of_lt hpage)
      have hnext : 3 ∣ pcb.frame + 3 := by omega
      exact hyounger _ (Store.mem_frameStarts.2 ⟨by omega, hnext⟩)
        ⟨pcb, hwaits, (hlocated.awaits hnext).2 ⟨.inr ⟨hpage, rfl⟩, hcomes⟩⟩
  · rintro ⟨pcb, hwaits, hawaits⟩
    obtain ⟨hfirst, hsecond⟩ := hall pcb hwaits
    obtain ⟨⟨hpage, rfl⟩ | ⟨hpage, rfl⟩, hcomes⟩ :=
      ((h.live.waits hwaits).awaits (Store.mem_frameStarts.1 hj).2).1 hawaits
    · exact hfirst hpage hcomes
    · exact hsecond hpage hcomes

/-- Two processes, of three lines and of six. -/
def twoFiles : List (Text × Text) :=
  [("b".toList, "help\nhelp\nhelp\n".toList), ("a".toList, "help\nhelp\nhelp\nhelp\nhelp\nhelp".toList)]

/-- The process of six lines is begun first. As the other one looks for more than its three lines,
it is in its second page and waits for that; its first page goes. -/
theorem victim_not_awaited_own :
    ∃ policy p c quanta k, Reached (smallHost 9) (.executing policy p c quanta) k ∧
    Evicts (smallHost 9) c k ∧ k.Awaited c 3 ∧
    ∃ i, k.store.findReplacementSlot 9 = some (some i) ∧ ¬ k.Awaited c i := by
  have hrun : (batches (smallHost 9) [(["a".toList, "b".toList], .rr, 17)] .prompt
      (start (smallHost 9) twoFiles)).map (fun r =>
        (r.1, decide (misses (smallHost 9) 1 r.2 = some (true, -1) ∧
        [0, 3].map r.2.store.policyStamp = [10, 15] ∧ r.2.queue.head = some 0 ∧
        (r.2.queue.nodes.get 0).map (fun node => (node.val, node.next)) = some (0, none) ∧
        (r.2.pcbs.get 0).map (fun pcb => (pcb.pc, pcb.currentLine, pcb.currentPage, pcb.pageCounter,
          pcb.filename)) = some (4, 1, 2, 2, "backing_store/prog0".toList) ∧
        (r.2.store.lines[4]?.map Slot.var) = some (some "backing_store/prog0".toList)))) =
      some (.executing .rr 1 1 1, true) := by decide +kernel
  obtain ⟨place, k, hreached, hk⟩ := exists_reached (.start _) hrun
  simp only [Prod.mk.injEq, decide_eq_true_eq, Option.map_eq_some_iff] at hk
  obtain ⟨rfl, hmisses, hstamps, hhead, ⟨node, hnode, hval, hnext⟩,
    ⟨pcb, hpcb, hpc, hline, hpage, hcounter, hname⟩, ⟨s, hs, hvar⟩⟩ := hk
  obtain ⟨hfirst, hsecond⟩ : k.store.policyStamp 0 = 10 ∧ k.store.policyStamp 3 = 15 := by
    simpa using hstamps
  have hframe : pcb.frame = 3 := by
    unfold PCB.frame
    omega
  have hqueue : Queued k.queue [0] := ⟨hhead, node, hnode, hnext⟩
  refine ⟨.rr, 1, 1, _, k, hreached, .of_misses hmisses, ?_,
    (victim_not_awaited (by decide) hreached (.of_misses hmisses)).2
      ⟨0, by decide, by omega, fun pcb' hwaits => ?_⟩⟩
  · -- its second line there
    refine ⟨pcb, ⟨[0], hqueue, 0, List.mem_singleton_self 0, node,
      hnode, by rw [hval]; decide, by rw [hval]; exact hpcb⟩,
      1, by decide, by omega, ?_, fun j hle hlt => by omega, s, hs, by rw [hvar, hname]⟩
    unfold PCB.linesLeft
    omega
  · obtain ⟨ps, hps, p', hmem, node', hnode', -, hpcb'⟩ := hwaits
    obtain rfl := Linked.Chain.unique hps hqueue
    obtain rfl := List.mem_singleton.1 hmem
    obtain rfl := Option.some.inj (hnode.symm.trans hnode')
    rw [hval] at hpcb'
    obtain rfl := Option.some.inj (hpcb.symm.trans hpcb')
    rw [hframe]
    exact ⟨fun _ _ => by omega, fun hlt => by omega⟩

/-- The first process has read its three lines and looks for more; the second page
of the other one was loaded last and never read, and it is evicted. -/
theorem awaited_line_evicted :
    ∃ policy p c quanta k, Reached (smallHost 9) (.executing policy p c quanta) k ∧
    Evicts (smallHost 9) c k ∧ k.store.findReplacementSlot 9 = some (some 6) ∧ k.Awaited c 6 := by
  have hrun : (batches (smallHost 9) [(["b".toList, "a".toList], .rr, 12)] .prompt
      (start (smallHost 9) twoFiles)).map (fun r =>
        (r.1, decide (misses (smallHost 9) 0 r.2 = some (true, -1) ∧
        r.2.store.findReplacementSlot 9 = some (some 6) ∧ r.2.queue.head = some 1 ∧
        (r.2.queue.nodes.get 1).map (fun node => (node.val, node.next)) = some (1, none) ∧
        (r.2.pcbs.get 1).map (fun pcb => (pcb.pc, pcb.linesLeft, pcb.filename)) =
          some (5, 4, "backing_store/prog1".toList) ∧
        (r.2.store.lines[5]?.map fun s => str s.value) = some "help\n".toList ∧
        (r.2.store.lines[6]?.map Slot.var) = some (some "backing_store/prog1".toList)))) =
      some (.executing .rr 0 0 1, true) := by decide +kernel
  obtain ⟨place, k, hreached, hk⟩ := exists_reached (.start _) hrun
  simp only [Prod.mk.injEq, decide_eq_true_eq, Option.map_eq_some_iff] at hk
  obtain ⟨rfl, hmisses, hfound, hhead, ⟨node, hnode, hval, hnext⟩, ⟨pcb, hpcb, hpc, hleft, hname⟩,
    ⟨s₅, hs₅, hvalue⟩, ⟨s₆, hs₆, hvar⟩⟩ := hk
  refine ⟨.rr, 0, 0, _, k, hreached, .of_misses hmisses, hfound, pcb,
    ⟨[1], ⟨hhead, node, hnode, hnext⟩, 1,
    List.mem_singleton_self 1, node, hnode, by rw [hval]; decide, by rw [hval]; exact hpcb⟩, 0, by
      decide, ?_⟩
  refine ⟨by omega, by omega, fun j hle hlt => ?_, s₆, hs₆, by rw [hvar, hname]⟩
  obtain rfl : j = 5 := by omega
  exact ⟨s₅, hs₅, by rw [hvalue]; decide⟩

end MyShell.Backing

/-
The states a session goes through, step by step: actions at the prompt, a
scheduler's rounds, and within a round the lines of a process. A run of
`parseInput` passes through such states only (`parseInput_reached`).
-/
import MyShell.Backing.Conserved

namespace MyShell.Backing

open Paging (Text)
open Relation (ReflTransGen)

/-- Where the shell is. -/
inductive Place
  /-- Between two actions of commands from the input. -/
  | prompt
  /-- In the loop of a scheduler. -/
  | rounds (policy : Policy)
  /-- In the loop of `execute_process`, with so many lines to go. -/
  | executing (policy : Policy) (node process : Ptr) (quanta : Nat)
  /-- In `parseInput`, on a line of the process. -/
  | line (policy : Policy) (node process : Ptr) (quanta : Nat)
  /-- `execute_process` has come back with its answer. -/
  | returned (policy : Policy) (node : Ptr) (done : Bool)
deriving DecidableEq

variable {σ : Type}

/-- One step. -/
inductive Step (ho : Host σ) : Place → Kernel σ → Place → Kernel σ → Prop
  | command {k k' : Kernel σ} : Act ho k k' → Step ho .prompt k .prompt k'
  | enter {policy : Policy} {k k' : Kernel σ} : policy.enter k = some k' →
      Step ho .prompt k (.rounds policy) k'
  | leave {policy : Policy} {k : Kernel σ} : k.queue.head = none → Step ho (.rounds policy) k .prompt k
  | pick {policy : Policy} {k k' : Kernel σ} {cur : Ptr} {node : QueueNode} :
      policy.pick k = some (cur, k') →
      k'.queue.nodes.get cur = some node →
      Step ho (.rounds policy) k (.executing policy cur node.val policy.quanta) k'
  | spent {policy : Policy} {k : Kernel σ} {p c : Ptr} :
      Step ho (.executing policy p c 0) k (.returned policy p false) k
  /-- A page fault, and the file has no more lines. -/
  | noPage {policy : Policy} {k k' k'' : Kernel σ} {p c : Ptr} {quanta : Nat} {pcb : PCB} :
      k.pcbs.get c = some pcb →
      pcb.pageCounter < pcb.currentPage → pageFault ho c k = some (-2, k') → finish p k' = some k'' →
      Step ho (.executing policy p c (quanta + 1)) k (.returned policy p true) k''
  | fault {policy : Policy} {k k' : Kernel σ} {p c : Ptr} {quanta : Nat} {pcb : PCB} {r : Int} :
      k.pcbs.get c = some pcb →
      pcb.pageCounter < pcb.currentPage → pageFault ho c k = some (r, k') → r ≠ -2 →
      Step ho (.executing policy p c (quanta + 1)) k (.returned policy p false) k'
  | noLine {policy : Policy} {k k' k'' : Kernel σ} {p c : Ptr} {quanta : Nat} {pcb : PCB} :
      k.pcbs.get c = some pcb →
      pcb.currentPage ≤ pcb.pageCounter → fetch c k = some ("none".toList, k') →
      finish p k' = some k'' →
      Step ho (.executing policy p c (quanta + 1)) k (.returned policy p true) k''
  | fetch {policy : Policy} {k k' : Kernel σ} {p c : Ptr} {quanta : Nat} {pcb : PCB} {line : Text} :
      k.pcbs.get c = some pcb → pcb.currentPage ≤ pcb.pageCounter → fetch c k = some (line, k') →
      line ≠ "none".toList →
      Step ho (.executing policy p c (quanta + 1)) k (.line policy p c quanta)
        { k' with passed := k'.passed ++ [(pcb.pid, line)] }
  | act {policy : Policy} {k k' : Kernel σ} {p c : Ptr} {quanta : Nat} : Act ho k k' →
      Step ho (.line policy p c quanta) k (.line policy p c quanta) k'
  | advance {policy : Policy} {k : Kernel σ} {p c : Ptr} {quanta : Nat} :
      Step ho (.line policy p c quanta) k (.executing policy p c quanta)
        { k with inBackground := false, pcbs := k.pcbs.modify c PCB.advance }
  /-- The node is not put back. -/
  | dropped {policy : Policy} {k : Kernel σ} {p : Ptr} {done : Bool} : done = true ∨ policy = .sjf →
      Step ho (.returned policy p done) k (.rounds policy) k
  | back {policy : Policy} {k : Kernel σ} {p : Ptr} {queue : ReadyQueue} :
      policy.back p k.queue = some queue →
      Step ho (.returned policy p false) k (.rounds policy) { k with queue := queue }

/-- The states of a session, from the start of the shell on. -/
inductive Reached (ho : Host σ) : Place → Kernel σ → Prop
  | start (host : σ) : Reached ho .prompt (start ho host)
  | step {place place' : Place} {k k' : Kernel σ} : Reached ho place k → Step ho place k place' k' →
      Reached ho place' k'

variable {ho : Host σ} {k k' : Kernel σ} {policy : Policy} {p c : Ptr} {quanta n : Nat}

/-! ## Runs of the program -/

theorem Reached.commands (h : Reached ho .prompt k) (hacts : Acts ho k k') : Reached ho .prompt k' := by
  induction hacts with
  | refl => exact h
  | tail _ hact ih => exact ih.step (.command hact)

/-- Steps from a line of a script on, and no others. -/
inductive LineSteps (ho : Host σ) : Place → Kernel σ → Place → Kernel σ → Prop
  | refl (place : Place) (k : Kernel σ) : LineSteps ho place k place k
  | head {policy : Policy} {p c : Ptr} {quanta : Nat} {k k₁ k' : Kernel σ} {place₁ place' : Place} :
      Step ho (.line policy p c quanta) k place₁ k₁ → LineSteps ho place₁ k₁ place' k' →
      LineSteps ho (.line policy p c quanta) k place' k'

theorem Reached.lineSteps {place place' : Place} (h : Reached ho place k)
    (hsteps : LineSteps ho place k place' k') : Reached ho place' k' := by
  induction hsteps with
  | refl => exact h
  | head hstep _ ih => exact ih (h.step hstep)

theorem LineSteps.acts (hacts : Acts ho k k') :
    LineSteps ho (.line policy p c quanta) k (.executing policy p c quanta)
    { k' with inBackground := false, pcbs := k'.pcbs.modify c PCB.advance } := by
  induction hacts using ReflTransGen.head_induction_on with
  | refl => exact .head .advance (.refl _ _)
  | head hact _ ih => exact .head (.act hact) ih

theorem runLine_steps {k₁ : Kernel σ} {pcb : PCB} {line : Text} (hpcb : k.pcbs.get c = some pcb)
    (hfetch : fetch c k = some (line, k₁)) (hrun : runLine (parseInput ho n) c line k₁ = some k') :
    LineSteps ho (.line policy p c quanta) { k₁ with passed := k₁.passed ++ [(pcb.pid, line)] }
      (.executing policy p c quanta) k' := by
  unfold Backing.runLine at hrun
  simp only [Option.bind_eq_bind, Option.bind_eq_some_iff] at hrun
  obtain ⟨pcb₁, hpcb₁, ⟨r, k₂⟩, hparse, _, -, hrun⟩ := hrun
  cases hrun
  have hback := (fetch_spec hfetch).2
  have hpid : pcb₁.pid = pcb.pid := by
    unfold Backing.fetch at hfetch
    simp only [Option.bind_eq_bind, Option.bind_eq_some_iff] at hfetch
    obtain ⟨pcb', hpcb', ⟨line', store⟩, -, hfetch⟩ := hfetch
    cases hfetch
    rw [Heap.get_modify_iff hpcb', if_pos rfl] at hpcb₁
    obtain rfl := Option.some.inj (hpcb.symm.trans hpcb')
    rw [hpcb₁]
  rw [hpid] at hparse
  exact .acts (parseInput_acts (k := { k₁ with passed := k₁.passed ++ [(pcb.pid, line)] }) hback hparse)

theorem Reached.executeLoop {done : Bool} (h : Reached ho (.executing policy p c quanta) k)
    (hrun : executeLoop ho (parseInput ho n) p c quanta k = some (done, k')) :
    Reached ho (.returned policy p done) k' := by
  induction quanta generalizing k with
  | zero =>
    cases hrun
    exact h.step .spent
  | succ quanta ih =>
    unfold Backing.executeLoop at hrun
    obtain ⟨pcb, hpcb, hrun⟩ := Option.bind_eq_some_iff.1 hrun
    split at hrun
    · next hpage =>
      obtain ⟨⟨r, k₁⟩, hfault, hrun⟩ := Option.bind_eq_some_iff.1 hrun
      dsimp only at hrun
      split at hrun
      · next hr =>
        subst hr
        obtain ⟨k₂, hfinish, hrun⟩ := Option.bind_eq_some_iff.1 hrun
        cases hrun
        exact h.step (.noPage hpcb hpage hfault hfinish)
      · next hr =>
        cases hrun
        exact h.step (.fault hpcb hpage hfault hr)
    · next hpage =>
      have hpage := Nat.le_of_not_lt hpage
      obtain ⟨⟨line, k₁⟩, hfetch, hrun⟩ := Option.bind_eq_some_iff.1 hrun
      dsimp only at hrun
      split at hrun
      · next hline =>
        subst hline
        obtain ⟨k₂, hfinish, hrun⟩ := Option.bind_eq_some_iff.1 hrun
        cases hrun
        exact h.step (.noLine hpcb hpage hfetch hfinish)
      · next hline =>
        obtain ⟨k₂, hrunLine, hrun⟩ := Option.bind_eq_some_iff.1 hrun
        exact ih ((h.step (.fetch hpcb hpage hfetch hline)).lineSteps
          (runLine_steps hpcb hfetch hrunLine)) hrun

theorem Reached.round (h : Reached ho (.rounds policy) k)
    (hrun : policy.round ho (parseInput ho n) k = some k') : Reached ho (.rounds policy) k' := by
  rw [Policy.round_eq] at hrun
  simp only [Option.bind_eq_bind, Option.bind_eq_some_iff] at hrun
  obtain ⟨⟨cur, k₁⟩, hpick, ⟨done, k₂⟩, hexec, hrun⟩ := hrun
  unfold executeProcess at hexec
  obtain ⟨node, hnode, hexec⟩ := Option.bind_eq_some_iff.1 hexec
  have hreturned := (h.step (.pick hpick hnode)).executeLoop hexec
  split at hrun
  · next hdone =>
    cases hrun
    exact hreturned.step (.dropped hdone)
  · next hdone =>
    obtain ⟨queue, hback, hrun⟩ := Option.bind_eq_some_iff.1 hrun
    cases hrun
    obtain rfl : done = false := by
      rw [not_or, Bool.not_eq_true] at hdone
      exact hdone.1
    exact hreturned.step (.back hback)

theorem Reached.scheduleByPolicy {m : Nat} {name : Text} {r : Int} (h : Reached ho .prompt k)
    (hrun : scheduleByPolicy ho (parseInput ho n) m name k = some (r, k')) : Reached ho .prompt k' := by
  unfold Backing.scheduleByPolicy at hrun
  split at hrun
  · cases hrun
    exact h
  · split at hrun
    · cases hrun
      exact h
    · obtain ⟨k₁, hscheduler, hlast⟩ := Option.bind_eq_some_iff.1 hrun
      cases hlast
      obtain ⟨k₀, rs, henter, hrounds, hhead⟩ := scheduler_rounds.1 ⟨m, hscheduler⟩
      have hin := h.step (.enter henter)
      clear henter hscheduler hrun h
      induction hrounds with
      | nil => exact hin.step (.leave hhead)
      | cons _ hround _ ih => exact ih hhead (hin.round hround)

/-- A scheduler without rounds does not come back. -/
theorem scheduleByPolicy_zero {parse : Parse σ} {name : Text} {r : Int}
    (hrun : Backing.scheduleByPolicy ho parse 0 name k = some (r, k')) : k' = k := by
  unfold Backing.scheduleByPolicy at hrun
  split at hrun
  · cases hrun
    rfl
  · split at hrun
    · cases hrun
      rfl
    · obtain ⟨k₁, hscheduler, -⟩ := Option.bind_eq_some_iff.1 hrun
      obtain ⟨k₂, -, hloop⟩ := Option.bind_eq_some_iff.1 hscheduler
      cases hloop

/-- **A line from the input** takes the shell through reached states. -/
theorem parseInput_reached {line : Text} {r : Int} (h : Reached ho .prompt k)
    (hrun : parseInput ho n line k = some (r, k')) : Reached ho .prompt k' := by
  have hdoes := parseInput_does hrun
  clear hrun
  induction hdoes with
  | refl => exact h
  | tail _ hstep ih =>
    obtain ⟨k₁, hacts, rfl | ⟨policy, r, hschedule⟩⟩ := hstep
    · exact ih.commands hacts
    · cases n with
      | zero =>
        obtain rfl := scheduleByPolicy_zero hschedule
        exact ih.commands hacts
      | succ n => exact (ih.commands hacts).scheduleByPolicy hschedule

/-! ## One step after the other -/

/-- The step the program takes next, with a line of a script in one step. -/
def next (ho : Host σ) (n : Nat) : Place → Kernel σ → Option (Place × Kernel σ)
  | .rounds policy, k =>
    if k.queue.head = none then some (.prompt, k)
    else do
      let (cur, k) ← policy.pick k
      let node ← k.queue.nodes.get cur
      pure (.executing policy cur node.val policy.quanta, k)
  | .executing policy p _ 0, k => some (.returned policy p false, k)
  | .executing policy p c (quanta + 1), k => do
    let pcb ← k.pcbs.get c
    if pcb.pageCounter < pcb.currentPage then
      let (error, k) ← pageFault ho c k
      if error = -2 then pure (.returned policy p true, ← finish p k)
      else pure (.returned policy p false, k)
    else
      let (line, k) ← fetch c k
      if line = "none".toList then pure (.returned policy p true, ← finish p k)
      else pure (.executing policy p c quanta, ← runLine (parseInput ho n) c line k)
  | .returned policy p done, k =>
    if done ∨ policy = .sjf then some (.rounds policy, k)
    else do pure (.rounds policy, { k with queue := ← policy.back p k.queue })
  | .prompt, _ | .line .., _ => none

theorem next_steps {place place' : Place} (hnext : next ho n place k = some (place', k')) :
    ∃ place₁ k₁, Step ho place k place₁ k₁ ∧ LineSteps ho place₁ k₁ place' k' := by
  have hone {place₁ : Place} {k₁ : Kernel σ} (hstep : Step ho place k place₁ k₁)
    (heq : (place₁, k₁) = (place', k')) :
      ∃ place₁ k₁, Step ho place k place₁ k₁ ∧ LineSteps ho place₁ k₁ place' k' := by
    cases heq
    exact ⟨_, _, hstep, .refl _ _⟩
  unfold Backing.next at hnext
  split at hnext
  · split at hnext
    · next hhead => exact hone (.leave hhead) (Option.some.inj hnext)
    · simp only [Option.bind_eq_bind, Option.bind_eq_some_iff] at hnext
      obtain ⟨⟨cur, k₁⟩, hpick, node, hnode, hnext⟩ := hnext
      exact hone (.pick hpick hnode) (Option.some.inj hnext)
  · exact hone .spent (Option.some.inj hnext)
  · obtain ⟨pcb, hpcb, hnext⟩ := Option.bind_eq_some_iff.1 hnext
    split at hnext
    · next hpage =>
      obtain ⟨⟨r, k₁⟩, hfault, hnext⟩ := Option.bind_eq_some_iff.1 hnext
      dsimp only at hnext
      split at hnext
      · next hr =>
        subst hr
        obtain ⟨k₂, hfinish, hnext⟩ := Option.bind_eq_some_iff.1 hnext
        exact hone (.noPage hpcb hpage hfault hfinish) (Option.some.inj hnext)
      · next hr => exact hone (.fault hpcb hpage hfault hr) (Option.some.inj hnext)
    · next hpage =>
      have hpage := Nat.le_of_not_lt hpage
      obtain ⟨⟨line, k₁⟩, hfetch, hnext⟩ := Option.bind_eq_some_iff.1 hnext
      dsimp only at hnext
      split at hnext
      · next hline =>
        subst hline
        obtain ⟨k₂, hfinish, hnext⟩ := Option.bind_eq_some_iff.1 hnext
        exact hone (.noLine hpcb hpage hfetch hfinish) (Option.some.inj hnext)
      · next hline =>
        obtain ⟨k₂, hrun, hnext⟩ := Option.bind_eq_some_iff.1 hnext
        cases hnext
        exact ⟨_, _, .fetch hpcb hpage hfetch hline, runLine_steps hpcb hfetch hrun⟩
  · split at hnext
    · next hdone => exact hone (.dropped hdone) (Option.some.inj hnext)
    · next hdone =>
      obtain ⟨queue, hback, hnext⟩ := Option.bind_eq_some_iff.1 hnext
      rw [not_or, Bool.not_eq_true] at hdone
      obtain rfl := hdone.1
      exact hone (.back hback) (Option.some.inj hnext)
  · cases hnext
  · cases hnext

theorem Reached.next {place place' : Place} (h : Reached ho place k)
    (hnext : next ho n place k = some (place', k')) : Reached ho place' k' := by
  obtain ⟨place₁, k₁, hstep, hline⟩ := next_steps hnext
  exact (h.step hstep).lineSteps hline

/-- So many steps. -/
def nexts (ho : Host σ) : Nat → Place → Kernel σ → Option (Place × Kernel σ)
  | 0, place, k => some (place, k)
  | m + 1, place, k => do
    let (place, k) ← next ho 0 place k
    nexts ho m place k

theorem Reached.nexts {place place' : Place} {m : Nat} (h : Reached ho place k)
    (hnexts : nexts ho m place k = some (place', k')) : Reached ho place' k' := by
  induction m generalizing place k with
  | zero =>
    cases hnexts
    exact h
  | succ m ih =>
    obtain ⟨⟨place₁, k₁⟩, hfirst, hrest⟩ := Option.bind_eq_some_iff.1 hnexts
    exact ih (h.next hfirst) hrest

/-- Scripts made processes, one after the other. -/
def processInitializeAll (ho : Host σ) : List Text → Kernel σ → Option (Kernel σ)
  | [], k => some k
  | name :: names, k => do
    let (_, k) ← processInitialize ho name k
    processInitializeAll ho names k

/-- Commands `exec` or `run`: their scripts, their policy, and how many steps
their scheduler takes, which is to be back at the prompt before the next command. -/
def batches (ho : Host σ) :
    List (List Text × Policy × Nat) → Place → Kernel σ → Option (Place × Kernel σ)
  | [], place, k => some (place, k)
  | (names, policy, m) :: rest, .prompt, k => do
    let k ← processInitializeAll ho names k
    let (place, k) ← nexts ho m (.rounds policy) (← policy.enter k)
    batches ho rest place k
  | _, _, _ => none

theorem Reached.batches {list : List (List Text × Policy × Nat)} {place place' : Place}
    (h : Reached ho place k) (hrun : batches ho list place k = some (place', k')) :
    Reached ho place' k' := by
  induction list generalizing place k with
  | nil =>
    cases hrun
    exact h
  | cons batch rest ih =>
    obtain ⟨names, policy, m⟩ := batch
    cases place with
    | prompt =>
      simp only [Backing.batches, Option.bind_eq_bind, Option.bind_eq_some_iff] at hrun
      obtain ⟨k₁, hinit, k₂, henter, ⟨place₃, k₃⟩, hnexts, hrun⟩ := hrun
      have hloaded : Reached ho .prompt k₁ := by
        clear hnexts henter hrun
        induction names generalizing k with
        | nil =>
          cases hinit
          exact h
        | cons name names ih =>
          obtain ⟨⟨r, k₀⟩, hfirst, hrest⟩ := Option.bind_eq_some_iff.1 hinit
          exact ih (h.step (.command (.load hfirst))) hrest
      exact ih ((hloaded.step (.enter henter)).nexts hnexts) hrun
    | rounds | executing | line | returned => cases hrun

/-- What is computed of the end of a session is true of a reached state. -/
theorem exists_reached {α : Type} {list : List (List Text × Policy × Nat)}
    {f : Place × Kernel σ → α} {a : α} (h : Reached ho .prompt k)
    (hrun : (batches ho list .prompt k).map f = some a) :
    ∃ place k', Reached ho place k' ∧ f (place, k') = a := by
  obtain ⟨⟨place, k'⟩, hbatches, hf⟩ := Option.map_eq_some_iff.1 hrun
  exact ⟨place, k', h.batches hbatches, hf⟩

/-- A host with files and a frame store of this size. -/
def smallHost (frameStoreSize : Nat) : Host (List (Text × Text)) :=
  { diskHost with frameStoreSize := frameStoreSize, varStoreSize := 2 }

end MyShell.Backing

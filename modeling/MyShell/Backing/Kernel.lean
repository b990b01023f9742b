/-
`kernel.c`: processes are made from scripts copied to the backing store, and
the schedulers run them. What `parseInput` does with a line is a parameter,
since a line may itself make processes. A result of `none` says that the shell
exits, reaches for memory that is not there or never gets that far.
-/
import MyShell.Backing.ReadyQueue

namespace MyShell.Backing

open Paging (Text)

/-- The host, and the sizes the shell is built with. -/
structure Host (σ : Type) where
  frameStoreSize : Nat
  varStoreSize : Nat
  fopen : Text → σ → Option Text
  create : Text → Text → σ → Option σ
  countFilesBacking : σ → Int
  system : Text → σ → Int × σ
  chdir : Text → σ → Option (Int × σ)
  /-- What the caller of `exec` finds where `exec` ends without a `return`. -/
  execAnswer : Int

structure Kernel (σ : Type) where
  store : Store
  pcbs : Heap PCB
  queue : ReadyQueue
  pidCounter : Nat
  inBackground : Bool
  host : σ
  /-- Not in the program: the lines handed to `parseInput` so far, each with the pid of its process. -/
  passed : List (Nat × Text)

abbrev Parse (σ : Type) := Text → Kernel σ → Option (Int × Kernel σ)

variable {σ : Type} (ho : Host σ) (parseInput : Parse σ)

/-- The state in which `main` starts to read. -/
def start (host : σ) : Kernel σ where
  store := memInit ho.frameStoreSize ho.varStoreSize
  pcbs := .empty
  queue := ⟨.empty, none⟩
  pidCounter := 1
  inBackground := false
  host := host
  passed := []

/-! ## New processes -/

def fileDoesNotExist : Int := 1

def fileError : Int := 2

def printInt (n : Int) : Text := (toString n).toList

def backingName (host : σ) : Text := "backing_store/prog".toList ++ printInt (ho.countFilesBacking host)

/-- `copyScript`: the copy ends at a byte that `char` takes for `EOF`. -/
def copyScript (content : Text) (host : σ) : Option σ :=
  ho.create (backingName ho host) (content.takeWhile (· ≠ Char.ofNat 255)) host

def processInitialize (filename : Text) (k : Kernel σ) : Option (Int × Kernel σ) :=
  match ho.fopen filename k.host with
  | none => some (fileDoesNotExist, k)
  | some content =>
    let name := backingName ho k.host
    match copyScript ho content k.host with
    | none => some (fileError, k)
    | some host => do
      let copy ← ho.fopen name host
      let (error, pcb, store) ← loadFile ho.frameStoreSize copy name (makePCB k.pidCounter) k.store
      let k := { k with store := store, pidCounter := k.pidCounter + 1, host := host }
      if error ≠ 0 then pure (fileError, k)
      else
        let node := k.queue.nodes.next
        let queue ← ReadyQueue.addToTail node
            { k.queue with nodes := k.queue.nodes.alloc ⟨k.pcbs.next, none⟩ }
        pure (0, { k with pcbs := k.pcbs.alloc pcb, queue := queue })

/-! ## Running a process -/

/-- `terminate_process`, at the end of a program. -/
def finish (p : Ptr) (k : Kernel σ) : Option (Kernel σ) := do
  pure { k with inBackground := false, queue := ← k.queue.terminateProcess p }

/-- What `execute_process` does about the page that process `c` misses; the
answer is `load_frame`'s first. -/
def pageFault (c : Ptr) (k : Kernel σ) : Option (Int × Kernel σ) := do
  let pcb ← k.pcbs.get c
  let content := ho.fopen pcb.filename k.host
  let (error, pcb, store) ← loadFrame ho.frameStoreSize content pcb k.store
  if error = -1 then
    let (_, pcb, store) ← removeFrame ho.frameStoreSize content pcb store
    let (_, pcb, store) ← loadFrame ho.frameStoreSize content pcb store
    pure (error, { k with store := store, pcbs := k.pcbs.modify c fun _ => pcb })
  else pure (error, { k with store := store, pcbs := k.pcbs.modify c fun _ => pcb })

def PCB.advance (pcb : PCB) : PCB :=
  if pcb.currentLine = 2 then { pcb with currentPage := pcb.currentPage + 1, currentLine := 0 }
  else { pcb with currentLine := pcb.currentLine + 1 }

def fetch (c : Ptr) (k : Kernel σ) : Option (Text × Kernel σ) := do
  let pcb ← k.pcbs.get c
  let (line, store) ← k.store.memGetValueAtLine pcb.pc
  pure (line, { k with
    store := store
    pcbs := k.pcbs.modify c fun pcb => { pcb with pc := pcb.pc + 1, priority := false }
    inBackground := true })

def runLine (c : Ptr) (line : Text) (k : Kernel σ) : Option (Kernel σ) := do
  let pcb ← k.pcbs.get c
  let (_, k) ← parseInput line { k with passed := k.passed ++ [(pcb.pid, line)] }
  let _ ← k.pcbs.get c
  pure { k with inBackground := false, pcbs := k.pcbs.modify c PCB.advance }

/-- The loop of `execute_process` on node `p`, whose process is `c`. -/
def executeLoop (p c : Ptr) : Nat → Kernel σ → Option (Bool × Kernel σ)
  | 0, k => some (false, k)
  | quanta + 1, k => do
    let pcb ← k.pcbs.get c
    if pcb.pageCounter < pcb.currentPage then
      let (error, k) ← pageFault ho c k
      if error = -2 then pure (true, ← finish p k) else pure (false, k)
    else
      let (line, k) ← fetch c k
      if line = "none".toList then pure (true, ← finish p k)
      else executeLoop p c quanta (← runLine parseInput c line k)

def executeProcess (p : Ptr) (quanta : Nat) (k : Kernel σ) : Option (Bool × Kernel σ) := do
  let node ← k.queue.nodes.get p
  executeLoop ho parseInput p node.val quanta k

/-! ## Schedulers -/

def pickHead (k : Kernel σ) : Option (Ptr × Kernel σ) := do
  let (cur, queue) ← k.queue.popHead
  pure (← cur, { k with queue := queue })

def pickShortest (k : Kernel σ) : Option (Ptr × Kernel σ) := do
  let (cur, queue) ← k.queue.popShortestJob k.pcbs
  pure (← cur, { k with queue := queue })

/-- The process that `scheduler_AGING` takes; the others age. -/
def pickAging (k : Kernel σ) : Option (Ptr × Kernel σ) := do
  let (cur, k) ← pickHead k
  let shortest ← k.queue.shortestJobScore k.pcbs
  let pcb ← k.pcbs.get (← k.queue.nodes.get cur).val
  let (cur, k) ← if shortest < pcb.jobLengthScore then do
      let queue ← k.queue.promote k.pcbs shortest
      pickHead { k with queue := ← queue.addToTail cur }
    else pure (cur, k)
  pure (cur, { k with pcbs := ← k.queue.decrementJobLengthScore k.pcbs })

/-- A turn of a process, which goes back into the queue unless it has ended. -/
def turn (back : Ptr → ReadyQueue → Option ReadyQueue) (quanta : Nat) (cur : Ptr)
    (k : Kernel σ) : Option (Kernel σ) := do
  let (done, k) ← executeProcess ho parseInput cur quanta k
  if done then pure k else pure { k with queue := ← back cur k.queue }

/-- A round of `scheduler_FCFS` and `scheduler_RR`. -/
def roundRR (quanta : Nat) (k : Kernel σ) : Option (Kernel σ) := do
  let (cur, k) ← pickHead k
  turn ho parseInput ReadyQueue.addToTail quanta cur k

def roundSJF (k : Kernel σ) : Option (Kernel σ) := do
  let (cur, k) ← pickShortest k
  let (_, k) ← executeProcess ho parseInput cur ReadyQueue.maxInt k
  pure k

def roundAging (k : Kernel σ) : Option (Kernel σ) := do
  let (cur, k) ← pickAging k
  turn ho parseInput ReadyQueue.addToHead 1 cur k

/-- The loop of a scheduler. No scheduler is active but this one. -/
def schedulerLoop (round : Kernel σ → Option (Kernel σ)) : Nat → Kernel σ → Option (Kernel σ)
  | 0, _ => none
  | n + 1, k => if k.queue.head = none then some k else do schedulerLoop round n (← round k)

inductive Policy
  | fcfs | sjf | rr | aging | rr30
deriving DecidableEq

def policyNames : List (Text × Policy) :=
  [("FCFS".toList, .fcfs), ("SJF".toList, .sjf), ("RR".toList, .rr), ("AGING".toList, .aging),
    ("RR30".toList, .rr30)]

def Policy.round : Policy → Kernel σ → Option (Kernel σ)
  | .fcfs => roundRR ho parseInput ReadyQueue.maxInt
  | .sjf => roundSJF ho parseInput
  | .rr => roundRR ho parseInput 2
  | .aging => roundAging ho parseInput
  | .rr30 => roundRR ho parseInput 30

/-- What a scheduler does before its loop. -/
def Policy.enter : Policy → Kernel σ → Option (Kernel σ)
  | .aging, k => do pure { k with queue := ← k.queue.sortReadyQueue k.pcbs }
  | _, k => some k

/-- The scheduler of a policy, for at most `n` rounds. -/
def scheduler (n : Nat) (policy : Policy) (k : Kernel σ) : Option (Kernel σ) := do
  schedulerLoop (policy.round ho parseInput) n (← policy.enter k)

def schedulingError : Int := 5

def scheduleByPolicy (n : Nat) (policy : Text) (k : Kernel σ) : Option (Int × Kernel σ) :=
  match policyNames.lookup policy with
  | none => some (schedulingError, k)
  | some policy =>
    if k.inBackground then some (0, k)
    else do pure (0, ← scheduler ho parseInput n policy k)

/-! ## What these do -/

variable {ho} {k k' : Kernel σ} {c p : Ptr} {r : Int}

/-- `process_initialize` refuses the file with nothing changed, or loads its copy; then
`load_file` has an error, or there is a new process. -/
theorem processInitialize_cases {filename : Text} (h : processInitialize ho filename k = some (r, k')) :
    (r ≠ 0 ∧ k' = k ∧ ∀ content, ho.fopen filename k.host = some content →
      copyScript ho content k.host = none) ∨
    ∃ content host copy error pcb store, ho.fopen filename k.host = some content ∧
      copyScript ho content k.host = some host ∧ ho.fopen (backingName ho k.host) host = some copy ∧
      loadFile ho.frameStoreSize copy (backingName ho k.host) (makePCB k.pidCounter) k.store =
      some (error, pcb, store) ∧
      (error ≠ 0 ∧ r ≠ 0 ∧
          k' = { k with store := store, pidCounter := k.pidCounter + 1, host := host } ∨
        error = 0 ∧ r = 0 ∧ ∃ queue, ReadyQueue.addToTail k.queue.nodes.next
            { k.queue with nodes := k.queue.nodes.alloc ⟨k.pcbs.next, none⟩ } = some queue ∧
          k' = { k with
            store := store, pidCounter := k.pidCounter + 1, host := host
            pcbs := k.pcbs.alloc pcb, queue := queue }) := by
  unfold processInitialize at h
  split at h
  · next hopen =>
    cases h
    exact .inl ⟨by decide, rfl, fun content hcontent => by rw [hopen] at hcontent; cases hcontent⟩
  next content hopen =>
  dsimp only at h
  split at h
  · next hcopy =>
    cases h
    refine .inl ⟨by decide, rfl, fun content' hcontent' => ?_⟩
    obtain rfl := Option.some.inj (hopen.symm.trans hcontent')
    exact hcopy
  next host hcopy =>
  simp only [Option.bind_eq_bind, Option.bind_eq_some_iff] at h
  obtain ⟨copy, hread, ⟨error, pcb, store⟩, hload, h⟩ := h
  refine .inr ⟨content, host, copy, error, pcb, store, hopen, hcopy, hread, hload, ?_⟩
  split at h
  · next herror =>
    cases h
    exact .inl ⟨herror, by decide, rfl⟩
  · next herror =>
    obtain ⟨queue, hadd, h⟩ := Option.bind_eq_some_iff.1 h
    cases h
    exact .inr ⟨not_not.1 herror, rfl, queue, hadd, rfl⟩

/-- A page fault loads the page, after `remove_frame` where no frame is free. -/
theorem pageFault_cases (h : pageFault ho c k = some (r, k')) :
    ∃ pcb content pcb₁ store₁ pcb' store', k.pcbs.get c = some pcb ∧ ho.fopen pcb.filename k.host =
      some content ∧
      loadFrame ho.frameStoreSize (some content) pcb k.store = some (r, pcb₁, store₁) ∧
      k' = { k with store := store', pcbs := k.pcbs.modify c fun _ => pcb' } ∧
      (r ≠ -1 ∧ pcb' = pcb₁ ∧ store' = store₁ ∨
        r = -1 ∧ ∃ r₂ pcb₂ store₂ r₃,
          removeFrame ho.frameStoreSize (some content) pcb₁ store₁ = some (r₂, pcb₂, store₂) ∧
          loadFrame ho.frameStoreSize (some content) pcb₂ store₂ = some (r₃, pcb', store')) := by
  unfold pageFault at h
  simp only [Option.bind_eq_bind, Option.bind_eq_some_iff] at h
  obtain ⟨pcb, hpcb, ⟨error, pcb₁, store₁⟩, hload, h⟩ := h
  cases hopen : ho.fopen pcb.filename k.host with
  | none =>
    rw [hopen] at hload
    cases hload
  | some content =>
    rw [hopen] at hload h
    dsimp only at h
    split at h
    · next herror =>
      simp only [Option.bind_eq_some_iff] at h
      obtain ⟨⟨r₂, pcb₂, store₂⟩, hremove, ⟨r₃, pcb₃, store₃⟩, hagain, h⟩ := h
      cases h
      exact ⟨pcb, content, pcb₁, store₁, pcb₃, store₃, hpcb, hopen, hload, rfl,
        .inr ⟨herror, r₂, pcb₂, store₂, r₃, hremove, hagain⟩⟩
    · next herror =>
      cases h
      exact ⟨pcb, content, pcb₁, store₁, pcb₁, store₁, hpcb, hopen, hload, rfl,
        .inl ⟨herror, rfl, rfl⟩⟩

theorem fetch_cases {line : Text} (h : fetch c k = some (line, k')) :
    ∃ pcb store, k.pcbs.get c = some pcb ∧ k.store.memGetValueAtLine pcb.pc = some (line, store) ∧
      k' = { k with
        store := store
        pcbs := k.pcbs.modify c fun pcb => { pcb with pc := pcb.pc + 1, priority := false }
        inBackground := true } := by
  unfold fetch at h
  simp only [Option.bind_eq_bind, Option.bind_eq_some_iff] at h
  obtain ⟨pcb, hpcb, ⟨line', store⟩, hget, h⟩ := h
  cases h
  exact ⟨pcb, store, hpcb, hget, rfl⟩

theorem finish_cases (h : finish p k = some k') :
    ∃ queue, k.queue.terminateProcess p = some queue ∧
      k' = { k with inBackground := false, queue := queue } := by
  obtain ⟨queue, hqueue, h⟩ := Option.bind_eq_some_iff.1 h
  cases h
  exact ⟨queue, hqueue, rfl⟩

theorem finish_store {p : Ptr} (h : finish p k = some k') : k'.store = k.store := by
  obtain ⟨queue, -, rfl⟩ := finish_cases h
  rfl

end MyShell.Backing

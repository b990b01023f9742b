/-
`kernel.c` and `cpu.c`: the ready queue, the recency list of the pages in
memory, page faults and the round robin. What a line of a script does is a
parameter, `parseInput`, since a line may itself run scripts. A result of
`none` says that the shell exits or reaches for memory that is not there.
-/
import MyShell.Paging.Pcb
import MyShell.Lib.Heap

namespace MyShell.Paging

/-- The state of the shell. `shell` stands for all that is not modelled here:
the file system and the host. -/
structure Kernel (σ : Type) where
  memory : Memory
  pcbs : Heap PCB
  queue : List Ptr
  lruCache : List (Ptr × Nat)
  allPcb : List Ptr
  pidCounter : Nat
  /-- The interpreter's `new_name_count`. -/
  newNameCount : Nat
  strtokRest : Text
  shell : σ
  /-- Not in the program: the lines handed to `parseInput` so far, each with the pid of its process. -/
  passed : List (Nat × Text)

abbrev Parse (σ : Type) := Text → Kernel σ → Option (Int × Kernel σ)

variable {σ : Type} (parseInput : Parse σ) (frameStoreSize : Nat)

/-- What `mem_init` and `kernel_setup` leave. -/
def kernelSetup (shell : σ) : Kernel σ where
  memory := memInit
  pcbs := .empty
  queue := []
  lruCache := []
  allPcb := []
  pidCounter := 1
  newNameCount := 1
  strtokRest := []
  shell := shell
  passed := []

namespace Kernel

def page (k : Kernel σ) (x : Ptr × Nat) : Option Page :=
  (k.pcbs.get x.1).bind fun pcb => pcb.pageTable[x.2]?

def pageEqual (k : Kernel σ) (start : Nat) (y : Ptr × Nat) : Option Bool :=
  (k.page y).map fun page => page.index 0 = start

/-- `remove_elem` on the recency list: the first entry equal to the page, and the others. -/
def removeElem (k : Kernel σ) (start : Nat) : List (Ptr × Nat) → Option ((Ptr × Nat) × List (Ptr × Nat))
  | [] => none
  | y :: l => do
    if ← k.pageEqual start y then pure (y, l)
    else
      let (z, rest) ← removeElem k start l
      pure (z, y :: rest)

end Kernel

/-! ## One line -/

def PCB.advance (pcb : PCB) (i : Nat) : PCB :=
  { pcb with programCounter := pcb.programCounter.modify i (· + 1), size := pcb.size - 1 }

/-- `cpu_run` on the line `programCounter[i]` of page `i`; the answer 1 is the page fault. -/
def cpuRun (p : Ptr) (i : Nat) (k : Kernel σ) : Option (Int × Kernel σ) := do
  let pcb ← k.pcbs.get p
  let page ← pcb.pageTable[i]?
  let pc ← pcb.programCounter[i]?
  if h : pc < 3 then
    if page.validBit ⟨pc, h⟩ then
      let line := (k.memory (page.index ⟨pc, h⟩)).value
      let (ret, k) ← parseInput line { k with passed := k.passed ++ [(pcb.pid, line)] }
      let _ ← k.pcbs.get p
      pure (ret, { k with pcbs := k.pcbs.modify p fun pcb => pcb.advance i })
    else pure (1, k)
  else none

/-- `load_PAGE` on a page of the process under `p`; `false` where no frame is free. -/
def loadPcb (p : Ptr) (i : Nat) (k : Kernel σ) : Option (Bool × Kernel σ) := do
  let pcb ← k.pcbs.get p
  if pcb.pageTable.length ≤ i then none
  else match pcb.load frameStoreSize i k.memory with
    | none => pure (false, k)
    | some (pcb, m) => pure (true, { k with memory := m, pcbs := k.pcbs.modify p fun _ => pcb })

def ownerOf (k : Kernel σ) (pid : Nat) : List Ptr → Option Ptr
  | [] => none
  | q :: l => do
    let pcb ← k.pcbs.get q
    if pcb.pid = pid then pure q else ownerOf k pid l

/-- The page least recently used leaves the memory. -/
def evictTail (k : Kernel σ) : Option (Kernel σ) := do
  let victim ← k.lruCache.getLast?
  let page ← k.page victim
  let owner ← ownerOf k page.pagePid k.allPcb
  let pcb ← k.pcbs.get owner
  let evicted ← pcb.pageTable[page.pageIndex]?
  let (blank, m) := pageEvict evicted k.memory
  pure { k with
    lruCache := k.lruCache.dropLast
    memory := m
    pcbs := k.pcbs.modify owner fun pcb =>
      { pcb with pageTable := pcb.pageTable.set page.pageIndex blank } }

def pageFault (p : Ptr) (i : Nat) (k : Kernel σ) : Option (Kernel σ) := do
  let (ok, k) ← loadPcb frameStoreSize p i k
  let k ← if ok then pure k else do
    let k ← evictTail k
    let (_, k) ← loadPcb frameStoreSize p i k
    pure k
  pure { k with lruCache := (p, i) :: k.lruCache, queue := k.queue ++ [p] }

def runProc (p : Ptr) (i : Nat) (k : Kernel σ) : Option (Int × Kernel σ) := do
  let (ret, k) ← cpuRun parseInput p i k
  if ret = 1 then
    let k ← pageFault frameStoreSize p i k
    pure (1, k)
  else
    let page ← k.page (p, i)
    let (x, rest) ← k.removeElem (page.index 0) k.lruCache
    pure (0, { k with lruCache := x :: rest })

/-! ## Processes -/

def newProc (script : Option Text) (k : Kernel σ) : Option (Kernel σ) := do
  let (pcb, m) ← pcbInit frameStoreSize k.pidCounter script k.memory
  let p := k.pcbs.next
  pure { k with
    memory := m
    pcbs := k.pcbs.alloc pcb
    pidCounter := k.pidCounter + 1
    allPcb := k.allPcb ++ [p]
    queue := k.queue ++ [p]
    lruCache := (List.range (min 2 pcb.pageTable.length)).foldl (fun l i => (p, i) :: l) k.lruCache }

def newProcs : List (Option Text) → Kernel σ → Option (Kernel σ)
  | [], k => some k
  | s :: ss, k => do
    let k ← newProc frameStoreSize s k
    newProcs ss k

/-! ## Round robin -/

def runLine (p : Ptr) (k : Kernel σ) : Option (Int × Kernel σ) := do
  let pcb ← k.pcbs.get p
  runProc parseInput frameStoreSize p (pcb.programCounter.findIdx (· ≠ 3)) k

/-- The turn of the process popped from the queue: two lines of it where it has as many. -/
def turn (p : Ptr) (k : Kernel σ) : Option (Kernel σ) := do
  let pcb ← k.pcbs.get p
  if 1 < pcb.size then
    let (ret, k) ← runLine parseInput frameStoreSize p k
    if ret = 1 then pure k
    else
      let (ret, k) ← runLine parseInput frameStoreSize p k
      if ret = 1 then pure k
      else pure { k with queue := k.queue ++ [p] }
  else if pcb.size = 1 then
    let (_, k) ← runLine parseInput frameStoreSize p k
    pure k
  else pure k

def queueDone (k : Kernel σ) : List Ptr → Option Bool
  | [] => some true
  | p :: l => do
    let pcb ← k.pcbs.get p
    if pcbDone pcb then queueDone k l else pure false

def freePcb (p : Ptr) (k : Kernel σ) : Option (Kernel σ) := do
  let pcb ← k.pcbs.get p
  pure { k with memory := clearPages pcb.pageTable k.memory, pcbs := k.pcbs.free p }

def freeAll : List Ptr → Kernel σ → Option (Kernel σ)
  | [], k => some k
  | p :: l, k => do
    let k ← freePcb p k
    freeAll l k

/-- What `run_proc_RR` does when the queue is done. -/
def cleanUp (k : Kernel σ) : Option (Kernel σ) := do
  let k ← freeAll k.allPcb k
  pure { k with queue := [], lruCache := [], allPcb := [] }

/-- `run_proc_RR`, at most `n` turns of it. -/
def runProcRR : Nat → Kernel σ → Option (Int × Kernel σ)
  | 0, _ => none
  | n + 1, k => do
    if ← queueDone k k.queue then
      let k ← cleanUp k
      pure (0, k)
    else match k.queue with
      | [] => none
      | p :: queue =>
        let k ← turn parseInput frameStoreSize p { k with queue := queue }
        runProcRR n k

/-- `exec` with the policy RR on the contents of the scripts; on one script it is `run`. -/
def exec (n : Nat) (scripts : List (Option Text)) (k : Kernel σ) : Option (Int × Kernel σ) :=
  if 3 < scripts.length then some (1, k)
  else do
    let k ← newProcs frameStoreSize scripts k
    runProcRR parseInput frameStoreSize n k

end MyShell.Paging

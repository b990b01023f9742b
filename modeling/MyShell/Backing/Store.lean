/-
`shellmemory.c` and `pcb.c` of the shell that pages scripts from its backing
store (a2). The memory is a row of lines: frames of three below `THRESHOLD`,
which is `FRAME_STORE_SIZE`, then the variables. A result of `none` says that
the program reaches outside an array, frees a literal or reads through NULL.
-/
import MyShell.Paging.Text

namespace MyShell.Backing

open Paging (Text readLine)

/-! ## Shell memory -/

/-- `struct memory_struct`. A string is allocated, or it is the literal "none". -/
structure Slot where
  var : Option Text
  value : Option Text
  age : Nat
  accessed : Nat
deriving DecidableEq

/-- The characters of a string of the memory. -/
def str (s : Option Text) : Text := s.getD "none".toList

def Slot.literal : Slot := ⟨none, none, 0, 0⟩

inductive PagePolicy
  | fifo | lru
deriving DecidableEq

/-- The globals of `shellmemory.c`. -/
structure Store where
  lines : List Slot
  globalAccessTime : Nat
  currentPolicy : PagePolicy
deriving DecidableEq

/-- `mem_init`, on a program that has just started. -/
def memInit (frameStoreSize varStoreSize : Nat) : Store :=
  ⟨List.replicate (frameStoreSize + varStoreSize) .literal, 0, .lru⟩

namespace Store

variable (threshold : Nat)

/-! ## Variables -/

/-- The first variable with this name. -/
def varIndex (name : Text) (m : Store) : Option Nat :=
  (List.range m.lines.length).find? fun i =>
    threshold ≤ i ∧ (m.lines[i]?.map fun s => str s.var) = some name

def memInitVariable (m : Store) : Store :=
  { m with
    lines := m.lines.mapIdx fun i s =>
      if threshold ≤ i then { s with var := none, value := none } else s }

def memSetValue (var value : Text) (m : Store) : Store :=
  match m.varIndex threshold var with
  | some i => { m with lines := m.lines.modify i fun s => { s with value := some value } }
  | none =>
    match m.varIndex threshold "none".toList with
    | some i =>
      { m with lines := m.lines.modify i fun s => { s with var := some var, value := some value } }
    | none => m

/-- `accessed = ++global_access_time` -/
def access (i : Nat) (m : Store) : Store :=
  { m with
    lines := m.lines.modify i fun s => { s with accessed := m.globalAccessTime + 1 }
    globalAccessTime := m.globalAccessTime + 1 }

def memGetValue (var : Text) (m : Store) : Option Text × Store :=
  match m.varIndex threshold var with
  | some i => (m.lines[i]?.map fun s => str s.value, m.access i)
  | none => (none, m)

def memGetValueAtLine (i : Nat) (m : Store) : Option (Text × Store) := do
  let s ← m.lines[i]?
  pure (str s.value, m.access i)

/-! ## Frames -/

/-- The first lines of the frames. -/
def frameStarts : List Nat := (List.range threshold).filter (3 ∣ ·)

/-- The three lines from `i` on are free; a line is looked at only where those before it are. -/
def frameFree (m : Store) (i : Nat) : Option Bool := do
  if str (← m.lines[i]?).var ≠ "none".toList then pure false
  else if str (← m.lines[i + 1]?).var ≠ "none".toList then pure false
  else pure (str (← m.lines[i + 2]?).var = "none".toList)

def firstFree (m : Store) : List Nat → Option (Option Nat)
  | [] => some none
  | i :: is => do if ← m.frameFree i then pure (some i) else firstFree m is

def findAvailableSlot (m : Store) : Option (Option Nat) := m.firstFree (frameStarts threshold)

/-- The frame whose first line has the smallest stamp, if it is below the bound. -/
def findOldest (stamp : Slot → Nat) (m : Store) : List Nat → Nat → Option Nat → Option (Option Nat)
  | [], _, index => some index
  | i :: is, time, index => do
    let s ← m.lines[i]?
    if stamp s < time then findOldest stamp m is (stamp s) (some i)
    else findOldest stamp m is time index

def findLruSlot (m : Store) : Option (Option Nat) :=
  m.findOldest Slot.accessed (frameStarts threshold) 9999 none

def findFifoSlot (m : Store) : Option (Option Nat) :=
  m.findOldest Slot.age (frameStarts threshold) 9999 none

def findReplacementSlot (m : Store) : Option (Option Nat) :=
  match m.currentPolicy with
  | .lru => m.findLruSlot threshold
  | .fifo => m.findFifoSlot threshold

/-- Stores a line of the file `filename` in line `i`. -/
def putLine (filename line : Text) (i : Nat) (m : Store) : Option Store :=
  if i < m.lines.length then
    some { m with
      lines := m.lines.set i ⟨some filename, some line, m.globalAccessTime + 1, m.globalAccessTime + 1⟩
      globalAccessTime := m.globalAccessTime + 1 }
  else none

/-- Frees line `i`, whose strings must be allocated ones. -/
def freeLine (i : Nat) (m : Store) : Option Store := do
  let s ← m.lines[i]?
  if s.var.isSome ∧ s.value.isSome then
    pure { m with
      lines := m.lines.set i ⟨none, none, m.globalAccessTime + 1, m.globalAccessTime + 1⟩
      globalAccessTime := m.globalAccessTime + 1 }
  else none

/-- `mem_free_lines_between` for the lines of the list. -/
def memFreeLines : List Nat → Store → Option Store
  | [], m => some m
  | i :: is, m => if i < m.lines.length then do memFreeLines is (← m.freeLine i) else some m

end Store

/-! ## Files -/

/-- An open file: what has not been read, and whether a read has met the end. -/
structure Stream where
  rest : Text
  eof : Bool

/-- `fgets(line, 100, fp)` -/
def Stream.fgets (f : Stream) : Option Text × Stream :=
  match f.rest with
  | [] => (none, ⟨[], true⟩)
  | c :: s =>
    let (line, rest) := readLine 99 (c :: s)
    (some line, ⟨rest, f.eof || (line.length < 99 && line.getLast? ≠ some '\n')⟩)

/-- Reads this many lines, unless a read meets the end of the file. -/
def skipLines : Nat → Stream → Option Stream
  | 0, f => some f
  | n + 1, f => if f.fgets.2.eof then none else skipLines n f.fgets.2

/-! ## Processes -/

def maxPages : Nat := 10

structure PCB where
  priority : Bool
  currentPage : Nat
  pid : Nat
  pc : Nat
  start : Nat
  stop : Int
  jobLengthScore : Int
  pageCounter : Nat
  currentLine : Nat
  filename : Text
  pagetable : List Bool

/-- `makePCB`, with the number from `generatePID`. -/
def makePCB (pid : Nat) : PCB where
  priority := false
  currentPage := 1
  pid := pid
  pc := 0
  start := 0
  stop := 0
  jobLengthScore := 1
  pageCounter := 0
  currentLine := 0
  filename := []
  pagetable := List.replicate maxPages false

/-- `pagetable[pageCounter] = true; pageCounter++` -/
def PCB.countPage (pcb : PCB) : Option PCB :=
  if pcb.pageCounter < maxPages then
    some { pcb with
      pagetable := pcb.pagetable.set pcb.pageCounter true, pageCounter := pcb.pageCounter + 1 }
  else none

/-- The process will read from line `i` on. -/
def PCB.place (pcb : PCB) (i : Nat) : PCB := { pcb with start := i, pc := i }

/-- What the loops of `load_file` and `load_frame` work on. -/
structure Loading where
  store : Store
  pcb : PCB
  file : Stream
  frameIndex : Nat
  linesLoaded : Nat
  loadNextPage : Bool

/-- `load_file`'s loop over the lines of a page. -/
def loadPage : Nat → Loading → Option Loading
  | 0, s => some s
  | n + 1, s =>
    if ¬ s.linesLoaded < 6 ∨ s.file.eof then some s
    else match s.file.fgets with
      | (none, file) => loadPage n { s with file := file }
      | (some line, file) => do
        let store ← s.store.putLine s.pcb.filename line s.frameIndex
        let s := { s with
          store := store, file := file
          frameIndex := s.frameIndex + 1, linesLoaded := s.linesLoaded + 1 }
        if s.linesLoaded % 3 = 0 ∨ file.eof then do
          let pcb ← s.pcb.countPage
          loadPage n { s with pcb := pcb, loadNextPage := s.loadNextPage && pcb.pageCounter ≠ 2 }
        else loadPage n s

/-- `load_file`'s loop over pages: its error and what it leaves. `THRESHOLD - 2`
is compared as an unsigned number. -/
def loadPages (threshold : Nat) : Nat → Loading → Option (Nat × Loading)
  | 0, _ => none
  | n + 1, s =>
    if ¬ s.file.eof ∧ s.loadNextPage ∧ (threshold < 2 ∨ s.frameIndex < threshold - 2) then do
      let s ← loadPage 3 s
      if threshold < s.frameIndex then pure (21, s) else loadPages threshold n s
    else pure (0, s)

/-- `load_file`, on a file with this name and content. -/
def loadFile (threshold : Nat) (content filename : Text) (pcb : PCB) (m : Store) :
    Option (Nat × PCB × Store) :=
  do match ← m.findAvailableSlot threshold with
  | none => pure (21, pcb, m)
  | some i =>
    -- a page takes a turn of the loop, and so may the end of the file
    let (error, s) ← loadPages threshold 3
      ⟨m, { pcb.place i with filename := filename }, ⟨content, false⟩, i, 0, true⟩
    pure (error, { s.pcb with stop := s.frameIndex - 1 }, s.store)

/-- `load_frame`'s loop. -/
def fillFrame : Nat → Loading → Option Loading
  | 0, s => some s
  | n + 1, s =>
    if s.file.eof then some s
    else match s.file.fgets with
      | (none, file) => fillFrame n { s with file := file }
      | (some line, file) => do
        let store ← s.store.putLine s.pcb.filename line s.frameIndex
        fillFrame n { s with store := store, file := file, frameIndex := s.frameIndex + 1 }

/-- `load_frame`, where the process's file has this content. -/
def loadFrame (threshold : Nat) (content : Option Text) (pcb : PCB) (m : Store) :
    Option (Int × PCB × Store) :=
  do match skipLines (pcb.pageCounter * 3) ⟨← content, false⟩ with
  | none => pure (-2, pcb, m)
  | some file =>
    match ← m.findAvailableSlot threshold with
    | none => pure (-1, pcb, m)
    | some i =>
      let s ← fillFrame 3 ⟨m, pcb.place i, file, i, 0, true⟩
      let pcb ← s.pcb.countPage
      pure (0, { pcb with stop := s.frameIndex - 1 }, s.store)

/-- `remove_frame`, where the process's file has this content. The victim is
printed before it is freed. -/
def removeFrame (threshold : Nat) (content : Option Text) (pcb : PCB) (m : Store) :
    Option (Int × PCB × Store) :=
  match content with
  | none => some (-1, pcb, m)
  | some _ => do
    let i ← ← m.findReplacementSlot threshold
    let _ ← m.lines[i + 1]?
    let _ ← m.lines[i + 2]?
    let m ← m.memFreeLines [i, i + 1, i + 2]
    pure (0, { pcb.place i with pagetable := pcb.pagetable.set 0 false }, m)

theorem removeFrame_cases {threshold : Nat} {content : Text} {pcb pcb' : PCB} {m m' : Store} {r : Int}
    (h : removeFrame threshold (some content) pcb m = some (r, pcb', m')) :
    ∃ i, m.findReplacementSlot threshold = some (some i) ∧ i + 2 < m.lines.length ∧
      m.memFreeLines [i, i + 1, i + 2] = some m' ∧ r = 0 ∧
      pcb' = { pcb.place i with pagetable := pcb.pagetable.set 0 false } := by
  unfold removeFrame at h
  simp only [Option.bind_eq_bind, Option.bind_eq_some_iff] at h
  obtain ⟨_, hslot, i, rfl, _, -, s₂, hs₂, m₁, hfree, h⟩ := h
  cases h
  exact ⟨i, hslot, (List.getElem?_eq_some_iff.1 hs₂).1, hfree, rfl, rfl⟩

end MyShell.Backing

/-
`shellmemory.c` as far as frames go, and `pcb.c`: the lines of the shell
memory, the pages of a process and the frames they are read into.
-/
import MyShell.Paging.Text
import Mathlib.Algebra.GroupWithZero.Nat
import Mathlib.Logic.Function.Basic

namespace MyShell.Paging

/-! ## Shell memory -/

/-- A line of the shell memory; a free one is named "none". -/
structure Slot where
  var : Text
  value : Text
deriving DecidableEq

def vacant : Text := "none".toList

/-- `shellmemory` and what lies behind it: the frames below `FRAME_STORE_SIZE`,
then the variables. -/
abbrev Memory := Nat → Slot

def memInit : Memory := fun _ => ⟨vacant, vacant⟩

def memFreeAt (m : Memory) (pos : Nat) : Memory := Function.update m pos ⟨vacant, vacant⟩

def clearFrame (m : Memory) (start : Nat) : Memory := [start, start + 1, start + 2].foldl memFreeAt m

/-- The inner loop of `frame_alloc`: the three lines from `i` on are frame lines and free. -/
def frameFree (size : Nat) (m : Memory) (i : Nat) : Bool :=
  i + 3 ≤ size && [i, i + 1, i + 2].all fun j => (m j).var = vacant

/-- The first free frame, taken for the process. -/
def frameAlloc (size : Nat) (pid : Text) (m : Memory) : Option (Nat × Memory) :=
  ((List.range size).find? (frameFree size m)).map fun i =>
    (i, fun k => if i ≤ k ∧ k < i + 3 then { m k with var := pid } else m k)

/-! ## Pages -/

/-- The lines of a page are numbered. -/
instance neZero_three : NeZero 3 := ⟨by decide⟩

structure Page where
  index : Fin 3 → Nat
  validBit : Fin 3 → Bool
  pageIndex : Nat
  pagePid : Nat

structure PCB where
  pid : Nat
  size : Int
  programCounter : List Nat
  pageTable : List Page
  /-- What `fgets` has not read yet. -/
  sourceFile : Text

def pidStr (pid : Nat) : Text := (toString pid).toList

def pageInit (pid i : Nat) : Page := ⟨fun _ => 1000, fun _ => false, i, pid⟩

def pageTableSize (lines : Nat) : Nat := if lines % 3 = 0 then lines / 3 else lines / 3 + 1

/-- The page in the frame at `start`, nothing read into it yet. -/
def Page.place (page : Page) (start : Nat) : Page :=
  { page with index := fun j => start + j, validBit := fun _ => false }

/-- Reads lines into a page until the file ends. -/
def readLines (pid : Text) : List (Fin 3) → Page → Text → Memory → Page × Text × Memory
  | [], page, src, m => (page, src, m)
  | j :: js, page, src, m =>
    match fgets 999 src with
    | none => (page, src, m)
    | some (line, rest) =>
      readLines pid js { page with validBit := Function.update page.validBit j true } rest
        (Function.update m (page.index j) ⟨pid, line⟩)

/-- `load_PAGE`: nothing where there is no free frame. -/
def loadPage (size : Nat) (pid : Text) (page : Page) (src : Text) (m : Memory) :
    Option (Page × Text × Memory) :=
  (frameAlloc size pid m).map fun r => readLines pid [0, 1, 2] (page.place r.1) src r.2

def pageEvict (page : Page) (m : Memory) : Page × Memory :=
  ({ page with index := fun _ => 0, validBit := fun _ => false },
    [page.index 0, page.index 1, page.index 2].foldl memFreeAt m)

/-! ## Process control blocks -/

/-- Puts a page and a file position into a process. -/
def PCB.setPage (pcb : PCB) (i : Nat) (page : Page) (src : Text) : PCB :=
  { pcb with pageTable := pcb.pageTable.set i page, sourceFile := src }

/-- `load_PAGE` on a page of a process. -/
def PCB.load (size : Nat) (pcb : PCB) (i : Nat) (m : Memory) : Option (PCB × Memory) := do
  let page ← pcb.pageTable[i]?
  let (page, src, m) ← loadPage size (pidStr pcb.pid) page pcb.sourceFile m
  pure (pcb.setPage i page src, m)

/-- Loads the pages of the list, one after the other. -/
def PCB.loadAll (size : Nat) : List Nat → PCB → Memory → Option (PCB × Memory)
  | [], pcb, m => some (pcb, m)
  | i :: is, pcb, m => do
    let (pcb, m) ← pcb.load size i m
    PCB.loadAll size is pcb m

/-- The process before its first pages are loaded. -/
def pcbNew (pid : Nat) (script : Text) : PCB where
  pid := pid
  size := countLines script
  programCounter := List.replicate (pageTableSize (countLines script)) 0
  pageTable := (List.range (pageTableSize (countLines script))).map (pageInit pid)
  sourceFile := script

/-- `PCB_init`: the shell exits where the script is missing or a first page has no frame. -/
def pcbInit (size pid : Nat) (script : Option Text) (m : Memory) : Option (PCB × Memory) := do
  let script ← script
  let pcb := pcbNew pid script
  PCB.loadAll size (List.range (min 2 pcb.pageTable.length)) pcb m

def pcbDone (pcb : PCB) : Bool := pcb.programCounter.all (· = 3)

/-- The frames that `free_PCB` clears: three lines from every index of every page. -/
def clearPages (pages : List Page) (m : Memory) : Memory :=
  pages.foldl (fun m page => [page.index 0, page.index 1, page.index 2].foldl clearFrame m) m

end MyShell.Paging

/-
list.c: doubly linked lists whose links are inside the elements. A list is its
two headers, an element is known by the structure it is embedded in, and every
function works on the links alone. A failed `ASSERT` prints and goes on
(`panics` counts them); a null link that is followed is undefined, and stuck
here. Loops take the number of turns they may make.
-/
import MyShell.Lib.Sentinel
import MyShell.Lib.NaturalMerge

namespace MyShell.Fs

open Sentinel (Links)

variable {ι α β γ : Type}

/-- `struct list_elem *`: a header of a `struct list`, or the one in a structure. -/
abbrev ListElem (ι α : Type) := Sentinel.Node ι α

structure ListState (ι α : Type) where
  links : Links ι α
  panics : Nat

abbrev ListM (ι α : Type) := StateT (ListState ι α) Option

/-! ## Fields -/

section fields

def assert (c : Bool) : ListM ι α Unit :=
  if c then pure () else modify fun s => { s with panics := s.panics + 1 }

/-- `p->prev`, null or not. -/
def prevField (p : ListElem ι α) : ListM ι α (Option (ListElem ι α)) := do pure ((← get).links.prev p)

/-- `p->next`, null or not. -/
def nextField (p : ListElem ι α) : ListM ι α (Option (ListElem ι α)) := do pure ((← get).links.next p)

/-- `p->prev`, where it is used as an element. -/
def getPrev (p : ListElem ι α) : ListM ι α (ListElem ι α) := do
  match ← prevField p with
  | some q => pure q
  | none => failure

/-- `p->next`, where it is used as an element. -/
def getNext (p : ListElem ι α) : ListM ι α (ListElem ι α) := do
  match ← nextField p with
  | some q => pure q
  | none => failure

variable [DecidableEq ι] [DecidableEq α]

def setPrev (p : ListElem ι α) (o : Option (ListElem ι α)) : ListM ι α Unit :=
  modify fun s => { s with links := s.links.setPrev p o }

def setNext (p : ListElem ι α) (o : Option (ListElem ι α)) : ListM ι α Unit :=
  modify fun s => { s with links := s.links.setNext p o }

end fields

/-- `less`, through `list_entry`; a header is in no structure. -/
def callLess (less : α → α → Bool) : ListElem ι α → ListElem ι α → ListM ι α Bool
  | .elem x, .elem y => pure (less x y)
  | _, _ => failure

/-! ## Traversal -/

def isHead (e : ListElem ι α) : ListM ι α Bool :=
  do pure ((← prevField e).isNone && (← nextField e).isSome)

def isInterior (e : ListElem ι α) : ListM ι α Bool :=
  do pure ((← prevField e).isSome && (← nextField e).isSome)

def isTail (e : ListElem ι α) : ListM ι α Bool :=
  do pure ((← prevField e).isSome && (← nextField e).isNone)

def listBegin (list : ι) : ListM ι α (ListElem ι α) := getNext (.head list)

def listNext (e : ListElem ι α) : ListM ι α (ListElem ι α) := do
  assert ((← isHead e) || (← isInterior e))
  getNext e

def listEnd (list : ι) : ListElem ι α := .tail list

def listRbegin (list : ι) : ListM ι α (ListElem ι α) := getPrev (.tail list)

def listPrev (e : ListElem ι α) : ListM ι α (ListElem ι α) := do
  assert ((← isInterior e) || (← isTail e))
  getPrev e

/-- `list_rend` and `list_head` are the header before the first element. -/
def listRend (list : ι) : ListElem ι α := .head list

variable [DecidableEq ι] [DecidableEq α]

def listEmpty (list : ι) : ListM ι α Bool := do pure ((← listBegin list) = listEnd list)

def listFront (list : ι) : ListM ι α (ListElem ι α) := do
  assert (!(← listEmpty list))
  getNext (.head list)

def listBack (list : ι) : ListM ι α (ListElem ι α) := do
  assert (!(← listEmpty list))
  getPrev (.tail list)

/-- `for (; e != list_end (list); e = list_next (e)) cnt++;` -/
def sizeFrom (list : ι) : Nat → ListElem ι α → Nat → ListM ι α Nat
  | 0, _, _ => failure
  | fuel + 1, e, cnt => do
    if e = listEnd list then pure cnt
    else sizeFrom list fuel (← listNext e) (cnt + 1)

def listSize (fuel : Nat) (list : ι) : ListM ι α Nat := do sizeFrom list fuel (← listBegin list) 0

/-! ## Insertion and removal -/

def llistInit (list : ι) : ListM ι α Unit := do
  setPrev (.head list) none
  setNext (.head list) (some (.tail list))
  setPrev (.tail list) (some (.head list))
  setNext (.tail list) none

def listInsert (before e : ListElem ι α) : ListM ι α Unit := do
  assert ((← isInterior before) || (← isTail before))
  setPrev e (← prevField before)
  setNext e (some before)
  setNext (← getPrev before) (some e)
  setPrev before (some e)

def listSplice (before first last : ListElem ι α) : ListM ι α Unit := do
  assert ((← isInterior before) || (← isTail before))
  if first = last then pure ()
  else
    let last ← listPrev last
    assert (← isInterior first)
    assert (← isInterior last)
    -- take `first` to `last` out of their list
    setNext (← getPrev first) (← nextField last)
    setPrev (← getNext last) (← prevField first)
    -- and put them before `before`
    setPrev first (← prevField before)
    setNext last (some before)
    setNext (← getPrev before) (some first)
    setPrev before (some last)

def listPushFront (list : ι) (e : ListElem ι α) : ListM ι α Unit := do listInsert (← listBegin list) e

def listPushBack (list : ι) (e : ListElem ι α) : ListM ι α Unit := listInsert (listEnd list) e

def listRemove (e : ListElem ι α) : ListM ι α (ListElem ι α) := do
  assert (← isInterior e)
  setNext (← getPrev e) (← nextField e)
  setPrev (← getNext e) (← prevField e)
  getNext e

def listPopFront (list : ι) : ListM ι α (ListElem ι α) := do
  let front ← listFront list
  let _ ← listRemove front
  pure front

def listPopBack (list : ι) : ListM ι α (ListElem ι α) := do
  let back ← listBack list
  let _ ← listRemove back
  pure back

/-! ## Reversal -/

/-- `swap (&e->prev, &e->next)` -/
def swapLinks (e : ListElem ι α) : ListM ι α Unit := do
  let prev ← prevField e
  setPrev e (← nextField e)
  setNext e prev

/-- `for (; e != list_end (list); e = e->prev) swap (&e->prev, &e->next);` -/
def reverseFrom (list : ι) : Nat → ListElem ι α → ListM ι α Unit
  | 0, _ => failure
  | fuel + 1, e => do
    if e = listEnd list then pure ()
    else
      swapLinks e
      reverseFrom list fuel (← getPrev e)

def listReverse (fuel : Nat) (list : ι) : ListM ι α Unit := do
  if ← listEmpty list then pure ()
  else
    reverseFrom list fuel (← listBegin list)
    -- the headers change ends
    let front ← nextField (.head list)
    setNext (.head list) (← prevField (.tail list))
    setPrev (.tail list) front
    let front ← getNext (.head list)
    let back ← getPrev (.tail list)
    let prev ← prevField front
    setPrev front (← nextField back)
    setNext back prev

/-! ## Ordered lists -/

section order

variable (less : α → α → Bool)

/-- `while ((a = list_next (a)) != b) if (less (a, list_prev (a), aux)) return false;` -/
def isSortedFrom (b : ListElem ι α) : Nat → ListElem ι α → ListM ι α Bool
  | 0, _ => failure
  | fuel + 1, a => do
    let a ← listNext a
    if a = b then pure true
    else if ← callLess less a (← listPrev a) then pure false
    else isSortedFrom b fuel a

def isSorted (fuel : Nat) (a b : ListElem ι α) : ListM ι α Bool :=
  if a ≠ b then isSortedFrom less b fuel a else pure true

/-- `do a = list_next (a); while (a != b && !less (a, list_prev (a), aux));` -/
def endOfRunFrom (b : ListElem ι α) : Nat → ListElem ι α → ListM ι α (ListElem ι α)
  | 0, _ => failure
  | fuel + 1, a => do
    let a ← listNext a
    if a = b then pure a
    else if ← callLess less a (← listPrev a) then pure a
    else endOfRunFrom b fuel a

def findEndOfRun (fuel : Nat) (a b : ListElem ι α) : ListM ι α (ListElem ι α) := do
  assert (a ≠ b)
  endOfRunFrom less b fuel a

/-- The loop of `inplace_merge`. -/
def mergeFrom (b1 : ListElem ι α) : Nat → ListElem ι α → ListElem ι α → ListM ι α Unit
  | 0, _, _ => failure
  | fuel + 1, a0, a1b0 => do
    if a0 ≠ a1b0 ∧ a1b0 ≠ b1 then
      if !(← callLess less a1b0 a0) then mergeFrom b1 fuel (← listNext a0) a1b0
      else
        let a1b0 ← listNext a1b0
        listSplice a0 (← listPrev a1b0) a1b0
        mergeFrom b1 fuel a0 a1b0
    else pure ()

def inplaceMerge (fuel : Nat) (a0 a1b0 b1 : ListElem ι α) : ListM ι α Unit := do
  assert (← isSorted less fuel a0 a1b0)
  assert (← isSorted less fuel a1b0 b1)
  mergeFrom less b1 fuel a0 a1b0

/-- One pass of `list_sort` from `a0`; the inner loops may make `turns` turns. -/
def sortPassFrom (turns : Nat) (list : ι) : Nat → ListElem ι α → Nat → ListM ι α Nat
  | 0, _, _ => failure
  | fuel + 1, a0, outputRunCnt => do
    if a0 = listEnd list then pure outputRunCnt
    else
      let a1b0 ← findEndOfRun less turns a0 (listEnd list)
      if a1b0 = listEnd list then pure (outputRunCnt + 1)
      else
        let b1 ← findEndOfRun less turns a1b0 (listEnd list)
        inplaceMerge less turns a0 a1b0 b1
        sortPassFrom turns list fuel b1 (outputRunCnt + 1)

/-- The passes of `list_sort`. -/
def sortPasses (turns : Nat) (list : ι) : Nat → ListM ι α Unit
  | 0 => failure
  | fuel + 1 => do
    let outputRunCnt ← sortPassFrom less turns list turns (← listBegin list) 0
    if outputRunCnt > 1 then sortPasses turns list fuel else pure ()

def listSort (fuel : Nat) (list : ι) : ListM ι α Unit := do
  sortPasses less fuel list fuel
  assert (← isSorted less fuel (← listBegin list) (listEnd list))

/-- `for (; e != list_end (list); e = list_next (e)) if (less (elem, e, aux)) break;` -/
def insertPoint (list : ι) (elem : ListElem ι α) : Nat → ListElem ι α → ListM ι α (ListElem ι α)
  | 0, _ => failure
  | fuel + 1, e => do
    if e = listEnd list then pure e
    else if ← callLess less elem e then pure e
    else insertPoint list elem fuel (← listNext e)

def listInsertOrdered (fuel : Nat) (list : ι) (elem : ListElem ι α) : ListM ι α Unit := do
  let e ← insertPoint less list elem fuel (← listBegin list)
  listInsert e elem

/-- The loop of `list_unique`. -/
def uniqueFrom (list : ι) (duplicates : Option ι) : Nat → ListElem ι α → ListM ι α Unit
  | 0, _ => failure
  | fuel + 1, elem => do
    let next ← listNext elem
    if next = listEnd list then pure ()
    else if !(← callLess less elem next) && !(← callLess less next elem) then
      let _ ← listRemove next
      match duplicates with
      | some duplicates => listPushBack duplicates next
      | none => pure ()
      uniqueFrom list duplicates fuel elem
    else uniqueFrom list duplicates fuel next

def listUnique (fuel : Nat) (list : ι) (duplicates : Option ι) : ListM ι α Unit := do
  if ← listEmpty list then pure ()
  else uniqueFrom less list duplicates fuel (← listBegin list)

/-- `for (; e != list_end (list); e = list_next (e)) if (better (best, e)) best = e;` -/
def bestFrom (better : ListElem ι α → ListElem ι α → ListM ι α Bool) (list : ι) :
    Nat → ListElem ι α → ListElem ι α → ListM ι α (ListElem ι α)
  | 0, _, _ => failure
  | fuel + 1, best, e => do
    if e = listEnd list then pure best
    else if ← better best e then bestFrom better list fuel e (← listNext e)
    else bestFrom better list fuel best (← listNext e)

def listMax (fuel : Nat) (list : ι) : ListM ι α (ListElem ι α) := do
  let max ← listBegin list
  if max ≠ listEnd list then bestFrom (fun max e => callLess less max e) list fuel max (← listNext max)
  else pure max

def listMin (fuel : Nat) (list : ι) : ListM ι α (ListElem ι α) := do
  let min ← listBegin list
  if min ≠ listEnd list then bestFrom (fun min e => callLess less e min) list fuel min (← listNext min)
  else pure min

end order

end MyShell.Fs

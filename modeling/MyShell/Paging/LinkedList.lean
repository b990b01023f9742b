/-
`linked_list.c`. A list is a row of nodes between two dummies that are never
handed out. Whatever is done to it, the links forward and backward show the same
nodes, and the data are those of a plain list (`list_is_sequence`).
-/
import MyShell.Lib.DoublyLinked
import MyShell.Paging.Scheduler

namespace MyShell.Paging

open DoublyLinked (Chain Link setNext setPrev visit)

abbrev Node := DoublyLinked

/-- A list. `equal` reads the memory its arguments point into; it is `none` where that is not there. -/
structure LinkedList (μ α : Type) where
  size : Int
  dummyHead : Ptr
  dummyTail : Ptr
  equal : μ → α → α → Option Bool

namespace LinkedList

variable {μ α : Type}

/-! ## The operations -/

/-- Writes to the node a pointer leads to, which has to be there. -/
def store (h : Heap (Node α)) (o : Option Ptr) (f : Node α → Node α) : Option (Heap (Node α)) := do
  let p ← o
  let _ ← h.get p
  pure (h.modify p f)

/-- `list_init`. What the new nodes hold elsewhere is left over from before. -/
def listInit (equal : μ → α → α → Option Bool) (old old' : Node α) (h : Heap (Node α)) :
    LinkedList μ α × Heap (Node α) :=
  let dummyHead := h.next
  let h := h.alloc old
  let dummyTail := h.next
  let h := h.alloc { old' with next := none }
  let h := setPrev (setNext h dummyHead (some dummyTail)) dummyTail (some dummyHead)
  (⟨0, dummyHead, dummyTail, equal⟩, h)

/-- `list_clear`. -/
def listClear (l : LinkedList μ α) (h : Heap (Node α)) : Option (LinkedList μ α × Heap (Node α)) := do
  let h ← store h (some l.dummyHead) fun node => { node with next := some l.dummyTail }
  let h ← store h (some l.dummyTail) fun node => { node with prev := some l.dummyHead }
  pure ({ l with size := 0 }, h)

def addTail (a : α) (l : LinkedList μ α) (h : Heap (Node α)) :
    Option (LinkedList μ α × Heap (Node α)) := do
  let oldTail := (← h.get l.dummyTail).prev
  let newNode := h.next
  let h := h.alloc ⟨a, some l.dummyTail, oldTail⟩
  let h ← store h oldTail fun node => { node with next := some newNode }
  let h ← store h (some l.dummyTail) fun node => { node with prev := some newNode }
  pure ({ l with size := l.size + 1 }, h)

def addHead (a : α) (l : LinkedList μ α) (h : Heap (Node α)) :
    Option (LinkedList μ α × Heap (Node α)) := do
  let oldHead := (← h.get l.dummyHead).next
  let newNode := h.next
  let h := h.alloc ⟨a, oldHead, some l.dummyHead⟩
  let h ← store h oldHead fun node => { node with prev := some newNode }
  let h ← store h (some l.dummyHead) fun node => { node with next := some newNode }
  pure ({ l with size := l.size + 1 }, h)

/-- What `pop_head`, `pop_tail` and `remove_elem` do with the node to be deleted. -/
def unlink (toBeDeleted : Ptr) (l : LinkedList μ α) (h : Heap (Node α)) :
    Option (α × LinkedList μ α × Heap (Node α)) := do
  let node ← h.get toBeDeleted
  let h ← store h node.prev fun before => { before with next := node.next }
  let node ← h.get toBeDeleted
  let h ← store h node.next fun after => { after with prev := node.prev }
  let node ← h.get toBeDeleted
  pure (node.val, { l with size := l.size - 1 }, h)

/-- On an empty list the program ends. -/
def popHead (l : LinkedList μ α) (h : Heap (Node α)) :
    Option (α × LinkedList μ α × Heap (Node α)) := do
  if l.size ≤ 0 then none
  else unlink (← (← h.get l.dummyHead).next) l h

def popTail (l : LinkedList μ α) (h : Heap (Node α)) :
    Option (α × LinkedList μ α × Heap (Node α)) := do
  if l.size ≤ 0 then none
  else unlink (← (← h.get l.dummyTail).prev) l h

/-- The loop of `get_node_by_value`, at most `n` turns of it. -/
def getNodeByValue (equal : α → Option Bool) (h : Heap (Node α)) :
    Nat → Option Ptr → Option (Option Ptr)
  | 0, _ => none
  | _ + 1, none => some none
  | n + 1, some curr => do
    let node ← h.get curr
    if ← equal node.val then pure (some curr) else getNodeByValue equal h n node.next

/-- `remove_elem`; a search that ends at NULL is a fault. -/
def removeElem (n : Nat) (m : μ) (a : α) (l : LinkedList μ α) (h : Heap (Node α)) :
    Option (α × LinkedList μ α × Heap (Node α)) := do
  let node ← getNodeByValue (l.equal m a) h n (← h.get l.dummyHead).next
  unlink (← node) l h

/-! ## Runs -/

/-- A call, with the memory that `equal` reads at that time. -/
inductive Call (μ α : Type) where
  | addHead (a : α)
  | addTail (a : α)
  | popHead
  | popTail
  | removeElem (m : μ) (a : α)
  | listClear

/-- A call on the nodes: the data it returns, if it does, and what it leaves. -/
def Call.run (n : Nat) (l : LinkedList μ α) (h : Heap (Node α)) :
    Call μ α → Option (Option α × LinkedList μ α × Heap (Node α))
  | .addHead a => (LinkedList.addHead a l h).map (none, ·)
  | .addTail a => (LinkedList.addTail a l h).map (none, ·)
  | .popHead => (LinkedList.popHead l h).map fun x => (some x.1, x.2)
  | .popTail => (LinkedList.popTail l h).map fun x => (some x.1, x.2)
  | .removeElem m a => (LinkedList.removeElem n m a l h).map fun x => (some x.1, x.2)
  | .listClear => (LinkedList.listClear l h).map (none, ·)

/-- The first element that is equal, and the others. -/
def removeFirst (equal : α → Option Bool) : List α → Option (α × List α)
  | [] => none
  | a :: as => do
    if ← equal a then pure (a, as)
    else
      let (b, rest) ← removeFirst equal as
      pure (b, a :: rest)

/-- The same call on a plain list. It is not defined for a pop from the empty
list and for an element that is not there. -/
def Call.plain (equal : μ → α → α → Option Bool) (as : List α) :
    Call μ α → Option (Option α × List α)
  | .addHead a => some (none, a :: as)
  | .addTail a => some (none, as ++ [a])
  | .popHead => as.head?.map fun a => (some a, as.tail)
  | .popTail => as.getLast?.map fun a => (some a, as.dropLast)
  | .removeElem m a => (removeFirst (equal m a) as).map fun x => (some x.1, x.2)
  | .listClear => some (none, [])

def runCalls (n : Nat) : List (Call μ α) → LinkedList μ α → Heap (Node α) →
    Option (List (Option α) × LinkedList μ α × Heap (Node α))
  | [], l, h => some ([], l, h)
  | call :: calls, l, h => do
    let (answer, l, h) ← call.run n l h
    let (answers, l, h) ← runCalls n calls l h
    pure (answer :: answers, l, h)

def plainCalls (equal : μ → α → α → Option Bool) :
    List (Call μ α) → List α → Option (List (Option α) × List α)
  | [], as => some ([], as)
  | call :: calls, as => do
    let (answer, as) ← call.plain equal as
    let (answers, as) ← plainCalls equal calls as
    pure (answer :: answers, as)

/-! ## The invariant -/

variable {l : LinkedList μ α} {h : Heap (Node α)} {p q r : Ptr} {ps ps' front back : List Ptr}
  {a : α} {as as' : List α}

/-- Between the dummies lie the nodes `ps`, which hold the data `as`. -/
structure Holds (l : LinkedList μ α) (h : Heap (Node α)) (ps : List Ptr) (as : List α) : Prop where
  chain : Chain h (l.dummyHead :: ps ++ [l.dummyTail])
  nodup : (l.dummyHead :: ps ++ [l.dummyTail]).Nodup
  size : l.size = ps.length
  data : ps.map (fun p => (h.get p).map (·.val)) = as.map some

namespace Holds

theorem length_eq (hh : Holds l h ps as) : ps.length = as.length := by
  simpa using congrArg List.length hh.data

theorem get_of_mem (hh : Holds l h ps as) (hp : p ∈ l.dummyHead :: ps ++ [l.dummyTail]) :
    ∃ node, h.get p = some node := by
  have hchain := hh.chain
  cases ps with
  | nil => exact hchain.get_of_mem hp
  | cons q ps => exact hchain.get_of_mem hp

theorem ne_next (hh : Holds l h ps as) (hp : p ∈ ps) : p ≠ h.next := by
  rintro rfl
  obtain ⟨node, hnode⟩ := hh.get_of_mem (List.mem_append_left _ (List.mem_cons_of_mem _ hp))
  rw [h.get_next] at hnode
  cases hnode

theorem cut (hh : Holds l h ps as)
    (hcut : l.dummyHead :: ps ++ [l.dummyTail] = front ++ p :: q :: back) : Link h p q := by
  have hchain := hh.chain
  rw [hcut] at hchain
  exact (List.isChain_append_cons_cons.1 hchain).2.1

end Holds

/-! ## One operation -/

theorem store_next {node : Node α} {o : Option Ptr} (hp : h.get p = some node) :
    store h (some p) (fun node => { node with next := o }) = some (setNext h p o) := by
  rw [store, Option.bind_eq_bind, Option.bind_some, hp]
  rfl

theorem store_prev {node : Node α} {o : Option Ptr} (hp : h.get p = some node) :
    store h (some p) (fun node => { node with prev := o }) = some (setPrev h p o) := by
  rw [store, Option.bind_eq_bind, Option.bind_some, hp]
  rfl

theorem holds_listInit (equal : μ → α → α → Option Bool) (old old' : Node α) (h : Heap (Node α)) :
    Holds (listInit equal old old' h).1 (listInit equal old old' h).2 [] [] where
  chain := by
    have hnext : (h.alloc old).next = h.next + 1 := rfl
    refine List.isChain_cons_cons.2 ⟨⟨?_, ?_⟩, .singleton _⟩
    · simp [listInit, DoublyLinked.next_setPrev, DoublyLinked.next_setNext, Heap.get_alloc, hnext]
    · simp [listInit, DoublyLinked.prev_setPrev, setNext, Heap.get_modify, Heap.get_alloc, hnext]
  nodup := by simp [listInit, Heap.alloc]
  size := rfl
  data := rfl

theorem Holds.insert (hh : Holds l h ps as) (a : α)
    (hcut : l.dummyHead :: ps ++ [l.dummyTail] = front ++ p :: q :: back)
    (hput : l.dummyHead :: ps' ++ [l.dummyTail] = front ++ p :: h.next :: q :: back)
    (hdata : ps'.map (fun r => if r = h.next then some a else (h.get r).map (·.val)) =
      as'.map some) :
    Holds { l with size := l.size + 1 }
      (setPrev (setNext (h.alloc ⟨a, some q, some p⟩) p (some h.next)) q (some h.next)) ps' as' := by
  have hnew : h.next ∉ front ++ p :: q :: back := fun hm => by
    obtain ⟨node, hnode⟩ := hh.get_of_mem (hcut ▸ hm)
    rw [h.get_next] at hnode
    cases hnode
  have hn := hh.nodup
  rw [hcut] at hn
  refine ⟨?_, ?_, ?_, ?_⟩
  · change Chain _ (l.dummyHead :: ps' ++ [l.dummyTail])
    rw [hput]
    refine Chain.insert ?_ hn hnew (by rw [Heap.get_alloc, if_pos rfl])
    rw [← hcut]
    exact hh.chain.alloc _
  · change (l.dummyHead :: ps' ++ [l.dummyTail]).Nodup
    rw [hput]
    have hperm := @List.perm_middle _ h.next (front ++ [p]) (q :: back)
    rw [List.append_assoc, List.append_assoc] at hperm
    exact hperm.nodup_iff.2 (List.nodup_cons.2 ⟨hnew, hn⟩)
  · have := congrArg List.length hcut
    have := congrArg List.length hput
    have := hh.size
    simp at *
    omega
  · rw [← hdata]
    refine List.map_congr_left fun r _ => ?_
    rw [DoublyLinked.val_setPrev, DoublyLinked.val_setNext, Heap.get_alloc]
    split <;> rfl

theorem Holds.unlink (hh : Holds l h ps as)
    (hcut : l.dummyHead :: ps ++ [l.dummyTail] = front ++ p :: r :: q :: back)
    (hleft : l.dummyHead :: ps' ++ [l.dummyTail] = front ++ p :: q :: back)
    (hdata : ps'.map (fun p => (h.get p).map (·.val)) = as'.map some)
    (hval : (h.get r).map (·.val) = some a) :
    ∃ h', LinkedList.unlink r l h = some (a, { l with size := l.size - 1 }, h') ∧
      Holds { l with size := l.size - 1 } h' ps' as' := by
  have hchain := hh.chain
  have hn := hh.nodup
  rw [hcut] at hchain hn
  obtain ⟨-, hpr, hrest⟩ := List.isChain_append_cons_cons.1 hchain
  obtain ⟨hrq, -⟩ := List.isChain_cons_cons.1 hrest
  obtain ⟨⟨before, hp⟩, node, hr⟩ := hpr.get
  obtain ⟨-, after, hq⟩ := hrq.get
  have hprev : node.prev = some p := by
    have := hpr.2
    rwa [hr] at this
  have hnext : node.next = some q := by
    have := hrq.1
    rwa [hr] at this
  obtain rfl : node.val = a := by
    rw [hr] at hval
    exact Option.some.inj hval
  have hne : r ≠ p ∧ r ≠ q ∧ q ≠ p := by
    refine ⟨?_, ?_, ?_⟩ <;> (rintro rfl; simp [List.nodup_append] at hn)
  have hr₁ : (setNext h p (some q)).get r = some node := by
    rw [setNext, Heap.get_modify, if_neg hne.1, hr]
  have hq₁ : (setNext h p (some q)).get q = some after := by
    rw [setNext, Heap.get_modify, if_neg hne.2.2, hq]
  have hr₂ : (setPrev (setNext h p (some q)) q (some p)).get r = some node := by
    rw [setPrev, Heap.get_modify, if_neg hne.2.1, hr₁]
  refine ⟨setPrev (setNext h p (some q)) q (some p), ?_, ?_, ?_, ?_, ?_⟩
  · rw [LinkedList.unlink, hr]
    simp only [Option.bind_eq_bind, Option.bind_some, hprev, hnext, store_next hp, hr₁,
      store_prev hq₁, hr₂]
    rfl
  · change Chain _ (l.dummyHead :: ps' ++ [l.dummyTail])
    rw [hleft]
    exact hchain.unlink hn
  · change (l.dummyHead :: ps' ++ [l.dummyTail]).Nodup
    rw [hleft]
    exact hn.sublist (((List.sublist_cons_self r _).cons_cons p).append_left front)
  · have := congrArg List.length hcut
    have := congrArg List.length hleft
    have := hh.size
    simp at *
    omega
  · rw [← hdata]
    refine List.map_congr_left fun r _ => ?_
    rw [DoublyLinked.val_setPrev, DoublyLinked.val_setNext]

/-- The last pointer before the nodes `zs`, whatever these are. -/
theorem exists_before (d e : Ptr) (xs : List Ptr) :
    ∃ front p, ∀ zs, d :: (xs ++ zs) ++ [e] = front ++ p :: (zs ++ [e]) := by
  obtain ⟨front, p, hfront⟩ : ∃ front p, d :: xs = front ++ [p] :=
    ⟨_, _, (List.dropLast_concat_getLast (List.cons_ne_nil _ _)).symm⟩
  refine ⟨front, p, fun zs => ?_⟩
  rw [← List.cons_append, hfront]
  simp

theorem exists_after (e : Ptr) : ∀ ys : List Ptr, ∃ q back, ys ++ [e] = q :: back
  | [] => ⟨_, _, rfl⟩
  | _ :: _ => ⟨_, _, rfl⟩

theorem Holds.delete {bs cs : List α} (hh : Holds l h ps (bs ++ a :: cs)) :
    ∃ xs r ys h', ps = xs ++ r :: ys ∧ xs.length = bs.length ∧
      xs.map (fun p => (h.get p).map (·.val)) = bs.map some ∧ (h.get r).map (·.val) = some a ∧
      LinkedList.unlink r l h = some (a, { l with size := l.size - 1 }, h') ∧
      Holds { l with size := l.size - 1 } h' (xs ++ ys) (bs ++ cs) := by
  have hdata := hh.data
  rw [List.map_append, List.map_cons] at hdata
  obtain ⟨xs, rest, rfl, hxs, hrest⟩ := List.map_eq_append_iff.1 hdata
  obtain ⟨r, ys, rfl, hr, hys⟩ := List.map_eq_cons_iff.1 hrest
  obtain ⟨front, p, hcut⟩ := exists_before l.dummyHead l.dummyTail xs
  obtain ⟨q, back, hback⟩ := exists_after l.dummyTail ys
  have hleft : l.dummyHead :: (xs ++ ys) ++ [l.dummyTail] = front ++ p :: q :: back :=
    (hcut ys).trans (by rw [hback])
  have hrest : (xs ++ ys).map (fun p => (h.get p).map (·.val)) = (bs ++ cs).map some := by
    rw [List.map_append, List.map_append, hxs, hys]
  obtain ⟨h', hrun, hh'⟩ :=
    hh.unlink ((hcut (r :: ys)).trans (by rw [List.cons_append, hback])) hleft hrest hr
  exact ⟨xs, r, ys, h', rfl, by simpa using congrArg List.length hxs, hxs, hr, hrun, hh'⟩

theorem get_alloc_old {node : Node α} (hr : h.get r = some node) (b : Node α) :
    (h.alloc b).get r = some node := by
  rw [Heap.get_alloc, if_neg, hr]
  rintro rfl
  rw [h.get_next] at hr
  cases hr

theorem Holds.addTail (hh : Holds l h ps as) (a : α) :
    ∃ h', LinkedList.addTail a l h = some ({ l with size := l.size + 1 }, h') ∧
      Holds { l with size := l.size + 1 } h' (ps ++ [h.next]) (as ++ [a]) := by
  obtain ⟨front, p, hbefore⟩ := exists_before l.dummyHead l.dummyTail ps
  have hcut : l.dummyHead :: ps ++ [l.dummyTail] = front ++ p :: l.dummyTail :: [] := by
    simpa using hbefore []
  obtain ⟨⟨before, hp⟩, tail, htail⟩ := (hh.cut hcut).get
  have hprev : tail.prev = some p := by
    have := (hh.cut hcut).2
    rwa [htail] at this
  have hne : l.dummyTail ≠ p := by
    rintro rfl
    have := hh.nodup
    simp [hcut, List.nodup_append] at this
  refine ⟨_, ?_, hh.insert a hcut ?_ ?_⟩
  · rw [LinkedList.addTail, htail]
    have hp' := get_alloc_old hp ⟨a, some l.dummyTail, some p⟩
    have htail' : (setNext (h.alloc ⟨a, some l.dummyTail, some p⟩) p (some h.next)).get
        l.dummyTail = some tail := by
      rw [setNext, Heap.get_modify, if_neg hne, get_alloc_old htail]
    simp only [Option.bind_eq_bind, Option.bind_some, hprev, store_next hp', store_prev htail']
    rfl
  · exact hbefore [h.next]
  · rw [List.map_append, List.map_append, ← hh.data]
    refine congrArg₂ _ (List.map_congr_left fun r hr => ?_) (by simp)
    exact if_neg (hh.ne_next hr)

theorem Holds.addHead (hh : Holds l h ps as) (a : α) :
    ∃ h', LinkedList.addHead a l h = some ({ l with size := l.size + 1 }, h') ∧
      Holds { l with size := l.size + 1 } h' (h.next :: ps) (a :: as) := by
  obtain ⟨q, back, hback⟩ := exists_after l.dummyTail ps
  have hcut : l.dummyHead :: ps ++ [l.dummyTail] = [] ++ l.dummyHead :: q :: back :=
    congrArg (l.dummyHead :: ·) hback
  obtain ⟨⟨head, hhead⟩, after, hq⟩ := (hh.cut hcut).get
  have hnext : head.next = some q := by
    have := (hh.cut hcut).1
    rwa [hhead] at this
  have hne : l.dummyHead ≠ q := by
    rintro rfl
    have := hh.nodup
    simp [hcut] at this
  refine ⟨_, ?_, hh.insert a hcut ?_ ?_⟩
  · rw [LinkedList.addHead, hhead]
    have hq' := get_alloc_old hq ⟨a, some q, some l.dummyHead⟩
    have hhead' : (setPrev (h.alloc ⟨a, some q, some l.dummyHead⟩) q (some h.next)).get
        l.dummyHead = some head := by
      rw [setPrev, Heap.get_modify, if_neg hne, get_alloc_old hhead]
    simp only [Option.bind_eq_bind, Option.bind_some, hnext, store_prev hq', store_next hhead',
      DoublyLinked.setNext_setPrev]
    rfl
  · exact congrArg (l.dummyHead :: h.next :: ·) hback
  · rw [List.map_cons, List.map_cons, if_pos rfl, ← hh.data]
    exact congrArg _ (List.map_congr_left fun r hr => if_neg (hh.ne_next hr))

theorem Holds.popHead (hh : Holds l h ps (a :: as)) :
    ∃ h' ps', LinkedList.popHead l h = some (a, { l with size := l.size - 1 }, h') ∧
      Holds { l with size := l.size - 1 } h' ps' as := by
  obtain ⟨xs, r, ys, h', rfl, hlength, -, -, hrun, hh'⟩ :=
    Holds.delete (show Holds l h ps ([] ++ a :: as) from hh)
  obtain rfl := List.length_eq_zero_iff.1 hlength
  have hlink : (h.get l.dummyHead).bind (·.next) = some r := (List.isChain_cons_cons.1 hh.chain).1.1
  obtain ⟨head, hhead, hnext⟩ := Option.bind_eq_some_iff.1 hlink
  have hsize : ¬ l.size ≤ 0 := by
    rw [hh.size]
    simp
  refine ⟨h', ys, ?_, hh'⟩
  rw [LinkedList.popHead, if_neg hsize, hhead]
  simp only [Option.bind_eq_bind, Option.bind_some, hnext, hrun]

theorem Holds.popTail (hh : Holds l h ps (as ++ [a])) :
    ∃ h' ps', LinkedList.popTail l h = some (a, { l with size := l.size - 1 }, h') ∧
      Holds { l with size := l.size - 1 } h' ps' as := by
  obtain ⟨xs, r, ys, h', rfl, hlength, -, -, hrun, hh'⟩ := hh.delete
  have hnil : ys = [] := by
    have := hh.length_eq
    simp only [List.length_append, List.length_cons, List.length_nil] at this
    exact List.length_eq_zero_iff.1 (by omega)
  subst hnil
  have hcut : l.dummyHead :: (xs ++ [r]) ++ [l.dummyTail] =
      (l.dummyHead :: xs) ++ r :: l.dummyTail :: [] := by simp
  obtain ⟨tail, htail, hprev⟩ := Option.bind_eq_some_iff.1 (hh.cut hcut).2
  have hsize : ¬ l.size ≤ 0 := by
    rw [hh.size]
    simp
  refine ⟨h', xs, ?_, by simpa using hh'⟩
  rw [LinkedList.popTail, if_neg hsize, htail]
  simp only [Option.bind_eq_bind, Option.bind_some, hprev, hrun]

/-- The search comes to the first equal element. -/
theorem getNodeByValue_eq {equal : α → Option Bool} (ha : equal a = some true)
    (hr : (h.get r).map (·.val) = some a) :
    ∀ {bs : List α} {xs : List Ptr} {n : Nat} {p : Ptr}, Chain h (p :: xs ++ r :: ps) →
      xs.map (fun p => (h.get p).map (·.val)) = bs.map some → (∀ b ∈ bs, equal b = some false) →
      xs.length < n →
      getNodeByValue equal h n ((h.get p).bind (·.next)) = some (some r)
  | bs, [], n + 1, p, hc, _, _, _ => by
    have hlink : (h.get p).bind (·.next) = some r := (List.isChain_cons_cons.1 hc).1.1
    obtain ⟨node, hnode, rfl⟩ := Option.map_eq_some_iff.1 hr
    rw [hlink, getNodeByValue, hnode]
    simp only [Option.bind_eq_bind, Option.bind_some, ha]
    rfl
  | [], _ :: _, _, _, _, hdata, _, _ => by cases hdata
  | b :: bs, q :: xs, n + 1, p, hc, hdata, hbs, hn => by
    obtain ⟨hlink, hc⟩ := List.isChain_cons_cons.1 hc
    obtain ⟨hb, htail⟩ := List.cons.inj hdata
    obtain ⟨node, hnode, rfl⟩ := Option.map_eq_some_iff.1 hb
    have hrest := getNodeByValue_eq ha hr hc htail (fun b hb => hbs b (List.mem_cons_of_mem _ hb))
      (Nat.lt_of_succ_lt_succ hn)
    rw [hnode, Option.bind_some] at hrest
    rw [show (h.get p).bind (·.next) = some q from hlink.1, getNodeByValue, hnode]
    simp only [Option.bind_eq_bind, Option.bind_some, hbs _ List.mem_cons_self, Bool.false_eq_true,
      if_false, hrest]

theorem removeFirst_split {equal : α → Option Bool} :
    ∀ {a : α} {as rest : List α}, removeFirst equal as = some (a, rest) →
    ∃ bs cs, as = bs ++ a :: cs ∧ rest = bs ++ cs ∧ (∀ b ∈ bs, equal b = some false) ∧
      equal a = some true
  | _, [], _, hf => by cases hf
  | a, b :: as, rest, hf => by
    rw [removeFirst] at hf
    obtain ⟨eq, heq, hf⟩ := Option.bind_eq_some_iff.1 hf
    cases eq with
    | true =>
      obtain ⟨rfl, rfl⟩ := Prod.mk.inj (Option.some.inj hf)
      exact ⟨[], as, rfl, rfl, by simp, heq⟩
    | false =>
      obtain ⟨⟨c, rest'⟩, hrest, hf⟩ := Option.bind_eq_some_iff.1 hf
      obtain ⟨rfl, rfl⟩ := Prod.mk.inj (Option.some.inj hf)
      obtain ⟨bs, cs, rfl, rfl, hbs, ha⟩ := removeFirst_split hrest
      refine ⟨b :: bs, cs, rfl, rfl, fun d hd => ?_, ha⟩
      rcases List.mem_cons.1 hd with rfl | hd
      · exact heq
      · exact hbs d hd

theorem Holds.removeElem {m : μ} {b : α} {n : Nat} (hh : Holds l h ps as)
    (hf : removeFirst (l.equal m b) as = some (a, as')) (hn : as.length < n) :
    ∃ h' ps', LinkedList.removeElem n m b l h = some (a, { l with size := l.size - 1 }, h') ∧
      Holds { l with size := l.size - 1 } h' ps' as' := by
  obtain ⟨bs, cs, rfl, rfl, hbs, ha⟩ := removeFirst_split hf
  obtain ⟨xs, r, ys, h', rfl, hlength, hxs, hr, hrun, hh'⟩ := hh.delete
  have hchain : Chain h (l.dummyHead :: xs ++ r :: (ys ++ [l.dummyTail])) := by
    have := hh.chain
    rwa [← List.cons_append, List.append_assoc, List.cons_append] at this
  have hget := getNodeByValue_eq ha hr hchain hxs hbs (n := n) (by
    rw [List.length_append] at hn
    omega)
  obtain ⟨head, hhead⟩ := hh.get_of_mem List.mem_cons_self
  rw [hhead, Option.bind_some] at hget
  refine ⟨h', xs ++ ys, ?_, hh'⟩
  rw [LinkedList.removeElem, hhead]
  simp only [Option.bind_eq_bind, Option.bind_some, hget, hrun]

/-- The nodes that were between the dummies are lost. -/
theorem Holds.listClear (hh : Holds l h ps as) :
    ∃ h', LinkedList.listClear l h = some ({ l with size := 0 }, h') ∧
      Holds { l with size := 0 } h' [] [] := by
  obtain ⟨head, hhead⟩ := hh.get_of_mem List.mem_cons_self
  obtain ⟨tail, htail⟩ := hh.get_of_mem (List.mem_append_right _ (List.mem_singleton_self _))
  have hne : l.dummyTail ≠ l.dummyHead := fun he => by
    have := hh.nodup
    simp [he] at this
  have htail' : (setNext h l.dummyHead (some l.dummyTail)).get l.dummyTail = some tail := by
    rw [setNext, Heap.get_modify, if_neg hne, htail]
  refine ⟨setPrev (setNext h l.dummyHead (some l.dummyTail)) l.dummyTail (some l.dummyHead), ?_,
    ⟨List.isChain_cons_cons.2 ⟨⟨?_, ?_⟩, .singleton _⟩, by simpa using hne.symm, rfl, rfl⟩⟩
  · rw [LinkedList.listClear, store_next hhead, Option.bind_eq_bind, Option.bind_some,
      store_prev htail']
    rfl
  · rw [DoublyLinked.next_setPrev, DoublyLinked.next_setNext, if_pos rfl, hhead]
    rfl
  · rw [DoublyLinked.prev_setPrev, if_pos rfl, htail']
    rfl

/-! ## Runs of calls -/

/-- A call does to the data what it does to a plain list. -/
theorem Holds.call {call : Call μ α} {answer : Option α} {n : Nat} (hh : Holds l h ps as)
    (hplain : call.plain l.equal as = some (answer, as')) (hn : as.length < n) :
    ∃ l' h' ps', call.run n l h = some (answer, l', h') ∧ Holds l' h' ps' as' ∧ l'.equal = l.equal ∧
      as'.length ≤ as.length + 1 := by
  cases call with
  | addHead a =>
    obtain ⟨rfl, rfl⟩ := Prod.mk.inj (Option.some.inj hplain)
    obtain ⟨h', hrun, hh'⟩ := hh.addHead a
    exact ⟨_, h', _, by rw [Call.run, hrun]; rfl, hh', rfl, Nat.le_refl _⟩
  | addTail a =>
    obtain ⟨rfl, rfl⟩ := Prod.mk.inj (Option.some.inj hplain)
    obtain ⟨h', hrun, hh'⟩ := hh.addTail a
    exact ⟨_, h', _, by rw [Call.run, hrun]; rfl, hh', rfl, by simp⟩
  | popHead =>
    obtain ⟨a, ha, he⟩ := Option.map_eq_some_iff.1 hplain
    obtain ⟨rfl, rfl⟩ := Prod.mk.inj he
    obtain ⟨as, rfl⟩ := List.head?_eq_some_iff.1 ha
    obtain ⟨h', ps', hrun, hh'⟩ := hh.popHead
    exact ⟨_, h', ps', by rw [Call.run, hrun]; rfl, hh', rfl, by simp; omega⟩
  | popTail =>
    obtain ⟨a, ha, he⟩ := Option.map_eq_some_iff.1 hplain
    obtain ⟨rfl, rfl⟩ := Prod.mk.inj he
    obtain ⟨as, rfl⟩ := List.getLast?_eq_some_iff.1 ha
    obtain ⟨h', ps', hrun, hh'⟩ := hh.popTail
    rw [List.dropLast_concat]
    exact ⟨_, h', ps', by rw [Call.run, hrun]; rfl, hh', rfl, by simp; omega⟩
  | removeElem m b =>
    obtain ⟨x, hf, he⟩ := Option.map_eq_some_iff.1 hplain
    obtain ⟨rfl, rfl⟩ := Prod.mk.inj he
    obtain ⟨h', ps', hrun, hh'⟩ := hh.removeElem hf hn
    obtain ⟨bs, cs, hsplit, hrest, -⟩ := removeFirst_split hf
    exact ⟨_, h', ps', by rw [Call.run, hrun]; rfl, hh', rfl, by rw [hsplit, hrest]; simp; omega⟩
  | listClear =>
    obtain ⟨rfl, rfl⟩ := Prod.mk.inj (Option.some.inj hplain)
    obtain ⟨h', hrun, hh'⟩ := hh.listClear
    exact ⟨_, h', [], by rw [Call.run, hrun]; rfl, hh', rfl, Nat.zero_le _⟩

theorem Holds.calls {calls : List (Call μ α)} :
    ∀ {l : LinkedList μ α} {h : Heap (Node α)} {ps : List Ptr} {as as' : List α}
      {answers : List (Option α)} {n : Nat}, Holds l h ps as →
      plainCalls l.equal calls as = some (answers, as') → as.length + calls.length < n →
    ∃ l' h' ps', runCalls n calls l h = some (answers, l', h') ∧ Holds l' h' ps' as' ∧
      as'.length < n := by
  induction calls with
  | nil =>
    intro l h ps as as' answers n hh hplain hn
    obtain ⟨rfl, rfl⟩ := Prod.mk.inj (Option.some.inj hplain)
    exact ⟨l, h, ps, rfl, hh, hn⟩
  | cons call calls ih =>
    intro l h ps as as' answers n hh hplain hn
    rw [List.length_cons] at hn
    obtain ⟨⟨answer, as₁⟩, hone, hplain⟩ := Option.bind_eq_some_iff.1 hplain
    obtain ⟨⟨rest, as₂⟩, hmore, he⟩ := Option.bind_eq_some_iff.1 hplain
    obtain ⟨rfl, rfl⟩ := Prod.mk.inj (Option.some.inj he)
    obtain ⟨l₁, h₁, ps₁, hrun, hh₁, hequal, hlength⟩ := hh.call (n := n) hone (by omega)
    obtain ⟨l', h', ps', hruns, hh', hlength'⟩ :=
      ih (n := n) hh₁ (by rw [hequal]; exact hmore) (by omega)
    refine ⟨l', h', ps', ?_, hh', hlength'⟩
    rw [runCalls, hrun, Option.bind_eq_bind, Option.bind_some]
    simp only [hruns, Option.bind_eq_bind, Option.bind_some]
    rfl

/-- **Main result.** Whatever is done to a list from `list_init` on, as long as
nothing is popped from an empty list and only elements that are there are
removed: the links lead through the same nodes forward and backward, `size` is
their number, and answers and data are those of a plain list. -/
theorem list_is_sequence (equal : μ → α → α → Option Bool) (old old' : Node α) (h₀ : Heap (Node α))
    (calls : List (Call μ α)) (answers : List (Option α)) (as : List α) (n : Nat)
    (hplain : plainCalls equal calls [] = some (answers, as)) (hn : calls.length < n) :
    ∃ l h ps, runCalls n calls (listInit equal old old' h₀).1 (listInit equal old old' h₀).2 =
      some (answers, l, h) ∧ visit (·.next) h l.dummyTail n l.dummyHead = some ps ∧
      visit (·.prev) h l.dummyHead n l.dummyTail = some ps.reverse ∧
      l.size = ps.length ∧ ps.map (fun p => (h.get p).map (·.val)) = as.map some := by
  obtain ⟨l, h, ps, hrun, hh, hlength⟩ :=
    (holds_listInit equal old old' h₀).calls hplain (by simpa using hn)
  rw [← hh.length_eq] at hlength
  have hnodup := hh.nodup
  rw [List.cons_append, List.nodup_cons, List.mem_append, not_or, List.nodup_append] at hnodup
  refine ⟨l, h, ps, hrun, hh.chain.visit_next (fun hm => ?_) hlength,
    hh.chain.visit_prev hnodup.1.1 hlength, hh.size, hh.data⟩
  exact hnodup.2.2.2 _ hm _ (List.mem_singleton_self _) rfl

/-- One element goes from the middle to the end. -/
theorem list_is_sequence_move : ∃ l h ps,
    runCalls 6 [.addTail 1, .addTail 2, .addHead 3, .removeElem () 1, .addTail 1]
      (listInit (fun _ a b => some (a == b)) ⟨0, none, none⟩ ⟨0, none, none⟩ .empty).1
      (listInit (μ := Unit) (fun _ a b => some (a == b)) ⟨0, none, none⟩ ⟨0, none, none⟩ .empty).2 =
        some ([none, none, none, some 1, none], l, h) ∧
      visit (·.next) h l.dummyTail 6 l.dummyHead = some ps ∧
      visit (·.prev) h l.dummyHead 6 l.dummyTail = some ps.reverse ∧
      l.size = ps.length ∧ ps.map (fun p => (h.get p).map (·.val)) = [3, 2, 1].map some :=
  list_is_sequence _ _ _ _ _ _ _ _ rfl (by decide)

end LinkedList

/-! ## The lists of the scheduler -/

open LinkedList (Holds removeFirst runCalls)

variable {σ : Type} {k : Kernel σ} {n : Nat}

/-- `PAGE_equal`, the `equal` of the recency list. -/
def pageEqual (k : Kernel σ) (x y : Ptr × Nat) : Option Bool := do
  let page ← k.page x
  k.pageEqual (page.index 0) y

theorem removeElem_eq {start : Nat} : ∀ {recent : List (Ptr × Nat)},
    k.removeElem start recent = removeFirst (k.pageEqual start) recent
  | [] => rfl
  | y :: recent => by rw [Kernel.removeElem, removeFirst, removeElem_eq]

/-- A page is moved to the front of the recency list, as `run_proc` does after a line. -/
theorem holds_touch {l : LinkedList (Kernel σ) (Ptr × Nat)} {h : Heap (Node (Ptr × Nat))}
    {ps : List Ptr} {x y : Ptr × Nat} {page : Page} {rest : List (Ptr × Nat)}
    (hh : Holds l h ps k.lruCache) (hequal : l.equal = pageEqual) (hpage : k.page x = some page)
    (hremove : k.removeElem (page.index 0) k.lruCache = some (y, rest))
    (hn : k.lruCache.length + 2 < n) :
    ∃ l' h' ps', runCalls n [.removeElem k x, .addHead y] l h = some ([some y, none], l', h') ∧
      Holds l' h' ps' (y :: rest) := by
  have hfirst : removeFirst (l.equal k x) k.lruCache = some (y, rest) := by
    have he : l.equal k x = k.pageEqual (page.index 0) := by
      funext z
      rw [hequal, pageEqual, hpage]
      rfl
    rw [he, ← removeElem_eq, hremove]
  have hplain : LinkedList.plainCalls l.equal [.removeElem k x, .addHead y] k.lruCache =
      some ([some y, none], y :: rest) := by
    rw [LinkedList.plainCalls, LinkedList.Call.plain, hfirst]
    rfl
  obtain ⟨l', h', ps', hrun, hh', -⟩ := hh.calls hplain hn
  exact ⟨l', h', ps', hrun, hh'⟩

end MyShell.Paging

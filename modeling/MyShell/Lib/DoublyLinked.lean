/-
Doubly linked lists in a heap. Neighbours are linked both ways (`Link`), and a
list is a chain of such links, so what one link says can be read forwards and
backwards. Setting a link touches one neighbourhood only, which gives how a node
is put in (`Chain.insert`) and taken out (`Chain.unlink`).
-/
import MyShell.Lib.Heap
import Mathlib.Data.List.Chain

/-- A node: what it holds, and the links to the nodes after and before it. -/
structure DoublyLinked (α : Type) where
  val : α
  next : Option Ptr
  prev : Option Ptr

namespace DoublyLinked

variable {α : Type} {h h' : Heap (DoublyLinked α)} {p q r : Ptr} {ps xs ys : List Ptr}
  {o : Option Ptr} {a : α}

/-- `q` comes after `p`, and `p` before `q`. -/
def Link (h : Heap (DoublyLinked α)) (p q : Ptr) : Prop :=
  (h.get p).bind next = some q ∧ (h.get q).bind prev = some p

/-- The nodes are linked one after the other. -/
abbrev Chain (h : Heap (DoublyLinked α)) (ps : List Ptr) : Prop := ps.IsChain (Link h)

def setNext (h : Heap (DoublyLinked α)) (p : Ptr) (o : Option Ptr) : Heap (DoublyLinked α) :=
  h.modify p fun node => { node with next := o }

def setPrev (h : Heap (DoublyLinked α)) (p : Ptr) (o : Option Ptr) : Heap (DoublyLinked α) :=
  h.modify p fun node => { node with prev := o }

/-! ## What a link is -/

theorem next_setNext : ((setNext h p o).get q).bind next = if q = p then (h.get p).bind fun _ =>
    o else (h.get q).bind next := by
  rw [setNext, Heap.get_modify]
  split
  · cases h.get p <;> rfl
  · rfl

theorem prev_setNext : ((setNext h p o).get q).bind prev = (h.get q).bind prev := by
  rw [setNext, Heap.get_modify]
  split
  · subst_vars
    cases h.get q <;> rfl
  · rfl

theorem next_setPrev : ((setPrev h p o).get q).bind next = (h.get q).bind next := by
  rw [setPrev, Heap.get_modify]
  split
  · subst_vars
    cases h.get q <;> rfl
  · rfl

theorem prev_setPrev : ((setPrev h p o).get q).bind prev = if q = p then (h.get p).bind fun _ =>
    o else (h.get q).bind prev := by
  rw [setPrev, Heap.get_modify]
  split
  · cases h.get p <;> rfl
  · rfl

/-- The two links of a node are set in either order. -/
theorem setNext_setPrev (h : Heap (DoublyLinked α)) (p q : Ptr) (o u : Option Ptr) :
    setNext (setPrev h q u) p o = setPrev (setNext h p o) q u := by
  refine Heap.ext rfl ?_
  simp only [setNext, setPrev, Heap.modify, List.map_map]
  refine List.map_congr_left fun x _ => ?_
  simp only [Function.comp_apply]
  by_cases hp : x.1 = p
  · by_cases hq : x.1 = q
    · simp only [if_pos hp, if_pos hq]
    · simp only [if_pos hp, if_neg hq]
  · simp only [if_neg hp]
    split <;> rfl

theorem val_setNext : ((setNext h p o).get q).map val = (h.get q).map val := by
  rw [setNext, Heap.get_modify]
  split
  · subst_vars
    cases h.get q <;> rfl
  · rfl

theorem val_setPrev : ((setPrev h p o).get q).map val = (h.get q).map val := by
  rw [setPrev, Heap.get_modify]
  split
  · subst_vars
    cases h.get q <;> rfl
  · rfl

theorem Link.get (hl : Link h p q) : (∃ b, h.get p = some b) ∧ ∃ c, h.get q = some c := by
  obtain ⟨b, hb, -⟩ := Option.bind_eq_some_iff.1 hl.1
  obtain ⟨c, hc, -⟩ := Option.bind_eq_some_iff.1 hl.2
  exact ⟨⟨b, hb⟩, c, hc⟩

theorem Link.setNext (hl : Link h p q) (hr : r ≠ p) : Link (setNext h r o) p q := by
  rw [Link, next_setNext, prev_setNext, if_neg hr.symm]
  exact hl

theorem Link.setPrev (hl : Link h p q) (hr : r ≠ q) : Link (setPrev h r o) p q := by
  rw [Link, next_setPrev, prev_setPrev, if_neg hr.symm]
  exact hl

theorem Link.alloc (hl : Link h p q) (node : DoublyLinked α) : Link (h.alloc node) p q := by
  obtain ⟨⟨b, hb⟩, c, hc⟩ := hl.get
  have hp : p ≠ h.next := by
    rintro rfl
    rw [h.get_next] at hb
    cases hb
  have hq : q ≠ h.next := by
    rintro rfl
    rw [h.get_next] at hc
    cases hc
  rw [Link, Heap.get_alloc, Heap.get_alloc, if_neg hp, if_neg hq]
  exact hl

/-! ## Chains -/

/-- The nodes of a chain are there. -/
theorem Chain.get_of_mem : ∀ {ps : List Ptr} {p q : Ptr}, Chain h (p :: q :: ps) → r ∈ p :: q :: ps →
    ∃ a, h.get r = some a
  | ps, p, q, hc, hr => by
    obtain ⟨hlink, hc⟩ := List.isChain_cons_cons.1 hc
    rcases List.mem_cons.1 hr with rfl | hr
    · exact hlink.get.1
    · cases ps with
      | nil =>
        rw [List.mem_singleton.1 hr]
        exact hlink.get.2
      | cons s ps => exact Chain.get_of_mem hc hr

theorem Chain.alloc (hc : Chain h ps) (node : DoublyLinked α) : Chain (h.alloc node) ps :=
  hc.imp fun _ _ hl => hl.alloc node

/-- The link after the last node of a chain is none of its links. -/
theorem Chain.setNext : ∀ {ps : List Ptr}, Chain h ps → r ∉ ps.dropLast → Chain (setNext h r o) ps
  | [], _, _ => .nil
  | [_], _, _ => .singleton _
  | p :: q :: ps, hc, hr => by
    rw [Chain, List.isChain_cons_cons] at hc ⊢
    rw [List.dropLast_cons_cons, List.mem_cons, not_or] at hr
    exact ⟨hc.1.setNext hr.1, Chain.setNext hc.2 hr.2⟩

/-- Nor is the link before the first node. -/
theorem Chain.setPrev : ∀ {ps : List Ptr}, Chain h ps → r ∉ ps.tail → Chain (setPrev h r o) ps
  | [], _, _ => .nil
  | [_], _, _ => .singleton _
  | p :: q :: ps, hc, hr => by
    rw [Chain, List.isChain_cons_cons] at hc ⊢
    rw [List.tail_cons, List.mem_cons, not_or] at hr
    exact ⟨hc.1.setPrev hr.1, Chain.setPrev hc.2 hr.2⟩

/-- The two halves of a chain that is cut between `p` and `q` do not see the new links there. -/
theorem Chain.halves {u : Option Ptr} (hfront : Chain h (xs ++ [p])) (hback : Chain h (q :: ys))
    (hn : (xs ++ p :: q :: ys).Nodup) :
    Chain (DoublyLinked.setPrev (DoublyLinked.setNext h p o) q u) (xs ++ [p]) ∧
      Chain (DoublyLinked.setPrev (DoublyLinked.setNext h p o) q u) (q :: ys) := by
  rw [List.nodup_append, List.nodup_cons, List.nodup_cons] at hn
  obtain ⟨-, ⟨hp, hq, -⟩, hdisjoint⟩ := hn
  have hpxs : p ∉ xs := fun hm => hdisjoint p hm p List.mem_cons_self rfl
  have hqxs : q ∉ xs := fun hm => hdisjoint q hm q (List.mem_cons_of_mem _ List.mem_cons_self) rfl
  constructor
  · refine (hfront.setNext ?_).setPrev fun hm => ?_
    · rwa [List.dropLast_concat]
    · rcases List.mem_append.1 (List.mem_of_mem_tail hm) with hm | hm
      · exact hqxs hm
      · exact hp (List.mem_singleton.1 hm ▸ List.mem_cons_self)
  · exact (hback.setNext fun hm => hp (List.dropLast_subset _ hm)).setPrev hq

/-- A node is put in between `p` and `q`. -/
theorem Chain.insert (hc : Chain h (xs ++ p :: q :: ys)) (hn : (xs ++ p :: q :: ys).Nodup)
    (hr : r ∉ xs ++ p :: q :: ys) (hget : h.get r = some ⟨a, some q, some p⟩) :
    Chain (DoublyLinked.setPrev (DoublyLinked.setNext h p (some r)) q (some r))
    (xs ++ p :: r :: q :: ys) := by
  obtain ⟨hfront, hlink, hback⟩ := List.isChain_append_cons_cons.1 hc
  obtain ⟨hfront', hback'⟩ := Chain.halves (o := some r) (u := some r) hfront hback hn
  have hrp : r ≠ p := by
    rintro rfl
    exact hr (by simp)
  have hrq : r ≠ q := by
    rintro rfl
    exact hr (by simp)
  have hpq : p ≠ q := by
    rintro rfl
    simp [List.nodup_append] at hn
  obtain ⟨⟨b, hb⟩, c, hc⟩ := hlink.get
  have hget' : ((DoublyLinked.setNext h p (some r)).get q) = some c := by
    rw [DoublyLinked.setNext, Heap.get_modify, if_neg hpq.symm, hc]
  refine List.isChain_append_cons_cons.2 ⟨hfront', ⟨?_, ?_⟩,
    List.isChain_cons_cons.2 ⟨⟨?_, ?_⟩, hback'⟩⟩
  · rw [next_setPrev, next_setNext, if_pos rfl, hb]
    rfl
  · rw [prev_setPrev, if_neg hrq, prev_setNext, hget]
    rfl
  · rw [next_setPrev, next_setNext, if_neg hrp, hget]
    rfl
  · rw [prev_setPrev, if_pos rfl, hget']
    rfl

/-- A node is taken out between `p` and `q`. -/
theorem Chain.unlink (hc : Chain h (xs ++ p :: r :: q :: ys)) (hn : (xs ++ p :: r :: q :: ys).Nodup) :
    Chain (DoublyLinked.setPrev (DoublyLinked.setNext h p (some q)) q (some p))
    (xs ++ p :: q :: ys) := by
  obtain ⟨hfront, hpr, hrest⟩ := List.isChain_append_cons_cons.1 hc
  obtain ⟨hrq, hback⟩ := List.isChain_cons_cons.1 hrest
  have hn' : (xs ++ p :: q :: ys).Nodup :=
    hn.sublist (((List.sublist_cons_self r _).cons_cons p).append_left xs)
  obtain ⟨hfront', hback'⟩ := Chain.halves (o := some q) (u := some p) hfront hback hn'
  have hpq : p ≠ q := by
    rintro rfl
    simp [List.nodup_append] at hn'
  obtain ⟨⟨b, hb⟩, -⟩ := hpr.get
  obtain ⟨-, c, hc⟩ := hrq.get
  have hget' : ((DoublyLinked.setNext h p (some q)).get q) = some c := by
    rw [DoublyLinked.setNext, Heap.get_modify, if_neg hpq.symm, hc]
  refine List.isChain_append_cons_cons.2 ⟨hfront', ⟨?_, ?_⟩, hback'⟩
  · rw [next_setPrev, next_setNext, if_pos rfl, hb]
    rfl
  · rw [prev_setPrev, if_pos rfl, hget']
    rfl

/-! ## Following the links -/

/-- The nodes that the links lead through from `p`, up to the node `stop`. -/
def visit (link : DoublyLinked α → Option Ptr) (h : Heap (DoublyLinked α)) (stop : Ptr) :
    Nat → Ptr → Option (List Ptr)
  | 0, _ => none
  | n + 1, p => do
    let q ← (h.get p).bind link
    if q = stop then pure [] else return q :: (← visit link h stop n q)

theorem visit_eq {link : DoublyLinked α → Option Ptr} : ∀ {ps : List Ptr} {n : Nat} {p : Ptr},
    (p :: ps ++ [q]).IsChain (fun r s => (h.get r).bind link = some s) → q ∉ ps → ps.length < n →
    visit link h q n p = some ps
  | [], n + 1, p, hc, _, _ => by
    have hlink : (h.get p).bind link = some q := (List.isChain_cons_cons.1 hc).1
    rw [visit, hlink]
    simp
  | r :: ps, n + 1, p, hc, hq, hn => by
    obtain ⟨hlink, hc⟩ := List.isChain_cons_cons.1 hc
    rw [List.mem_cons, not_or] at hq
    rw [visit, hlink, Option.bind_eq_bind, Option.bind_some, if_neg (Ne.symm hq.1),
      visit_eq hc hq.2 (Nat.lt_of_succ_lt_succ hn)]
    rfl

/-- Forwards, the nodes between the first and the last. -/
theorem Chain.visit_next {n : Nat} (hc : Chain h (p :: ps ++ [q])) (hq : q ∉ ps) (hn : ps.length < n) :
    visit next h q n p = some ps := visit_eq (hc.imp fun _ _ hl => hl.1) hq hn

/-- Backwards, the same nodes the other way round. -/
theorem Chain.visit_prev {n : Nat} (hc : Chain h (p :: ps ++ [q])) (hp : p ∉ ps) (hn : ps.length < n) :
    visit prev h p n q = some ps.reverse := by
  refine visit_eq ?_ (fun hm => hp (List.mem_reverse.1 hm)) (by rwa [List.length_reverse])
  have hrev : q :: ps.reverse ++ [p] = (p :: ps ++ [q]).reverse := by simp
  rw [hrev, List.isChain_reverse]
  exact hc.imp fun _ _ hl => hl.2

end DoublyLinked

/-
Singly linked lists in a heap: the nodes a link leads to (`Seg`, `Chain`), the
loops that follow the links, and what becomes of a list when one link is set.
-/
import MyShell.Lib.Heap

/-- A node of a linked list: what it holds, and the link to the next one. -/
structure Linked (α : Type) where
  val : α
  next : Option Ptr

namespace Linked

variable {α : Type} {h h' : Heap (Linked α)} {o o' o'' : Option Ptr} {p q : Ptr} {ps qs : List Ptr}
  {a b : Linked α}

/-- From `o` the links lead through these nodes to the link `o'`. -/
def Seg (h : Heap (Linked α)) : Option Ptr → List Ptr → Option Ptr → Prop
  | o, [], o' => o = o'
  | o, p :: ps, o' => o = some p ∧ ∃ a, h.get p = some a ∧ Seg h a.next ps o'

/-- A list that ends. -/
abbrev Chain (h : Heap (Linked α)) (o : Option Ptr) (ps : List Ptr) : Prop := Seg h o ps none

theorem seg_append : Seg h o (ps ++ qs) o'' ↔ ∃ o', Seg h o ps o' ∧ Seg h o' qs o'' := by
  induction ps generalizing o with
  | nil => simp [Seg]
  | cons p ps ih =>
    rw [List.cons_append, Seg]
    constructor
    · rintro ⟨rfl, a, ha, hs⟩
      obtain ⟨o', h1, h2⟩ := ih.1 hs
      exact ⟨o', ⟨rfl, a, ha, h1⟩, h2⟩
    · rintro ⟨o', ⟨rfl, a, ha, h1⟩, h2⟩
      exact ⟨rfl, a, ha, ih.2 ⟨o', h1, h2⟩⟩

theorem Seg.cons (ha : h.get p = some a) (hs : Seg h a.next ps o) : Seg h (some p) (p :: ps) o :=
  ⟨rfl, a, ha, hs⟩

theorem Seg.get_of_mem (hs : Seg h o ps o') (hp : p ∈ ps) : ∃ a, h.get p = some a := by
  induction ps generalizing o with
  | nil => cases hp
  | cons q ps ih =>
    obtain ⟨-, a, ha, hs⟩ := hs
    rcases List.mem_cons.1 hp with rfl | hp
    · exact ⟨a, ha⟩
    · exact ih hs hp

/-- A list is where its links lead. -/
theorem Chain.unique (hs : Chain h o ps) (ht : Chain h o qs) : ps = qs := by
  induction ps generalizing o qs with
  | nil =>
    obtain rfl : o = none := hs
    cases qs with
    | nil => rfl
    | cons q qs => cases ht.1
  | cons p ps ih =>
    obtain ⟨rfl, a, ha, hs⟩ := hs
    cases qs with
    | nil => cases ht
    | cons q qs =>
      obtain ⟨hq, b, hb, ht⟩ := ht
      obtain rfl := Option.some.inj hq
      obtain rfl := Option.some.inj (ha.symm.trans hb)
      rw [ih hs ht]

/-- A list that ends passes through no node twice. -/
theorem Chain.nodup (hs : Chain h o ps) : ps.Nodup := by
  induction ps generalizing o with
  | nil => exact List.nodup_nil
  | cons p ps ih =>
    have hcons := hs
    obtain ⟨rfl, a, ha, hs⟩ := hs
    refine List.nodup_cons.2 ⟨fun hp => ?_, ih hs⟩
    -- the rest from the second visit on would be the whole list
    obtain ⟨front, back, rfl⟩ := List.append_of_mem hp
    obtain ⟨o', -, hback⟩ := seg_append.1 hs
    obtain rfl : o' = some p := hback.1
    have hlength := congrArg List.length (Chain.unique hcons hback)
    simp only [List.length_cons, List.length_append] at hlength
    omega

theorem Chain.length_le (hs : Chain h o ps) : ps.length ≤ h.cells.length := by
  have hlength : (h.cells.map Prod.fst).length = h.cells.length := List.length_map _
  rw [← hlength]
  refine List.Nodup.length_le_of_subset hs.nodup fun p hp => ?_
  obtain ⟨a, ha⟩ := hs.get_of_mem hp
  exact List.mem_map.2 ⟨(p, a), Heap.mem_of_get ha, rfl⟩

/-- Nothing on the way has changed. -/
theorem Seg.congr (hs : Seg h o ps o')
    (heq : ∀ p ∈ ps, ∀ a, h.get p = some a → ∃ b, h'.get p = some b ∧ b.next = a.next) :
    Seg h' o ps o' := by
  induction ps generalizing o with
  | nil => exact hs
  | cons p ps ih =>
    obtain ⟨rfl, a, ha, hs⟩ := hs
    obtain ⟨b, hb, hnext⟩ := heq p List.mem_cons_self a ha
    exact .cons hb (hnext ▸ ih hs fun q hq => heq q (List.mem_cons_of_mem _ hq))

/-- On the way to a node every link is set. -/
theorem Seg.isSome_next (hs : Seg h o ps (some q)) (hp : p ∈ ps) (ha : h.get p = some a) :
    a.next.isSome := by
  induction ps generalizing o with
  | nil => cases hp
  | cons r ps ih =>
    obtain ⟨-, b, hb, hs⟩ := hs
    rcases List.mem_cons.1 hp with rfl | hp
    · obtain rfl := Option.some.inj (ha.symm.trans hb)
      cases ps with
      | nil => rw [show a.next = some q from hs, Option.isSome_some]
      | cons r' ps => rw [hs.1, Option.isSome_some]
    · exact ih hs hp

/-- The end of a list that is not empty. -/
theorem Chain.concat (hs : Chain h o (ps ++ [p])) :
    ∃ r a, o = some r ∧ Seg h o ps (some p) ∧ h.get p = some a ∧ a.next = none ∧ p ∉ ps := by
  obtain ⟨o', hfront, rfl, a, ha, hnext⟩ := seg_append.1 hs
  obtain ⟨r, hr⟩ : ∃ r, o = some r := by
    cases ps with
    | nil => exact ⟨p, hfront⟩
    | cons r ps => exact ⟨r, hfront.1⟩
  have hnodup := hs.nodup
  rw [List.nodup_append] at hnodup
  exact ⟨r, a, hr, hfront, ha, hnext, fun hmem => hnodup.2.2 p hmem p List.mem_cons_self rfl⟩

/-! ## Setting a link -/

/-- `p->next = o` -/
def setNext (h : Heap (Linked α)) (p : Ptr) (o : Option Ptr) : Heap (Linked α) :=
  h.modify p fun a => { a with next := o }

theorem get_setNext (h : Heap (Linked α)) (p : Ptr) (o : Option Ptr) (q : Ptr) :
    (setNext h p o).get q = if q = p then (h.get p).map fun a => { a with next := o } else h.get q :=
  Heap.get_modify ..

theorem get_setNext_self (ha : h.get p = some a) :
    (setNext h p o).get p = some { a with next := o } := by
  rw [get_setNext, if_pos rfl, ha]
  rfl

theorem get_setNext_of_ne (hne : q ≠ p) : (setNext h p o).get q = h.get q := by
  rw [get_setNext, if_neg hne]

theorem Seg.setNext (hs : Seg h o ps o') (hp : p ∉ ps) : Seg (Linked.setNext h p o'') o ps o' :=
  hs.congr fun q hq a ha => ⟨a, by rwa [get_setNext_of_ne (ne_of_mem_of_not_mem hq hp)], rfl⟩

/-- The two heaps hold the same nodes, with the same in them; links may differ. -/
def Relinked (h h' : Heap (Linked α)) : Prop := ∀ p, (h'.get p).map val = (h.get p).map val

theorem Relinked.refl (h : Heap (Linked α)) : Relinked h h := fun _ => rfl

theorem Relinked.trans {h'' : Heap (Linked α)} (h1 : Relinked h h') (h2 : Relinked h' h'') :
    Relinked h h'' :=
  fun p => (h2 p).trans (h1 p)

theorem Relinked.symm (hr : Relinked h h') : Relinked h' h := fun p => (hr p).symm

theorem relinked_setNext (h : Heap (Linked α)) (p : Ptr) (o : Option Ptr) :
    Relinked h (setNext h p o) :=
  fun q => by
  rw [get_setNext]
  split
  · next heq =>
    subst heq
    rw [Option.map_map]
    rfl
  · rfl

theorem Relinked.get (hr : Relinked h h') (ha : h.get p = some a) :
    ∃ b, h'.get p = some b ∧ b.val = a.val := by
  have hp := hr p
  rw [ha, Option.map_some, Option.map_eq_some_iff] at hp
  exact hp

theorem Relinked.isSome (hr : Relinked h h') (p : Ptr) : (h'.get p).isSome = (h.get p).isSome := by
  have hp := congrArg Option.isSome (hr p)
  rwa [Option.isSome_map, Option.isSome_map] at hp

/-! ## Following the links -/

/-- `while (cur != NULL && !stop(cur)) cur = cur->next` -/
def walk (h : Heap (Linked α)) (stop : Linked α → Option Bool) : Nat → Option Ptr → Option (Option Ptr)
  | _, none => some none
  | 0, some _ => none
  | n + 1, some p => do
    let a ← h.get p
    if ← stop a then pure (some p) else walk h stop n a.next

/-- The loop passes nodes that it is not to stop at. -/
theorem Seg.walk {stop : Linked α → Option Bool} (hs : Seg h o ps o')
    (hstop : ∀ p ∈ ps, ∀ a, h.get p = some a → stop a = some false) (n : Nat) :
    Linked.walk h stop (ps.length + n) o = Linked.walk h stop n o' := by
  induction ps generalizing o with
  | nil =>
    obtain rfl : o = o' := hs
    rw [List.length_nil, Nat.zero_add]
  | cons p ps ih =>
    obtain ⟨rfl, a, ha, hs⟩ := hs
    rw [List.length_cons, Nat.succ_add, Linked.walk, ha]
    simp only [Option.bind_eq_bind, Option.bind_some, hstop p List.mem_cons_self a ha]
    exact ih hs fun q hq => hstop q (List.mem_cons_of_mem _ hq)

theorem walk_none (h : Heap (Linked α)) (stop : Linked α → Option Bool) (n : Nat) :
    walk h stop n none = some none := by
  cases n <;> rfl

theorem walk_stop {stop : Linked α → Option Bool} (ha : h.get p = some a)
    (hstop : stop a = some true) (n : Nat) : walk h stop (n + 1) (some p) = some (some p) := by
  rw [walk, ha]
  simp [hstop]

/-- Where the loop ends. -/
theorem Chain.walk_mem {stop : Linked α → Option Bool} {n : Nat} (hs : Chain h o ps)
    (hw : walk h stop n o = some (some p)) : p ∈ ps := by
  induction ps generalizing o n with
  | nil =>
    obtain rfl : o = none := hs
    rw [walk_none] at hw
    cases hw
  | cons q ps ih =>
    obtain ⟨rfl, a, ha, hs⟩ := hs
    cases n with
    | zero => cases hw
    | succ n =>
      rw [walk, ha] at hw
      simp only [Option.bind_eq_bind, Option.bind_some, Option.bind_eq_some_iff] at hw
      obtain ⟨b, -, hw⟩ := hw
      cases b with
      | true =>
        obtain rfl : q = p := by simpa using hw
        exact List.mem_cons_self
      | false => exact List.mem_cons_of_mem _ (ih hs hw)

/-- A link leads to a later node, or out of the segment. -/
theorem Seg.next_mem (hs : Seg h o ps o') (hp : p ∈ ps) (ha : h.get p = some a) (hq : a.next = some q) :
    q ∈ ps.tail ∨ o' = some q := by
  induction ps generalizing o with
  | nil => cases hp
  | cons r ps ih =>
    obtain ⟨-, b, hb, hs⟩ := hs
    rcases List.mem_cons.1 hp with rfl | hp
    · obtain rfl := Option.some.inj (ha.symm.trans hb)
      rw [hq] at hs
      cases ps with
      | nil => exact .inr hs.symm
      | cons q' ps =>
        obtain rfl := Option.some.inj hs.1
        exact .inl List.mem_cons_self
    · exact (ih hs hp).imp_left List.mem_of_mem_tail

/-- The nodes, for a loop over all of them. -/
def nodes (h : Heap (Linked α)) : Nat → Option Ptr → Option (List Ptr)
  | _, none => some []
  | 0, some _ => none
  | n + 1, some p => do
    let a ← h.get p
    let ps ← nodes h n a.next
    pure (p :: ps)

theorem Chain.nodes (hs : Chain h o ps) {n : Nat} (hn : ps.length ≤ n) :
    Linked.nodes h n o = some ps := by
  induction ps generalizing o n with
  | nil =>
    obtain rfl : o = none := hs
    cases n <;> rfl
  | cons p ps ih =>
    obtain ⟨rfl, a, ha, hs⟩ := hs
    obtain ⟨n, rfl⟩ : ∃ m, n = m + 1 := ⟨n - 1, by simp at hn; omega⟩
    rw [Linked.nodes, ha]
    simp [ih hs (Nat.le_of_succ_le_succ hn)]

end Linked

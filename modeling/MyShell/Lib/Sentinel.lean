/-
Families of doubly linked lists, each between two sentinels, with the links in
the elements themselves. Every element is linked both ways to the next
(`Holds`), and a range of a list is cut out and put in again by closing and
opening the one gap it leaves (`Holds.cut`, `Holds.paste`).
-/
import Mathlib.Data.List.Chain
import Mathlib.Data.List.Nodup
import Mathlib.Logic.Function.Basic

namespace Sentinel

/-- The sentinels of the lists `ι`, and the elements `α`. -/
inductive Node (ι α : Type)
  | head (l : ι)
  | tail (l : ι)
  | elem (x : α)
  deriving DecidableEq

variable {ι α : Type}

open Node

/-- Where the elements `xs` at the end of list `l` begin. -/
def frontOf (l : ι) : List α → Node ι α
  | [] => tail l
  | x :: _ => elem x

/-- Where the elements `xs` at the start of list `l` end. -/
def backOf (l : ι) (xs : List α) : Node ι α := (xs.getLast?.map elem).getD (head l)

@[simp] theorem frontOf_nil (l : ι) : frontOf l ([] : List α) = tail l := rfl

@[simp] theorem frontOf_cons (l : ι) (x : α) (xs : List α) : frontOf l (x :: xs) = elem x := rfl

@[simp] theorem backOf_nil (l : ι) : backOf l ([] : List α) = head l := rfl

@[simp] theorem backOf_concat (l : ι) (xs : List α) (x : α) : backOf l (xs ++ [x]) = elem x := by
  rw [backOf, List.getLast?_concat]
  rfl

theorem backOf_append (l : ι) (xs : List α) {ys : List α} (hne : ys ≠ []) :
    backOf l (xs ++ ys) = backOf l ys := by
  obtain ⟨zs, z, rfl⟩ := (List.eq_nil_or_concat ys).resolve_left hne
  rw [List.concat_eq_append, ← List.append_assoc, backOf_concat, backOf_concat]

theorem frontOf_congr (l k : ι) {xs : List α} (hne : xs ≠ []) : frontOf l xs = frontOf k xs := by
  obtain ⟨x, xs, rfl⟩ := List.exists_cons_of_ne_nil hne
  rfl

theorem backOf_congr (l k : ι) {xs : List α} (hne : xs ≠ []) : backOf l xs = backOf k xs := by
  obtain ⟨xs, x, rfl⟩ := (List.eq_nil_or_concat xs).resolve_left hne
  rw [List.concat_eq_append, backOf_concat, backOf_concat]

theorem exists_frontOf_mem (l : ι) {xs : List α} (hne : xs ≠ []) : ∃ x ∈ xs, frontOf l xs = elem x := by
  obtain ⟨x, xs, rfl⟩ := List.exists_cons_of_ne_nil hne
  exact ⟨x, List.mem_cons_self, rfl⟩

theorem exists_backOf_mem (l : ι) {xs : List α} (hne : xs ≠ []) : ∃ x ∈ xs, backOf l xs = elem x := by
  obtain ⟨xs, x, rfl⟩ := (List.eq_nil_or_concat xs).resolve_left hne
  rw [List.concat_eq_append, backOf_concat]
  exact ⟨x, List.mem_append_right _ List.mem_cons_self, rfl⟩

theorem frontOf_append (l : ι) {xs : List α} (hne : xs ≠ []) (ys : List α) :
    frontOf l (xs ++ ys) = frontOf l xs := by
  obtain ⟨x, xs, rfl⟩ := List.exists_cons_of_ne_nil hne
  rfl

theorem frontOf_reverse (l : ι) (xs : List α) (hne : xs ≠ []) : frontOf l xs.reverse = backOf l xs := by
  obtain ⟨xs, x, rfl⟩ := (List.eq_nil_or_concat xs).resolve_left hne
  rw [List.concat_eq_append, backOf_concat, List.reverse_append]
  rfl

theorem backOf_reverse (l : ι) (xs : List α) (hne : xs ≠ []) : backOf l xs.reverse = frontOf l xs := by
  obtain ⟨x, xs, rfl⟩ := List.exists_cons_of_ne_nil hne
  rw [List.reverse_cons, backOf_concat]
  rfl

theorem backOf_ne_tail (l k : ι) (xs : List α) : backOf l xs ≠ tail k := by
  rcases List.eq_nil_or_concat xs with rfl | ⟨xs, x, rfl⟩
  · rw [backOf_nil]
    nofun
  · rw [List.concat_eq_append, backOf_concat]
    nofun

theorem frontOf_ne_head (l k : ι) (xs : List α) : frontOf l xs ≠ head k := by
  cases xs with
  | nil => nofun
  | cons x xs => nofun

/-- The nodes of list `l`. -/
def line (l : ι) (xs : List α) : List (Node ι α) := head l :: xs.map elem ++ [tail l]

theorem mem_line {l : ι} {xs : List α} {p : Node ι α} :
    p ∈ line l xs ↔ p = head l ∨ (∃ x ∈ xs, elem x = p) ∨ p = tail l := by
  simp [line]

theorem backOf_mem_line (l : ι) (us vs : List α) : backOf l us ∈ line l (us ++ vs) := by
  rcases List.eq_nil_or_concat us with rfl | ⟨us, x, rfl⟩
  · exact mem_line.2 (.inl rfl)
  · rw [List.concat_eq_append, backOf_concat]
    exact mem_line.2 (.inr (.inl ⟨x, by simp, rfl⟩))

theorem frontOf_mem_line (l : ι) (us vs : List α) : frontOf l vs ∈ line l (us ++ vs) := by
  cases vs with
  | nil => exact mem_line.2 (.inr (.inr rfl))
  | cons x vs => exact mem_line.2 (.inr (.inl ⟨x, by simp, rfl⟩))

theorem nodup_line {l : ι} {xs : List α} (h : xs.Nodup) : (line l xs).Nodup := by
  have hmap : (xs.map elem : List (Node ι α)).Nodup := h.map fun _ _ he => Node.elem.inj he
  simp [line, List.nodup_append, hmap]

theorem line_append (l : ι) (us vs : List α) :
    line l (us ++ vs) = (head l :: us.map elem) ++ (vs.map elem ++ [tail l]) := by
  rw [line, List.map_append, List.cons_append, List.cons_append, List.append_assoc]

theorem exists_backOf (l : ι) (us : List α) :
    ∃ ps, (head l :: us.map elem : List (Node ι α)) = ps ++ [backOf l us] := by
  rcases List.eq_nil_or_concat us with rfl | ⟨us, x, rfl⟩
  · exact ⟨[], rfl⟩
  · refine ⟨head l :: us.map elem, ?_⟩
    rw [List.concat_eq_append, backOf_concat, List.map_append]
    rfl

theorem exists_frontOf_elem (l : ι) {xs : List α} (hne : xs ≠ []) :
    ∃ qs, (xs.map elem : List (Node ι α)) = frontOf l xs :: qs := by
  obtain ⟨x, xs, rfl⟩ := List.exists_cons_of_ne_nil hne
  exact ⟨xs.map elem, rfl⟩

theorem exists_backOf_elem (l : ι) {xs : List α} (hne : xs ≠ []) :
    ∃ ps, (xs.map elem : List (Node ι α)) = ps ++ [backOf l xs] := by
  obtain ⟨ys, y, rfl⟩ := (List.eq_nil_or_concat xs).resolve_left hne
  rw [List.concat_eq_append, backOf_concat, List.map_append]
  exact ⟨_, rfl⟩

theorem exists_frontOf (l : ι) (vs : List α) :
    ∃ qs, (vs.map elem ++ [tail l] : List (Node ι α)) = frontOf l vs :: qs := by
  cases vs with
  | nil => exact ⟨[], rfl⟩
  | cons x vs => exact ⟨vs.map elem ++ [tail l], rfl⟩

/-- The links of every node. -/
@[ext] structure Links (ι α : Type) where
  prev : Node ι α → Option (Node ι α)
  next : Node ι α → Option (Node ι α)

/-- `p` and `q` are neighbours. -/
def Link (s : Links ι α) (p q : Node ι α) : Prop := s.next p = some q ∧ s.prev q = some p

/-- A chain is kept by what keeps its links; a link starts before the end and ends after the start. -/
theorem chain_imp {R S : Node ι α → Node ι α → Prop} {ps : List (Node ι α)}
    (h : ∀ a ∈ ps.dropLast, ∀ b ∈ ps.tail, R a b → S a b) (hc : ps.IsChain R) : ps.IsChain S := by
  induction ps with
  | nil => exact .nil
  | cons p ps ih =>
    cases ps with
    | nil => exact .singleton p
    | cons q ps =>
      rw [List.isChain_cons_cons] at hc ⊢
      refine ⟨h p List.mem_cons_self q List.mem_cons_self hc.1, ih (fun a ha b hb => ?_) hc.2⟩
      exact h a (List.mem_cons_of_mem _ ha) b (List.mem_cons_of_mem _ hb)

/-! ## Setting links -/

section set

variable [DecidableEq ι] [DecidableEq α]

namespace Links

def setNext (s : Links ι α) (p : Node ι α) (o : Option (Node ι α)) : Links ι α :=
  { s with next := Function.update s.next p o }

def setPrev (s : Links ι α) (p : Node ι α) (o : Option (Node ι α)) : Links ι α :=
  { s with prev := Function.update s.prev p o }

/-- `q` comes after `p`. -/
def join (s : Links ι α) (p q : Node ι α) : Links ι α := (s.setNext p (some q)).setPrev q (some p)

variable (s : Links ι α) (p q a : Node ι α) (o : Option (Node ι α))

@[simp] theorem prev_setNext : (s.setNext p o).prev = s.prev := rfl

@[simp] theorem next_setPrev : (s.setPrev p o).next = s.next := rfl

theorem next_setNext : (s.setNext p o).next q = if q = p then o else s.next q :=
  Function.update_apply _ _ _ _

theorem prev_setPrev : (s.setPrev p o).prev q = if q = p then o else s.prev q :=
  Function.update_apply _ _ _ _

theorem next_join : (s.join p q).next a = if a = p then some q else s.next a := next_setNext s p a _

theorem prev_join : (s.join p q).prev a = if a = q then some p else s.prev a := prev_setPrev _ q a _

end Links

variable {s s' : Links ι α} {p q a b : Node ι α} {ps qs : List (Node ι α)}

theorem link_join (s : Links ι α) (p q : Node ι α) : Link (s.join p q) p q := by
  rw [Link, Links.next_join, if_pos rfl, Links.prev_join, if_pos rfl]
  exact ⟨rfl, rfl⟩

theorem Link.join (h : Link s a b) (ha : a ≠ p) (hb : b ≠ q) : Link (s.join p q) a b := by
  rw [Link, Links.next_join, if_neg ha, Links.prev_join, if_neg hb]
  exact h

theorem chain_join (hp : p ∉ ps.dropLast) (hq : q ∉ ps.tail) (hc : ps.IsChain (Link s)) :
    ps.IsChain (Link (s.join p q)) :=
  chain_imp (fun _ ha _ hb hl => hl.join (fun he => hp (he ▸ ha)) (fun he => hq (he ▸ hb))) hc

theorem chain_join_of_notMem (hp : p ∉ ps) (hq : q ∉ ps) (hc : ps.IsChain (Link s)) :
    ps.IsChain (Link (s.join p q)) :=
  chain_join (fun hm => hp ((List.dropLast_sublist _).subset hm))
    (fun hm => hq (List.mem_of_mem_tail hm)) hc

/-- Two chains are joined to one. -/
theorem chain_append (hp : (ps ++ [p]).IsChain (Link s)) (hq : (q :: qs).IsChain (Link s))
    (hd : (ps ++ p :: q :: qs).Nodup) : (ps ++ p :: q :: qs).IsChain (Link (s.join p q)) := by
  rw [List.nodup_append, List.nodup_cons, List.nodup_cons] at hd
  obtain ⟨-, ⟨hpq, hqs, -⟩, happart⟩ := hd
  rw [List.isChain_append_cons_cons]
  refine ⟨chain_join ?_ ?_ hp, link_join s p q, chain_join ?_ hqs hq⟩
  · rw [List.dropLast_concat]
    exact fun hm => happart p hm p List.mem_cons_self rfl
  · intro hm
    rcases List.mem_append.1 (List.mem_of_mem_tail hm) with hm | hm
    · exact happart q hm q (List.mem_cons_of_mem _ List.mem_cons_self) rfl
    · exact hpq (List.mem_singleton.1 hm ▸ List.mem_cons_self)
  · exact fun hm => hpq ((List.dropLast_sublist _).subset hm)

end set

/-! ## Families of lists -/

/-- No element is twice in the lists. -/
structure Distinct (σ : ι → List α) : Prop where
  nodup : ∀ l, (σ l).Nodup
  apart : ∀ l k, l ≠ k → List.Disjoint (σ l) (σ k)

/-- The links are those of the lists `σ`. -/
structure Holds (s : Links ι α) (σ : ι → List α) : Prop where
  head : ∀ l, s.prev (.head l) = none
  tail : ∀ l, s.next (.tail l) = none
  chain : ∀ l, (line l (σ l)).IsChain (Link s)
  distinct : Distinct σ

variable {s : Links ι α} {σ : ι → List α} {l k : ι} {xs ys us vs ms : List α} {x : α}

namespace Distinct

/-- An element is in one list. -/
theorem eq_of_mem (h : Distinct σ) (hl : x ∈ σ l) (hk : x ∈ σ k) : l = k := by
  by_contra hne
  exact h.apart l k hne hl hk

/-- The nodes of two lists are apart. -/
theorem line_apart (h : Distinct σ) (hne : l ≠ k) {p : Node ι α} (hp : p ∈ line l (σ l)) :
    p ∉ line k (σ k) := by
  intro hk
  rcases mem_line.1 hp with rfl | ⟨x, hx, rfl⟩ | rfl <;> rcases mem_line.1 hk with
    heq | ⟨y, hy, heq⟩ | heq
  all_goals cases heq
  · exact hne rfl
  · exact hne (h.eq_of_mem hx hy)
  · exact hne rfl

theorem update [DecidableEq ι] (h : Distinct σ) (hxs : xs.Nodup)
    (hfree : ∀ k, k ≠ l → List.Disjoint xs (σ k)) : Distinct (Function.update σ l xs) where
  nodup k := by
    rw [Function.update_apply]
    split
    · exact hxs
    · exact h.nodup k
  apart k k' hne := by
    rw [Function.update_apply, Function.update_apply]
    split
    · next hk =>
      rw [if_neg fun hk' => hne (hk.trans hk'.symm)]
      exact hfree k' fun hk' => hne (hk.trans hk'.symm)
    · next hk =>
      split
      · exact fun x hx hy => hfree k hk hy hx
      · exact h.apart k k' hne

theorem split (h : Distinct σ) (hl : σ l = us ++ ms ++ vs) :
    (us ++ vs).Nodup ∧ ms.Nodup ∧ (∀ x ∈ ms, x ∉ us ++ vs) ∧ ∀ k, k ≠ l →
    List.Disjoint (us ++ vs) (σ k) ∧ List.Disjoint ms (σ k) := by
  have hd := h.nodup l
  rw [hl] at hd
  have hcut : (us ++ vs).Sublist (us ++ ms ++ vs) :=
    (List.sublist_append_left us ms).append (List.Sublist.refl vs)
  have hin : ms.Sublist (us ++ ms ++ vs) :=
    (List.sublist_append_right us ms).trans (List.sublist_append_left _ vs)
  refine ⟨hd.sublist hcut, hd.sublist hin, fun x hx hmem => ?_, fun k hk => ?_⟩
  · rw [List.append_assoc, List.nodup_append] at hd
    obtain ⟨-, hd, hus⟩ := hd
    rcases List.mem_append.1 hmem with hmem | hmem
    · exact hus x hmem x (List.mem_append_left _ hx) rfl
    · exact (List.nodup_append.1 hd).2.2 x hx x hmem rfl
  · have hk := h.apart l k hk.symm
    rw [hl] at hk
    exact ⟨fun x hx => hk (hcut.subset hx), fun x hx => hk (hin.subset hx)⟩

/-- An element taken out is in no list. -/
theorem removed [DecidableEq ι] (h : Distinct σ) (hl : σ l = us ++ x :: vs) (k : ι) :
    x ∉ Function.update σ l (us ++ vs) k := by
  obtain ⟨-, -, hfree, hother⟩ := h.split (hl.trans (List.append_cons us x vs))
  rw [Function.update_apply]
  split
  · exact hfree x List.mem_cons_self
  · next hk => exact fun hmem => (hother k hk).2 List.mem_cons_self hmem

/-- An element is not where the elements after it begin. -/
theorem elem_ne_frontOf (h : Distinct σ) (hl : σ l = us ++ x :: (ms ++ vs)) :
    elem x ≠ frontOf l vs := by
  have hd := h.nodup l
  rw [hl, List.nodup_append, List.nodup_cons] at hd
  cases hvs : vs with
  | nil => nofun
  | cons y vs' =>
    intro heq
    cases heq
    exact hd.2.1.1 (List.mem_append_right _ (hvs ▸ List.mem_cons_self))

end Distinct

namespace Holds

/-- **Neighbours in a list** are linked both ways. -/
theorem link (h : Holds s σ) (hl : σ l = us ++ vs) : Link s (backOf l us) (frontOf l vs) := by
  have hc := h.chain l
  obtain ⟨ps, hps⟩ := exists_backOf l us
  obtain ⟨qs, hqs⟩ := exists_frontOf l vs
  rw [hl, line_append, hps, hqs, List.append_assoc, List.singleton_append,
    List.isChain_append_cons_cons] at hc
  exact hc.2.1

theorem next (h : Holds s σ) (hl : σ l = us ++ vs) : s.next (backOf l us) = some (frontOf l vs) :=
  (h.link hl).1

theorem prev (h : Holds s σ) (hl : σ l = us ++ vs) : s.prev (frontOf l vs) = some (backOf l us) :=
  (h.link hl).2

/-- An element of a list has both links. -/
theorem interior (h : Holds s σ) (hx : x ∈ σ l) :
    ∃ p q, s.prev (.elem x) = some p ∧ s.next (.elem x) = some q := by
  obtain ⟨us, vs, hl⟩ := List.append_of_mem hx
  have hnext := h.next (hl.trans (List.append_cons us x vs))
  rw [backOf_concat] at hnext
  exact ⟨_, _, h.prev hl, hnext⟩

/-- Every place of a list has a link back. -/
theorem exists_prev (h : Holds s σ) (hvs : ∀ x ∈ vs, x ∈ σ l) :
    ∃ p, s.prev (frontOf l vs) = some p := by
  cases vs with
  | nil => exact ⟨_, h.prev (List.append_nil (σ l)).symm⟩
  | cons x vs =>
    obtain ⟨p, q, hp, -⟩ := h.interior (hvs x List.mem_cons_self)
    exact ⟨p, hp⟩

variable [DecidableEq ι] [DecidableEq α]

/-- **A range is cut out**; its elements stay linked to each other. -/
theorem cut (h : Holds s σ) (hl : σ l = us ++ ms ++ vs) :
    Holds (s.join (backOf l us) (frontOf l vs)) (Function.update σ l (us ++ vs)) ∧
      (ms.map Node.elem).IsChain (Link (s.join (backOf l us) (frontOf l vs))) := by
  obtain ⟨ps, hps⟩ := exists_backOf l us
  obtain ⟨qs, hqs⟩ := exists_frontOf l vs
  have hline : line l (σ l) = (ps ++ [backOf l us]) ++ (ms.map Node.elem ++ frontOf l vs :: qs) := by
    rw [hl, List.append_assoc, line_append, hps, List.map_append, List.append_assoc (ms.map _), hqs]
  have hline' : line l (us ++ vs) = ps ++ backOf l us :: frontOf l vs :: qs := by
    rw [line_append, hps, hqs, List.append_assoc]
    rfl
  have hc := h.chain l
  rw [hline] at hc
  obtain ⟨hd, hms, hapart, hother⟩ := h.distinct.split hl
  have hback : backOf l us ∈ line l (σ l) := by rw [hline]; simp
  have hfront : frontOf l vs ∈ line l (σ l) := by rw [hline]; simp
  refine ⟨⟨fun k => ?_, fun k => ?_, fun k => ?_, h.distinct.update hd fun k hk => (hother k hk).1⟩, ?_⟩
  · rw [Links.prev_join, if_neg (frontOf_ne_head l k vs).symm, h.head]
  · rw [Links.next_join, if_neg (backOf_ne_tail l k us).symm, h.tail]
  · by_cases hk : k = l
    · subst hk
      rw [Function.update_self, hline']
      exact chain_append hc.left_of_append hc.right_of_append.right_of_append (hline' ▸ nodup_line hd)
    · rw [Function.update_of_ne hk]
      exact chain_join_of_notMem (h.distinct.line_apart (Ne.symm hk) hback)
        (h.distinct.line_apart (Ne.symm hk) hfront) (h.chain k)
  · have hnodup : (line l (σ l)).Nodup := nodup_line (h.distinct.nodup l)
    rw [hline, List.nodup_append] at hnodup
    obtain ⟨-, hright, hpsms⟩ := hnodup
    obtain ⟨-, -, hmsqs⟩ := List.nodup_append.1 hright
    refine chain_join_of_notMem (fun hm => ?_) (fun hm => ?_) hc.right_of_append.left_of_append
    · exact hpsms _ (by simp) _ (List.mem_append_left _ hm) rfl
    · exact hmsqs _ hm _ List.mem_cons_self rfl

/-- **Linked elements that are in no list** are put in as a range. -/
theorem paste (h : Holds s σ) (hl : σ l = us ++ vs) (hne : ms ≠ [])
    (hms : (ms.map Node.elem).IsChain (Link s)) (hd : ms.Nodup)
    (hfree : ∀ k, List.Disjoint ms (σ k)) :
    Holds ((s.join (backOf l us) (frontOf l ms)).join (backOf l ms) (frontOf l vs))
    (Function.update σ l (us ++ ms ++ vs)) := by
  obtain ⟨ps, hps⟩ := exists_backOf l us
  obtain ⟨qs, hqs⟩ := exists_frontOf l vs
  obtain ⟨fs, hfs⟩ := exists_frontOf_elem l hne
  obtain ⟨bs, hbs⟩ := exists_backOf_elem l hne
  have hline : line l (σ l) = ps ++ backOf l us :: frontOf l vs :: qs := by
    rw [hl, line_append, hps, hqs, List.append_assoc]
    rfl
  have hline' : line l (us ++ ms ++ vs) = ps ++ backOf l
      us :: (ms.map Node.elem ++ frontOf l vs :: qs) := by
    rw [List.append_assoc, line_append, hps, List.map_append, List.append_assoc (ms.map _), hqs,
      List.append_assoc]
    rfl
  have hnodup : (us ++ ms ++ vs).Nodup := by
    have huv := h.distinct.nodup l
    have hoff := hfree l
    rw [hl] at huv hoff
    rw [List.nodup_append] at huv
    rw [List.append_assoc, List.nodup_append, List.nodup_append]
    refine ⟨huv.1, ⟨hd, huv.2.1, fun x hx y hy he => hoff hx (List.mem_append_right _ (he ▸ hy))⟩,
      fun x hx y hy he => ?_⟩
    rcases List.mem_append.1 hy with hy | hy
    · exact hoff hy (List.mem_append_left _ (he ▸ hx))
    · exact huv.2.2 x hx y hy he
  have hfull : (line l (us ++ ms ++ vs)).Nodup := nodup_line hnodup
  rw [hline'] at hfull
  -- the range after the elements before it
  have hc := h.chain l
  rw [hline, List.isChain_append_cons_cons] at hc
  have hfirst : (ps ++ backOf l us :: frontOf l ms :: fs).IsChain
      (Link (s.join (backOf l us) (frontOf l ms))) := by
    refine chain_append hc.1 (hfs ▸ hms) ?_
    rw [← hfs]
    exact hfull.sublist ((List.Sublist.refl ps).append (.cons_cons _ (List.sublist_append_left _ _)))
  -- the elements after it
  have hd' := hfull
  rw [List.nodup_append, List.nodup_cons, List.nodup_append] at hd'
  obtain ⟨-, ⟨hback, -, -, hmsqs⟩, -⟩ := hd'
  have hf : frontOf l ms ∈ ms.map Node.elem := by
    rw [hfs]
    exact List.mem_cons_self
  have hb : backOf l ms ∈ ms.map Node.elem := by
    rw [hbs]
    exact List.mem_append_right _ List.mem_cons_self
  have hrest : (frontOf l vs :: qs).IsChain (Link (s.join (backOf l us) (frontOf l ms))) :=
    chain_join_of_notMem (fun hm => hback (List.mem_append_right _ hm))
      (fun hm => hmsqs _ hf _ hm rfl) hc.2.2
  have hsecond : (line l (us ++ ms ++ vs)).IsChain
      (Link ((s.join (backOf l us) (frontOf l ms)).join (backOf l ms) (frontOf l vs))) := by
    have hbacks : ps ++ backOf l us :: frontOf l ms :: fs =
        (ps ++ backOf l us :: bs) ++ [backOf l ms] := by
      rw [← hfs, hbs, List.append_assoc, List.cons_append]
    have hwhole : ps ++ backOf l us :: (ms.map Node.elem ++ frontOf l vs :: qs) =
        (ps ++ backOf l us :: bs) ++ backOf l ms :: frontOf l vs :: qs := by
      rw [hbs, List.append_assoc, List.append_assoc, List.cons_append]
      rfl
    rw [hline', hwhole]
    rw [hbacks] at hfirst
    exact chain_append hfirst hrest (hwhole ▸ hfull)
  refine ⟨fun k => ?_, fun k => ?_, fun k => ?_, h.distinct.update hnodup fun k hk x hx hmem => ?_⟩
  · rw [Links.prev_join, if_neg (frontOf_ne_head l k vs).symm, Links.prev_join,
      if_neg (frontOf_ne_head l k ms).symm, h.head]
  · rw [Links.next_join, if_neg (backOf_ne_tail l k ms).symm, Links.next_join,
      if_neg (backOf_ne_tail l k us).symm, h.tail]
  · by_cases hk : k = l
    · subst hk
      rwa [Function.update_self]
    · rw [Function.update_of_ne hk]
      have hother {p : Node ι α} (hp : p ∈ line l (σ l)) : p ∉ line k (σ k) :=
        h.distinct.line_apart (Ne.symm hk) hp
      have hout {p : Node ι α} (hp : p ∈ ms.map Node.elem) : p ∉ line k (σ k) := by
        obtain ⟨x, hx, rfl⟩ := List.mem_map.1 hp
        intro hmem
        rcases mem_line.1 hmem with heq | ⟨y, hy, heq⟩ | heq
        · cases heq
        · cases heq
          exact hfree k hx hy
        · cases heq
      refine chain_join_of_notMem (hout hb) (hother (hl ▸ frontOf_mem_line l us vs)) ?_
      exact chain_join_of_notMem (hother (hl ▸ backOf_mem_line l us vs)) (hout hf) (h.chain k)
  · rcases List.mem_append.1 hx with hx | hx
    · rcases List.mem_append.1 hx with hx | hx
      · exact h.distinct.apart l k (Ne.symm hk) (hl ▸ List.mem_append_left _ hx) hmem
      · exact hfree k hx hmem
    · exact h.distinct.apart l k (Ne.symm hk) (hl ▸ List.mem_append_right _ hx) hmem

end Holds

/-! ## Turning a list around -/

section reverse

variable [DecidableEq ι] [DecidableEq α]

/-- Each node of `ns` with its links exchanged. -/
def Links.swapped (s : Links ι α) (ns : List (Node ι α)) : Links ι α where
  prev p := if p ∈ ns then s.next p else s.prev p
  next p := if p ∈ ns then s.prev p else s.next p

/-- The elements `xs` of list `l` with their links exchanged, and the headers linked to the
other ends. -/
def Links.reversed (s : Links ι α) (l : ι) (xs : List α) : Links ι α where
  prev p := if p = backOf l xs then some (head l)
    else if p = tail l then some (frontOf l xs) else (s.swapped (xs.map elem)).prev p
  next p := if p = frontOf l xs then some (tail l)
    else if p = head l then some (backOf l xs) else (s.swapped (xs.map elem)).next p

section

variable (s : Links ι α) (l : ι) (xs : List α) (ns : List (Node ι α)) (p : Node ι α)

theorem Links.prev_swapped : (s.swapped ns).prev p = if p ∈ ns then s.next p else s.prev p := rfl

theorem Links.next_swapped : (s.swapped ns).next p = if p ∈ ns then s.prev p else s.next p := rfl

theorem Links.prev_reversed : (s.reversed l xs).prev p = if p = backOf l xs then some (.head l)
    else if p = .tail l then some (frontOf l xs) else (s.swapped (xs.map elem)).prev p := rfl

theorem Links.next_reversed : (s.reversed l xs).next p = if p = frontOf l xs then some (.tail l)
    else if p = .head l then some (backOf l xs) else (s.swapped (xs.map elem)).next p := rfl

end

/-- The elements are linked the other way. -/
theorem chain_reversed {xs : List α} (hd : xs.Nodup) (hc : (xs.map elem).IsChain (Link s)) :
    (xs.reverse.map elem).IsChain (Link (s.reversed l xs)) := by
  rw [List.map_reverse, List.isChain_reverse]
  by_cases hne : xs = []
  · subst hne
    exact .nil
  have hnodup : (xs.map elem : List (Node ι α)).Nodup := hd.map fun _ _ he => Node.elem.inj he
  obtain ⟨fs, hfs⟩ := exists_frontOf_elem l hne
  obtain ⟨bs, hbs⟩ := exists_backOf_elem l hne
  refine chain_imp (fun a ha b hb hl => ?_) hc
  have ham : a ∈ xs.map elem := (List.dropLast_sublist _).subset ha
  have hbm : b ∈ xs.map elem := List.mem_of_mem_tail hb
  have hlast : a ≠ backOf l xs := by
    rw [hbs, List.dropLast_concat] at ha
    rw [hbs, List.nodup_append] at hnodup
    exact hnodup.2.2 a ha _ List.mem_cons_self
  have hfirst : b ≠ frontOf l xs := by
    rw [hfs, List.tail_cons] at hb
    rw [hfs, List.nodup_cons] at hnodup
    exact fun heq => hnodup.1 (heq ▸ hb)
  obtain ⟨x, -, rfl⟩ := List.mem_map.1 ham
  obtain ⟨y, -, rfl⟩ := List.mem_map.1 hbm
  constructor
  · rw [Links.next_reversed, if_neg hfirst, if_neg nofun, Links.next_swapped, if_pos hbm, hl.2]
  · rw [Links.prev_reversed, if_neg hlast, if_neg nofun, Links.prev_swapped, if_pos ham, hl.1]

/-- Nothing changes outside list `l`. -/
theorem reversed_other {p : Node ι α} (hp : p ∉ line l xs) :
    (s.reversed l xs).prev p = s.prev p ∧ (s.reversed l xs).next p = s.next p := by
  have hback : p ≠ backOf l xs := fun heq => by
    have hmem := backOf_mem_line l xs []
    rw [List.append_nil, ← heq] at hmem
    exact hp hmem
  have hfront : p ≠ frontOf l xs := fun heq => hp (heq ▸ frontOf_mem_line l [] xs)
  have helem : p ∉ xs.map elem := fun hm => hp (mem_line.2 (.inr (.inl (List.mem_map.1 hm))))
  have hhead : p ≠ head l := fun heq => hp (mem_line.2 (.inl heq))
  have htail : p ≠ tail l := fun heq => hp (mem_line.2 (.inr (.inr heq)))
  constructor
  · rw [Links.prev_reversed, if_neg hback, if_neg htail, Links.prev_swapped, if_neg helem]
  · rw [Links.next_reversed, if_neg hfront, if_neg hhead, Links.next_swapped, if_neg helem]

/-- **The reversed links** are those of the reversed list. -/
theorem Holds.reversed (h : Holds s σ) (hne : σ l ≠ []) :
    Holds (s.reversed l (σ l)) (Function.update σ l (σ l).reverse) := by
  obtain ⟨x, hx, hback⟩ := exists_backOf_mem l hne
  obtain ⟨y, hy, hfront⟩ := exists_frontOf_mem l hne
  have hother {p : Node ι α} {k : ι} (hk : k ≠ l) (hp : p ∈ line k (σ k)) :=
    reversed_other (s := s) (h.distinct.line_apart hk hp)
  have hnohead (k : ι) : Node.head k ∉ (σ l).map elem := by simp
  have hnotail (k : ι) : Node.tail k ∉ (σ l).map elem := by simp
  refine ⟨fun k => ?_, fun k => ?_, fun k => ?_,
    h.distinct.update (List.nodup_reverse.2 (h.distinct.nodup l)) fun k hk z hz hzk => ?_⟩
  · rw [Links.prev_reversed, hback, if_neg nofun, if_neg nofun, Links.prev_swapped,
      if_neg (hnohead k), h.head]
  · rw [Links.next_reversed, hfront, if_neg nofun, if_neg nofun, Links.next_swapped,
      if_neg (hnotail k), h.tail]
  · by_cases hk : k = l
    · subst hk
      rw [Function.update_self]
      have hne' : (σ k).reverse ≠ [] := fun hnil => hne (List.reverse_eq_nil_iff.1 hnil)
      have hchain : ((σ k).map elem).IsChain (Link s) := by
        have hc := h.chain k
        rw [line, List.cons_append] at hc
        exact hc.tail.left_of_append
      have hc := chain_reversed (l := k) (h.distinct.nodup k) hchain
      obtain ⟨fs, hfs⟩ := exists_frontOf_elem k hne'
      obtain ⟨bs, hbs⟩ := exists_backOf_elem k hne'
      rw [frontOf_reverse k _ hne] at hfs
      rw [backOf_reverse k _ hne] at hbs
      have hlead : (Node.head k :: (σ k).reverse.map elem).IsChain (Link (s.reversed k (σ k))) := by
        rw [hfs] at hc ⊢
        refine .cons_cons ⟨?_, ?_⟩ hc
        · rw [Links.next_reversed, if_neg (frontOf_ne_head k k _).symm, if_pos rfl]
        · rw [Links.prev_reversed, if_pos rfl]
      rw [line]
      rw [hbs] at hlead ⊢
      rw [List.cons_append, List.append_assoc, List.singleton_append, ← List.cons_append,
        List.isChain_append_cons_cons]
      refine ⟨hlead, ⟨?_, ?_⟩, .singleton _⟩
      · rw [Links.next_reversed, if_pos rfl]
      · rw [Links.prev_reversed, if_neg (backOf_ne_tail k k _).symm, if_pos rfl]
    · rw [Function.update_of_ne hk]
      refine chain_imp (fun a ha b hb hl => ?_) (h.chain k)
      rw [Link, (hother hk ((List.dropLast_sublist _).subset ha)).2,
        (hother hk (List.mem_of_mem_tail hb)).1]
      exact hl
  · exact h.distinct.apart l k (Ne.symm hk) (List.mem_reverse.1 hz) hzk

end reverse

end Sentinel

/-
What the functions of list.c do to lists. `Yields σ m b σ'` says it of a call:
over links that hold the lists `σ` it answers `b`, leaves links that hold `σ'`,
and no assertion fails. The links are looked at for insertion, removal,
splicing and reversal only; the loops are put together from these.
-/
import MyShell.Fs.ListOps

namespace MyShell.Fs

open Sentinel (Links Holds Distinct Link backOf frontOf)

variable {ι α β γ : Type} {m : ListM ι α β} {f : β → ListM ι α γ} {s s' s'' : ListState ι α} {b : β}
  {c : γ} {p q : ListElem ι α} {o : Option (ListElem ι α)}

/-- `m` answers `b` from `s`, and leaves `s'`. -/
def Runs (m : ListM ι α β) (s : ListState ι α) (b : β) (s' : ListState ι α) : Prop := m s = some (b, s')

namespace Runs

theorem pure (b : β) (s : ListState ι α) : Runs (Pure.pure b) s b s := rfl

theorem bind (h : Runs m s b s') (h' : Runs (f b) s' c s'') : Runs (m >>= f) s c s'' := by
  have h : m s = some (b, s') := h
  change (m s >>= fun r => f r.1 r.2) = _
  rw [h]
  exact h'

theorem assert {c : Bool} (hc : c = true) (s : ListState ι α) : Runs (assert c) s () s := by
  subst hc
  rfl

theorem prevField (p : ListElem ι α) (s : ListState ι α) :
    Runs (prevField p) s (s.links.prev p) s :=
  rfl

theorem nextField (p : ListElem ι α) (s : ListState ι α) :
    Runs (nextField p) s (s.links.next p) s :=
  rfl

theorem getPrev (h : s.links.prev p = some q) : Runs (getPrev p) s q s := by
  refine bind (prevField p s) ?_
  rw [h]
  exact .pure q s

theorem getNext (h : s.links.next p = some q) : Runs (getNext p) s q s := by
  refine bind (nextField p s) ?_
  rw [h]
  exact .pure q s

theorem isHead (p : ListElem ι α) (s : ListState ι α) :
    Runs (isHead p) s ((s.links.prev p).isNone && (s.links.next p).isSome) s := rfl

theorem isInterior (p : ListElem ι α) (s : ListState ι α) :
    Runs (isInterior p) s ((s.links.prev p).isSome && (s.links.next p).isSome) s := rfl

theorem isTail (p : ListElem ι α) (s : ListState ι α) :
    Runs (isTail p) s ((s.links.prev p).isSome && (s.links.next p).isNone) s := rfl

theorem listNext (h : s.links.next p = some q) : Runs (listNext p) s q s := by
  refine bind (isHead p s) (bind (isInterior p s) (bind (assert ?_ s) (getNext h)))
  rw [h]
  cases s.links.prev p <;> rfl

/-- What has a link back is interior or a tail. -/
theorem assertBefore (h : s.links.prev p = some q) (hm : Runs m s b s') :
    Runs (do
      Fs.assert ((← Fs.isInterior p) || (← Fs.isTail p))
      m) s b s' := by
  refine bind (isInterior p s) (bind (isTail p s) (bind (assert ?_ s) hm))
  rw [h]
  cases s.links.next p <;> rfl

theorem listPrev (h : s.links.prev p = some q) : Runs (listPrev p) s q s := assertBefore h (getPrev h)

theorem isInterior_true (h : s.links.prev p = some q) {r : ListElem ι α}
    (h' : s.links.next p = some r) : Runs (Fs.isInterior p) s true s := by
  have hrun := isInterior p s
  rwa [h, h'] at hrun

section set

variable [DecidableEq ι] [DecidableEq α]

theorem setPrev (p : ListElem ι α) (o : Option (ListElem ι α)) (s : ListState ι α) :
    Runs (setPrev p o) s () ⟨s.links.setPrev p o, s.panics⟩ := rfl

theorem setNext (p : ListElem ι α) (o : Option (ListElem ι α)) (s : ListState ι α) :
    Runs (setNext p o) s () ⟨s.links.setNext p o, s.panics⟩ := rfl

end set

end Runs

variable {σ σ' σ'' : ι → List α} {l k : ι} {us vs ms xs ys : List α} {x y : α}

/-- Over links that hold `σ`, `m` answers `b` and leaves links that hold `σ'`. -/
def Yields (σ : ι → List α) (m : ListM ι α β) (b : β) (σ' : ι → List α) : Prop :=
  ∀ s, Holds s.links σ → ∃ s', Runs m s b s' ∧ Holds s'.links σ' ∧ s'.panics = s.panics

namespace Yields

theorem pure (b : β) (σ : ι → List α) : Yields σ (Pure.pure b) b σ :=
  fun s hs => ⟨s, .pure b s, hs, rfl⟩

theorem bind (h : Yields σ m b σ') (h' : Yields σ' (f b) c σ'') : Yields σ (m >>= f) c σ'' := by
  intro s hs
  obtain ⟨s', hrun, hs', hpanics⟩ := h s hs
  obtain ⟨s'', hrun', hs'', hpanics'⟩ := h' s' hs'
  exact ⟨s'', hrun.bind hrun', hs'', hpanics'.trans hpanics⟩

/-- What is read off the links. -/
theorem read (h : ∀ s, Holds s.links σ → Runs m s b s) : Yields σ m b σ :=
  fun s hs => ⟨s, h s hs, hs, rfl⟩

theorem assert {c : Bool} (hc : c = true) (σ : ι → List α) : Yields σ (assert c) () σ :=
  read fun s _ => .assert hc s

theorem distinct (h : Distinct σ → Yields σ m b σ') : Yields σ m b σ' := fun s hs => h hs.distinct s hs

/-! ## Traversal -/

theorem listBegin (l : ι) : Yields σ (listBegin l) (frontOf l (σ l)) σ :=
  read fun _ hs => .getNext (hs.next (List.nil_append _).symm)

theorem listNext (hl : σ l = us ++ x :: vs) : Yields σ (listNext (.elem x)) (frontOf l vs) σ :=
  read fun _ hs => .listNext (by
    have hnext := hs.next (hl.trans (List.append_cons us x vs))
    rwa [Sentinel.backOf_concat] at hnext)

theorem listRbegin (l : ι) : Yields σ (listRbegin l) (backOf l (σ l)) σ :=
  read fun _ hs => .getPrev (hs.prev (List.append_nil _).symm)

theorem listPrev (hl : σ l = us ++ vs) : Yields σ (listPrev (frontOf l vs)) (backOf l us) σ :=
  read fun _ hs => .listPrev (hs.prev hl)

theorem listEmpty [DecidableEq ι] [DecidableEq α] (l : ι) :
    Yields σ (listEmpty l) (decide (σ l = [])) σ := by
  refine (listBegin l).bind ?_
  have hempty : frontOf l (σ l) = listEnd l ↔ σ l = [] := by
    cases σ l with
    | nil => exact iff_of_true rfl rfl
    | cons x xs => exact iff_of_false nofun (List.cons_ne_nil x xs)
  rw [decide_eq_decide.2 hempty]
  exact .pure _ σ

theorem frontOf_nil_eq (l : ι) : (frontOf l [] : ListElem ι α) = listEnd l := rfl

theorem frontOf_cons_ne (l : ι) (x : α) (vs : List α) : frontOf l (x :: vs) ≠ listEnd l := nofun

/-! ## Insertion and removal -/

section edit

variable [DecidableEq ι] [DecidableEq α]

theorem llistInit (l : ι) : Yields σ (llistInit l) () (Function.update σ l []) := by
  intro s hs
  have hcut := (hs.cut (show σ l = [] ++ σ l ++ [] by rw [List.nil_append, List.append_nil])).1
  let links := (((s.links.setPrev (.head l) none).setNext (.head l) (some (.tail l))).setPrev
    (.tail l) (some (.head l))).setNext (.tail l) none
  refine ⟨⟨links, s.panics⟩, ?_, ?_, rfl⟩
  · exact (Runs.setPrev _ _ _).bind ((Runs.setNext _ _ _).bind
      ((Runs.setPrev _ _ _).bind (Runs.setNext _ _ _)))
  · have hlinks : links = s.links.join (.head l) (.tail l) := by
      refine Links.ext (funext fun p => ?_) (funext fun p => ?_)
      · simp only [links, Links.prev_setNext, Links.prev_setPrev, Links.prev_join]
        split
        · rfl
        · split
          · next hp => rw [hp, hs.head]
          · rfl
      · simp only [links, Links.next_setPrev, Links.next_setNext, Links.next_join]
        split
        · next hp => rw [hp, if_neg (by nofun), hs.tail]
        · rfl
    rw [hlinks]
    exact hcut

/-- The writes that put linked elements before `frontOf l vs`. -/
theorem paste_runs {s : ListState ι α} (hs : Holds s.links σ) (hl : σ l = us ++ vs) (hne : ms ≠ [])
    (hms : (ms.map Sentinel.Node.elem).IsChain (Link s.links)) (hd : ms.Nodup)
    (hfree : ∀ k, List.Disjoint ms (σ k)) : ∃ s', Runs (do
        setPrev (frontOf l ms) (← prevField (frontOf l vs))
        setNext (backOf l ms) (some (frontOf l vs))
        setNext (← getPrev (frontOf l vs)) (some (frontOf l ms))
        setPrev (frontOf l vs) (some (backOf l ms)) : ListM ι α Unit) s () s' ∧
      Holds s'.links (Function.update σ l (us ++ ms ++ vs)) ∧ s'.panics = s.panics := by
  have hout {r : ListElem ι α} (hr : r ∈ ms.map Sentinel.Node.elem) :
      r ∉ Sentinel.line l (us ++ vs) := by
    obtain ⟨x, hx, rfl⟩ := List.mem_map.1 hr
    intro hmem
    rcases Sentinel.mem_line.1 hmem with heq | ⟨y, hy, heq⟩ | heq
    · cases heq
    · cases heq
      exact hfree l hx (hl ▸ hy)
    · cases heq
  have hfront : frontOf l vs ≠ frontOf l ms := by
    obtain ⟨fs, hfs⟩ := Sentinel.exists_frontOf_elem l hne
    exact fun heq => hout (hfs ▸ List.mem_cons_self) (heq ▸ Sentinel.frontOf_mem_line l us vs)
  have hback : backOf l us ≠ backOf l ms := by
    obtain ⟨bs, hbs⟩ := Sentinel.exists_backOf_elem l hne
    exact fun heq => hout (hbs ▸ List.mem_append_right _ List.mem_cons_self)
      (heq ▸ Sentinel.backOf_mem_line l us vs)
  let links := (((s.links.setPrev (frontOf l ms) (some (backOf l us))).setNext (backOf l ms)
    (some (frontOf l vs))).setNext (backOf l us)
    (some (frontOf l ms))).setPrev (frontOf l vs) (some (backOf l ms))
  refine ⟨⟨links, s.panics⟩, ?_, ?_, rfl⟩
  · refine (Runs.prevField _ s).bind ?_
    rw [hs.prev hl]
    refine (Runs.setPrev _ _ _).bind ((Runs.setNext _ _ _).bind
      ((Runs.getPrev ?_).bind ((Runs.setNext _ _ _).bind (Runs.setPrev _ _ _))))
    rw [Links.prev_setNext, Links.prev_setPrev, if_neg hfront, hs.prev hl]
  · have hlinks : links = (s.links.join (backOf l us) (frontOf l ms)).join (backOf l ms)
        (frontOf l vs) := by
      refine Links.ext rfl (funext fun r => ?_)
      simp only [links, Links.next_setPrev, Links.next_setNext, Links.next_join]
      split
      · next hr => rw [if_neg fun heq => hback (hr.symm.trans heq)]
      · rfl
    rw [hlinks]
    exact hs.paste hl hne hms hd hfree

theorem listInsert (hl : σ l = us ++ vs) (hx : ∀ k, x ∉ σ k) :
    Yields σ (listInsert (frontOf l vs) (.elem x)) () (Function.update σ l (us ++ x :: vs)) := by
  intro s hs
  obtain ⟨s', hrun, hs', hpanics⟩ :=
    paste_runs hs hl (List.cons_ne_nil x []) (.singleton _) (List.nodup_singleton x)
    fun k y hy hmem => hx k (List.mem_singleton.1 hy ▸ hmem)
  rw [List.append_assoc] at hs'
  exact ⟨s', Runs.assertBefore (hs.prev hl) hrun, hs', hpanics⟩

/-- The writes that take the elements `ms` out of list `l`. -/
theorem cut_runs {s s' : ListState ι α} (hs : Holds s.links σ) (hl : σ l = us ++ ms ++ vs)
    (hne : ms ≠ []) (hm : Runs m ⟨s.links.join (backOf l us) (frontOf l vs), s.panics⟩ b s') :
    Runs (do
      setNext (← getPrev (frontOf l ms)) (← nextField (backOf l ms))
      setPrev (← getNext (backOf l ms)) (← prevField (frontOf l ms))
      m) s b s' := by
  have hprev : s.links.prev (frontOf l ms) = some (backOf l us) := by
    rw [← Sentinel.frontOf_append l hne vs]
    exact hs.prev (hl.trans (List.append_assoc us ms vs))
  have hnext : s.links.next (backOf l ms) = some (frontOf l vs) := by
    rw [← Sentinel.backOf_append l us hne]
    exact hs.next hl
  refine (Runs.getPrev hprev).bind ((Runs.nextField _ s).bind ?_)
  rw [hnext]
  refine (Runs.setNext _ _ _).bind ((Runs.getNext (q := frontOf l vs) ?_).bind
    ((Runs.prevField _ _).bind ?_))
  · rw [Links.next_setNext]
    split
    · rfl
    · exact hnext
  · rw [Links.prev_setNext, hprev]
    exact (Runs.setPrev _ _ _).bind hm

theorem listRemove (hl : σ l = us ++ x :: vs) :
    Yields σ (listRemove (.elem x)) (frontOf l vs) (Function.update σ l (us ++ vs)) := by
  intro s hs
  have hl' : σ l = us ++ [x] ++ vs := hl.trans (List.append_cons us x vs)
  have hprev : s.links.prev (.elem x) = some (backOf l us) := hs.prev hl
  have hnext : s.links.next (.elem x) = some (frontOf l vs) := by
    have hnext := hs.next hl'
    rwa [Sentinel.backOf_concat] at hnext
  refine ⟨⟨s.links.join (backOf l us) (frontOf l vs), s.panics⟩, ?_, (hs.cut hl').1, rfl⟩
  refine (Runs.isInterior_true hprev hnext).bind ((Runs.assert rfl s).bind ?_)
  refine cut_runs hs hl' (List.cons_ne_nil x []) (Runs.getNext ?_)
  rw [Links.next_join]
  split
  · rfl
  · exact hnext

theorem listSplice (hl : σ l = us ++ ms ++ vs) (hk : Function.update σ l (us ++ vs) k = xs ++ ys) :
    Yields σ (listSplice (frontOf k ys) (frontOf l (ms ++ vs)) (frontOf l vs)) ()
      (Function.update (Function.update σ l (us ++ vs)) k (xs ++ ms ++ ys)) := by
  intro s hs
  have hkeep : ∀ y ∈ ys, y ∈ σ k := by
    intro y hy
    have hmem : y ∈ Function.update σ l (us ++ vs) k := hk ▸ List.mem_append_right xs hy
    rw [Function.update_apply] at hmem
    split at hmem
    · next heq =>
      rw [heq, hl, List.append_assoc]
      rcases List.mem_append.1 hmem with hmem | hmem
      · exact List.mem_append_left _ hmem
      · exact List.mem_append_right _ (List.mem_append_right _ hmem)
    · exact hmem
  obtain ⟨q, hbefore⟩ := hs.exists_prev hkeep
  by_cases hne : ms = []
  · subst hne
    rw [List.append_nil] at hl
    rw [← hl, Function.update_eq_self] at hk ⊢
    rw [List.append_nil, ← hk, Function.update_eq_self]
    refine ⟨s, Runs.assertBefore hbefore ?_, hs, rfl⟩
    rw [List.nil_append, if_pos rfl]
    exact .pure _ s
  obtain ⟨hcut, hms⟩ := hs.cut hl
  obtain ⟨-, hd, hfree, hother⟩ := hs.distinct.split hl
  have hoff : ∀ k, List.Disjoint ms (Function.update σ l (us ++ vs) k) := by
    intro k' x hx hmem
    rw [Function.update_apply] at hmem
    split at hmem
    · exact hfree x hx hmem
    · next hk' => exact (hother k' hk').2 hx hmem
  obtain ⟨s', hrun, hs', hpanics⟩ :=
    paste_runs (s := ⟨s.links.join (backOf l us) (frontOf l vs), s.panics⟩) hcut hk hne hms hd hoff
  refine ⟨s', Runs.assertBefore hbefore ?_, hs', hpanics⟩
  obtain ⟨x, hx, hfirst⟩ := Sentinel.exists_frontOf_mem l hne
  obtain ⟨z, hz, hlast⟩ := Sentinel.exists_backOf_mem l hne
  have hin {y : α} (hy : y ∈ ms) : y ∈ σ l := by
    rw [hl]
    exact List.mem_append_left _ (List.mem_append_right _ hy)
  have hdiffer : frontOf l (ms ++ vs) ≠ frontOf l vs := by
    rw [Sentinel.frontOf_append l hne, hfirst]
    cases hvs : vs with
    | nil => nofun
    | cons y vs' =>
      intro heq
      cases heq
      exact hfree x hx (hvs ▸ List.mem_append_right us List.mem_cons_self)
  have hprev : s.links.prev (frontOf l vs) = some (backOf l ms) := by
    rw [← Sentinel.backOf_append l us hne]
    exact hs.prev hl
  obtain ⟨_, _, hx₁, hx₂⟩ := hs.interior (hin hx)
  obtain ⟨_, _, hz₁, hz₂⟩ := hs.interior (hin hz)
  rw [if_neg hdiffer, Sentinel.frontOf_append l hne]
  refine (Runs.listPrev hprev).bind ?_
  refine Runs.bind (b := true) ?_ ((Runs.assert rfl s).bind
    (Runs.bind (b := true) ?_ ((Runs.assert rfl s).bind ?_)))
  · rw [hfirst]
    exact Runs.isInterior_true hx₁ hx₂
  · rw [hlast]
    exact Runs.isInterior_true hz₁ hz₂
  · rw [Sentinel.frontOf_congr k l hne, Sentinel.backOf_congr k l hne] at hrun
    exact cut_runs hs hl hne hrun

theorem listPushFront (hx : ∀ k, x ∉ σ k) :
    Yields σ (listPushFront l (.elem x)) () (Function.update σ l (x :: σ l)) :=
  (listBegin l).bind (listInsert (List.nil_append (σ l)).symm hx)

theorem listPushBack (hx : ∀ k, x ∉ σ k) :
    Yields σ (listPushBack l (.elem x)) () (Function.update σ l (σ l ++ [x])) :=
  listInsert (List.append_nil (σ l)).symm hx

theorem listFront (hl : σ l = x :: vs) : Yields σ (listFront l) (.elem x) σ := by
  refine (listEmpty l).bind ((assert (by rw [hl]; rfl) σ).bind ?_)
  have hbegin := listBegin (σ := σ) l
  rwa [hl] at hbegin

theorem listBack (hl : σ l = us ++ [x]) : Yields σ (listBack l) (.elem x) σ := by
  refine (listEmpty l).bind ((assert (by simp [hl]) σ).bind (read fun s hs => .getPrev ?_))
  have hprev := hs.prev (List.append_nil (σ l)).symm
  rwa [hl, Sentinel.backOf_concat] at hprev

theorem listPopFront (hl : σ l = x :: vs) :
    Yields σ (listPopFront l) (.elem x) (Function.update σ l vs) :=
  (listFront hl).bind ((listRemove (hl.trans (List.nil_append _).symm)).bind (.pure _ _))

theorem listPopBack (hl : σ l = us ++ [x]) :
    Yields σ (listPopBack l) (.elem x) (Function.update σ l us) := by
  have hremove := listRemove hl
  rw [List.append_nil] at hremove
  exact (listBack hl).bind (hremove.bind (.pure _ _))

theorem sizeFrom (hl : σ l = us ++ vs) {fuel : Nat} (hfuel : vs.length < fuel) (cnt : Nat) :
    Yields σ (sizeFrom l fuel (frontOf l vs) cnt) (cnt + vs.length) σ := by
  induction fuel generalizing us vs cnt with
  | zero => exact absurd hfuel (Nat.not_lt_zero _)
  | succ fuel ih =>
    cases vs with
    | nil =>
      rw [Fs.sizeFrom, if_pos (frontOf_nil_eq l)]
      exact .pure cnt σ
    | cons x vs =>
      rw [Fs.sizeFrom, if_neg (frontOf_cons_ne l x vs), List.length_cons, ← Nat.add_assoc,
        Nat.add_right_comm]
      exact (listNext hl).bind (ih (hl.trans (List.append_cons us x vs))
        (Nat.lt_of_succ_lt_succ hfuel) (cnt + 1))

theorem listSize (l : ι) {fuel : Nat} (hfuel : (σ l).length < fuel) :
    Yields σ (listSize fuel l) (σ l).length σ := by
  have hloop := sizeFrom (List.nil_append (σ l)).symm hfuel 0
  rw [Nat.zero_add] at hloop
  exact (listBegin l).bind hloop

/-! ## Reversal -/

/-- The loop exchanges the links of the elements left. -/
theorem reverseFrom_runs {s : ListState ι α} (hs : Holds s.links σ) (hl : σ l = us ++ vs)
    {fuel : Nat} (hfuel : vs.length < fuel) :
    Runs (reverseFrom l fuel (frontOf l vs)) ⟨s.links.swapped (us.map Sentinel.Node.elem), s.panics⟩ ()
      ⟨s.links.swapped ((σ l).map Sentinel.Node.elem), s.panics⟩ := by
  induction vs generalizing us fuel with
  | nil =>
    cases fuel with
    | zero => exact absurd hfuel (Nat.not_lt_zero _)
    | succ fuel =>
      rw [reverseFrom, if_pos (frontOf_nil_eq l), hl, List.append_nil]
      exact .pure _ _
  | cons x vs ih =>
    cases fuel with
    | zero => exact absurd hfuel (Nat.not_lt_zero _)
    | succ fuel =>
      have hl' : σ l = us ++ [x] ++ vs := hl.trans (List.append_cons us x vs)
      have hnext : s.links.next (.elem x) = some (frontOf l vs) := by
        have hnext := hs.next hl'
        rwa [Sentinel.backOf_concat] at hnext
      have hx : (Sentinel.Node.elem x : ListElem ι α) ∉ us.map Sentinel.Node.elem := by
        have hd := hs.distinct.nodup l
        rw [hl, List.nodup_append] at hd
        intro hmem
        obtain ⟨y, hy, heq⟩ := List.mem_map.1 hmem
        cases heq
        exact hd.2.2 x hy x List.mem_cons_self rfl
      -- the links of `x` are exchanged too
      have hswap : ((s.links.swapped (us.map Sentinel.Node.elem)).setPrev (.elem x)
        (some (frontOf l vs))).setNext (.elem x)
          (s.links.prev (.elem x)) = s.links.swapped ((us ++ [x]).map Sentinel.Node.elem) := by
        refine Links.ext (funext fun p => ?_) (funext fun p => ?_)
        · rw [Links.prev_setNext, Links.prev_setPrev, Links.prev_swapped, Links.prev_swapped,
            List.map_append]
          by_cases hp : p = .elem x
          · subst hp
            simp [hnext]
          · simp [hp]
        · rw [Links.next_setNext, Links.next_setPrev, Links.next_swapped, Links.next_swapped,
            List.map_append]
          by_cases hp : p = .elem x
          · subst hp
            simp
          · simp [hp]
      have hturn : Runs (swapLinks (.elem x)) ⟨s.links.swapped (us.map Sentinel.Node.elem), s.panics⟩ ()
          ⟨s.links.swapped ((us ++ [x]).map Sentinel.Node.elem), s.panics⟩ := by
        refine (Runs.prevField _ _).bind ((Runs.nextField _ _).bind ?_)
        simp only [Links.prev_swapped, Links.next_swapped, if_neg hx, hnext, ← hswap]
        exact (Runs.setPrev _ _ _).bind (Runs.setNext _ _ _)
      rw [reverseFrom, if_neg (frontOf_cons_ne l x vs)]
      refine hturn.bind ((Runs.getPrev (q := frontOf l vs) ?_).bind
        (ih hl' (Nat.lt_of_succ_lt_succ hfuel)))
      rw [Links.prev_swapped, if_pos (by simp), Sentinel.frontOf_cons, hnext]

theorem listReverse (l : ι) {fuel : Nat} (hfuel : (σ l).length < fuel) :
    Yields σ (listReverse fuel l) () (Function.update σ l (σ l).reverse) := by
  refine (listEmpty l).bind ?_
  by_cases hne : σ l = []
  · rw [decide_eq_true hne, if_pos rfl, hne, List.reverse_nil, ← hne, Function.update_eq_self]
    exact .pure () σ
  rw [decide_eq_false hne, if_neg (by decide)]
  refine (listBegin l).bind fun s hs =>
    ⟨⟨s.links.reversed l (σ l), s.panics⟩, ?_, hs.reversed hne, rfl⟩
  have hloop := reverseFrom_runs hs (List.nil_append (σ l)).symm hfuel
  have hnil : s.links.swapped (([] : List α).map Sentinel.Node.elem) = s.links := rfl
  rw [hnil] at hloop
  have hhead : s.links.next (.head l) = some (frontOf l (σ l)) := hs.next (List.nil_append (σ l)).symm
  have htail : s.links.prev (.tail l) = some (backOf l (σ l)) := hs.prev (List.append_nil (σ l)).symm
  have hnext : s.links.next (backOf l (σ l)) = some (.tail l) := hs.next (List.append_nil (σ l)).symm
  have hprev : s.links.prev (frontOf l (σ l)) = some (.head l) := hs.prev (List.nil_append (σ l)).symm
  obtain ⟨x, hx, hback⟩ := Sentinel.exists_backOf_mem l hne
  obtain ⟨y, hy, hfront⟩ := Sentinel.exists_frontOf_mem l hne
  rw [hfront] at hhead hprev
  rw [hback] at htail hnext
  have hx' : (Sentinel.Node.elem x : ListElem ι α) ∈ (σ l).map Sentinel.Node.elem :=
    List.mem_map_of_mem hx
  have hy' : (Sentinel.Node.elem y : ListElem ι α) ∈ (σ l).map Sentinel.Node.elem :=
    List.mem_map_of_mem hy
  have hrev : ((((s.links.swapped ((σ l).map Sentinel.Node.elem)).setNext (.head l)
    (some (.elem x))).setPrev (.tail l)
      (some (.elem y))).setPrev (.elem x) (some (.head l))).setNext (.elem y) (some (.tail l)) =
      s.links.reversed l (σ l) := by
    refine Links.ext (funext fun p => ?_) (funext fun p => ?_)
    · rw [Links.prev_setNext, Links.prev_setPrev, Links.prev_setPrev, Links.prev_setNext,
        Links.prev_reversed, hback, hfront]
    · rw [Links.next_setNext, Links.next_setPrev, Links.next_setPrev, Links.next_setNext,
        Links.next_reversed, hback, hfront]
  let t := s.links.swapped ((σ l).map Sentinel.Node.elem)
  have ht₁ : t.next (.head l) = some (.elem y) := by rw [Links.next_swapped, if_neg (by simp), hhead]
  have ht₂ : t.prev (.tail l) = some (.elem x) := by rw [Links.prev_swapped, if_neg (by simp), htail]
  have ht₃ : t.prev (.elem x) = some (.tail l) := by rw [Links.prev_swapped, if_pos hx', hnext]
  have ht₄ : t.next (.elem y) = some (.head l) := by rw [Links.next_swapped, if_pos hy', hprev]
  refine hloop.bind ((Runs.nextField _ _).bind ((Runs.prevField _ _).bind ?_))
  rw [ht₁, ht₂]
  refine (Runs.setNext _ _ _).bind ((Runs.setPrev _ _ _).bind ((Runs.getNext (q := .elem x) ?_).bind
    ((Runs.getPrev (q := .elem y) ?_).bind ((Runs.prevField _ _).bind ((Runs.nextField _ _).bind ?_)))))
  · rw [Links.next_setPrev, Links.next_setNext, if_pos rfl]
  · rw [Links.prev_setPrev, if_pos rfl]
  · rw [Links.prev_setPrev, if_neg nofun, Links.prev_setNext, ht₃, Links.next_setPrev,
      Links.next_setNext, if_neg nofun, ht₄, ← hrev]
    exact (Runs.setPrev _ _ _).bind (Runs.setNext _ _ _)

end edit

end Yields

end MyShell.Fs

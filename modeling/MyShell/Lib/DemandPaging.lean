/-
Demand paging under a round robin. Every process is a program of some number
of lines, three to a page; two pages of it are in memory when it starts, and
a later page is read when its first line is reached. In its turn a process
runs two lines, or less where it runs into a page that is not in memory: then
the page is read, in the place of the page used least recently when all
frames are taken, and the turn is over.

Pages are read in order, once. So the programs run to their ends only if no
page is given up before its last line has run, and that is what holds as long
as there are frames for the first pages of all processes (`Fair`).
-/
import MyShell.Lib.Recency
import Mathlib.Algebra.BigOperators.Group.List.Basic
import Mathlib.Algebra.GroupWithZero.Nat

namespace DemandPaging

variable {ι : Type}

/-- The processes in the queue and those that left it, the pages in memory,
and of each process the lines run and the pages read so far. -/
structure State (ι : Type) where
  queue : List ι
  gone : List ι
  recent : List (ι × Nat)
  done : ι → Nat
  loaded : ι → Nat

/-- How many pages a program has. -/
def pages (size : Nat) : Nat := (size + 2) / 3

/-- How many of them are read at the start. -/
def first (size : Nat) : Nat := min 2 (pages size)

variable {frames : Nat} {size : ι → Nat}

/-- The first pages of some processes. -/
def weight (size : ι → Nat) (l : List ι) : Nat := (l.map fun i => first (size i)).sum

@[simp] theorem weight_nil : weight size [] = 0 := rfl

@[simp] theorem weight_cons (i : ι) (l : List ι) :
    weight size (i :: l) = first (size i) + weight size l :=
  rfl

@[simp] theorem weight_append (l l' : List ι) :
    weight size (l ++ l') = weight size l + weight size l' := by
  simp [weight]

theorem weight_perm {l l' : List ι} (h : l.Perm l') : weight size l = weight size l' := (h.map _).sum_eq

theorem first_pos {n : Nat} (h : 0 < n) : 0 < first n := by
  rw [first, pages]
  omega

/-- The head of the queue after its turn: at the end of the queue, or gone. -/
inductive Rotated (size : ι → Nat) (h : ι) (q : List ι) (s s' : State ι) : Prop
  | requeue : s'.queue = q ++ [h] → s'.gone = s.gone → Rotated size h q s s'
  | leave : s'.queue = q → s'.gone = h :: s.gone → s'.done h = size h → Rotated size h q s s'

theorem Rotated.split {h : ι} {q : List ι} {s s' : State ι} (hr : Rotated size h q s s')
    {A C : List ι} {i : ι} (hs : s'.queue = A ++ i :: C) :
    (i = h ∧ A = q ∧ C = [] ∧ s'.gone = s.gone) ∨
      ∃ C', q = A ++ i :: C' ∧ (C ++ s'.gone).Perm (h :: (C' ++ s.gone)) ∧ ∀ j ∈ C, j ∈ C' ∨
        j = h := by
  cases hr with
  | requeue hqueue hgone =>
    rw [hqueue] at hs
    rcases List.eq_nil_or_concat C with rfl | ⟨C', j, rfl⟩
    · obtain ⟨rfl, hh⟩ := List.append_inj' hs rfl
      exact .inl ⟨by simpa using hh.symm, rfl, rfl, hgone⟩
    · rw [List.concat_eq_append, ← List.cons_append, ← List.append_assoc] at hs
      obtain ⟨rfl, hh⟩ := List.append_inj' hs rfl
      obtain rfl : h = j := by simpa using hh
      refine .inr ⟨C', rfl, ?_, by simp⟩
      rw [hgone, List.concat_eq_append, List.append_assoc]
      exact List.perm_middle
  | leave hqueue hgone hdone =>
    rw [hqueue] at hs
    refine .inr ⟨C, hs, ?_, fun j hj => .inl hj⟩
    rw [hgone]
    exact List.perm_middle

theorem Rotated.perm {h : ι} {q : List ι} {s s' : State ι} (hr : Rotated size h q s s') :
    (s'.queue ++ s'.gone).Perm (h :: q ++ s.gone) := by
  cases hr with
  | requeue hqueue hgone =>
    rw [hqueue, hgone, List.append_assoc]
    exact List.perm_middle
  | leave hqueue hgone _ =>
    rw [hqueue, hgone]
    exact List.perm_middle

variable [DecidableEq ι]

namespace State

variable (s : State ι) (frames : Nat) (i : ι)

/-- The page of the next line. -/
def current : ι × Nat := (i, s.done i / 3)

def run : State ι :=
  { s with
    done := Function.update s.done i (s.done i + 1)
    recent := Recency.touch (s.current i) s.recent }

def fault : State ι :=
  { s with
    loaded := Function.update s.loaded i (s.loaded i + 1)
    recent := s.current i :: (if s.recent.length < frames then s.recent else s.recent.dropLast) }

@[simp] theorem run_done_self : (s.run i).done i = s.done i + 1 := Function.update_self ..

theorem run_current : (s.run i).current i = (i, (s.done i + 1) / 3) := by rw [current, run_done_self]

def requeue : State ι := { s with queue := s.queue.tail ++ [i] }

def leave : State ι := { s with queue := s.queue.tail, gone := i :: s.gone }

end State

/-- The turn of the process `h` at the head of the queue. -/
inductive Turn (frames : Nat) (size : ι → Nat) (h : ι) (s : State ι) : State ι → Prop
  | idle : s.done h = size h → Turn frames size h s (s.leave h)
  | last : s.done h + 1 = size h → s.current h ∈ s.recent → Turn frames size h s ((s.run h).leave h)
  | fault : s.done h < size h → s.current h ∉ s.recent →
      Turn frames size h s ((s.fault frames h).requeue h)
  | runFault : s.done h + 1 < size h → s.current h ∈ s.recent →
      (s.run h).current h ∉ (s.run h).recent →
      Turn frames size h s (((s.run h).fault frames h).requeue h)
  | twice : s.done h + 1 < size h → s.current h ∈ s.recent → (s.run h).current h ∈ (s.run h).recent →
      Turn frames size h s (((s.run h).run h).requeue h)

/-- What holds between two turns. A process past its fourth line has its page
among the pages used since its last turn; before that no page has been read
but the first ones. -/
structure Fair (frames : Nat) (size : ι → Nat) (ps : List ι) (s : State ι) : Prop where
  nodup : ps.Nodup
  perm : (s.queue ++ s.gone).Perm ps
  fits : weight size ps ≤ frames
  recentNodup : s.recent.Nodup
  recentLength : s.recent.length ≤ frames
  recentMem : ∀ x ∈ s.recent, x.1 ∈ ps ∧ x.2 < s.loaded x.1
  loadedFirst : ∀ i ∈ ps, first (size i) ≤ s.loaded i
  loadedLe : ∀ i ∈ ps, s.loaded i ≤ pages (size i)
  doneLe : ∀ i ∈ ps, s.done i ≤ size i
  goneDone : ∀ i ∈ s.gone, s.done i = size i
  reads : ∀ i ∈ ps, s.done i < size i → s.done i / 3 ≤ s.loaded i
  ahead : ∀ i ∈ ps, s.loaded i ≤ max 2 (s.done i / 3 + 1)
  resident : ∀ i ∈ ps, s.done i < size i → ∀ c, s.done i / 3 ≤ c → c < s.loaded i →
    (i, c) ∈ s.recent
  pace : ∀ A i C, s.queue = A ++ i :: C → s.done i < size i → s.done i < 4 →
    2 ∣ s.done i ∧ (∀ j ∈ A, s.done j ≤ s.done i) ∧ ∀ j ∈ C, s.done j ≤ s.done i + 2
  bound : ∀ A i C, s.queue = A ++ i :: C → 4 ≤ s.done i → s.done i < size i →
    s.done i / 3 < s.loaded i → s.recent.idxOf (s.current i) ≤ weight size (C ++ s.gone)

/-- What one turn of `h` did: `d` lines and `f` page reads. -/
structure Moved (frames : Nat) (size : ι → Nat) (h : ι) (d f : Nat) (s s' : State ι) : Prop where
  done : s'.done = Function.update s.done h (s.done h + d)
  loaded : s'.loaded = Function.update s.loaded h (s.loaded h + f)
  doneLe : s.done h + d ≤ size h
  loadedLe : s.loaded h + f ≤ pages (size h)
  reads : s.done h + d < size h → (s.done h + d) / 3 ≤ s.loaded h + f
  ahead : s.loaded h + f ≤ max 2 ((s.done h + d) / 3 + 1)
  few : d ≤ 2
  whole : f = 0 → s.done h + d < size h → d = 2
  late : f = 0 ∨ 5 ≤ s.done h
  progress : 0 < d ∨ f = 1 ∧ s.done h < size h ∧ s.loaded h = s.done h / 3 ∨ s'.queue = s.queue.tail
  nodup : s'.recent.Nodup
  length : s'.recent.length ≤ frames
  mem : ∀ x ∈ s'.recent, x ∈ s.recent ∨ x.1 = h ∧ x.2 < s.loaded h + f
  kept : ∀ x ∈ s.recent, x.1 ≠ h → (f = 0 ∨ s.recent.idxOf x + first (size h) < frames) →
    x ∈ s'.recent ∧ s'.recent.idxOf x ≤ s.recent.idxOf x + first (size h)
  own : s.done h + d < size h → ∀ c, (s.done h + d) / 3 ≤ c → c < s.loaded h + f →
    (h, c) ∈ s'.recent
  front : 4 ≤ s.done h + d → s.done h + d < size h → (s.done h + d) / 3 < s.loaded h + f →
    s'.recent.idxOf (h, (s.done h + d) / 3) = 0

namespace Fair

variable {ps : List ι} {s s' : State ι} {h : ι} {q : List ι}

theorem mem_queue (hf : Fair frames size ps s) {i : ι} (hi : i ∈ ps) (hdone : s.done i < size i) :
    i ∈ s.queue := by
  rcases List.mem_append.1 (hf.perm.mem_iff.2 hi) with hq | hg
  · exact hq
  · exact absurd (hf.goneDone i hg) (Nat.ne_of_lt hdone)

theorem head_mem (hf : Fair frames size ps s) (hq : s.queue = h :: q) : h ∈ ps :=
  hf.perm.mem_iff.1 (by simp [hq])

theorem head_notMem (hf : Fair frames size ps s) (hq : s.queue = h :: q) : h ∉ q ∧ h ∉ s.gone := by
  have hn := hf.perm.nodup_iff.2 hf.nodup
  rw [hq, List.cons_append, List.nodup_cons] at hn
  exact ⟨fun hm => hn.1 (List.mem_append_left _ hm), fun hm => hn.1 (List.mem_append_right _ hm)⟩

/-- A page of a waiting process past its fourth line is far enough from the
end that the turn of the head cannot cost it its frame. -/
theorem room (hf : Fair frames size ps s) (hq : s.queue = h :: q) {A C : List ι} {i : ι}
    (hi : q = A ++ i :: C) (h4 : 4 ≤ s.done i) (hdone : s.done i < size i)
    (hloaded : s.done i / 3 < s.loaded i) :
    s.recent.idxOf (s.current i) ≤ weight size (C ++ s.gone) ∧
      s.recent.idxOf (s.current i) + first (size h) < frames := by
  have hb := hf.bound (h :: A) i C (by rw [hq, hi, List.cons_append]) h4 hdone hloaded
  refine ⟨hb, ?_⟩
  have hfits := hf.fits
  rw [← weight_perm hf.perm, hq, hi] at hfits
  have hpos := first_pos (n := size i) (by omega)
  simp only [weight_append, weight_cons] at hfits hb
  omega

theorem next {d f : Nat} (hf : Fair frames size ps s) (hq : s.queue = h :: q)
    (hm : Moved frames size h d f s s') (hr : Rotated size h q s s') : Fair frames size ps s' := by
  obtain ⟨hhq, hhg⟩ := hf.head_notMem hq
  have hh := hf.head_mem hq
  have hdone : ∀ i, i ≠ h → s'.done i = s.done i :=
    fun i hi => by rw [hm.done, Function.update_of_ne hi]
  have hdoneh : s'.done h = s.done h + d := by rw [hm.done, Function.update_self]
  have hloaded : ∀ i, i ≠ h → s'.loaded i = s.loaded i :=
    fun i hi => by rw [hm.loaded, Function.update_of_ne hi]
  have hloadedh : s'.loaded h = s.loaded h + f := by rw [hm.loaded, Function.update_self]
  -- a waiting process loses nothing by the turn
  have hkeep : ∀ i ∈ ps, i ≠ h → s.done i < size i → ∀ c, s.done i / 3 ≤ c → c < s.loaded i →
      (i, c) ∈ s'.recent := by
    intro i hi hne hlt c hc hcl
    refine (hm.kept (i, c) (hf.resident i hi hlt c hc hcl) hne ?_).1
    have hiq : i ∈ q := by simpa [hq, hne] using hf.mem_queue hi hlt
    obtain ⟨A, C, hAC⟩ := List.append_of_mem hiq
    by_cases h4 : s.done i < 4
    · obtain ⟨heven, hbefore, -⟩ := hf.pace (h :: A) i C (by rw [hq, hAC, List.cons_append]) hlt h4
      have := hbefore h (by simp)
      have := hm.late
      omega
    · have hahead := hf.ahead i hi
      obtain rfl : c = s.done i / 3 := by omega
      exact .inr (hf.room hq hAC (by omega) hlt hcl).2
  refine ⟨hf.nodup, ?_, hf.fits, hm.nodup, hm.length, ?_, ?_, ?_, ?_, ?_, ?_, ?_, ?_, ?_, ?_⟩
  · exact hr.perm.trans (by rw [← hq]; exact hf.perm)
  · intro x hx
    rcases hm.mem x hx with hx | ⟨hxh, hx2⟩
    · obtain ⟨h1, h2⟩ := hf.recentMem x hx
      refine ⟨h1, ?_⟩
      by_cases hxh : x.1 = h
      · rw [hxh] at h2 ⊢
        omega
      · rwa [hloaded _ hxh]
    · rw [hxh, hloadedh]
      exact ⟨hh, hx2⟩
  · intro i hi
    have := hf.loadedFirst i hi
    by_cases hne : i = h
    · subst hne
      omega
    · rwa [hloaded i hne]
  · intro i hi
    by_cases hne : i = h
    · subst hne
      rw [hloadedh]
      exact hm.loadedLe
    · rw [hloaded i hne]
      exact hf.loadedLe i hi
  · intro i hi
    by_cases hne : i = h
    · subst hne
      rw [hdoneh]
      exact hm.doneLe
    · rw [hdone i hne]
      exact hf.doneLe i hi
  · intro i hi
    have hold : i ∈ s.gone → s'.done i = size i := fun hi => by
      rw [hdone i (by rintro rfl; exact hhg hi)]
      exact hf.goneDone i hi
    cases hr with
    | requeue _ hgone => exact hold (hgone ▸ hi)
    | leave _ hgone hfin =>
      rw [hgone, List.mem_cons] at hi
      rcases hi with rfl | hi
      · exact hfin
      · exact hold hi
  · intro i hi
    by_cases hne : i = h
    · subst hne
      rw [hdoneh, hloadedh]
      exact hm.reads
    · rw [hdone i hne, hloaded i hne]
      exact hf.reads i hi
  · intro i hi
    by_cases hne : i = h
    · subst hne
      rw [hdoneh, hloadedh]
      exact hm.ahead
    · rw [hdone i hne, hloaded i hne]
      exact hf.ahead i hi
  · intro i hi
    by_cases hne : i = h
    · subst hne
      rw [hdoneh, hloadedh]
      exact hm.own
    · rw [hdone i hne, hloaded i hne]
      exact hkeep i hi hne
  · intro A i C hs hlt h4
    rcases hr.split hs with ⟨rfl, rfl, rfl, -⟩ | ⟨C', rfl, -, hC⟩
    · rw [hdoneh] at hlt h4 ⊢
      have hd : d = 2 := hm.whole (by have := hm.late; omega) hlt
      obtain ⟨heven, -, hafter⟩ := hf.pace [] i A hq (by omega) (by omega)
      refine ⟨by omega, fun j hj => ?_, by simp⟩
      rw [hdone j (by rintro rfl; exact hhq hj)]
      have := hafter j hj
      omega
    · have hne : i ≠ h := by
        rintro rfl
        simp at hhq
      rw [hdone i hne] at hlt h4 ⊢
      obtain ⟨heven, hbefore, hafter⟩ := hf.pace (h :: A) i C' hq hlt h4
      refine ⟨heven, fun j hj => ?_, fun j hj => ?_⟩
      · rw [hdone j (by rintro rfl; exact hhq (by simp [hj]))]
        exact hbefore j (by simp [hj])
      · by_cases hjh : j = h
        · subst hjh
          have := hbefore j (by simp)
          have := hm.few
          omega
        · rw [hdone j hjh]
          exact hafter j ((hC j hj).resolve_right hjh)
  · intro A i C hs h4 hlt hcl
    rcases hr.split hs with ⟨rfl, rfl, rfl, -⟩ | ⟨C', rfl, hperm, -⟩
    · rw [hdoneh] at h4 hlt
      rw [hdoneh, hloadedh] at hcl
      rw [State.current, hdoneh, hm.front h4 hlt hcl]
      exact Nat.zero_le _
    · have hne : i ≠ h := by
        rintro rfl
        simp at hhq
      have hi : i ∈ ps := hf.perm.mem_iff.1 (by simp [hq])
      rw [hdone i hne] at h4 hlt
      rw [hdone i hne, hloaded i hne] at hcl
      obtain ⟨hb, hroom⟩ := hf.room hq rfl h4 hlt hcl
      have hmem := hf.resident i hi hlt _ (Nat.le_refl _) hcl
      have hidx := (hm.kept _ hmem hne (.inr hroom)).2
      rw [State.current, hdone i hne, weight_perm hperm, weight_cons]
      rw [State.current] at hb
      omega

theorem loaded_of_resident (hf : Fair frames size ps s) (hcur : s.current h ∈ s.recent) :
    s.done h / 3 < s.loaded h :=
  (hf.recentMem _ hcur).2

/-- A page that is missing is the next one of the program. -/
theorem loaded_of_missing (hf : Fair frames size ps s) (hh : h ∈ ps) (hlt : s.done h < size h)
    (hcur : s.current h ∉ s.recent) : s.loaded h = s.done h / 3 := by
  have hreads := hf.reads h hh hlt
  have : ¬s.done h / 3 < s.loaded h := fun hl => hcur (hf.resident h hh hlt _ (Nat.le_refl _) hl)
  omega

/-- After a line, the page of the next one is in memory or the next to be read. -/
theorem loaded_of_missing_next (hf : Fair frames size ps s) (hh : h ∈ ps) (hlt : s.done h + 1 < size h)
    (hcur : s.current h ∈ s.recent) (hnext : (s.run h).current h ∉ (s.run h).recent) :
    s.loaded h = (s.done h + 1) / 3 := by
  have hl := hf.loaded_of_resident hcur
  have : ¬(s.done h + 1) / 3 < s.loaded h := fun hlt' => hnext ((Recency.mem_touch hcur).2 (by
    rw [State.run_current]
    exact hf.resident h hh (by omega) _ (by omega) hlt'))
  omega

theorem moved_over (hf : Fair frames size ps s) (hh : h ∈ ps) (hdone : s.done h = size h) :
    Moved frames size h 0 0 s (s.leave h) where
  done := by simp [State.leave]
  loaded := by simp [State.leave]
  doneLe := hf.doneLe h hh
  loadedLe := hf.loadedLe h hh
  reads := by omega
  ahead := hf.ahead h hh
  few := by omega
  whole := by omega
  late := .inl rfl
  progress := .inr (.inr rfl)
  nodup := hf.recentNodup
  length := hf.recentLength
  mem x hx := .inl hx
  kept x hx _ _ := ⟨hx, Nat.le_add_right _ _⟩
  own := by omega
  front := by omega

theorem moved_last (hf : Fair frames size ps s) (hh : h ∈ ps) (hdone : s.done h + 1 = size h)
    (hcur : s.current h ∈ s.recent) : Moved frames size h 1 0 s ((s.run h).leave h) where
  done := rfl
  loaded := by simp [State.leave, State.run]
  doneLe := by omega
  loadedLe := hf.loadedLe h hh
  reads := by omega
  ahead := by
    have := hf.ahead h hh
    omega
  few := by omega
  whole := by omega
  late := .inl rfl
  progress := .inl (by omega)
  nodup := Recency.nodup_touch hf.recentNodup
  length := by
    rw [State.leave, State.run, Recency.length_touch hcur]
    exact hf.recentLength
  mem x hx := .inl ((Recency.mem_touch hcur).1 hx)
  kept x hx _ _ := by
    have := Recency.idxOf_touch_le x (s.current h) s.recent
    have := first_pos (n := size h) (by omega)
    exact ⟨(Recency.mem_touch hcur).2 hx, by simp only [State.leave, State.run]; omega⟩
  own := by omega
  front := by omega

/-- What reading the page `y` in does to the pages in memory. -/
theorem read_recent {l : List (ι × Nat)} {y : ι × Nat} (hn : l.Nodup) (hl : l.length ≤ frames)
    (hpos : 0 < frames) (hy : y ∉ l) : (y :: (if l.length < frames then l else l.dropLast)).Nodup ∧
      (y :: (if l.length < frames then l else l.dropLast)).length ≤ frames ∧
      (∀ x ∈ y :: (if l.length < frames then l else l.dropLast), x ∈ l ∨ x = y) ∧
      ∀ x ∈ l, l.idxOf x + 1 < frames → x ∈ y :: (if l.length < frames then l else l.dropLast) ∧
        (y :: (if l.length < frames then l else l.dropLast)).idxOf x ≤ l.idxOf x + 1 := by
  split
  · case isTrue hlt =>
    exact ⟨List.nodup_cons.2 ⟨hy, hn⟩, hlt, fun x hx => (List.mem_cons.1 hx).symm,
      fun x hx _ => ⟨List.mem_cons_of_mem _ hx, Recency.idxOf_cons_le x y l⟩⟩
  · case isFalse hge =>
    refine ⟨List.nodup_cons.2 ⟨fun h => hy (List.dropLast_subset l h),
      hn.sublist (List.dropLast_sublist l)⟩, ?_,
      fun x hx => (List.mem_cons.1 hx).symm.imp_left fun hx => List.dropLast_subset l hx,
      fun x hx hidx => ?_⟩
    · rw [List.length_cons, List.length_dropLast]
      omega
    · have hmem := Recency.mem_dropLast hx (by omega)
      refine ⟨List.mem_cons_of_mem _ hmem, ?_⟩
      rw [← Recency.idxOf_dropLast hmem]
      exact Recency.idxOf_cons_le x y _

theorem frames_pos (hf : Fair frames size ps s) (hh : h ∈ ps) : first (size h) ≤ frames := by
  obtain ⟨A, C, hps⟩ := List.append_of_mem hh
  have hfits := hf.fits
  rw [hps, weight_append, weight_cons] at hfits
  omega

theorem moved_fault (hf : Fair frames size ps s) (hh : h ∈ ps) (hlt : s.done h < size h)
    (hcur : s.current h ∉ s.recent) : Moved frames size h 0 1 s ((s.fault frames h).requeue h) := by
  have hloaded := hf.loaded_of_missing hh hlt hcur
  have hfirst := hf.loadedFirst h hh
  have hpos := first_pos (n := size h) (by omega)
  have hframes := hf.frames_pos hh
  obtain ⟨hnodup, hlength, hmem, hkept⟩ := read_recent hf.recentNodup hf.recentLength (by omega) hcur
  refine ⟨?_, rfl, hf.doneLe h hh, ?_, ?_, ?_, by omega, by omega, .inr ?_,
    .inr (.inl ⟨rfl, hlt, by omega⟩),
    hnodup, hlength, fun x hx => ?_, fun x hx _ hidx => ?_, fun _ c hc hcl => ?_, fun _ _ _ => ?_⟩
  · simp [State.requeue, State.fault]
  · rw [pages]
    omega
  · omega
  · omega
  · rw [first, pages] at hfirst
    omega
  · rcases hmem x hx with hx | rfl
    · exact .inl hx
    · exact .inr ⟨rfl, by simp only [State.current]; omega⟩
  · obtain ⟨h1, h2⟩ := hkept x hx (by omega)
    exact ⟨h1, by simp only [State.requeue, State.fault]; omega⟩
  · obtain rfl : c = s.done h / 3 := by omega
    exact List.mem_cons_self
  · exact List.idxOf_cons_self

theorem moved_runFault (hf : Fair frames size ps s) (hh : h ∈ ps) (hlt : s.done h + 1 < size h)
    (hcur : s.current h ∈ s.recent) (hnext : (s.run h).current h ∉ (s.run h).recent) :
    Moved frames size h 1 1 s (((s.run h).fault frames h).requeue h) := by
  have hdone := s.run_done_self h
  have hrecent : (s.run h).recent = Recency.touch (s.current h) s.recent := rfl
  have hl := hf.loaded_of_resident hcur
  have hl' := hf.loaded_of_missing_next hh hlt hcur hnext
  have hfirst := hf.loadedFirst h hh
  have htwo : first (size h) = 2 := by
    rw [first, pages] at hfirst ⊢
    omega
  have hframes := hf.frames_pos hh
  have hlen := Recency.length_touch hcur
  obtain ⟨hnodup, hlength, hmem, hkept⟩ := read_recent (y := (s.run h).current h)
    (Recency.nodup_touch hf.recentNodup) (hlen.trans_le hf.recentLength) (by omega) hnext
  refine ⟨?_, rfl, by omega, ?_, ?_, ?_, by omega, by omega, .inr ?_, .inl (by omega),
    hnodup, hlength, fun x hx => ?_, fun x hx _ hidx => ?_, fun _ c hc hcl => ?_, fun _ _ _ => ?_⟩
  · simp [State.requeue, State.fault, State.run]
  · rw [pages]
    omega
  · omega
  · omega
  · omega
  · rcases hmem x hx with hx | rfl
    · exact .inl ((Recency.mem_touch hcur).1 hx)
    · exact .inr ⟨rfl, by simp only [State.current, hdone]; omega⟩
  · have htouch := Recency.idxOf_touch_le x (s.current h) s.recent
    obtain ⟨h1, h2⟩ := hkept x ((Recency.mem_touch hcur).2 hx) (by omega)
    exact ⟨h1, by simp only [State.requeue, State.fault, hrecent]; omega⟩
  · obtain rfl : c = (s.done h + 1) / 3 := by omega
    rw [← hdone]
    exact List.mem_cons_self
  · rw [← hdone]
    exact List.idxOf_cons_self

theorem moved_twice (hf : Fair frames size ps s) (hh : h ∈ ps) (hlt : s.done h + 1 < size h)
    (hcur : s.current h ∈ s.recent) (hnext : (s.run h).current h ∈ (s.run h).recent) :
    Moved frames size h 2 0 s (((s.run h).run h).requeue h) := by
  have hdone := s.run_done_self h
  have hmem : ∀ x, x ∈ Recency.touch ((s.run h).current h) (s.run h).recent ↔ x ∈ s.recent := fun x =>
    (Recency.mem_touch hnext).trans (Recency.mem_touch hcur)
  have hl := hf.loaded_of_resident hcur
  have hl' : (s.done h + 1) / 3 < s.loaded h := by
    have := (hf.recentMem _ ((Recency.mem_touch hcur).1 hnext)).2
    rwa [State.current, hdone] at this
  have hahead := hf.ahead h hh
  refine ⟨?_, ?_, by omega, hf.loadedLe h hh, by omega, by omega, by omega, fun _ _ => rfl,
    .inl rfl, .inl (by omega),
    Recency.nodup_touch (Recency.nodup_touch hf.recentNodup), ?_, fun x hx => .inl ((hmem x).1 hx),
    fun x hx _ _ => ⟨(hmem x).2 hx, ?_⟩, fun hlt2 c hc hcl => ?_, fun h4 hlt2 hcl => ?_⟩
  · funext i
    by_cases hi : i = h
    · subst hi
      simp [State.requeue, State.run]
    · simp [State.requeue, State.run, hi]
  · simp [State.requeue, State.run]
  · rw [State.requeue, State.run, Recency.length_touch hnext, State.run, Recency.length_touch hcur]
    exact hf.recentLength
  · -- the second line is in the same page, or the program has two pages
    have h1 := Recency.idxOf_touch_le x (s.current h) s.recent
    by_cases hsame : (s.run h).current h = s.current h
    · have hhead : (s.run h).recent.head? = some ((s.run h).current h) := by rw [hsame]; rfl
      have hpos := first_pos (n := size h) (by omega)
      simp only [State.requeue]
      rw [State.run, Recency.touch_head hhead]
      simp only [State.run]
      omega
    · have hpage : (s.done h + 1) / 3 ≠ s.done h / 3 :=
        fun he => hsame (by rw [State.current, hdone, he, State.current])
      have htwo : first (size h) = 2 := by
        rw [first, pages]
        omega
      have h2 := Recency.idxOf_touch_le x ((s.run h).current h) (Recency.touch (s.current h) s.recent)
      change (Recency.touch ((s.run h).current h) (Recency.touch (s.current h) s.recent)).idxOf x ≤ _
      omega
  · exact (hmem _).2 (hf.resident h hh (by omega) c (by omega) hcl)
  · have hlast : (s.done h + 2) / 3 = (s.done h + 1) / 3 := by omega
    rw [hlast, ← hdone]
    exact List.idxOf_cons_self

/-- **Main result.** A turn keeps the first line that a process has not run
in memory, or next to be read. -/
theorem turn (hf : Fair frames size ps s) (hq : s.queue = h :: q) (ht : Turn frames size h s s') :
    Fair frames size ps s' ∧ ∃ d f, Moved frames size h d f s s' ∧ Rotated size h q s s' := by
  have hh := hf.head_mem hq
  have hrequeue : ∀ {s₁ : State ι}, s₁.queue = s.queue → s₁.gone = s.gone →
      Rotated size h q s (s₁.requeue h) :=
    fun hqueue hgone => .requeue (by rw [State.requeue, hqueue, hq, List.tail_cons]) hgone
  have hleave : ∀ {s₁ : State ι}, s₁.queue = s.queue → s₁.gone = s.gone → s₁.done h = size h →
      Rotated size h q s (s₁.leave h) :=
    fun hqueue hgone hdone => .leave (by rw [State.leave, hqueue, hq, List.tail_cons])
      (by rw [State.leave, hgone]) hdone
  have hgoal : ∀ {d f : Nat} {s₁ : State ι}, Moved frames size h d f s s₁ → Rotated size h q s s₁ →
      Fair frames size ps s₁ ∧ ∃ d f, Moved frames size h d f s s₁ ∧ Rotated size h q s s₁ :=
    fun hm hr => ⟨hf.next hq hm hr, _, _, hm, hr⟩
  cases ht with
  | idle hdone => exact hgoal (hf.moved_over hh hdone) (hleave rfl rfl hdone)
  | last hdone hcur =>
    exact hgoal (hf.moved_last hh hdone hcur) (hleave rfl rfl (by simpa [State.run] using hdone))
  | fault hlt hcur => exact hgoal (hf.moved_fault hh hlt hcur) (hrequeue rfl rfl)
  | runFault hlt hcur hnext => exact hgoal (hf.moved_runFault hh hlt hcur hnext) (hrequeue rfl rfl)
  | twice hlt hcur hnext => exact hgoal (hf.moved_twice hh hlt hcur hnext) (hrequeue rfl rfl)

end Fair

/-! ## The end of a run -/

/-- What is left to do for a process in the queue. -/
def cost (size : ι → Nat) (s : State ι) (i : ι) : Nat :=
  3 * (size i - s.done i) + (if s.loaded i ≤ s.done i / 3 ∧ s.done i < size i then 1 else 0) + 1

def work (size : ι → Nat) (s : State ι) : Nat := (s.queue.map (cost size s)).sum

theorem Fair.work_turn {ps : List ι} {s s' : State ι} {h : ι} {q : List ι} (hf : Fair frames size ps s)
    (hq : s.queue = h :: q) (ht : Turn frames size h s s') : work size s' < work size s := by
  obtain ⟨-, d, f, hm, hr⟩ := hf.turn hq ht
  have hother : q.map (cost size s') = q.map (cost size s) := by
    refine List.map_congr_left fun i hi => ?_
    have hne : i ≠ h := by
      rintro rfl
      exact (hf.head_notMem hq).1 hi
    rw [cost, cost, hm.done, hm.loaded, Function.update_of_ne hne, Function.update_of_ne hne]
  have hwork : work size s = cost size s h + (q.map (cost size s)).sum := by
    rw [work, hq, List.map_cons, List.sum_cons]
  cases hr with
  | requeue hqueue hgone =>
    have hcost : cost size s' h < cost size s h := by
      rw [cost, cost, hm.done, hm.loaded, Function.update_self, Function.update_self]
      have := hm.doneLe
      rcases hm.progress with hd | ⟨rfl, hlt, hl⟩ | htail
      · split <;> split <;> omega
      · split <;> split <;> omega
      · rw [hqueue, hq] at htail
        simp at htail
    rw [hwork, work, hqueue, List.map_append, List.sum_append, hother]
    simp
    omega
  | leave hqueue hgone hdone =>
    have hpos : 0 < cost size s h := by
      rw [cost]
      omega
    rw [hwork, work, hqueue, hother]
    omega

end DemandPaging

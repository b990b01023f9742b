/-
A batch of scripts from start to end: `new_proc` for each of them, the round
robin, the clean-up. Sessions of such batches, and what every process of a
session has handed to `parseInput`.
-/
import MyShell.Paging.RoundRobin

namespace MyShell.Paging

open DemandPaging (pages first Fair Turn weight work)

variable {σ : Type} {parseInput : Parse σ} {size : Nat} {frame : Ptr × Nat → Nat} {ps : List Ptr}
  {pid : Ptr → Nat} {script : Ptr → List Text} {older : List (Nat × Text)} {k k' : Kernel σ}
  {s : DemandPaging.State Ptr} {p : Ptr} {Good : σ → Prop}

/-! ## A new process -/

/-- The pages `is` of a process, put at the front one after the other. -/
def addPages (p : Ptr) (is : List Nat) (recent : List (Ptr × Nat)) : List (Ptr × Nat) :=
  is.foldl (fun l i => (p, i) :: l) recent

theorem mem_addPages {is : List Nat} : ∀ {recent : List (Ptr × Nat)} {x : Ptr × Nat},
    x ∈ addPages p is recent ↔ x ∈ recent ∨ x.1 = p ∧ x.2 ∈ is := by
  induction is with
  | nil => simp [addPages]
  | cons i is ih =>
    intro recent x
    rw [addPages, List.foldl_cons, ← addPages, ih, List.mem_cons, List.mem_cons, Prod.ext_iff]
    constructor
    · rintro ((⟨h1, h2⟩ | h) | ⟨h1, h2⟩)
      · exact .inr ⟨h1, .inl h2⟩
      · exact .inl h
      · exact .inr ⟨h1, .inr h2⟩
    · rintro (h | ⟨h1, h2 | h2⟩)
      · exact .inl (.inr h)
      · exact .inl (.inl ⟨h1, h2⟩)
      · exact .inr ⟨h1, h2⟩

theorem length_addPages {is : List Nat} : ∀ {recent : List (Ptr × Nat)},
    (addPages p is recent).length = recent.length + is.length := by
  induction is with
  | nil => simp [addPages]
  | cons i is ih =>
    intro recent
    rw [addPages, List.foldl_cons, ← addPages, ih, List.length_cons, List.length_cons]
    omega

/-- `load_PAGE` on the next `n` pages of a process. -/
theorem Proc.loadAll {i : Nat} {ls : List Text} {done : Nat} :
    ∀ {n a : Nat} {frame : Ptr × Nat → Nat} {recent : List (Ptr × Nat)} {m : Memory} {pcb : PCB},
      Proc frame recent m p i ls done a pcb → Frames size frame recent m →
      recent.length + n ≤ size / 3 →
      (∀ c, a ≤ c → (p, c) ∉ recent) → a + n ≤ pages ls.length →
      ∃ frame' pcb' m', PCB.loadAll size (List.range' a n) pcb m = some (pcb', m') ∧
        Frames size frame' (addPages p (List.range' a n) recent) m' ∧
        Proc frame' (addPages p (List.range' a n) recent) m' p i ls done (a + n) pcb' ∧
        ∀ x ∈ recent, frame' x = frame x ∧ ∀ pos, pos / 3 = frame x → m' pos = m pos
  | 0, a, frame, recent, m, pcb, h, hF, _, _, _ =>
    ⟨frame, pcb, m, rfl, hF, h, fun _ _ => ⟨rfl, fun _ _ => rfl⟩⟩
  | n + 1, a, frame, recent, m, pcb, h, hF, hroom, hnot, hpages => by
    obtain ⟨f, pcb₁, m₁, hload, hunused, hkeep, hF₁, h₁⟩ :=
      h.load hF (by omega) (hnot a (Nat.le_refl a)) (by omega)
    obtain ⟨frame', pcb', m', hrest, hF', h', hother⟩ := Proc.loadAll (n := n) h₁ hF₁
      (by rw [List.length_cons]; omega) (fun c hc hm => by
        rcases List.mem_cons.1 hm with he | hm
        · have := (Prod.mk.inj he).2
          omega
        · exact hnot c (by omega) hm) (by omega)
    · refine ⟨frame', pcb', m', ?_, hF', ?_, fun x hx => ?_⟩
      · rw [List.range'_succ, PCB.loadAll, hload]
        exact hrest
      · rw [show a + (n + 1) = a + 1 + n by omega]
        exact h'
      · obtain ⟨hf, hm⟩ := hother x (List.mem_cons_of_mem _ hx)
        have hne : x ≠ (p, a) := by
          rintro rfl
          exact hnot a (Nat.le_refl a) hx
        rw [Function.update_of_ne hne] at hf hm
        exact ⟨hf, fun pos hpos => (hm pos hpos).trans (hkeep pos (hpos ▸ hunused x hx))⟩

/-- A process before its first page is loaded. -/
theorem Proc.start {recent : List (Ptr × Nat)} {m : Memory} {i : Nat} {text : Text}
    (hcounted : Counted text) (hnot : ∀ c, (p, c) ∉ recent) :
    Proc frame recent m p i (scriptLines text) 0 0 (pcbNew i text) where
  pidEq := rfl
  sizeEq := by
    rw [pcbNew, hcounted.length_scriptLines]
    simp
  countersEq := by
    rw [pcbNew, hcounted.length_scriptLines, pageTableSize_eq, counters]
    exact (List.ext_getElem (by simp) (by simp)).symm
  table := by
    rw [pcbNew, hcounted.length_scriptLines, pageTableSize_eq]
    simp
  source := by
    rw [hcounted.length_scriptLines]
    rfl
  resident c _ hc := absurd hc (hnot c)
  missing c hc _ := by
    refine ⟨pageInit i c, ?_, rfl, rfl, fun _ => rfl⟩
    rw [hcounted.length_scriptLines] at hc
    rw [pcbNew, pageTableSize_eq, List.getElem?_map, List.getElem?_range hc]
    rfl

/-- The abstract state with a new process. -/
def added (s : DemandPaging.State Ptr) (p : Ptr) (n : Nat) : DemandPaging.State Ptr where
  queue := s.queue ++ [p]
  gone := s.gone
  recent := addPages p (List.range (first n)) s.recent
  done := Function.update s.done p 0
  loaded := Function.update s.loaded p (first n)

theorem Follows.newProc {text : Text} (h : Follows size frame ps pid script older k s)
    (hcounted : Counted text)
    (hroom : s.recent.length + first (scriptLines text).length ≤ size / 3) :
    ∃ k' frame', newProc size (some text) k = some k' ∧ k.pcbs.next ∉ ps ∧
      Follows size frame' (ps ++ [k.pcbs.next]) (Function.update pid k.pcbs.next k.pidCounter)
        (Function.update script k.pcbs.next (scriptLines text)) older k'
        (added s k.pcbs.next (scriptLines text).length) ∧
      k'.queue = k.queue ++ [k.pcbs.next] ∧ k'.pidCounter = k.pidCounter + 1 ∧ k'.shell = k.shell := by
  have hfresh : k.pcbs.next ∉ ps := fun hm => by
    obtain ⟨pcb, hget, -⟩ := h.proc _ hm
    rw [k.pcbs.get_next] at hget
    cases hget
  have hnot : ∀ c, (k.pcbs.next, c) ∉ s.recent := fun c hm => hfresh (h.owner _ hm).1
  have hne : ∀ q ∈ ps, q ≠ k.pcbs.next := fun q hq he => hfresh (he ▸ hq)
  have hstart : Proc frame s.recent k.memory k.pcbs.next k.pidCounter (scriptLines text) 0 0
      (pcbNew k.pidCounter text) :=
    Proc.start hcounted hnot
  obtain ⟨frame', pcb, m, hload, hframes, hproc, hother⟩ :=
    Proc.loadAll (n := first (scriptLines text).length) hstart h.frames hroom (fun c _ => hnot c)
    (by rw [first]; omega)
  rw [← List.range_eq_range', Nat.zero_add] at *
  have htable : (pcbNew k.pidCounter text).pageTable.length = pages (scriptLines text).length :=
    hstart.table
  refine ⟨{ k with
    memory := m
    pcbs := k.pcbs.alloc pcb
    pidCounter := k.pidCounter + 1
    allPcb := k.allPcb ++ [k.pcbs.next]
    queue := k.queue ++ [k.pcbs.next]
    lruCache := addPages k.pcbs.next (List.range (first (scriptLines text).length)) k.lruCache },
      frame', ?_, hfresh, ?_, rfl, rfl, rfl⟩
  · rw [MyShell.Paging.newProc, pcbInit]
    simp only [Option.bind_eq_bind, Option.bind_some, htable]
    rw [← first, hload]
    simp only [Option.bind_some, hproc.table]
    rfl
  · have hdoneq : ∀ q, (added s k.pcbs.next (scriptLines text).length).done q =
        Function.update s.done k.pcbs.next 0 q :=
      fun _ => rfl
    have hloadedq : ∀ q, (added s k.pcbs.next (scriptLines text).length).loaded q =
        Function.update s.loaded k.pcbs.next (first (scriptLines text).length) q := fun _ => rfl
    refine ⟨congrArg (addPages _ _) h.recent, congrArg (· ++ _) h.all, hframes, ?_, ?_, ?_, ?_, ?_⟩
    · intro q hq r hr he
      rcases List.mem_append.1 hq with hq | hq <;> rcases List.mem_append.1 hr with hr | hr
      · rw [Function.update_of_ne (hne q hq), Function.update_of_ne (hne r hr)] at he
        exact h.pids q hq r hr he
      · rw [List.mem_singleton.1 hr, Function.update_self, Function.update_of_ne (hne q hq)] at he
        exact absurd he (Nat.ne_of_lt (h.pidLt q hq))
      · rw [List.mem_singleton.1 hq, Function.update_self, Function.update_of_ne (hne r hr)] at he
        exact absurd he.symm (Nat.ne_of_lt (h.pidLt r hr))
      · rw [List.mem_singleton.1 hq, List.mem_singleton.1 hr]
    · intro q hq
      rw [hdoneq, hloadedq]
      change ∃ pcb', (k.pcbs.alloc pcb).get q = some pcb' ∧ _
      rw [Heap.get_alloc]
      rcases List.mem_append.1 hq with hq | hq
      · rw [if_neg (hne q hq), Function.update_of_ne (hne q hq), Function.update_of_ne (hne q hq),
          Function.update_of_ne (hne q hq), Function.update_of_ne (hne q hq)]
        obtain ⟨pcbq, hgetq, hprocq⟩ := h.proc q hq
        refine ⟨pcbq, hgetq, hprocq.congr (fun c => ?_) (fun c hc => (hother _ hc).1)
          fun c hc => (hother _ hc).2⟩
        simp [added, mem_addPages, hne q hq]
      · rw [List.mem_singleton.1 hq, if_pos rfl, Function.update_self, Function.update_self,
          Function.update_self, Function.update_self]
        exact ⟨pcb, rfl, hproc⟩
    · intro x hx
      rcases mem_addPages.1 hx with hx | ⟨hx, hx2⟩
      · obtain ⟨hp, hc⟩ := h.owner x hx
        rw [Function.update_of_ne (hne _ hp)]
        exact ⟨List.mem_append_left _ hp, hc⟩
      · rw [hx, Function.update_self]
        refine ⟨by simp, ?_⟩
        have := List.mem_range.1 hx2
        rw [first] at this
        omega
    · intro q hq
      change _ < k.pidCounter + 1
      rcases List.mem_append.1 hq with hq | hq
      · rw [Function.update_of_ne (hne q hq)]
        have := h.pidLt q hq
        omega
      · rw [List.mem_singleton.1 hq, Function.update_self]
        omega
    · obtain ⟨new, hnew, howner, htake⟩ := h.passed
      refine ⟨new, hnew, fun x hx => ?_, fun q hq => ?_⟩
      · obtain ⟨q, hq, he⟩ := howner x hx
        exact ⟨q, List.mem_append_left _ hq, by rw [Function.update_of_ne (hne q hq)]; exact he⟩
      · rw [hdoneq]
        rcases List.mem_append.1 hq with hq | hq
        · rw [Function.update_of_ne (hne q hq), Function.update_of_ne (hne q hq),
            Function.update_of_ne (hne q hq)]
          exact htake q hq
        · rw [List.mem_singleton.1 hq, Function.update_self, Function.update_self,
            Function.update_self, List.take_zero]
          have hnone : new.filter (fun x => x.1 = k.pidCounter) = [] :=
            List.filter_eq_nil_iff.2 fun x hx => by
            obtain ⟨q, hq, he⟩ := howner x hx
            have := h.pidLt q hq
            simp
            omega
          rw [hnone]
          rfl

/-! ## A batch -/

/-- The processes `ps` are new: nothing of them has run. -/
structure Fresh (size : Ptr → Nat) (ps : List Ptr) (s : DemandPaging.State Ptr) : Prop where
  queue : s.queue = ps
  gone : s.gone = []
  done : ∀ p ∈ ps, s.done p = 0
  loaded : ∀ p ∈ ps, s.loaded p = first (size p)
  mem : ∀ x, x ∈ s.recent ↔ x.1 ∈ ps ∧ x.2 < first (size x.1)
  length : s.recent.length = weight size ps

theorem Fresh.fair {len : Ptr → Nat} (h : Fresh len ps s) (hn : ps.Nodup) (hrecent : s.recent.Nodup)
    {frames : Nat} (hfits : weight len ps ≤ frames) : Fair frames len ps s where
  nodup := hn
  perm := by rw [h.queue, h.gone, List.append_nil]
  fits := hfits
  recentNodup := hrecent
  recentLength := by rw [h.length]; exact hfits
  recentMem x hx := by
    obtain ⟨hp, hc⟩ := (h.mem x).1 hx
    exact ⟨hp, by rw [h.loaded _ hp]; exact hc⟩
  loadedFirst p hp := Nat.le_of_eq (h.loaded p hp).symm
  loadedLe p hp := by
    rw [h.loaded p hp, first]
    omega
  doneLe p hp := by
    rw [h.done p hp]
    omega
  goneDone := by simp [h.gone]
  reads p hp _ := by
    rw [h.done p hp]
    omega
  ahead p hp := by
    rw [h.loaded p hp, first]
    omega
  resident p hp _ c _ hc := (h.mem _).2 ⟨hp, by rw [← h.loaded p hp]; exact hc⟩
  pace A i C hq _ _ := by
    have hps : ∀ j ∈ A ++ i :: C, s.done j = 0 := fun j hj => h.done j (by rw [← h.queue, hq]; exact hj)
    rw [hps i (by simp)]
    exact ⟨Nat.dvd_zero 2, fun j hj => Nat.le_of_eq (hps j (by simp [hj])),
      fun j hj => by rw [hps j (by simp [hj])]; omega⟩
  bound A i C hq h4 _ _ := by
    rw [h.done i (by rw [← h.queue, hq]; simp)] at h4
    omega

theorem weight_congr {len len' : Ptr → Nat} (h : ∀ p ∈ ps, len p = len' p) :
    weight len ps = weight len' ps := by
  rw [weight, weight, List.map_congr_left fun p hp => by rw [h p hp]]

theorem Fresh.added {len : Ptr → Nat} (h : Fresh len ps s) (hp : p ∉ ps) (n : Nat) :
    Fresh (Function.update len p n) (ps ++ [p]) (added s p n) := by
  have hne : ∀ q ∈ ps, q ≠ p := fun q hq he => hp (he ▸ hq)
  have hsplit : ∀ {P : Ptr → Prop}, (∀ q ∈ ps, P q) → P p → ∀ q ∈ ps ++ [p], P q :=
    fun h1 h2 q hq => by
    rcases List.mem_append.1 hq with hq | hq
    · exact h1 q hq
    · exact List.mem_singleton.1 hq ▸ h2
  refine ⟨congrArg (· ++ _) h.queue, h.gone, hsplit (fun q hq => ?_) (Function.update_self ..),
    hsplit (fun q hq => ?_) ?_, fun x => ?_, ?_⟩
  · exact (Function.update_of_ne (hne q hq) ..).trans (h.done q hq)
  · rw [Function.update_of_ne (hne q hq)]
    exact (Function.update_of_ne (hne q hq) ..).trans (h.loaded q hq)
  · rw [Function.update_self]
    exact Function.update_self ..
  · rw [Paging.added, mem_addPages, h.mem, List.mem_append, List.mem_singleton, List.mem_range]
    by_cases hx : x.1 = p
    · rw [hx, Function.update_self]
      simp [hp]
    · rw [Function.update_of_ne hx]
      simp [hx]
  · rw [Paging.added, length_addPages, h.length, DemandPaging.weight_append, List.length_range,
      weight_congr fun q hq => (Function.update_of_ne (hne q hq) n len).symm]
    simp

theorem newProcs_ok {texts : List Text} : ∀ {k : Kernel σ} {s : DemandPaging.State Ptr} {ps : List Ptr}
    {pid : Ptr → Nat} {script : Ptr → List Text} {frame : Ptr × Nat → Nat},
    Follows size frame ps pid script older k s → Fresh (fun p => (script p).length) ps s →
    k.queue = ps →
    (∀ text ∈ texts, Counted text) →
    weight (fun p => (script p).length) ps +
      (texts.map fun text => first (scriptLines text).length).sum ≤ size / 3 →
    ∃ k' ps' pid' script' frame' s', newProcs size (texts.map some) k = some k' ∧
      Follows size frame' ps' pid' script' older k' s' ∧
      Fresh (fun p => (script' p).length) ps' s' ∧ k'.queue = ps' ∧
      ps'.map pid' = ps.map pid ++ List.range' k.pidCounter texts.length ∧
      ps'.map script' = ps.map script ++ texts.map scriptLines ∧
      k'.pidCounter = k.pidCounter + texts.length ∧ k'.shell = k.shell := by
  induction texts with
  | nil =>
    intro k s ps pid script frame h hfresh hqueue _ _
    exact ⟨k, ps, pid, script, frame, s, rfl, h, hfresh, hqueue, by simp, by simp, rfl, rfl⟩
  | cons text texts ih =>
    intro k s ps pid script frame h hfresh hqueue hcounted hfits
    rw [List.map_cons, List.sum_cons] at hfits
    obtain ⟨k₁, frame₁, hnew, hnot, h₁, hqueue₁, hpid₁, hshell₁⟩ :=
      h.newProc (hcounted text List.mem_cons_self) (by rw [hfresh.length]; omega)
    have hne : ∀ q ∈ ps, q ≠ k.pcbs.next := fun q hq he => hnot (he ▸ hq)
    have hlen : (fun p => (Function.update script k.pcbs.next (scriptLines text) p).length) =
        Function.update (fun p => (script p).length) k.pcbs.next (scriptLines text).length := by
      funext q
      by_cases hq : q = k.pcbs.next
      · simp [hq]
      · simp [hq]
    have hfresh₁ := hfresh.added hnot (scriptLines text).length
    rw [← hlen] at hfresh₁
    have hweight : weight (fun p =>
      (Function.update script k.pcbs.next (scriptLines text) p).length) (ps ++ [k.pcbs.next]) =
        weight (fun p => (script p).length) ps + first (scriptLines text).length := by
      rw [hlen, DemandPaging.weight_append, ← weight_congr
        fun q hq => (Function.update_of_ne (hne q hq) _ _).symm]
      simp
    obtain ⟨k', ps', pid', script', frame', s', hrest, h', hfresh', hqueue', hpids', hscripts',
        hcounter', hshell'⟩ :=
      ih h₁ hfresh₁ (by rw [hqueue₁, hqueue]) (fun t ht => hcounted t (List.mem_cons_of_mem _ ht))
        (by rw [hweight]; omega)
    refine ⟨k', ps', pid', script', frame', s', ?_, h', hfresh', hqueue', ?_, ?_, ?_,
      hshell'.trans hshell₁⟩
    · rw [List.map_cons, newProcs, hnew]
      exact hrest
    · rw [hpids', List.map_append, List.map_congr_left fun q hq => Function.update_of_ne
        (hne q hq) _ pid, hpid₁]
      simp [List.range'_succ]
    · rw [hscripts', List.map_append, List.map_congr_left fun q hq => Function.update_of_ne
        (hne q hq) _ script]
      simp
    · rw [hcounter', hpid₁, List.length_cons]
      omega

/-- Between two batches there is nothing to follow. -/
theorem Idle.follows (h : Idle size k) : ∃ s : DemandPaging.State Ptr,
    Follows size (fun _ => 0) [] (fun _ => 0) (fun _ => []) k.passed k s ∧ Fresh (fun _ => 0) [] s := by
  refine ⟨⟨[], [], [], fun _ => 0, fun _ => 0⟩,
    ⟨h.lruCache, h.allPcb, ⟨List.nodup_nil, by simp, by simp, by simp, ?_⟩,
    by simp, by simp, by simp, by simp, ⟨[], by simp⟩⟩, ⟨rfl, rfl, by simp, by simp, by simp, rfl⟩⟩
  exact fun pos hpos hv => absurd (h.free pos hpos) hv

/-- What a batch needs: at most three scripts made for the scheduler, whose first pages fit. -/
structure Batch (size : Nat) (texts : List Text) : Prop where
  few : texts.length ≤ 3
  proper : ∀ text ∈ texts, Proper text
  fits : (texts.map fun text => first (lines text).length).sum ≤ size / 3

/-- At most three scripts whose first pages fit run to their end, and each of
their processes hands its lines to `parseInput`. -/
theorem Idle.exec_counted {texts : List Text} (h : Idle size k) (hfew : texts.length ≤ 3)
    (hcounted : ∀ text ∈ texts, Counted text)
    (hfirst : (texts.map fun text => first (scriptLines text).length).sum ≤ size / 3)
    (hgood : Good k.shell)
    (hquiet : ∀ text ∈ texts, Harmless parseInput size Good (scriptLines text)) :
    ∃ n k' new, exec parseInput size n (texts.map some) k = some (0, k') ∧ Idle size k' ∧
      Good k'.shell ∧ k'.pidCounter = k.pidCounter + texts.length ∧ k'.passed = k.passed ++ new ∧
      (∀ x ∈ new, k.pidCounter ≤ x.1 ∧ x.1 < k.pidCounter + texts.length) ∧
      ∀ i (hi : i < texts.length), (new.filter fun x => x.1 = k.pidCounter + i).map Prod.snd =
        scriptLines texts[i] := by
  obtain ⟨s₀, hfollows, hfresh⟩ := h.follows
  obtain ⟨k₁, ps, pid, script, frame, s, hnew, h₁, hfresh₁, hqueue₁, hpids, hscripts, hcounter,
      hshell⟩ :=
    newProcs_ok hfollows hfresh h.queue hcounted (by rwa [DemandPaging.weight_nil, Nat.zero_add])
  simp only [List.map_nil, List.nil_append] at hpids hscripts
  have hn : ps.Nodup := List.Nodup.of_map pid (by rw [hpids]; exact List.nodup_range')
  have hfits : weight (fun p => (script p).length) ps ≤ size / 3 := by
    have hsum : weight (fun p => (script p).length) ps =
        ((ps.map script).map fun l => first l.length).sum := by
      rw [weight, List.map_map]
      rfl
    rw [hsum, hscripts, List.map_map]
    exact hfirst
  have hquiet₁ : ∀ p ∈ ps, Harmless parseInput size Good (script p) := fun p hp => by
    have hm : script p ∈ texts.map scriptLines := hscripts ▸ List.mem_map_of_mem hp
    obtain ⟨text, ht, he⟩ := List.mem_map.1 hm
    rw [← he]
    exact hquiet text ht
  obtain ⟨k₂, s₂, frame₂, h₂, hdone, hcounter₂, hgood₂, hrun⟩ :=
    Follows.runProcRR hquiet₁ (Nat.lt_succ_self _) h₁ (hfresh₁.fair hn h₁.frames.nodup hfits)
      (by rw [hqueue₁, hfresh₁.queue]) (by rw [hshell]; exact hgood)
  obtain ⟨k', hclean, hidle, hpassed, hcounter₃, hshell₃⟩ := h₂.cleanUp hn
  obtain ⟨new, hsplit, howner, htake⟩ := h₂.passed
  have hpid : ∀ i (hi : i < texts.length), ∃ p ∈ ps, pid p = k.pidCounter + i ∧
      script p = scriptLines texts[i] := by
    intro i hi
    have hlength : ps.length = texts.length := by simpa using congrArg List.length hpids
    refine ⟨ps[i], List.getElem_mem _, ?_, ?_⟩
    · have := congrArg (·[i]?) hpids
      simpa [hlength, hi] using this
    · have := congrArg (·[i]?) hscripts
      simpa [hlength, hi] using this
  refine ⟨work (fun p => (script p).length) s + 1, k', new, ?_,
    hidle, by rw [hshell₃]; exact hgood₂, ?_, by rw [hpassed, hsplit], fun x hx => ?_, fun i hi => ?_⟩
  · rw [MyShell.Paging.exec, if_neg (by rw [List.length_map]; omega), hnew]
    change MyShell.Paging.runProcRR parseInput size _ k₁ = _
    rw [hrun, hclean]
    rfl
  · rw [hcounter₃, hcounter₂, hcounter]
  · obtain ⟨p, hp, he⟩ := howner x hx
    have hm : pid p ∈ List.range' k.pidCounter texts.length := hpids ▸ List.mem_map_of_mem hp
    have := List.mem_range'_1.1 hm
    omega
  · obtain ⟨p, hp, hpid, hscript⟩ := hpid i hi
    rw [← hpid, htake p hp, hdone p hp, List.take_length, hscript]

/-- A batch runs to its end, and each of its processes hands its lines to `parseInput`. -/
theorem Idle.exec {texts : List Text} (h : Idle size k) (hbatch : Batch size texts)
    (hgood : Good k.shell) (hquiet : ∀ text ∈ texts, Harmless parseInput size Good (lines text)) :
    ∃ n k' new, exec parseInput size n (texts.map some) k = some (0, k') ∧ Idle size k' ∧
      Good k'.shell ∧ k'.pidCounter = k.pidCounter + texts.length ∧ k'.passed = k.passed ++ new ∧
      (∀ x ∈ new, k.pidCounter ≤ x.1 ∧ x.1 < k.pidCounter + texts.length) ∧
      ∀ i (hi : i < texts.length), (new.filter fun x => x.1 = k.pidCounter + i).map Prod.snd =
        lines texts[i] := by
  have hlines : ∀ text ∈ texts, scriptLines text = lines text :=
    fun text ht => (hbatch.proper text ht).scriptLines_eq
  have hfirst : (texts.map fun text => first (scriptLines text).length).sum ≤ size / 3 := by
    rw [List.map_congr_left fun text ht => by rw [hlines text ht]]
    exact hbatch.fits
  obtain ⟨n, k', new, hexec, hidle, hgood', hcounter, hpassed, hpids, hnew⟩ :=
    h.exec_counted hbatch.few (fun text ht => (hbatch.proper text ht).counted) hfirst hgood
      fun text ht => by
      rw [hlines text ht]
      exact hquiet text ht
  refine ⟨n, k', new, hexec, hidle, hgood', hcounter, hpassed, hpids, fun i hi => ?_⟩
  rw [hnew i hi, hlines _ (List.getElem_mem hi)]

/-! ## More fuel -/

theorem runProcRR_mono {r : Int × Kernel σ} :
    ∀ {n : Nat} {k : Kernel σ}, runProcRR parseInput size n k = some r →
    ∀ {n' : Nat}, n ≤ n' → runProcRR parseInput size n' k = some r
  | n + 1, k, h, n' + 1, hle => by
    rw [runProcRR] at h ⊢
    cases hdone : queueDone k k.queue with
    | none =>
      rw [hdone] at h
      cases h
    | some b =>
      rw [hdone] at h
      simp only [Option.bind_eq_bind, Option.bind_some] at h ⊢
      split at h
      · rename_i hb
        rw [if_pos hb]
        exact h
      · rename_i hb
        rw [if_neg hb]
        split at h
        · cases h
        · rename_i p q hq
          cases hturn : turn parseInput size p { k with queue := q } with
          | none =>
            rw [hturn] at h
            cases h
          | some k₁ =>
            rw [hturn] at h
            exact runProcRR_mono h (Nat.le_of_succ_le_succ hle)

theorem exec_mono {scripts : List (Option Text)} {r : Int × Kernel σ} {n n' : Nat}
    (h : exec parseInput size n scripts k = some r) (hle : n ≤ n') :
    exec parseInput size n' scripts k = some r := by
  rw [exec] at h ⊢
  split at h
  · rename_i hlen
    rw [if_pos hlen]
    exact h
  · rename_i hlen
    rw [if_neg hlen]
    cases hnew : newProcs size scripts k with
    | none =>
      rw [hnew] at h
      cases h
    | some k₁ =>
      rw [hnew] at h
      exact runProcRR_mono h hle

theorem exec_det {scripts : List (Option Text)} {r r' : Int × Kernel σ} {n n' : Nat}
    (h : exec parseInput size n scripts k = some r)
    (h' : exec parseInput size n' scripts k = some r') : r = r' :=
  Option.some.inj ((exec_mono h (Nat.le_max_left n n')).symm.trans
    (exec_mono h' (Nat.le_max_right n n')))

end MyShell.Paging

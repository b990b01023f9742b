/-
Runs within runs. A line of a script may be `run` or `exec`; the nested run
works on the same queue, recency list and list of processes as the one that
called it, and frees all processes when it is done, the caller among them.
-/
import MyShell.Paging.Execution

namespace MyShell.Paging

variable {σ : Type} {sh : Shell σ} {parse : Parse σ} {size : Nat} {k k' k'' : Kernel σ} {p : Ptr}
  {r : Int}

/-- What happens to the processes of a state: those freed stay freed, and those
in `ALL_PCB` stay there or are freed. -/
structure Later (k k' : Kernel σ) : Prop where
  next : k.pcbs.next ≤ k'.pcbs.next
  freed : ∀ p < k.pcbs.next, k.pcbs.get p = none → k'.pcbs.get p = none
  all : ∀ p < k.pcbs.next, p ∈ k.allPcb → p ∈ k'.allPcb ∨ k'.pcbs.get p = none

theorem Later.refl (k : Kernel σ) : Later k k := ⟨Nat.le_refl _, fun _ _ h => h, fun _ _ h => .inl h⟩

theorem Later.trans (h : Later k k') (h' : Later k' k'') : Later k k'' where
  next := Nat.le_trans h.next h'.next
  freed p hp hf := h'.freed p (Nat.lt_of_lt_of_le hp h.next) (h.freed p hp hf)
  all p hp hm := by
    have hp' := Nat.lt_of_lt_of_le hp h.next
    rcases h.all p hp hm with hm | hf
    · exact h'.all p hp' hm
    · exact .inr (h'.freed p hp' hf)

/-- Steps that change neither list nor heap. -/
theorem Later.of_eq (hp : k'.pcbs = k.pcbs) (ha : k'.allPcb = k.allPcb) : Later k k' := by
  refine ⟨Nat.le_of_eq (by rw [hp]), fun p _ hf => by rw [hp]; exact hf,
    fun p _ hm => .inl (by rw [ha]; exact hm)⟩

theorem Later.of_modify {f : PCB → PCB} (hp : k'.pcbs = k.pcbs.modify p f)
    (ha : k'.allPcb = k.allPcb) : Later k k' := by
  refine ⟨Nat.le_of_eq (by rw [hp]; rfl), fun q _ hf => ?_, fun q _ hm => .inl (by rw [ha]; exact hm)⟩
  rw [hp, Heap.get_modify]
  split
  · subst_vars
    rw [hf]
    rfl
  · exact hf

/-- A step function under which processes only come or are freed. -/
def Ages {α : Type} (f : Kernel σ → Option (α × Kernel σ)) : Prop :=
  ∀ {k a k'}, f k = some (a, k') → Later k k'

theorem cpuRun_later (hparse : ∀ line, Ages (parse line)) {i : Nat}
    (h : cpuRun parse p i k = some (r, k')) : Later k k' := by
  rw [cpuRun] at h
  simp only [Option.bind_eq_bind, Option.bind_eq_some_iff] at h
  obtain ⟨pcb, -, page, -, pc, -, h⟩ := h
  split at h
  · split at h
    · obtain ⟨⟨a, k₁⟩, hline, h⟩ := Option.bind_eq_some_iff.1 h
      obtain ⟨_, -, h⟩ := Option.bind_eq_some_iff.1 h
      obtain ⟨-, rfl⟩ := Prod.mk.inj (Option.some.inj h)
      have hpass : Later k { k with passed := k.passed ++ [(pcb.pid,
          (k.memory (page.index ⟨pc, ‹_›⟩)).value)] } :=
        .of_eq rfl rfl
      exact (hpass.trans (hparse _ hline)).trans (.of_modify (f := fun pcb => pcb.advance i) rfl rfl)
    · obtain ⟨-, rfl⟩ := Prod.mk.inj (Option.some.inj h)
      exact .refl k
  · cases h

theorem loadPcb_later {i : Nat} {b : Bool} (h : loadPcb size p i k = some (b, k')) : Later k k' := by
  rw [loadPcb] at h
  obtain ⟨pcb, -, h⟩ := Option.bind_eq_some_iff.1 h
  split at h
  · cases h
  · split at h
    · obtain ⟨-, rfl⟩ := Prod.mk.inj (Option.some.inj h)
      exact .refl k
    · rename_i x _ _
      obtain ⟨-, rfl⟩ := Prod.mk.inj (Option.some.inj h)
      exact .of_modify (f := fun _ => x) rfl rfl

theorem evictTail_later (h : evictTail k = some k') : Later k k' := by
  rw [evictTail] at h
  simp only [Option.bind_eq_bind, Option.bind_eq_some_iff] at h
  obtain ⟨victim, -, page, -, owner, -, pcb, -, evicted, -, h⟩ := h
  obtain rfl := Option.some.inj h
  exact .of_modify (f := fun pcb =>
    { pcb with pageTable := pcb.pageTable.set page.pageIndex (pageEvict evicted k.memory).1 })
    rfl rfl

theorem pageFault_later {i : Nat} (h : pageFault size p i k = some k') : Later k k' := by
  rw [pageFault] at h
  obtain ⟨⟨b, k₁⟩, hload, h⟩ := Option.bind_eq_some_iff.1 h
  have hlater := loadPcb_later hload
  cases b with
  | true =>
    change some _ = some k' at h
    obtain rfl := Option.some.inj h
    exact hlater.trans (.of_eq rfl rfl)
  | false =>
    change Option.bind (evictTail k₁) _ = some k' at h
    obtain ⟨k₂, hevict, h⟩ := Option.bind_eq_some_iff.1 h
    obtain ⟨⟨b, k₃⟩, hreload, h⟩ := Option.bind_eq_some_iff.1 h
    change some _ = some k' at h
    obtain rfl := Option.some.inj h
    exact ((hlater.trans (evictTail_later hevict)).trans (loadPcb_later hreload)).trans (.of_eq rfl rfl)

theorem runLine_later (hparse : ∀ line, Ages (parse line)) (h : runLine parse size p k = some (r, k')) :
    Later k k' := by
  rw [runLine] at h
  obtain ⟨pcb, -, h⟩ := Option.bind_eq_some_iff.1 h
  rw [runProc] at h
  obtain ⟨⟨a, k₁⟩, hcpu, h⟩ := Option.bind_eq_some_iff.1 h
  have hlater := cpuRun_later hparse hcpu
  simp only at h
  split at h
  · obtain ⟨k₂, hfault, h⟩ := Option.bind_eq_some_iff.1 h
    obtain ⟨-, rfl⟩ := Prod.mk.inj (Option.some.inj h)
    exact hlater.trans (pageFault_later hfault)
  · obtain ⟨page, -, h⟩ := Option.bind_eq_some_iff.1 h
    obtain ⟨x, -, h⟩ := Option.bind_eq_some_iff.1 h
    obtain ⟨-, rfl⟩ := Prod.mk.inj (Option.some.inj h)
    exact hlater.trans (.of_eq rfl rfl)

theorem turn_later (hparse : ∀ line, Ages (parse line)) (h : turn parse size p k = some k') :
    Later k k' := by
  rw [turn] at h
  obtain ⟨pcb, -, h⟩ := Option.bind_eq_some_iff.1 h
  split at h
  · obtain ⟨⟨a, k₁⟩, hline, h⟩ := Option.bind_eq_some_iff.1 h
    have hlater := runLine_later hparse hline
    simp only at h
    split at h
    · obtain rfl := Option.some.inj h
      exact hlater
    · obtain ⟨⟨a, k₂⟩, hline₂, h⟩ := Option.bind_eq_some_iff.1 h
      have hlater₂ := hlater.trans (runLine_later hparse hline₂)
      simp only at h
      split at h
      · obtain rfl := Option.some.inj h
        exact hlater₂
      · obtain rfl := Option.some.inj h
        exact hlater₂.trans (.of_eq rfl rfl)
  · split at h
    · obtain ⟨⟨a, k₁⟩, hline, h⟩ := Option.bind_eq_some_iff.1 h
      obtain rfl := Option.some.inj h
      exact runLine_later hparse hline
    · obtain rfl := Option.some.inj h
      exact .refl k

theorem newProcs_later :
    ∀ {scripts : List (Option Text)} {k : Kernel σ}, newProcs size scripts k = some k' → Later k k'
  | [], k, h => by
    obtain rfl := Option.some.inj h
    exact .refl k
  | s :: ss, k, h => by
    obtain ⟨k₁, hnew, h⟩ := Option.bind_eq_some_iff.1 h
    refine Later.trans ?_ (newProcs_later h)
    rw [newProc] at hnew
    obtain ⟨⟨pcb, m⟩, -, hnew⟩ := Option.bind_eq_some_iff.1 hnew
    obtain rfl := Option.some.inj hnew
    refine ⟨Nat.le_succ _, fun q hq hf => ?_, fun q _ hm => .inl (List.mem_append_left _ hm)⟩
    change (k.pcbs.alloc pcb).get q = none
    rw [Heap.get_alloc, if_neg (Nat.ne_of_lt hq)]
    exact hf

/-! ## The end of a nested run -/

theorem freeAll_later : ∀ {l : List Ptr} {k : Kernel σ}, freeAll l k = some k' →
    k'.allPcb = k.allPcb ∧ k'.pcbs.next = k.pcbs.next ∧
    (∀ p, k.pcbs.get p = none → k'.pcbs.get p = none) ∧
      ∀ p ∈ l, k'.pcbs.get p = none
  | [], k, h => by
    obtain rfl := Option.some.inj h
    exact ⟨rfl, rfl, fun _ h => h, by simp⟩
  | q :: l, k, h => by
    obtain ⟨k₁, hfree, h⟩ := Option.bind_eq_some_iff.1 h
    rw [freePcb] at hfree
    obtain ⟨pcb, -, hfree⟩ := Option.bind_eq_some_iff.1 hfree
    obtain rfl := Option.some.inj hfree
    obtain ⟨hall, hnext, hfreed, hl⟩ := freeAll_later h
    have hq : ∀ p, k.pcbs.get p = none ∨ p = q → (k.pcbs.free q).get p = none := fun p hp => by
      rw [Heap.get_free]
      split
      · rfl
      · exact hp.resolve_right ‹_›
    refine ⟨hall, hnext, fun p hp => hfreed p (hq p (.inl hp)), fun p hp => ?_⟩
    rcases List.mem_cons.1 hp with rfl | hp
    · exact hfreed p (hq p (.inr rfl))
    · exact hl p hp

/-- When `run_proc_RR` returns, every process there was is freed. -/
theorem runProcRR_freed (hparse : ∀ line, Ages (parse line)) : ∀ {n : Nat} {k : Kernel σ},
    runProcRR parse size n k = some (r, k') →
    Later k k' ∧ ∀ p < k.pcbs.next, p ∈ k.allPcb → k'.pcbs.get p = none
  | 0, _, h => by cases h
  | n + 1, k, h => by
    rw [runProcRR] at h
    obtain ⟨b, -, h⟩ := Option.bind_eq_some_iff.1 h
    split at h
    · obtain ⟨k₁, hclean, h⟩ := Option.bind_eq_some_iff.1 h
      obtain ⟨-, rfl⟩ := Prod.mk.inj (Option.some.inj h)
      rw [cleanUp] at hclean
      obtain ⟨k₂, hfree, hclean⟩ := Option.bind_eq_some_iff.1 hclean
      obtain rfl := Option.some.inj hclean
      obtain ⟨hall, hnext, hfreed, hl⟩ := freeAll_later hfree
      exact ⟨⟨Nat.le_of_eq hnext.symm, fun p _ => hfreed p, fun p _ hp => .inr (hl p hp)⟩,
        fun p _ => hl p⟩
    · split at h
      · cases h
      · rename_i p q hq
        obtain ⟨k₁, hturn, h⟩ := Option.bind_eq_some_iff.1 h
        have hlater : Later k k₁ :=
          (Later.of_eq rfl rfl : Later k { k with queue := q }).trans (turn_later hparse hturn)
        obtain ⟨hrest, hfreed⟩ := runProcRR_freed hparse h
        refine ⟨hlater.trans hrest, fun p hp hm => ?_⟩
        have hp' := Nat.lt_of_lt_of_le hp hlater.next
        rcases hlater.all p hp hm with hm | hf
        · exact hfreed p hp' hm
        · exact hrest.freed p hp' hf

theorem exec_freed (hparse : ∀ line, Ages (parse line)) {n : Nat} {scripts : List (Option Text)}
    (h : exec parse size n scripts k = some (r, k')) :
    Later k k' ∧ (scripts.length ≤ 3 → ∀ p < k.pcbs.next, p ∈ k.allPcb → k'.pcbs.get p = none) := by
  rw [exec] at h
  split at h
  · obtain ⟨-, rfl⟩ := Prod.mk.inj (Option.some.inj h)
    exact ⟨.refl k, fun hle => absurd hle (by omega)⟩
  · obtain ⟨k₁, hnew, h⟩ := Option.bind_eq_some_iff.1 h
    have hlater := newProcs_later hnew
    obtain ⟨hrest, hfreed⟩ := runProcRR_freed hparse h
    refine ⟨hlater.trans hrest, fun _ p hp hm => ?_⟩
    have hp' := Nat.lt_of_lt_of_le hp hlater.next
    rcases hlater.all p hp hm with hm | hf
    · exact hfreed p hp' hm
    · exact hrest.freed p hp' hf

/-! ## Commands that run scripts -/

variable {run : List (Option Text) → Kernel σ → Option (Int × Kernel σ)}

theorem Same.later (h : Same size k k') : Later k k' := .of_eq h.pcbs h.allPcb

theorem storeScripts_later :
    ∀ (names : List Text) (k : Kernel σ), (storeScripts sh names k).2.pcbs = k.pcbs ∧
    (storeScripts sh names k).2.allPcb = k.allPcb
  | [], _ => ⟨rfl, rfl⟩
  | _ :: names, _ => storeScripts_later names _

theorem storeScripts_length :
    ∀ (names : List Text) (k : Kernel σ), (storeScripts sh names k).1.length = names.length
  | [], _ => rfl
  | _ :: names, _ => congrArg (· + 1) (storeScripts_length names _)

/-- The scripts are copied, run, and the copies are removed. -/
theorem runScripts_eq {names : List Text} (h : runScripts sh run names k = some (r, k')) :
    ∃ scripts k₁ k₂, scripts.length = names.length ∧ Later k k₁ ∧
      run scripts k₁ = some (r, k₂) ∧
      k₁.allPcb = k.allPcb ∧ k'.pcbs = k₂.pcbs ∧ k'.allPcb = k₂.allPcb := by
  rw [runScripts] at h
  obtain ⟨hpcbs, hall⟩ : (storeScripts sh names k).2.pcbs = k.pcbs ∧ _ := storeScripts_later names k
  obtain ⟨⟨a, k₂⟩, hexec, h⟩ := Option.bind_eq_some_iff.1 h
  obtain ⟨rfl, rfl⟩ := Prod.mk.inj (Option.some.inj h)
  exact ⟨_, _, k₂, by rw [List.length_map, storeScripts_length], .of_eq hpcbs hall, hexec, hall,
    rfl, rfl⟩

theorem runScripts_later (hages : ∀ scripts, Ages (run scripts)) {names : List Text}
    (h : runScripts sh run names k = some (r, k')) : Later k k' := by
  obtain ⟨scripts, k₁, k₂, -, hlater, hrun, -, hpcbs, hall⟩ := runScripts_eq h
  exact (hlater.trans (hages scripts hrun)).trans (.of_eq hpcbs hall)

/-- `run` and `exec` run their scripts or complain about their number. -/
theorem runCommand_scripts {c : Command} {names : List Text} (hc : c = .run ∨ c = .exec)
    (h : runCommand sh run k c names = some (r, k')) :
    runScripts sh run names k = some (r, k') ∨ ∃ a, k.answer a = some (r, k') := by
  rcases hc with rfl | rfl
  · cases names with
    | nil => exact .inr ⟨_, h⟩
    | cons s ss =>
      cases ss with
      | nil => exact .inl h
      | cons s' ss => exact .inr ⟨_, h⟩
  · cases names with
    | nil => exact .inr ⟨_, h⟩
    | cons s ss =>
      change (if 4 < (s :: ss).length then _ else _) = _ at h
      split at h
      · exact .inr ⟨_, h⟩
      · exact .inl h

theorem interpreter_later (hages : ∀ scripts, Ages (run scripts)) {args : List Text}
    (h : interpreter sh run args k = some (r, k')) : Later k k' := by
  cases hargs : startsScript args with
  | false => exact (interpreter_kept hargs h).toSame.later
  | true =>
    unfold interpreter at h
    unfold startsScript at hargs
    split at h
    · cases h
    · cases hwords : args.map stripLine with
      | nil =>
        rw [hwords] at hargs
        cases hargs
      | cons name rest =>
        rw [hwords] at h hargs
        obtain ⟨c, hlook, hc⟩ : ∃ c, commandNames.lookup name = some c ∧ (c = .run ∨ c = .exec) := by
          rcases of_decide_eq_true hargs with hlook | hlook
          · exact ⟨_, hlook, .inl rfl⟩
          · exact ⟨_, hlook, .inr rfl⟩
        simp only [hlook] at h
        rcases runCommand_scripts hc h with hrun | ⟨a, hanswer⟩
        · exact runScripts_later hages hrun
        · exact (Kept.answer hanswer : Kept 0 k k').toSame.later

theorem nextToken_later (s : Text) (k : Kernel σ) : Later k (nextToken s k).2 :=
  (nextToken_same s k : Same 0 k _).later

theorem parseLoop_later (hages : ∀ scripts, Ages (run scripts)) :
    ∀ {n : Nat} {token : Option Text} {ret : Int} {k : Kernel σ}, parseLoop sh run n token ret k =
      some (r, k') → Later k k'
  | _, none, _, _, h => by
    rw [parseLoop] at h
    cases h
    exact .refl _
  | 0, some _, _, _, h => by cases h
  | n + 1, some token, _, k, h => by
    rw [parseLoop] at h
    obtain ⟨⟨a, k₁⟩, hcmd, h⟩ := Option.bind_eq_some_iff.1 h
    have hlater := (interpreter_later hages hcmd).trans (nextToken_later k₁.strtokRest k₁)
    simp only at h
    split at h
    · obtain ⟨-, rfl⟩ := Prod.mk.inj (Option.some.inj h)
      exact hlater
    · exact hlater.trans (parseLoop_later hages h)

theorem parseLine_later (hages : ∀ scripts, Ages (run scripts)) {n : Nat} (line : Text) :
    Ages (parseLine sh run n line) := fun h => (nextToken_later _ _).trans (parseLoop_later hages h)

theorem parseInput_later : ∀ (n : Nat) (line : Text), Ages (parseInput sh n line)
  | 0, line => parseLine_later (fun _ _ _ _ h => by cases h) line
  | n + 1, line => parseLine_later (fun _ _ _ _ h => (exec_freed (parseInput_later n) h).1) line

/-! ## The caller -/

/-- A process that `new_proc` made and nothing has freed. -/
structure Kernel.Alive (k : Kernel σ) (p : Ptr) : Prop where
  all : p ∈ k.allPcb
  get : (k.pcbs.get p).isSome

theorem Kernel.Alive.lt (h : k.Alive p) : p < k.pcbs.next := by
  obtain ⟨pcb, hp⟩ := Option.isSome_iff_exists.1 h.get
  exact k.pcbs.fresh _ (Heap.mem_of_get hp)

/-- The scripts that a command starts. -/
def started (args : List Text) : List Text :=
  match args.map stripLine with
  | [] => []
  | name :: names =>
    if commandNames.lookup name = some .run ∧ names.length = 1 ∨
        commandNames.lookup name = some .exec ∧ names.length ≤ 3 then names
    else []

/-- What the caller of a nested run relies on. -/
structure Kernel.Keeps (k k' : Kernel σ) (p : Ptr) : Prop where
  pcb : k'.pcbs.get p = k.pcbs.get p
  frames : ∀ i page, k.page (p, i) = some page → ∀ j, k'.memory (page.index j) = k.memory (page.index j)
  entries : k'.lruCache.filter (·.1 = p) = k.lruCache.filter (·.1 = p)

theorem runScripts_freed {n : Nat} {names : List Text} (hnames : names.length ≤ 3) (hp : k.Alive p)
    (h : runScripts sh (exec (parseInput sh n) sh.frameStoreSize n) names k = some (r, k')) :
    k'.pcbs.get p = none := by
  obtain ⟨scripts, k₁, k₂, hlength, hlater, hrun, hall, hpcbs, -⟩ := runScripts_eq h
  rw [hpcbs]
  exact (exec_freed (parseInput_later n) hrun).2 (by omega) p (Nat.lt_of_lt_of_le hp.lt hlater.next)
    (by rw [hall]; exact hp.all)

/-- A nested run frees its caller. -/
theorem interpreter_freed {n : Nat} {args : List Text} (hargs : started args ≠ []) (hp : k.Alive p)
    (h : interpreter sh (exec (parseInput sh n) sh.frameStoreSize n) args k = some (r, k')) :
    k'.pcbs.get p = none := by
  unfold interpreter at h
  unfold started at hargs
  split at h
  · cases h
  · cases hwords : args.map stripLine with
    | nil =>
      rw [hwords] at hargs
      exact absurd rfl hargs
    | cons name names =>
      rw [hwords] at h hargs
      simp only at h hargs
      split at hargs
      · rename_i hlook
        rcases hlook with ⟨hlook, hlength⟩ | ⟨hlook, hlength⟩
        · obtain ⟨script, rfl⟩ := List.length_eq_one_iff.1 hlength
          simp only [hlook] at h
          have hrun : runScripts sh _ [script] k = some (r, k') := h
          exact runScripts_freed (by rw [hlength]; decide) hp hrun
        · obtain ⟨s, ss, rfl⟩ := List.exists_cons_of_ne_nil hargs
          simp only [hlook] at h
          change (if 4 < (s :: ss).length then _ else _) = _ at h
          rw [if_neg (by omega)] at h
          exact runScripts_freed hlength hp h
      · exact absurd rfl hargs

/-- The first command of a line starts a script. -/
def Starts (line : Text) : Prop :=
  ∃ token rest, strtok line = some (token, rest) ∧ started (words token) ≠ []

theorem parseInput_freed {n : Nat} {line : Text} (hline : Starts line) (hp : k.Alive p)
    (h : parseInput sh (n + 1) line k = some (r, k')) : k'.pcbs.get p = none := by
  obtain ⟨token, rest, htoken, hargs⟩ := hline
  unfold parseInput parseLine nextToken at h
  rw [htoken] at h
  simp only at h
  cases hbound : n + line.length with
  | zero =>
    rw [hbound] at h
    cases h
  | succ m =>
    rw [hbound, parseLoop] at h
    obtain ⟨⟨a, k₁⟩, hcmd, h⟩ := Option.bind_eq_some_iff.1 h
    have hp' : ({ k with strtokRest := rest } : Kernel σ).Alive p := ⟨hp.all, hp.get⟩
    have hfreed := interpreter_freed hargs hp' hcmd
    have hlater : Later k₁ k' := by
      simp only at h
      refine (nextToken_later k₁.strtokRest k₁).trans ?_
      split at h
      · obtain ⟨-, rfl⟩ := Prod.mk.inj (Option.some.inj h)
        exact .refl _
      · exact parseLoop_later (fun _ _ _ _ h => (exec_freed (parseInput_later n) h).1) h
    refine hlater.freed p (Nat.lt_of_lt_of_le hp.lt ?_) hfreed
    exact (interpreter_later (fun _ _ _ _ h => (exec_freed (parseInput_later n) h).1) hcmd).next

theorem cpuRun_nested {n i : Nat} {line : Text} {pcb : PCB} {page : Page} {pc : Nat}
    (hline : Starts line) (hp : k.Alive p) (hpcb : k.pcbs.get p = some pcb)
    (hpage : pcb.pageTable[i]? = some page) (hpc : pcb.programCounter[i]? = some pc) (hlt : pc < 3)
    (hvalid : page.validBit ⟨pc, hlt⟩ = true)
    (hvalue : (k.memory (page.index ⟨pc, hlt⟩)).value = line) :
    cpuRun (parseInput sh (n + 1)) p i k = none := by
  cases hparse : parseInput sh (n + 1) line { k with passed := k.passed ++ [(pcb.pid, line)] } with
  | none => simp [cpuRun, hpcb, hpage, hpc, hlt, hvalid, hvalue, hparse]
  | some x =>
    obtain ⟨r, k'⟩ := x
    have hp' : ({ k with passed := k.passed ++ [(pcb.pid, line)] } : Kernel σ).Alive p :=
      ⟨hp.all, hp.get⟩
    have hfreed := parseInput_freed hline hp' hparse
    simp [cpuRun, hpcb, hpage, hpc, hlt, hvalid, hvalue, hparse, hfreed]

/-- **Main result.** When a run within a run returns, its caller is freed: it
has kept nothing, and `cpu_run` cannot count its line. -/
theorem caller_lost (sh : Shell σ) (hp : k.Alive p) :
    (∀ n args r k', started args ≠ [] →
      interpreter sh (exec (parseInput sh n) sh.frameStoreSize n) args k = some (r, k') →
        k'.pcbs.get p = none ∧ ¬ k.Keeps k' p) ∧
      ∀ n i pcb page pc (hlt : pc < 3), k.pcbs.get p = some pcb → pcb.pageTable[i]? = some page →
        pcb.programCounter[i]? = some pc → page.validBit ⟨pc, hlt⟩ = true →
        Starts (k.memory (page.index ⟨pc, hlt⟩)).value → cpuRun (parseInput sh (n + 1)) p i k =
        none := by
  refine ⟨fun n args r k' hargs h => ?_, fun n i pcb page pc hlt hpcb hpage hpc hvalid hline =>
    cpuRun_nested hline hp hpcb hpage hpc hlt hvalid rfl⟩
  have hfreed := interpreter_freed hargs hp h
  refine ⟨hfreed, fun hkeeps => ?_⟩
  have := hp.get
  rw [← hkeeps.pcb, hfreed] at this
  cases this

/-- A host on which each script is a single `help`. -/
def helpShell : Shell Unit := { bareShell with fopen := fun _ _ => some "help".toList }

/-- A process, taken from the queue, is about to run a script. -/
def caller : Kernel Unit :=
  { (newProc 6 (some "run b".toList) (kernelSetup ())).getD (kernelSetup ()) with queue := [] }

theorem caller_lost_help : ∃ r k', interpreter helpShell
    (exec (parseInput helpShell 3) 6 3) ["run".toList, "b".toList] caller =
    some (r, k') ∧ k'.pcbs.get 0 = none ∧ cpuRun (parseInput helpShell 4) 0 0 caller = none := by
  have hp : caller.Alive 0 := ⟨by decide, by decide⟩
  refine ⟨_, _, rfl, ((caller_lost helpShell hp).1 3 ["run".toList, "b".toList] _ _
    (by decide) rfl).1, ?_⟩
  exact (caller_lost helpShell hp).2 3 0 _ _ 0 (by decide) rfl rfl rfl rfl ⟨"run b".toList,
    [], by decide, by decide⟩

theorem caller_not_kept : ∃ r k', interpreter helpShell
    (exec (parseInput helpShell 3) 6 3) ["run".toList, "b".toList] caller =
    some (r, k') ∧ ¬ caller.Keeps k' 0 := by
  refine ⟨_, _, rfl, fun h => ?_⟩
  have hsome := congrArg Option.isSome h.pcb
  revert hsome
  decide

end MyShell.Paging

/-
`quit` in a script. `parseInput` answers -1 for it, which `run_proc` drops, so
the round robin goes on, and so does the session. The events of a session are
the calls of `interpreter`, those of the lines of processes among them. A `quit`
of a line is the last event only if it is the last command there is
(`quit_ends_session`).
-/
import MyShell.Paging.OneLiner

namespace MyShell.Paging

/-! ## Events -/

/-- A call of `interpreter`: the processes whose lines are running, the innermost
first, each with its size when the line was started; the words; the state. -/
structure Event (σ : Type) where
  running : List (Ptr × Int)
  args : List Text
  kernel : Kernel σ

variable {σ : Type} (sh : Shell σ)

/-- The command is `quit` or `exit`. -/
def Event.Quits (e : Event σ) : Prop := e.args = ["quit".toList] ∨ e.args = ["exit".toList]

/-- The events of the scripts that a command starts. -/
def commandEvents (inner : List (Option Text) → Kernel σ → List (Event σ)) (args : List Text)
    (k : Kernel σ) : List (Event σ) :=
  if started args = [] then []
  else
    let (copies, k) := storeScripts sh (started args) k
    inner (copies.map fun copy => sh.fopen copy k.shell) k

/-- The events of `parseLoop`. -/
def loopEvents (exec : List (Option Text) → Kernel σ → Option (Int × Kernel σ))
    (inner : List (Option Text) → Kernel σ → List (Event σ)) (running : List (Ptr × Int)) :
    Nat → Option Text → Kernel σ → List (Event σ)
  | _, none, _ => []
  | 0, some _, _ => []
  | n + 1, some token, k =>
    ⟨running, (words token).map stripLine, k⟩ :: (commandEvents sh inner (words token) k ++
      match interpreter sh exec (words token) k with
      | none => []
      | some (ret, k) =>
        let (tokens, k) := nextToken k.strtokRest k
        if ret = -1 then [] else loopEvents exec inner running n tokens k)

/-- The events of `parseLine`. -/
def lineEvents (exec : List (Option Text) → Kernel σ → Option (Int × Kernel σ))
    (inner : List (Option Text) → Kernel σ → List (Event σ)) (n : Nat) (running : List (Ptr × Int))
    (ui : Text) (k : Kernel σ) : List (Event σ) :=
  let (tokens, k) := nextToken ui k
  loopEvents sh exec inner running (n + ui.length) tokens k

section Scheduler

variable (parseInput : Parse σ) (events : List (Ptr × Int) → Text → Kernel σ → List (Event σ))
  (size : Nat) (running : List (Ptr × Int))

/-- The events of `runLine`, which are those of `cpu_run`. -/
def runLineEvents (p : Ptr) (k : Kernel σ) : List (Event σ) :=
  match k.pcbs.get p with
  | none => []
  | some pcb =>
    let i := pcb.programCounter.findIdx (· ≠ 3)
    match pcb.pageTable[i]?, pcb.programCounter[i]? with
    | some page, some pc =>
      if h : pc < 3 then
        if page.validBit ⟨pc, h⟩ then
          let line := (k.memory (page.index ⟨pc, h⟩)).value
          events ((p, pcb.size) :: running) line (k.pass pcb.pid line)
        else []
      else []
    | _, _ => []

def turnEvents (p : Ptr) (k : Kernel σ) : List (Event σ) :=
  match k.pcbs.get p with
  | none => []
  | some pcb =>
    if 1 < pcb.size then
      runLineEvents events running p k ++
        match runLine parseInput size p k with
        | none => []
        | some (ret, k) => if ret = 1 then [] else runLineEvents events running p k
    else if pcb.size = 1 then runLineEvents events running p k
    else []

def roundRobinEvents : Nat → Kernel σ → List (Event σ)
  | 0, _ => []
  | n + 1, k =>
    match queueDone k k.queue, k.queue with
    | some false, p :: queue =>
      let k := { k with queue := queue }
      turnEvents parseInput events size running p k ++
        match turn parseInput size p k with
        | none => []
        | some k => roundRobinEvents n k
    | _, _ => []

def execEvents (n : Nat) (scripts : List (Option Text)) (k : Kernel σ) : List (Event σ) :=
  if 3 < scripts.length then []
  else match newProcs size scripts k with
    | none => []
    | some k => roundRobinEvents parseInput events size running n k

end Scheduler

/-- The events of `parseInput`. -/
def inputEvents : Nat → List (Ptr × Int) → Text → Kernel σ → List (Event σ)
  | 0, running => lineEvents sh (fun _ _ => none) (fun _ _ => []) 0 running
  | n + 1, running => lineEvents sh (exec (parseInput sh n) sh.frameStoreSize n)
      (execEvents (parseInput sh n) (inputEvents n) sh.frameStoreSize running n) n running

/-- The events of `main` on the lines typed, each with the lines that are not yet read. -/
def sessionEvents (n : Nat) : List Text → Kernel σ → List (List Text × Event σ)
  | [], _ => []
  | line :: rest, k => (inputEvents sh n [] line k).map (rest, ·) ++
    match parseInput sh n line k with
    | none => []
    | some (ret, k) => if ret = -1 then [] else sessionEvents n rest k

/-! ## The last event -/

/-- No event but the last has the property. -/
def LastOnly {α : Type} (P : α → Prop) (es : List α) : Prop :=
  ∀ pre e post, es = pre ++ e :: post → P e → post = []

section LastOnly

variable {α : Type} {P : α → Prop} {e : α} {es fs : List α}

theorem lastOnly_of_none (h : ∀ e ∈ es, ¬ P e) : LastOnly P es := fun pre e post he hp => by
  refine absurd hp (h e ?_)
  rw [he]
  simp

theorem lastOnly_nil : LastOnly P [] := lastOnly_of_none (by simp)

theorem lastOnly_append (hes : LastOnly P es) (hfs : LastOnly P fs) (h : (∃ e ∈ es, P e) → fs = []) :
    LastOnly P (es ++ fs) := by
  intro pre e post he hp
  rcases List.append_eq_append_iff.1 he with ⟨mid, rfl, hmid⟩ | ⟨mid, rfl, hmid⟩
  · exact hfs mid e post hmid hp
  · cases mid with
    | nil => exact hfs [] e post hmid.symm hp
    | cons d mid =>
      rw [List.cons_append] at hmid
      obtain ⟨rfl, hpost⟩ := List.cons.inj hmid
      rw [hpost, h ⟨e, by simp, hp⟩, List.append_nil]
      exact hes pre e mid rfl hp

theorem lastOnly_cons (h : P e → es = []) (hes : LastOnly P es) : LastOnly P (e :: es) := by
  intro pre d post he hp
  cases pre with
  | nil =>
    obtain ⟨rfl, rfl⟩ := List.cons.inj he
    exact h hp
  | cons c pre => exact hes pre d post (List.cons.inj he).2 hp

theorem lastOnly_skip (he : ¬ P e) (hes : ∀ d ∈ es, ¬ P d) (hfs : LastOnly P fs) :
    LastOnly P (e :: (es ++ fs)) ∧ ((∃ d ∈ e :: (es ++ fs), P d) → ∃ d ∈ fs, P d) := by
  have hnone : ¬ ∃ d ∈ es, P d := fun ⟨d, hd, hp⟩ => hes d hd hp
  refine ⟨lastOnly_cons (fun hp => absurd hp he) (lastOnly_append (lastOnly_of_none hes) hfs
    fun h => absurd h hnone), ?_⟩
  rintro ⟨d, hd, hp⟩
  rcases List.mem_cons.1 hd with rfl | hd
  · exact absurd hp he
  · exact ⟨d, (List.mem_append.1 hd).resolve_left fun hd => hes d hd hp, hp⟩

theorem lastOnly_map {β : Type} {Q : β → Prop} {f : α → β} (h : LastOnly P es)
    (hf : ∀ e ∈ es, Q (f e) → P e) : LastOnly Q (es.map f) := by
  intro pre x post he hq
  obtain ⟨front, back, rfl, rfl, hback⟩ := List.map_eq_append_iff.1 he
  obtain ⟨e, back, rfl, rfl, rfl⟩ := List.map_eq_cons_iff.1 hback
  rw [h front e back rfl (hf e (by simp) hq), List.map_nil]

end LastOnly

/-! ## The last command there is -/

/-- When `quit` is called, by a line of a process that was run from the typed line:
the line is the last of its process, no process in the queue has a line left, at
most one command of the line follows, and no typed command. -/
structure Event.Finished (e : Event σ) (rest : List Text) : Prop where
  running : ∃ p size, e.running = [(p, size)] ∧ size ≤ 1 ∧ ∀ pcb, e.kernel.pcbs.get p = some pcb →
    pcb.size ≤ 1
  queue : ∀ q ∈ e.kernel.queue, ∀ pcb, e.kernel.pcbs.get q = some pcb → pcb.size ≤ 0
  line : (commandsOf e.kernel.strtokRest).length ≤ 1
  input : ∀ line ∈ rest, commandsOf line = []

instance (e : Event σ) (rest : List Text) : Decidable (e.Finished rest) :=
  decidable_of_iff ((∃ x ∈ e.running.head?, e.running = [x] ∧ x.2 ≤ 1 ∧
    ∀ pcb ∈ e.kernel.pcbs.get x.1, pcb.size ≤ 1) ∧
      (∀ q ∈ e.kernel.queue, ∀ pcb ∈ e.kernel.pcbs.get q, pcb.size ≤ 0) ∧
      (commandsOf e.kernel.strtokRest).length ≤ 1 ∧ ∀ line ∈ rest, commandsOf line = [])
    ⟨fun ⟨⟨x, _, hone, hleft⟩, hqueue, hline, hinput⟩ => ⟨⟨x.1, x.2, hone, hleft⟩,
      hqueue, hline, hinput⟩, fun h => by
        obtain ⟨p, size, hone, hleft⟩ := h.running
        exact ⟨⟨(p, size), by rw [hone]; rfl, hone, hleft⟩, h.queue, h.line, h.input⟩⟩

instance (e : Event σ) : Decidable e.Quits := inferInstanceAs (Decidable (_ ∨ _))

/-- The calls of `quit` in scripts come at the end of all. -/
def AtEnd (rest : List Text) (es : List (Event σ)) : Prop :=
  ∀ e ∈ es, e.Quits → e.running ≠ [] → e.Finished rest

/-- Nothing is left to run: no process in the queue has a line, and `strtok` finds no command. -/
structure Spent (k : Kernel σ) : Prop where
  queue : ∀ q ∈ k.queue, ∀ pcb, k.pcbs.get q = some pcb → pcb.size ≤ 0
  line : commandsOf k.strtokRest = []

variable {sh} {run : List (Option Text) → Kernel σ → Option (Int × Kernel σ)}
  {inner : List (Option Text) → Kernel σ → List (Event σ)} {running : List (Ptr × Int)}
  {k k' : Kernel σ} {r : Int} {rest : List Text} {e : Event σ} {args : List Text} {p : Ptr}
  {n : Nat}

theorem nextToken_silent {s : Text} (h : commandsOf s = []) : (nextToken s k).1 = none := by
  rw [commandsOf_strtok] at h
  rw [nextToken]
  cases hs : strtok s with
  | none => rfl
  | some t =>
    rw [hs] at h
    cases h

/-- A token taken leaves one command less. -/
theorem nextToken_line {s : Text} (h : (commandsOf s).length ≤ 1) :
    commandsOf (nextToken s k).2.strtokRest = [] := by
  rw [commandsOf_strtok] at h
  rw [nextToken]
  cases hs : strtok s with
  | none => rfl
  | some t =>
    obtain ⟨token, left⟩ := t
    rw [hs] at h
    change (commandsOf left).length + 1 ≤ 1 at h
    exact List.length_eq_zero_iff.1 (Nat.le_zero.1 (Nat.le_of_succ_le_succ h))

/-! ## One command -/

variable (sh run k) in
/-- Where the file system closes, `quit` answers -1. -/
theorem interpreter_quit
    (h : args.map stripLine = ["quit".toList] ∨ args.map stripLine = ["exit".toList]) :
    started args = [] ∧ ∀ {r k'}, interpreter sh run args k = some (r, k') →
      r = -1 ∧ ∃ s, k' = { k with shell := s } := by
  have hlength : args.length = 1 := by
    rcases h with h | h <;> simpa using congrArg List.length h
  have hdone : started args = [] ∧ interpreter sh run args k = runCommand sh run k .quit [] := by
    unfold started interpreter
    rw [if_neg (by omega)]
    rcases h with h | h <;> (rw [h]; exact ⟨rfl, rfl⟩)
  refine ⟨hdone.1, fun {r k'} hcmd => ?_⟩
  rw [hdone.2] at hcmd
  obtain ⟨s, -, hs⟩ := Option.map_eq_some_iff.1 hcmd
  obtain ⟨rfl, rfl⟩ := Prod.mk.inj hs
  exact ⟨rfl, s, rfl⟩

theorem interpreter_started (h : started args ≠ []) :
    interpreter sh run args k = runScripts sh run (started args) k := by
  unfold started at h ⊢
  cases hwords : args.map stripLine with
  | nil =>
    rw [hwords] at h
    exact absurd rfl h
  | cons name names =>
    have hlength : args.length = names.length + 1 := by simpa using congrArg List.length hwords
    rw [hwords] at h
    simp only at h ⊢
    split at h
    · rename_i hlook
      rw [if_pos hlook, interpreter, if_neg (by omega), hwords]
      rcases hlook with ⟨hlook, hone⟩ | ⟨hlook, hfew⟩
      · obtain ⟨script, rfl⟩ := List.length_eq_one_iff.1 hone
        simp only [hlook]
        rfl
      · obtain ⟨s, ss, rfl⟩ := List.exists_cons_of_ne_nil h
        simp only [hlook]
        exact if_neg (by omega)
    · exact absurd rfl h

/-- What a command leaves that started scripts, from what they leave. -/
theorem runScripts_left {names : List Text} (h : runScripts sh run names k = some (r, k')) :
    ∃ k₁, run ((storeScripts sh names k).1.map fun copy => sh.fopen copy
      (storeScripts sh names k).2.shell)
      (storeScripts sh names k).2 = some (r, k₁) ∧ k'.strtokRest = k₁.strtokRest := by
  rw [runScripts] at h
  obtain ⟨⟨a, k₁⟩, hexec, h⟩ := Option.bind_eq_some_iff.1 h
  obtain ⟨rfl, rfl⟩ := Prod.mk.inj (Option.some.inj h)
  exact ⟨k₁, hexec, rfl⟩

/-! ## Where events come from -/

theorem commandEvents_forall {P : Event σ → Prop} (hinner : ∀ scripts k, ∀ e ∈ inner scripts k, P e) :
    ∀ e ∈ commandEvents sh inner args k, P e := by
  rw [commandEvents]
  split
  · simp
  · exact hinner _ _

theorem loopEvents_forall {P : Event σ → Prop} (hhere : ∀ args k, P ⟨running, args, k⟩)
    (hinner : ∀ scripts k, ∀ e ∈ inner scripts k, P e) :
    ∀ {n : Nat} {token : Option Text} {k : Kernel σ},
    ∀ e ∈ loopEvents sh run inner running n token k, P e
  | _, none, _, e, he => by
    rw [loopEvents] at he
    cases he
  | 0, some _, _, e, he => by cases he
  | n + 1, some token, k, e, he => by
    rw [loopEvents] at he
    rcases List.mem_cons.1 he with rfl | he
    · exact hhere _ _
    · rcases List.mem_append.1 he with he | he
      · exact commandEvents_forall hinner e he
      · split at he
        · cases he
        · simp only at he
          split at he
          · cases he
          · exact loopEvents_forall hhere hinner e he

section Scheduler

variable {parse : Parse σ} {events : List (Ptr × Int) → Text → Kernel σ → List (Event σ)} {size : Nat}
  {P : Event σ → Prop} (hline : ∀ p left line k, ∀ e ∈ events ((p, left) :: running) line k, P e)

include hline

theorem runLineEvents_forall : ∀ e ∈ runLineEvents events running p k, P e := by
  rw [runLineEvents]
  split
  · simp
  · dsimp only
    split
    · split
      · split
        · exact hline _ _ _ _
        · simp
      · simp
    · simp

theorem turnEvents_forall : ∀ e ∈ turnEvents parse events size running p k, P e := by
  rw [turnEvents]
  split
  · simp
  · split
    · intro e he
      rcases List.mem_append.1 he with he | he
      · exact runLineEvents_forall hline e he
      · split at he
        · cases he
        · split at he
          · cases he
          · exact runLineEvents_forall hline e he
    · split
      · exact runLineEvents_forall hline
      · simp

theorem roundRobinEvents_forall :
    ∀ {n : Nat} {k : Kernel σ}, ∀ e ∈ roundRobinEvents parse events size running n k, P e
  | 0, _, e, he => by cases he
  | n + 1, k, e, he => by
    rw [roundRobinEvents] at he
    split at he
    · rcases List.mem_append.1 he with he | he
      · exact turnEvents_forall hline e he
      · split at he
        · cases he
        · exact roundRobinEvents_forall e he
    · cases he

theorem execEvents_forall {scripts : List (Option Text)} :
    ∀ e ∈ execEvents parse events size running n scripts k, P e := by
  rw [execEvents]
  split
  · simp
  · split
    · simp
    · exact roundRobinEvents_forall hline

end Scheduler

/-- The lines that run stay so in all that they start. -/
theorem inputEvents_running : ∀ {n : Nat} {running : List (Ptr × Int)} {line : Text} {k : Kernel σ},
    ∀ e ∈ inputEvents sh n running line k, running.length ≤ e.running.length
  | 0, _, _, _ => loopEvents_forall (fun _ _ => Nat.le_refl _) (by simp)
  | n + 1, _, _, _ =>
    loopEvents_forall (fun _ _ => Nat.le_refl _) fun _ _ => execEvents_forall fun _ _ _ _ e he =>
      Nat.le_of_succ_le (inputEvents_running e he)

/-- A line that a run passes on runs inside those that run already. -/
theorem execEvents_running {scripts : List (Option Text)} {m : Nat} :
    ∀ e ∈ execEvents (parseInput sh n) (inputEvents sh n) sh.frameStoreSize running m scripts k,
      running.length + 1 ≤ e.running.length := by
  refine execEvents_forall fun p left line k e he => ?_
  have := inputEvents_running e he
  rwa [List.length_cons] at this

/-- What a command starts is part of the loop that reads it. -/
theorem mem_loopEvents {token : Text} (he : e ∈ commandEvents sh inner (words token) k) :
    e ∈ loopEvents sh run inner running (n + 1) (some token) k := by
  rw [loopEvents]
  exact List.mem_cons_of_mem _ (List.mem_append_left _ he)

theorem AtEnd.mono {es fs : List (Event σ)} (h : AtEnd rest fs) (hsub : ∀ e ∈ es, e ∈ fs) :
    AtEnd rest es :=
  fun e he => h e (hsub e he)

/-- A command without a `quit`: if there is one on the line, it comes later. -/
theorem loopEvents_later {token : Text}
    (hquits : ¬ Event.Quits ⟨running, (words token).map stripLine, k⟩)
    (hnone : ∀ e ∈ commandEvents sh inner (words token) k, ¬ e.Quits)
    (h : AtEnd rest (loopEvents sh run inner running (n + 1) (some token) k))
    (hlast : ∀ {tokens k₁}, AtEnd rest (loopEvents sh run inner running n tokens k₁) →
      LastOnly Event.Quits (loopEvents sh run inner running n tokens k₁)) :
    LastOnly Event.Quits (loopEvents sh run inner running (n + 1) (some token) k) ∧
      ((∃ e ∈ loopEvents sh run inner running (n + 1) (some token) k, e.Quits) → ∃ a tokens k₁,
        AtEnd rest (loopEvents sh run inner running n tokens k₁) ∧
        (∃ e ∈ loopEvents sh run inner running n tokens k₁, e.Quits) ∧
        ∀ ret, parseLoop sh run (n + 1) (some token) ret k = parseLoop sh run n tokens a k₁) := by
  rw [loopEvents] at h ⊢
  cases hcmd : interpreter sh run (words token) k with
  | none =>
    obtain ⟨hall, hquit⟩ := lastOnly_skip hquits hnone lastOnly_nil
    exact ⟨hall, fun hex => absurd (hquit hex) (by simp)⟩
  | some x =>
    obtain ⟨a, k₁⟩ := x
    rw [hcmd] at h
    simp only at h ⊢
    by_cases ha : a = -1
    · rw [if_pos ha]
      obtain ⟨hall, hquit⟩ := lastOnly_skip hquits hnone lastOnly_nil
      exact ⟨hall, fun hex => absurd (hquit hex) (by simp)⟩
    · rw [if_neg ha] at h ⊢
      have hrest := h.mono fun e he => List.mem_cons_of_mem _ (List.mem_append_right _ he)
      obtain ⟨hall, hquit⟩ := lastOnly_skip hquits hnone (hlast hrest)
      refine ⟨hall, fun hex => ⟨a, _, _, hrest, hquit hex, fun ret => ?_⟩⟩
      rw [parseLoop, hcmd, Option.bind_eq_bind, Option.bind_some]
      simp only [if_neg ha]

variable (sh run inner n) in
/-- `quit` starts nothing, and the loop ends. -/
theorem loopEvents_quit {token : Text} (h : Event.Quits ⟨running, (words token).map stripLine, k⟩) :
    loopEvents sh run inner running (n + 1) (some token) k =
    [⟨running, (words token).map stripLine, k⟩] ∧
      ∀ {ret r k'}, parseLoop sh run (n + 1) (some token) ret k = some (r, k') →
        r = -1 ∧ ∃ s, k' = (nextToken k.strtokRest { k with shell := s }).2 := by
  obtain ⟨hstarted, hquit⟩ := interpreter_quit sh run k h
  rw [loopEvents, commandEvents, if_pos hstarted]
  refine ⟨?_, fun {ret r k'} hparse => ?_⟩
  · cases hcmd : interpreter sh run (words token) k with
    | none => rfl
    | some x =>
      obtain ⟨a, k₁⟩ := x
      simp only [(hquit hcmd).1, if_true, List.append_nil]
  · rw [parseLoop] at hparse
    obtain ⟨⟨a, k₁⟩, hcmd, hparse⟩ := Option.bind_eq_some_iff.1 hparse
    obtain ⟨rfl, s, rfl⟩ := hquit hcmd
    have hend : some ((-1 : Int), (nextToken k.strtokRest { k with shell := s }).2) =
        some (r, k') := hparse
    obtain ⟨rfl, rfl⟩ := Prod.mk.inj (Option.some.inj hend)
    exact ⟨rfl, s, rfl⟩

/-! ## A line of a process -/

/-- A run within a run does not come to its `quit`. -/
theorem AtEnd.nested {es : List (Event σ)} (h : AtEnd rest es) (hes : ∀ e ∈ es, 2 ≤ e.running.length) :
    ∀ e ∈ es, ¬ e.Quits := fun e he hquits => by
  have hlength := hes e he
  have hne : e.running ≠ [] := fun hnil => by
    rw [hnil] at hlength
    cases hlength
  obtain ⟨p, size, hone, -⟩ := (h e he hquits hne).running
  rw [hone, List.length_singleton] at hlength
  omega

/-- What a line with a `quit` leaves: its process had no other line left, and nothing else has. -/
structure Quitted (p : Ptr) (k : Kernel σ) : Prop extends Spent k where
  size : ∀ pcb, k.pcbs.get p = some pcb → pcb.size ≤ 1

theorem loopEvents_process {left : Int}
    (hinner : ∀ scripts k, ∀ e ∈ inner scripts k, 2 ≤ e.running.length) :
    ∀ {n : Nat} {token : Option Text} {k : Kernel σ}, AtEnd rest
      (loopEvents sh run inner [(p, left)] n token k) →
      LastOnly Event.Quits (loopEvents sh run inner [(p, left)] n token k) ∧
        ((∃ e ∈ loopEvents sh run inner [(p, left)] n token k, e.Quits) → left ≤ 1 ∧
          ∀ {ret r k'}, parseLoop sh run n token ret k = some (r, k') → r = -1 ∧ Quitted p k')
  | _, none, _, _ => by
    rw [loopEvents]
    exact ⟨lastOnly_nil, by simp⟩
  | 0, some _, _, _ => ⟨lastOnly_of_none (by simp [loopEvents]), by simp [loopEvents]⟩
  | n + 1, some token, k, h => by
    by_cases hquits : Event.Quits ⟨[(p, left)], (words token).map stripLine, k⟩
    · obtain ⟨hevents, hend⟩ := loopEvents_quit sh run inner n hquits
      rw [hevents] at h ⊢
      have hfinished := h _ List.mem_cons_self hquits (by simp)
      obtain ⟨q, size, hone, hleft, hsize⟩ := hfinished.running
      obtain ⟨⟨rfl, rfl⟩, -⟩ : (p = q ∧ left = size) ∧ True := by simpa using hone
      refine ⟨lastOnly_cons (fun _ => rfl) lastOnly_nil, fun _ => ⟨hleft, fun {ret r k'} hparse => ?_⟩⟩
      obtain ⟨rfl, s, rfl⟩ := hend hparse
      have hsame := (nextToken_same k.strtokRest { k with shell := s } : Same 0 _ _)
      refine ⟨rfl, ⟨fun q hq pcb hget => ?_, nextToken_line hfinished.line⟩,
        fun pcb hget => hsize pcb ?_⟩
      · rw [hsame.queue] at hq
        rw [hsame.pcbs] at hget
        exact hfinished.queue q hq pcb hget
      · rw [hsame.pcbs] at hget
        exact hget
    · have hcommand : ∀ e ∈ commandEvents sh inner (words token) k, 2 ≤ e.running.length :=
        commandEvents_forall hinner
      have hnone := (h.mono fun e => mem_loopEvents).nested hcommand
      obtain ⟨hlast, hlater⟩ := loopEvents_later hquits hnone h fun h => (loopEvents_process hinner h).1
      refine ⟨hlast, fun hex => ?_⟩
      obtain ⟨a, tokens, k₁, hrest, hquit, hparse⟩ := hlater hex
      obtain ⟨hleft, hend⟩ := (loopEvents_process hinner hrest).2 hquit
      exact ⟨hleft, fun {ret r k'} h => hend ((hparse ret).symm.trans h)⟩

theorem inputEvents_process {left : Int} {line : Text}
    (h : AtEnd rest (inputEvents sh n [(p, left)] line k)) :
    LastOnly Event.Quits (inputEvents sh n [(p, left)] line k) ∧
      ((∃ e ∈ inputEvents sh n [(p, left)] line k, e.Quits) → left ≤ 1 ∧
        ∀ {r k'}, parseInput sh n line k = some (r, k') → r = -1 ∧ Quitted p k') := by
  cases n with
  | zero =>
    obtain ⟨hlast, hquit⟩ := loopEvents_process (by simp) h
    exact ⟨hlast, fun hex => ⟨(hquit hex).1, fun {r k'} h => (hquit hex).2 h⟩⟩
  | succ n =>
    obtain ⟨hlast, hquit⟩ := loopEvents_process (fun _ _ => execEvents_running) h
    exact ⟨hlast, fun hex => ⟨(hquit hex).1, fun {r k'} h => (hquit hex).2 h⟩⟩

/-! ## The round robin -/

/-- A line that is not in memory passes nothing on; after one that is, and that
does not answer 1, the process has one line less. -/
theorem runLine_cases (parse : Parse σ)
    (events : List (Ptr × Int) → Text → Kernel σ → List (Event σ)) (size : Nat) :
    runLineEvents events running p k = [] ∨ ∃ pcb line, k.pcbs.get p = some pcb ∧
      runLineEvents events running p k = events ((p, pcb.size) :: running) line (k.pass pcb.pid line) ∧
      ∀ {r k'}, runLine parse size p k = some (r, k') → ∃ i a k₁, parse line (k.pass pcb.pid line) =
        some (a, k₁) ∧
        (a ≠ 1 → r = 0 ∧ k'.pcbs = k₁.pcbs.modify p (fun pcb => pcb.advance i) ∧
          k'.queue = k₁.queue ∧ k'.strtokRest = k₁.strtokRest) := by
  rw [runLineEvents]
  cases hget : k.pcbs.get p with
  | none => exact .inl rfl
  | some pcb =>
    dsimp only
    split
    · rename_i page pc hpage hpc
      split
      · rename_i hlt
        split
        · rename_i hvalid
          refine .inr ⟨pcb, _, rfl, rfl, fun {r k'} h => ?_⟩
          rw [runLine, hget, Option.bind_eq_bind, Option.bind_some, runProc] at h
          obtain ⟨⟨a, k₂⟩, hcpu, h⟩ := Option.bind_eq_some_iff.1 h
          rw [cpuRun, hget] at hcpu
          simp only [Option.bind_eq_bind, Option.bind_some, hpage, hpc, dif_pos hlt,
            if_pos hvalid] at hcpu
          obtain ⟨⟨b, k₁⟩, hparse, hcpu⟩ := Option.bind_eq_some_iff.1 hcpu
          obtain ⟨pcb₁, -, hcpu⟩ := Option.bind_eq_some_iff.1 hcpu
          obtain ⟨rfl, rfl⟩ := Prod.mk.inj (Option.some.inj hcpu)
          refine ⟨pcb.programCounter.findIdx (· ≠ 3), b, k₁, hparse, fun hb => ?_⟩
          simp only [if_neg hb] at h
          obtain ⟨page₁, -, h⟩ := Option.bind_eq_some_iff.1 h
          obtain ⟨x, -, h⟩ := Option.bind_eq_some_iff.1 h
          obtain ⟨rfl, rfl⟩ := Prod.mk.inj (Option.some.inj h)
          exact ⟨rfl, rfl, rfl, rfl⟩
        · exact .inl rfl
      · exact .inl rfl
    · exact .inl rfl

/-- A line with a `quit` is the last of its process, and it leaves nothing to run. -/
theorem runLine_process (h : AtEnd rest (runLineEvents (inputEvents sh n) [] p k)) :
    LastOnly Event.Quits (runLineEvents (inputEvents sh n) [] p k) ∧
      ((∃ e ∈ runLineEvents (inputEvents sh n) [] p k, e.Quits) →
        (∀ pcb, k.pcbs.get p = some pcb → pcb.size ≤ 1) ∧
          ∀ {r k'}, runLine (parseInput sh n) sh.frameStoreSize p k = some (r, k') →
            r = 0 ∧ Spent { k' with queue := k'.queue ++ [p] }) := by
  rcases runLine_cases (parseInput sh n) (inputEvents sh n) sh.frameStoreSize with
    hnil | ⟨pcb, line, hget, hevents, hrun⟩
  · rw [hnil]
    exact ⟨lastOnly_nil, by simp⟩
  · rw [hevents] at h ⊢
    obtain ⟨hlast, hquit⟩ := inputEvents_process h
    refine ⟨hlast, fun hex => ?_⟩
    obtain ⟨hleft, hparse⟩ := hquit hex
    refine ⟨fun pcb' hget' => ?_, fun {r k'} h => ?_⟩
    · rw [hget] at hget'
      rwa [← Option.some.inj hget']
    · obtain ⟨i, a, k₁, ha, hrest⟩ := hrun h
      obtain ⟨rfl, hquitted⟩ := hparse ha
      obtain ⟨hr, hpcbs, hqueue, hstrtok⟩ := hrest (by decide)
      refine ⟨hr, ⟨fun q hq pcb hq' => ?_, ?_⟩⟩
      · change k'.pcbs.get q = some pcb at hq'
        rw [hpcbs, Heap.get_modify] at hq'
        split at hq'
        · obtain ⟨pcb₁, hget₁, rfl⟩ := Option.map_eq_some_iff.1 hq'
          have := hquitted.size pcb₁ hget₁
          change pcb₁.size - 1 ≤ 0
          omega
        · rename_i hne
          rcases List.mem_append.1 hq with hq | hq
          · rw [hqueue] at hq
            exact hquitted.queue q hq pcb hq'
          · exact absurd (List.mem_singleton.1 hq) hne
      · change commandsOf k'.strtokRest = []
        rw [hstrtok]
        exact hquitted.line

theorem turn_process
    (h : AtEnd rest (turnEvents (parseInput sh n) (inputEvents sh n) sh.frameStoreSize [] p k)) :
    LastOnly Event.Quits (turnEvents (parseInput sh n) (inputEvents sh n) sh.frameStoreSize [] p k) ∧
      ((∃ e ∈ turnEvents (parseInput sh n) (inputEvents sh n) sh.frameStoreSize [] p k, e.Quits) →
        ∀ {k'}, turn (parseInput sh n) sh.frameStoreSize p k = some k' → Spent k') := by
  rw [turnEvents] at h ⊢
  cases hget : k.pcbs.get p with
  | none => exact ⟨lastOnly_nil, by simp⟩
  | some pcb =>
    rw [hget] at h
    simp only at h ⊢
    by_cases htwo : 1 < pcb.size
    · rw [if_pos htwo] at h ⊢
      obtain ⟨hlast, hquit⟩ := runLine_process (h.mono fun e he => List.mem_append_left _ he)
      -- the first of two lines is not the last of its process
      have hnone : ∀ e ∈ runLineEvents (inputEvents sh n) [] p k, ¬ e.Quits := fun e he hq => by
        have := (hquit ⟨e, he, hq⟩).1 pcb hget
        omega
      cases hfirst : runLine (parseInput sh n) sh.frameStoreSize p k with
      | none =>
        rw [List.append_nil]
        exact ⟨hlast, fun ⟨e, he, hq⟩ => absurd hq (hnone e he)⟩
      | some x =>
        obtain ⟨a, k₁⟩ := x
        rw [hfirst] at h
        simp only at h ⊢
        by_cases ha : a = 1
        · rw [if_pos ha, List.append_nil]
          exact ⟨hlast, fun ⟨e, he, hq⟩ => absurd hq (hnone e he)⟩
        · rw [if_neg ha] at h ⊢
          obtain ⟨hlast₁, hquit₁⟩ := runLine_process (h.mono fun e he => List.mem_append_right _ he)
          refine ⟨lastOnly_append hlast hlast₁ fun ⟨e, he, hq⟩ => absurd hq (hnone e he),
            fun ⟨e, he, hq⟩ k' hturn => ?_⟩
          have he := (List.mem_append.1 he).resolve_left fun he => hnone e he hq
          rw [turn, hget, Option.bind_eq_bind, Option.bind_some, if_pos htwo, hfirst] at hturn
          simp only [Option.bind_eq_bind, Option.bind_some, if_neg ha] at hturn
          obtain ⟨⟨b, k₂⟩, hsecond, hturn⟩ := Option.bind_eq_some_iff.1 hturn
          obtain ⟨rfl, hspent⟩ := (hquit₁ ⟨e, he, hq⟩).2 hsecond
          obtain rfl := Option.some.inj hturn
          exact hspent
    · rw [if_neg htwo] at h ⊢
      by_cases hone : pcb.size = 1
      · rw [if_pos hone] at h ⊢
        obtain ⟨hlast, hquit⟩ := runLine_process h
        refine ⟨hlast, fun hex k' hturn => ?_⟩
        rw [turn, hget, Option.bind_eq_bind, Option.bind_some, if_neg htwo, if_pos hone] at hturn
        obtain ⟨⟨a, k₁⟩, hline, hturn⟩ := Option.bind_eq_some_iff.1 hturn
        obtain rfl := Option.some.inj hturn
        obtain ⟨-, hspent⟩ := (hquit hex).2 hline
        exact ⟨fun q hq => hspent.queue q (List.mem_append_left _ hq), hspent.line⟩
      · rw [if_neg hone]
        exact ⟨lastOnly_nil, by simp⟩

/-- One turn of the round robin, or its end. -/
theorem runProcRR_step {parse : Parse σ} {size m : Nat}
    (h : runProcRR parse size (m + 1) k = some (r, k')) :
    queueDone k k.queue = some true ∧ k'.strtokRest = k.strtokRest ∨
    ∃ p queue k₁, queueDone k k.queue = some false ∧
      k.queue = p :: queue ∧ turn parse size p { k with queue := queue } = some k₁ ∧
      runProcRR parse size m k₁ = some (r, k') := by
  rw [runProcRR] at h
  obtain ⟨done, hdone, h⟩ := Option.bind_eq_some_iff.1 h
  cases done with
  | true =>
    obtain ⟨k₁, hclean, h⟩ := Option.bind_eq_some_iff.1 h
    obtain ⟨-, rfl⟩ := Prod.mk.inj (Option.some.inj h)
    rw [cleanUp] at hclean
    obtain ⟨k₂, hfree, hclean⟩ := Option.bind_eq_some_iff.1 hclean
    obtain rfl := Option.some.inj hclean
    exact .inl ⟨hdone, (freeAll_silent hfree).2⟩
  | false =>
    rw [if_neg (by decide)] at h
    split at h
    · cases h
    · rename_i p queue hqueue
      obtain ⟨k₁, hturn, h⟩ := Option.bind_eq_some_iff.1 h
      exact .inr ⟨p, queue, k₁, hdone, hqueue, hturn, h⟩

theorem roundRobinEvents_step (parse : Parse σ)
    (events : List (Ptr × Int) → Text → Kernel σ → List (Event σ)) (running : List (Ptr × Int))
    (size m : Nat) (k : Kernel σ) :
    (queueDone k k.queue ≠ some false ∨ k.queue = []) ∧
    roundRobinEvents parse events size running (m + 1) k = [] ∨
      ∃ p queue, queueDone k k.queue = some false ∧ k.queue = p :: queue ∧
        roundRobinEvents parse events size running (m + 1) k =
          turnEvents parse events size running p { k with queue := queue } ++
            match turn parse size p { k with queue := queue } with
            | none => []
            | some k₁ => roundRobinEvents parse events size running m k₁ := by
  rw [roundRobinEvents]
  split
  · exact .inr ⟨_, _, ‹_›, ‹_›, rfl⟩
  · rename_i h
    refine .inl ⟨?_, rfl⟩
    cases hqueue : k.queue with
    | nil => exact .inr rfl
    | cons p queue => exact .inl fun hdone => h p queue (hqueue ▸ hdone) hqueue

/-- A queue of processes without lines is emptied. -/
theorem roundRobin_spent (parse : Parse σ)
    (events : List (Ptr × Int) → Text → Kernel σ → List (Event σ)) (running : List (Ptr × Int))
    (size : Nat) :
    ∀ {m : Nat} {k : Kernel σ}, Spent k → roundRobinEvents parse events size running m k = [] ∧
      ∀ {r k'}, runProcRR parse size m k = some (r, k') → commandsOf k'.strtokRest = []
  | 0, k, _ => ⟨rfl, fun h => by cases h⟩
  | m + 1, k, hk => by
    have hturn : ∀ {p queue}, k.queue = p :: queue →
        turnEvents parse events size running p { k with queue := queue } = [] ∧
        ∀ {k₁}, turn parse size p { k with queue := queue } = some k₁ →
        k₁ = { k with queue := queue } := fun {p queue} hqueue => by
      have hsize := hk.queue p (hqueue ▸ List.mem_cons_self)
      rw [turnEvents, turn]
      cases hget : k.pcbs.get p with
      | none => exact ⟨rfl, fun h => by cases h⟩
      | some pcb =>
        have := hsize pcb hget
        simp only [Option.bind_eq_bind, Option.bind_some]
        rw [if_neg (by omega), if_neg (by omega), if_neg (by omega), if_neg (by omega)]
        exact ⟨rfl, fun h => (Option.some.inj h).symm⟩
    have hpop : ∀ {p queue}, k.queue = p :: queue → Spent { k with queue := queue } := fun hqueue =>
      ⟨fun q hq => hk.queue q (hqueue ▸ List.mem_cons_of_mem _ hq), hk.line⟩
    constructor
    · rcases roundRobinEvents_step parse events running size m k with
        ⟨-, hnil⟩ | ⟨p, queue, -, hqueue, hevents⟩
      · exact hnil
      · rw [hevents, (hturn hqueue).1, List.nil_append]
        split
        · rfl
        · rename_i k₁ hk₁
          rw [(hturn hqueue).2 hk₁]
          exact (roundRobin_spent parse events running size (hpop hqueue)).1
    · intro r k' h
      rcases runProcRR_step h with ⟨-, hline⟩ | ⟨p, queue, k₁, -, hqueue, hk₁, h⟩
      · rw [hline]
        exact hk.line
      · rw [(hturn hqueue).2 hk₁] at h
        exact (roundRobin_spent parse events running size (hpop hqueue)).2 h

/-- The round robin of a typed command: a `quit` is its last event, and leaves no command of
the line. -/
theorem roundRobin_process : ∀ {m : Nat} {k : Kernel σ},
    AtEnd rest (roundRobinEvents (parseInput sh n) (inputEvents sh n) sh.frameStoreSize [] m k) →
      LastOnly Event.Quits
        (roundRobinEvents (parseInput sh n) (inputEvents sh n) sh.frameStoreSize [] m k) ∧
        ((∃ e ∈ roundRobinEvents (parseInput sh n) (inputEvents sh n) sh.frameStoreSize [] m k,
          e.Quits) →
          ∀ {r k'}, runProcRR (parseInput sh n) sh.frameStoreSize m k = some (r, k') →
            commandsOf k'.strtokRest = [])
  | 0, _, _ => ⟨lastOnly_of_none (by simp [roundRobinEvents]), by simp [roundRobinEvents]⟩
  | m + 1, k, h => by
    rcases roundRobinEvents_step (parseInput sh n) (inputEvents sh n) [] sh.frameStoreSize m k
      with ⟨-, hnil⟩ | ⟨p, queue, hdone, hqueue, hevents⟩
    · rw [hnil]
      exact ⟨lastOnly_nil, by simp⟩
    · rw [hevents] at h ⊢
      obtain ⟨hlast, hquit⟩ := turn_process (h.mono fun e he => List.mem_append_left _ he)
      cases hturn : turn (parseInput sh n) sh.frameStoreSize p { k with queue := queue } with
      | none =>
        rw [List.append_nil]
        refine ⟨hlast, fun hex r k' hrun => ?_⟩
        rcases runProcRR_step hrun with ⟨hdone', -⟩ | ⟨p', queue', k₁, -, hqueue', hturn', -⟩
        · rw [hdone] at hdone'
          cases hdone'
        · obtain ⟨rfl, rfl⟩ := List.cons.inj (hqueue.symm.trans hqueue')
          rw [hturn] at hturn'
          cases hturn'
      | some k₁ =>
        rw [hturn] at h
        simp only at h ⊢
        obtain ⟨hlast₁, hquit₁⟩ := roundRobin_process (h.mono fun e he => List.mem_append_right _ he)
        have hspent := fun hex => hquit hex hturn
        refine ⟨lastOnly_append hlast hlast₁ fun hex => (roundRobin_spent _ _ _ _ (hspent hex)).1, ?_⟩
        intro hex r k' hrun
        rcases runProcRR_step hrun with ⟨hdone', -⟩ | ⟨p', queue', k₁', -, hqueue', hturn', hrun'⟩
        · rw [hdone] at hdone'
          cases hdone'
        · obtain ⟨rfl, rfl⟩ := List.cons.inj (hqueue.symm.trans hqueue')
          obtain rfl := Option.some.inj (hturn.symm.trans hturn')
          obtain ⟨e, he, hq⟩ := hex
          rcases List.mem_append.1 he with he | he
          · exact (roundRobin_spent _ (inputEvents sh n) [] _ (hspent ⟨e, he, hq⟩)).2 hrun'
          · exact hquit₁ ⟨e, he, hq⟩ hrun'

theorem exec_process {m : Nat} {scripts : List (Option Text)}
    (h : AtEnd rest
      (execEvents (parseInput sh n) (inputEvents sh n) sh.frameStoreSize [] m scripts k)) :
    LastOnly Event.Quits
      (execEvents (parseInput sh n) (inputEvents sh n) sh.frameStoreSize [] m scripts k) ∧
      ((∃ e ∈ execEvents (parseInput sh n) (inputEvents sh n) sh.frameStoreSize [] m scripts k,
        e.Quits) →
        ∀ {r k'}, exec (parseInput sh n) sh.frameStoreSize m scripts k = some (r, k') →
          commandsOf k'.strtokRest = []) := by
  rw [execEvents] at h ⊢
  by_cases hmany : 3 < scripts.length
  · rw [if_pos hmany]
    exact ⟨lastOnly_nil, by simp⟩
  · rw [if_neg hmany] at h ⊢
    cases hnew : newProcs sh.frameStoreSize scripts k with
    | none => exact ⟨lastOnly_nil, by simp⟩
    | some k₁ =>
      rw [hnew] at h
      obtain ⟨hlast, hquit⟩ := roundRobin_process h
      refine ⟨hlast, fun hex r k' hrun => ?_⟩
      rw [exec, if_neg hmany, hnew] at hrun
      exact hquit hex hrun

/-! ## A typed line -/

/-- What the scripts of a typed command are: a `quit` in them is their last event, and
leaves no command of the line. -/
structure Quiet (rest : List Text) (run : List (Option Text) → Kernel σ → Option (Int × Kernel σ))
    (inner : List (Option Text) → Kernel σ → List (Event σ)) : Prop where
  running : ∀ scripts k, ∀ e ∈ inner scripts k, e.running ≠ []
  last : ∀ scripts k, AtEnd rest (inner scripts k) → LastOnly Event.Quits (inner scripts k)
  line : ∀ scripts k, AtEnd rest (inner scripts k) → (∃ e ∈ inner scripts k, e.Quits) →
    ∀ {r k'}, run scripts k = some (r, k') → commandsOf k'.strtokRest = []

theorem Quiet.command (hinner : Quiet rest run inner) (h : AtEnd rest (commandEvents sh inner args k)) :
    LastOnly Event.Quits (commandEvents sh inner args k) ∧
    ((∃ e ∈ commandEvents sh inner args k, e.Quits) →
      (∀ line ∈ rest, commandsOf line = []) ∧
        ∀ {r k'}, interpreter sh run args k = some (r, k') → commandsOf k'.strtokRest = []) := by
  rw [commandEvents] at h ⊢
  by_cases hstarted : started args = []
  · rw [if_pos hstarted]
    exact ⟨lastOnly_nil, by simp⟩
  · rw [if_neg hstarted] at h ⊢
    refine ⟨hinner.last _ _ h, fun hex => ⟨?_, fun {r k'} hcmd => ?_⟩⟩
    · obtain ⟨e, he, hq⟩ := hex
      exact (h e he hq (hinner.running _ _ e he)).input
    · rw [interpreter_started hstarted] at hcmd
      obtain ⟨k₁, hrun, hline⟩ := runScripts_left hcmd
      rw [hline]
      exact hinner.line _ _ h hex hrun

theorem Quiet.loop (hinner : Quiet rest run inner) : ∀ {n : Nat} {token : Option Text} {k : Kernel σ},
    AtEnd rest (loopEvents sh run inner [] n token k) →
      LastOnly Event.Quits (loopEvents sh run inner [] n token k) ∧
        ((∃ e ∈ loopEvents sh run inner [] n token k, e.Quits) →
          ∀ {ret r k'}, parseLoop sh run n token ret k = some (r, k') → r = -1 ∨
            ∀ line ∈ rest, commandsOf line = [])
  | _, none, _, _ => by
    rw [loopEvents]
    exact ⟨lastOnly_nil, by simp⟩
  | 0, some _, _, _ => ⟨lastOnly_of_none (by simp [loopEvents]), by simp [loopEvents]⟩
  | n + 1, some token, k, h => by
    by_cases hquits : Event.Quits ⟨[], (words token).map stripLine, k⟩
    · obtain ⟨hevents, hend⟩ := loopEvents_quit sh run inner n hquits
      rw [hevents]
      exact ⟨lastOnly_cons (fun _ => rfl) lastOnly_nil, fun _ ret r k' hparse => .inl (hend hparse).1⟩
    · obtain ⟨hlast, hquit⟩ := hinner.command (h.mono fun e => mem_loopEvents)
      by_cases hex : ∃ e ∈ commandEvents sh inner (words token) k, e.Quits
      · -- the scripts have left no token of the line
        obtain ⟨hsilent, hline⟩ := hquit hex
        have htail : loopEvents sh run inner [] (n + 1) (some token) k =
            ⟨[], (words token).map stripLine, k⟩ :: commandEvents sh inner (words token) k := by
          rw [loopEvents]
          cases hcmd : interpreter sh run (words token) k with
          | none => rw [List.append_nil]
          | some x =>
            obtain ⟨a, k₁⟩ := x
            simp only [nextToken_silent (hline hcmd), loopEvents, ite_self, List.append_nil]
        rw [htail]
        exact ⟨lastOnly_cons (fun hq => absurd hq hquits) hlast, fun _ _ _ _ _ => .inr hsilent⟩
      · have hnone : ∀ e ∈ commandEvents sh inner (words token) k, ¬ e.Quits :=
          fun e he hq => hex ⟨e, he, hq⟩
        obtain ⟨hall, hlater⟩ := loopEvents_later hquits hnone h fun h => (hinner.loop h).1
        refine ⟨hall, fun hex => ?_⟩
        obtain ⟨a, tokens, k₁, hrest, hquit, hparse⟩ := hlater hex
        exact fun {ret r k'} h => (hinner.loop hrest).2 hquit ((hparse ret).symm.trans h)

theorem inputEvents_typed {line : Text} (h : AtEnd rest (inputEvents sh n [] line k)) :
    LastOnly Event.Quits (inputEvents sh n [] line k) ∧ ((∃ e ∈ inputEvents sh n [] line k, e.Quits) →
      ∀ {r k'}, parseInput sh n line k = some (r, k') → r = -1 ∨ ∀ line ∈ rest, commandsOf line =
        []) := by
  cases n with
  | zero =>
    have hinner : Quiet rest (fun _ _ => none) (fun _ _ => ([] : List (Event σ))) :=
      ⟨by simp, fun _ _ _ => lastOnly_nil, fun _ _ _ _ {_ _} h => by cases h⟩
    obtain ⟨hlast, hquit⟩ := hinner.loop h
    exact ⟨hlast, fun hex r k' h => hquit hex h⟩
  | succ n =>
    have hinner : Quiet rest (exec (parseInput sh n) sh.frameStoreSize n)
        (execEvents (parseInput sh n) (inputEvents sh n) sh.frameStoreSize [] n) := by
      refine ⟨fun scripts k e he hnil => ?_, fun _ _ h => (exec_process h).1,
        fun _ _ h hex _ _ hrun => (exec_process h).2 hex hrun⟩
      have := execEvents_running e he
      rw [hnil] at this
      cases this
    obtain ⟨hlast, hquit⟩ := hinner.loop h
    exact ⟨hlast, fun hex r k' h => hquit hex h⟩

/-! ## Sessions -/

theorem inputEvents_silent {line : Text} (h : commandsOf line = []) :
    inputEvents sh n running line k = [] := by
  have htoken := nextToken_silent (k := k) h
  cases n <;> simp [inputEvents, lineEvents, htoken, loopEvents]

theorem sessionEvents_silent {lines : List Text} (h : ∀ line ∈ lines, commandsOf line = []) :
    sessionEvents sh n lines k = [] := by
  induction lines generalizing k with
  | nil => rfl
  | cons line lines ih =>
    rw [sessionEvents, inputEvents_silent (h line List.mem_cons_self), List.map_nil, List.nil_append]
    split
    · rfl
    · split
      · rfl
      · exact ih fun line hl => h line (List.mem_cons_of_mem _ hl)

/-- **Main result.** In a session that calls `quit` in a script only when it is
the last command there is, nothing is called after a `quit`. -/
theorem quit_ends_session (sh : Shell σ) (n : Nat) (inputs : List Text) (k : Kernel σ)
    (h : ∀ x ∈ sessionEvents sh n inputs k, x.2.Quits → x.2.running ≠ [] → x.2.Finished x.1) :
    ∀ pre x post, sessionEvents sh n inputs k = pre ++ x :: post → x.2.Quits → post = [] := by
  change LastOnly (fun x => x.2.Quits) (sessionEvents sh n inputs k)
  induction inputs generalizing k with
  | nil => exact lastOnly_nil
  | cons line inputs ih =>
    rw [sessionEvents] at h ⊢
    have hline : AtEnd inputs (inputEvents sh n [] line k) := fun e he =>
      h (inputs, e) (List.mem_append_left _ (List.mem_map_of_mem he))
    obtain ⟨hlast, hquit⟩ := inputEvents_typed hline
    have hmap : LastOnly (fun x => x.2.Quits) ((inputEvents sh n [] line k).map (inputs, ·)) :=
      lastOnly_map hlast fun _ _ hq => hq
    cases hparse : parseInput sh n line k with
    | none =>
      rw [List.append_nil]
      exact hmap
    | some x =>
      obtain ⟨ret, k₁⟩ := x
      rw [hparse] at h
      simp only at h ⊢
      by_cases hret : ret = -1
      · rw [if_pos hret, List.append_nil]
        exact hmap
      · rw [if_neg hret] at h ⊢
        refine lastOnly_append hmap (ih k₁ fun x hx => h x (List.mem_append_right _ hx)) fun hex => ?_
        obtain ⟨x, hx, hq⟩ := hex
        obtain ⟨e, he, rfl⟩ := List.mem_map.1 hx
        exact sessionEvents_silent ((hquit ⟨e, he, hq⟩ hparse).resolve_left hret)

/-- A script whose last command is `quit`. -/
def helpQuit : Text := "help\nquit".toList

theorem quit_ends_session_help :
    LastOnly (fun x => x.2.Quits) (sessionEvents (scriptShell helpQuit) 6 ["run b\n".toList]
      (kernelSetup ())) :=
  quit_ends_session (scriptShell helpQuit) 6 ["run b\n".toList] (kernelSetup ()) (by decide +kernel)

/-- A script that goes on after `quit`, with a command of the file system. -/
def quitLs : Text := "quit\nls".toList

theorem sessionEvents_quitLs :
    (sessionEvents (scriptShell quitLs) 6 ["run b\n".toList, "freespace\n".toList] (kernelSetup ())).map
        (fun x => (x.2.running.length, x.2.args)) =
      [(0, ["run".toList, "b".toList]), (1, ["quit".toList]), (1, ["ls".toList]),
        (0, ["freespace".toList])] := by
  decide +kernel

/-- The file system is closed, and then used by the same script and by the line typed after it. -/
theorem quit_ignored : ∃ before x after,
    sessionEvents (scriptShell quitLs) 6 ["run b\n".toList, "freespace\n".toList] (kernelSetup ()) =
    before ++ x :: after ∧
      x.2.Quits ∧ x.2.running.length = 1 ∧ after.map (fun x => x.2.args) =
      [["ls".toList], ["freespace".toList]] := by
  obtain ⟨a, es, hes, -, hrest⟩ := List.map_eq_cons_iff.1 sessionEvents_quitLs
  obtain ⟨x, after, rfl, hx, hafter⟩ := List.map_eq_cons_iff.1 hrest
  obtain ⟨hrunning, hargs⟩ := Prod.mk.inj hx
  refine ⟨[a], x, after, hes, .inl hargs, hrunning, ?_⟩
  have := congrArg (List.map Prod.snd) hafter
  rwa [List.map_map] at this

end MyShell.Paging

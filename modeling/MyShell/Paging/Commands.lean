/-
What the commands of a line leave alone: unless it runs scripts, a command
changes nothing of the scheduler, so a line without `run` and `exec` does not
either.
-/
import MyShell.Paging.Interpreter
import MyShell.Paging.Simulation

namespace MyShell.Paging

variable {σ : Type} {sh : Shell σ} {exec : List (Option Text) → Kernel σ → Option (Int × Kernel σ)}
  {size : Nat} {k k' k'' : Kernel σ} {r : Int}

/-! ## One command -/

theorem Same.refl (k : Kernel σ) : Same size k k := ⟨fun _ _ => rfl, rfl, rfl, rfl, rfl, rfl, rfl⟩

theorem Same.trans (h : Same size k k') (h' : Same size k' k'') : Same size k k'' where
  memory pos hpos := (h'.memory pos hpos).trans (h.memory pos hpos)
  pcbs := h'.pcbs.trans h.pcbs
  queue := h'.queue.trans h.queue
  lruCache := h'.lruCache.trans h.lruCache
  allPcb := h'.allPcb.trans h.allPcb
  pidCounter := h'.pidCounter.trans h.pidCounter
  passed := h'.passed.trans h.passed

/-- What a single command that runs no script leaves alone: the position of `strtok` too. -/
structure Kept (size : Nat) (k k' : Kernel σ) : Prop extends Same size k k' where
  strtokRest : k'.strtokRest = k.strtokRest

theorem Kept.answer {a : Int} (h : k.answer a = some (r, k')) : Kept size k k' := by
  cases h
  exact ⟨.refl k, rfl⟩

theorem Kept.shellCall {f : σ → Option (Int × σ)} {g : Int → Int} (h : k.shellCall f g = some (r, k')) :
    Kept size k k' := by
  obtain ⟨_, -, h⟩ := Option.map_eq_some_iff.1 h
  cases h
  exact ⟨⟨fun _ _ => rfl, rfl, rfl, rfl, rfl, rfl, rfl⟩, rfl⟩

theorem Kept.shellStep {f : σ → Option σ} {a : Int} (h : k.shellStep f a = some (r, k')) :
    Kept size k k' := by
  obtain ⟨_, -, h⟩ := Option.map_eq_some_iff.1 h
  cases h
  exact ⟨⟨fun _ _ => rfl, rfl, rfl, rfl, rfl, rfl, rfl⟩, rfl⟩

theorem Kept.setMemory {m : Memory} {a : Int} (hm : ∀ pos < size, m pos = k.memory pos)
    (h : some (a, { k with memory := m }) = some (r, k')) : Kept size k k' := by
  cases h
  exact ⟨⟨hm, rfl, rfl, rfl, rfl, rfl, rfl⟩, rfl⟩

theorem le_of_mem_varLines {i : Nat} (h : i ∈ varLines sh) : sh.frameStoreSize ≤ i := by
  obtain ⟨j, -, rfl⟩ := List.mem_map.1 h
  exact Nat.le_add_right _ _

/-- Variables lie above the frames. -/
theorem memSetValue_frame (var value : Text) (m : Memory) {pos : Nat} (hpos : pos < sh.frameStoreSize) :
    memSetValue sh var value m pos = m pos := by
  have hupdate : ∀ {P : Nat → Bool} {i : Nat} {v : Slot}, (varLines sh).find? P = some i →
      Function.update m i v pos = m pos := fun hi => by
    have := le_of_mem_varLines (List.mem_of_find?_eq_some hi)
    exact Function.update_of_ne (by omega) ..
  rw [memSetValue]
  cases hvar : (varLines sh).find? fun i => (m i).var = var with
  | some i => exact hupdate hvar
  | none =>
    cases hfree : (varLines sh).find? fun i => (m i).var = vacant with
    | some i => exact hupdate hfree
    | none => rfl

theorem foldl_memFreeAt {l : List Nat} :
    ∀ {m : Memory} {pos : Nat}, pos ∉ l → l.foldl memFreeAt m pos = m pos := by
  induction l with
  | nil => exact fun _ => rfl
  | cons i l ih =>
    intro m pos hpos
    rw [List.mem_cons, not_or] at hpos
    rw [List.foldl_cons, ih hpos.2, memFreeAt, Function.update_of_ne hpos.1]

theorem resetVarZone_frame (m : Memory) {pos : Nat} (hpos : pos < sh.frameStoreSize) :
    resetVarZone sh m pos = m pos :=
  foldl_memFreeAt fun hm => by
    have := le_of_mem_varLines hm
    omega

/-- The words of a command that runs scripts. -/
def startsScript (args : List Text) : Bool :=
  match args.map stripLine with
  | [] => false
  | name :: _ => commandNames.lookup name = some .run ∨ commandNames.lookup name = some .exec

theorem runCommand_kept {c : Command} {args : List Text} (hrun : c ≠ .run) (hexec : c ≠ .exec)
    (h : runCommand sh exec k c args = some (r, k')) : Kept sh.frameStoreSize k k' := by
  unfold runCommand at h
  split at h
  case h_3 =>
    -- `set`, which checks its words first
    split at h
    · obtain ⟨value, -, h⟩ := Option.bind_eq_some_iff.1 h
      cases value with
      | none => exact .answer h
      | some value => exact .setMemory (fun pos hpos => memSetValue_frame _ _ _ hpos) h
    · exact .answer h
  all_goals first
    | exact absurd rfl hrun
    | exact absurd rfl hexec
    | exact .answer h
    | exact .shellCall h
    | exact .shellStep h
    | exact .setMemory (fun pos hpos => resetVarZone_frame _ hpos) h
    | cases h
    | (split at h
       · exact .shellCall h
       · cases h)

theorem interpreter_kept {args : List Text} (hargs : startsScript args = false)
    (h : interpreter sh exec args k = some (r, k')) : Kept sh.frameStoreSize k k' := by
  rw [interpreter] at h
  rw [startsScript] at hargs
  split at h
  · cases h
  · cases hwords : args.map stripLine with
    | nil =>
      rw [hwords] at h
      exact .answer h
    | cons name rest =>
      rw [hwords] at h hargs
      cases hlook : commandNames.lookup name with
      | none =>
        simp only [hlook] at h
        exact .answer h
      | some c =>
        simp only [hlook] at h
        simp only [hlook, Option.some.injEq, decide_eq_false_iff_not, not_or] at hargs
        exact runCommand_kept hargs.1 hargs.2 h

/-! ## One line -/

/-- The commands of a line: what lies between its semicolons. -/
def segments : Text → List Text
  | [] => [[]]
  | c :: s =>
    if c = ';' then [] :: segments s
    else match segments s with
      | [] => [[c]]
      | l :: ls => (c :: l) :: ls

theorem segments_ne_nil (s : Text) : segments s ≠ [] := by
  cases s with
  | nil => simp [segments]
  | cons c s =>
    rw [segments]
    split
    · simp
    · split <;> simp

theorem mem_segments_dropWhile {t : Text} :
    ∀ {s : Text}, t ∈ segments (s.dropWhile (· = ';')) → t ∈ segments s
  | [], h => h
  | c :: s, h => by
    by_cases hc : c = ';'
    · rw [List.dropWhile_cons_of_pos (by simpa using hc)] at h
      rw [segments, if_pos hc]
      exact List.mem_cons_of_mem _ (mem_segments_dropWhile h)
    · rwa [List.dropWhile_cons_of_neg (by simpa using hc)] at h

/-- The first command of a text, and those after it. -/
theorem segments_eq (s : Text) : ∃ ls, segments s = s.takeWhile (· ≠ ';') :: ls ∧
    ∀ t ∈ segments ((s.dropWhile (· ≠ ';')).drop 1), t ∈ ls ∨ t = [] := by
  induction s with
  | nil => exact ⟨[], by simp [segments]⟩
  | cons c s ih =>
    by_cases hc : c = ';'
    · exact ⟨segments s, by simp [segments, hc], by simp [hc]; exact fun t ht => .inl ht⟩
    · obtain ⟨ls, hs, hrest⟩ := ih
      refine ⟨ls, ?_, ?_⟩
      · rw [segments, if_neg hc, hs, List.takeWhile_cons_of_pos (by simpa using hc)]
      · rwa [List.dropWhile_cons_of_pos (by simpa using hc)]

theorem strtok_segments {s token rest : Text} (h : strtok s = some (token, rest)) :
    token ∈ segments s ∧ ∀ t ∈ segments rest, t ∈ segments s ∨ t = [] := by
  rw [strtok] at h
  split at h
  · cases h
  · rename_i c s' hdrop
    obtain ⟨ls, hs, hrest⟩ := segments_eq (c :: s')
    obtain ⟨rfl, rfl⟩ := Prod.mk.inj (Option.some.inj h)
    have hmem : ∀ {t}, t ∈ segments (c :: s') → t ∈ segments s := fun ht =>
      mem_segments_dropWhile (by rw [hdrop]; exact ht)
    rw [hs] at hmem
    exact ⟨hmem List.mem_cons_self, fun t ht => (hrest t ht).imp_left
      fun hl => hmem (List.mem_cons_of_mem _ hl)⟩

/-- A line none of whose commands runs scripts. -/
def Plain (line : Text) : Prop := ∀ segment ∈ segments line, startsScript (words segment) = false

theorem Plain.strtok {line token rest : Text} (h : Plain line) (hs : strtok line = some (token, rest)) :
    startsScript (words token) = false ∧ Plain rest := by
  obtain ⟨htoken, hrest⟩ := strtok_segments hs
  refine ⟨h token htoken, fun t ht => ?_⟩
  rcases hrest t ht with ht | rfl
  · exact h t ht
  · rfl

theorem nextToken_same (s : Text) (k : Kernel σ) : Same size k (nextToken s k).2 := by
  rw [nextToken]
  split <;> exact ⟨fun _ _ => rfl, rfl, rfl, rfl, rfl, rfl, rfl⟩

theorem nextToken_plain {s : Text} (h : Plain s) (k : Kernel σ) :
    (∀ token, (nextToken s k).1 = some token → startsScript (words token) = false) ∧
      Plain (nextToken s k).2.strtokRest := by
  rw [nextToken]
  cases hs : strtok s with
  | none => exact ⟨by simp, by simp [Plain, segments, words, splitWords, startsScript]⟩
  | some t =>
    obtain ⟨htoken, hrest⟩ := h.strtok hs
    exact ⟨fun token ht => Option.some.inj ht ▸ htoken, hrest⟩

theorem parseLoop_same : ∀ {n : Nat} {token : Option Text} {ret : Int} {k : Kernel σ},
    (∀ t, token = some t → startsScript (words t) = false) → Plain k.strtokRest →
    parseLoop sh exec n token ret k = some (r, k') → Same sh.frameStoreSize k k'
  | _, none, _, _, _, _, h => by
    rw [parseLoop] at h
    cases h
    exact .refl _
  | 0, some _, _, _, _, _, h => by cases h
  | n + 1, some token, _, k, htoken, hplain, h => by
    rw [parseLoop] at h
    cases hcmd : interpreter sh exec (words token) k with
    | none =>
      rw [hcmd] at h
      cases h
    | some x =>
      obtain ⟨a, k₁⟩ := x
      rw [hcmd, Option.bind_eq_bind, Option.bind_some] at h
      have hkept := interpreter_kept (htoken token rfl) hcmd
      obtain ⟨hnext, hrest⟩ :=
        nextToken_plain (s := k₁.strtokRest) (by rw [hkept.strtokRest]; exact hplain) k₁
      have hsame := hkept.toSame.trans (nextToken_same k₁.strtokRest k₁)
      simp only at h
      split at h
      · obtain ⟨-, rfl⟩ := Prod.mk.inj (Option.some.inj h)
        exact hsame
      · exact hsame.trans (parseLoop_same hnext hrest h)

/-- A line that runs no script leaves the scheduler alone. -/
theorem parseInput_same {n : Nat} {line : Text} (hplain : Plain line)
    (h : parseInput sh n line k = some (r, k')) : Same sh.frameStoreSize k k' := by
  have hline : ∀ {exec : List (Option Text) → Kernel σ → Option (Int × Kernel σ)} {m : Nat},
      parseLine sh exec m line k = some (r, k') → Same sh.frameStoreSize k k' := fun h => by
    rw [parseLine] at h
    obtain ⟨hnext, hrest⟩ := nextToken_plain hplain k
    exact (nextToken_same line k).trans (parseLoop_same hnext hrest h)
  cases n with
  | zero => exact hline h
  | succ n => exact hline h

end MyShell.Paging

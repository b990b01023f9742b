/-
What a run of scripts does to the position of `strtok`: the scheduler never
moves it, so it is where the last line passed to `parseInput` has left it.
-/
import MyShell.Paging.Depth

namespace MyShell.Paging

variable {σ : Type} {sh : Shell σ} {parse : Parse σ} {size : Nat} {k k' k'' : Kernel σ} {p : Ptr}
  {r : Int} {R : Kernel σ → Kernel σ → Prop}

/-- A relation between states that holds whenever no line is passed and no token read. -/
structure Passive (R : Kernel σ → Kernel σ → Prop) : Prop where
  trans : ∀ {k k' k'' : Kernel σ}, R k k' → R k' k'' → R k k''
  step : ∀ {k k' : Kernel σ}, k'.passed = k.passed → k'.strtokRest = k.strtokRest → R k k'

/-- The lines of scripts keep the relation. -/
def PassKeeps (parse : Parse σ) (R : Kernel σ → Kernel σ → Prop) : Prop :=
  ∀ {pid : Nat} {line : Text} {k k' : Kernel σ} {r : Int},
    parse line (k.pass pid line) = some (r, k') → R k k'

/-! ## The scheduler -/

theorem cpuRun_passive (hR : Passive R) (hline : PassKeeps parse R) {i : Nat}
    (h : cpuRun parse p i k = some (r, k')) : R k k' := by
  rw [cpuRun] at h
  simp only [Option.bind_eq_bind, Option.bind_eq_some_iff] at h
  obtain ⟨pcb, -, page, -, pc, -, h⟩ := h
  split at h
  · split at h
    · obtain ⟨⟨a, k₁⟩, hparse, h⟩ := Option.bind_eq_some_iff.1 h
      obtain ⟨_, -, h⟩ := Option.bind_eq_some_iff.1 h
      obtain ⟨-, rfl⟩ := Prod.mk.inj (Option.some.inj h)
      exact hR.trans (hline hparse) (hR.step rfl rfl)
    · obtain ⟨-, rfl⟩ := Prod.mk.inj (Option.some.inj h)
      exact hR.step rfl rfl
  · cases h

theorem loadPcb_silent {i : Nat} {b : Bool} (h : loadPcb size p i k = some (b, k')) :
    k'.passed = k.passed ∧ k'.strtokRest = k.strtokRest := by
  rw [loadPcb] at h
  obtain ⟨pcb, -, h⟩ := Option.bind_eq_some_iff.1 h
  split at h
  · cases h
  · split at h
    · obtain ⟨-, rfl⟩ := Prod.mk.inj (Option.some.inj h)
      exact ⟨rfl, rfl⟩
    · obtain ⟨-, rfl⟩ := Prod.mk.inj (Option.some.inj h)
      exact ⟨rfl, rfl⟩

theorem evictTail_silent (h : evictTail k = some k') :
    k'.passed = k.passed ∧ k'.strtokRest = k.strtokRest := by
  rw [evictTail] at h
  simp only [Option.bind_eq_bind, Option.bind_eq_some_iff] at h
  obtain ⟨victim, -, page, -, owner, -, pcb, -, evicted, -, h⟩ := h
  obtain rfl := Option.some.inj h
  exact ⟨rfl, rfl⟩

theorem pageFault_silent {i : Nat} (h : pageFault size p i k = some k') :
    k'.passed = k.passed ∧ k'.strtokRest = k.strtokRest := by
  rw [pageFault] at h
  obtain ⟨⟨b, k₁⟩, hload, h⟩ := Option.bind_eq_some_iff.1 h
  obtain ⟨hpassed₁, hrest₁⟩ := loadPcb_silent hload
  cases b with
  | true =>
    change some _ = some k' at h
    obtain rfl := Option.some.inj h
    exact ⟨hpassed₁, hrest₁⟩
  | false =>
    change Option.bind (evictTail k₁) _ = some k' at h
    obtain ⟨k₂, hevict, h⟩ := Option.bind_eq_some_iff.1 h
    obtain ⟨⟨b, k₃⟩, hreload, h⟩ := Option.bind_eq_some_iff.1 h
    change some _ = some k' at h
    obtain rfl := Option.some.inj h
    obtain ⟨hpassed₂, hrest₂⟩ := evictTail_silent hevict
    obtain ⟨hpassed₃, hrest₃⟩ := loadPcb_silent hreload
    exact ⟨hpassed₃.trans (hpassed₂.trans hpassed₁), hrest₃.trans (hrest₂.trans hrest₁)⟩

theorem runLine_passive (hR : Passive R) (hline : PassKeeps parse R)
    (h : runLine parse size p k = some (r, k')) : R k k' := by
  unfold runLine runProc at h
  obtain ⟨pcb, -, h⟩ := Option.bind_eq_some_iff.1 h
  obtain ⟨⟨a, k₁⟩, hcpu, h⟩ := Option.bind_eq_some_iff.1 h
  refine hR.trans (cpuRun_passive hR hline hcpu) ?_
  simp only at h
  split at h
  · obtain ⟨k₂, hfault, h⟩ := Option.bind_eq_some_iff.1 h
    obtain ⟨-, rfl⟩ := Prod.mk.inj (Option.some.inj h)
    obtain ⟨hpassed, hrest⟩ := pageFault_silent hfault
    exact hR.step hpassed hrest
  · obtain ⟨page, -, h⟩ := Option.bind_eq_some_iff.1 h
    obtain ⟨x, -, h⟩ := Option.bind_eq_some_iff.1 h
    obtain ⟨-, rfl⟩ := Prod.mk.inj (Option.some.inj h)
    exact hR.step rfl rfl

theorem turn_passive (hR : Passive R) (hline : PassKeeps parse R)
    (h : turn parse size p k = some k') : R k k' := by
  rw [turn] at h
  obtain ⟨pcb, -, h⟩ := Option.bind_eq_some_iff.1 h
  split at h
  · obtain ⟨⟨a, k₁⟩, hrun, h⟩ := Option.bind_eq_some_iff.1 h
    have h₁ := runLine_passive hR hline hrun
    simp only at h
    split at h
    · obtain rfl := Option.some.inj h
      exact h₁
    · obtain ⟨⟨a, k₂⟩, hrun₂, h⟩ := Option.bind_eq_some_iff.1 h
      have h₂ := hR.trans h₁ (runLine_passive hR hline hrun₂)
      simp only at h
      split at h
      · obtain rfl := Option.some.inj h
        exact h₂
      · obtain rfl := Option.some.inj h
        exact hR.trans h₂ (hR.step rfl rfl)
  · split at h
    · obtain ⟨⟨a, k₁⟩, hrun, h⟩ := Option.bind_eq_some_iff.1 h
      obtain rfl := Option.some.inj h
      exact runLine_passive hR hline hrun
    · obtain rfl := Option.some.inj h
      exact hR.step rfl rfl

theorem newProcs_silent :
    ∀ {scripts : List (Option Text)} {k : Kernel σ}, newProcs size scripts k = some k' →
    k'.passed = k.passed ∧ k'.strtokRest = k.strtokRest
  | [], k, h => by
    obtain rfl := Option.some.inj h
    exact ⟨rfl, rfl⟩
  | s :: ss, k, h => by
    obtain ⟨k₁, hnew, h⟩ := Option.bind_eq_some_iff.1 h
    rw [newProc] at hnew
    obtain ⟨x, -, hnew⟩ := Option.bind_eq_some_iff.1 hnew
    obtain rfl := Option.some.inj hnew
    have hrest := newProcs_silent h
    exact hrest

theorem freeAll_silent : ∀ {l : List Ptr} {k : Kernel σ}, freeAll l k = some k' →
    k'.passed = k.passed ∧ k'.strtokRest = k.strtokRest
  | [], k, h => by
    obtain rfl := Option.some.inj h
    exact ⟨rfl, rfl⟩
  | q :: l, k, h => by
    obtain ⟨k₁, hfree, h⟩ := Option.bind_eq_some_iff.1 h
    rw [freePcb] at hfree
    obtain ⟨pcb, -, hfree⟩ := Option.bind_eq_some_iff.1 hfree
    obtain rfl := Option.some.inj hfree
    have hrest := freeAll_silent h
    exact hrest

theorem runProcRR_passive (hR : Passive R) (hline : PassKeeps parse R) : ∀ {n : Nat} {k : Kernel σ},
    runProcRR parse size n k = some (r, k') → R k k'
  | 0, _, h => by cases h
  | n + 1, k, h => by
    rw [runProcRR] at h
    obtain ⟨b, -, h⟩ := Option.bind_eq_some_iff.1 h
    split at h
    · obtain ⟨k₁, hclean, h⟩ := Option.bind_eq_some_iff.1 h
      obtain ⟨-, rfl⟩ := Prod.mk.inj (Option.some.inj h)
      rw [cleanUp] at hclean
      obtain ⟨k₂, hfree, hclean⟩ := Option.bind_eq_some_iff.1 hclean
      obtain rfl := Option.some.inj hclean
      obtain ⟨hpassed, hrest⟩ := freeAll_silent hfree
      exact hR.step hpassed hrest
    · split at h
      · cases h
      · rename_i p q hq
        obtain ⟨k₁, hturn, h⟩ := Option.bind_eq_some_iff.1 h
        have hpop : R k { k with queue := q } := hR.step rfl rfl
        exact hR.trans (hR.trans hpop (turn_passive hR hline hturn)) (runProcRR_passive hR hline h)

theorem exec_passive (hR : Passive R) (hline : PassKeeps parse R) {n : Nat}
    {scripts : List (Option Text)} (h : exec parse size n scripts k = some (r, k')) : R k k' := by
  rw [exec] at h
  split at h
  · obtain ⟨-, rfl⟩ := Prod.mk.inj (Option.some.inj h)
    exact hR.step rfl rfl
  · obtain ⟨k₁, hnew, h⟩ := Option.bind_eq_some_iff.1 h
    obtain ⟨hpassed, hrest⟩ := newProcs_silent hnew
    exact hR.trans (hR.step hpassed hrest) (runProcRR_passive hR hline h)

/-! ## The position of `strtok` -/

/-- The position is where the last of the lines passed meanwhile has left it. -/
structure Reads (parse : Parse σ) (k k' : Kernel σ) (new : List (Nat × Text)) : Prop where
  passed : k'.passed = k.passed ++ new
  none : new = [] → k'.strtokRest = k.strtokRest
  some : new ≠ [] → ∃ x ∈ new, ∃ k₀ r k₁, parse x.2 k₀ = some (r, k₁) ∧
    k'.strtokRest = k₁.strtokRest

theorem Reads.passive (parse : Parse σ) : Passive fun k k' => ∃ new, Reads parse k k' new where
  step hpassed hrest := ⟨[], by simpa using hpassed, fun _ => hrest, fun h => absurd rfl h⟩
  trans := by
    intro k k' k'' ⟨new, h⟩ ⟨new', h'⟩
    refine ⟨new ++ new', by rw [h'.passed, h.passed, List.append_assoc], fun hnil => ?_, fun hne => ?_⟩
    · obtain ⟨hnew, hnew'⟩ := List.append_eq_nil_iff.1 hnil
      exact (h'.none hnew').trans (h.none hnew)
    · by_cases hnew' : new' = []
      · have hnew : new ≠ [] := fun hnil => hne (by rw [hnil, hnew']; rfl)
        obtain ⟨x, hx, k₀, r, k₁, hline, hrest⟩ := h.some hnew
        exact ⟨x, List.mem_append_left _ hx, k₀, r, k₁, hline, (h'.none hnew').trans hrest⟩
      · obtain ⟨x, hx, hline⟩ := h'.some hnew'
        exact ⟨x, List.mem_append_right _ hx, hline⟩

theorem exec_reads (hpassed : ∀ {line k r k'}, parse line k = some (r, k') → k'.passed = k.passed)
    {n : Nat} {scripts : List (Option Text)} (h : exec parse size n scripts k = some (r, k')) :
    ∃ new, Reads parse k k' new :=
  exec_passive (Reads.passive parse) (fun {pid line k k' r} hline =>
    ⟨[(pid, line)], by rw [hpassed hline]; rfl, by simp,
      fun _ => ⟨_, List.mem_cons_self, _, _, _, hline, rfl⟩⟩) h

end MyShell.Paging

/-
Deeper runs: scripts that run to their end at some depth of runs within runs
do the same at every greater depth.
-/
import MyShell.Paging.Nested

namespace MyShell.Paging

variable {σ : Type} {sh : Shell σ} {parse parse' : Parse σ} {size : Nat} {k k' : Kernel σ} {p : Ptr}

/-- Where the first gives a result, the second gives the same. -/
def Extends {α β : Type} (f g : α → Kernel σ → Option β) : Prop :=
  ∀ a k r, f a k = some r → g a k = some r

theorem cpuRun_extends (h : Extends parse parse') {i : Nat} {r : Int × Kernel σ}
    (hrun : cpuRun parse p i k = some r) : cpuRun parse' p i k = some r := by
  rw [cpuRun] at hrun ⊢
  simp only [Option.bind_eq_bind, Option.bind_eq_some_iff] at hrun ⊢
  obtain ⟨pcb, hpcb, page, hpage, pc, hpc, hrun⟩ := hrun
  refine ⟨pcb, hpcb, page, hpage, pc, hpc, ?_⟩
  split at hrun
  · rw [dif_pos ‹_›]
    split at hrun
    · rw [if_pos ‹_›]
      obtain ⟨x, hline, hrun⟩ := Option.bind_eq_some_iff.1 hrun
      rw [h _ _ _ hline]
      exact hrun
    · rw [if_neg ‹_›]
      exact hrun
  · cases hrun

theorem runLine_extends (h : Extends parse parse') {r : Int × Kernel σ}
    (hrun : runLine parse size p k = some r) : runLine parse' size p k = some r := by
  unfold runLine runProc at hrun ⊢
  obtain ⟨pcb, hpcb, hrun⟩ := Option.bind_eq_some_iff.1 hrun
  obtain ⟨x, hcpu, hrun⟩ := Option.bind_eq_some_iff.1 hrun
  exact Option.bind_eq_some_iff.2 ⟨pcb, hpcb,
    Option.bind_eq_some_iff.2 ⟨x, cpuRun_extends h hcpu, hrun⟩⟩

theorem turn_extends (h : Extends parse parse') (hturn : turn parse size p k = some k') :
    turn parse' size p k = some k' := by
  rw [turn] at hturn ⊢
  obtain ⟨pcb, hpcb, hturn⟩ := Option.bind_eq_some_iff.1 hturn
  refine Option.bind_eq_some_iff.2 ⟨pcb, hpcb, ?_⟩
  split at hturn
  · obtain ⟨⟨r, k₁⟩, hline, hturn⟩ := Option.bind_eq_some_iff.1 hturn
    rw [if_pos ‹_›]
    refine Option.bind_eq_some_iff.2 ⟨_, runLine_extends h hline, ?_⟩
    simp only at hturn ⊢
    split at hturn
    · rw [if_pos ‹_›]
      exact hturn
    · obtain ⟨⟨r₂, k₂⟩, hline₂, hturn⟩ := Option.bind_eq_some_iff.1 hturn
      rw [if_neg ‹_›]
      exact Option.bind_eq_some_iff.2 ⟨_, runLine_extends h hline₂, hturn⟩
  · rw [if_neg ‹_›]
    split at hturn
    · obtain ⟨⟨r, k₁⟩, hline, hturn⟩ := Option.bind_eq_some_iff.1 hturn
      rw [if_pos ‹_›]
      exact Option.bind_eq_some_iff.2 ⟨_, runLine_extends h hline, hturn⟩
    · rw [if_neg ‹_›]
      exact hturn

theorem runProcRR_extends (h : Extends parse parse') {r : Int × Kernel σ} : ∀ {n : Nat} {k : Kernel σ},
    runProcRR parse size n k = some r → runProcRR parse' size n k = some r
  | 0, _, hrun => by cases hrun
  | n + 1, k, hrun => by
    rw [runProcRR] at hrun ⊢
    obtain ⟨b, hdone, hrun⟩ := Option.bind_eq_some_iff.1 hrun
    refine Option.bind_eq_some_iff.2 ⟨b, hdone, ?_⟩
    split at hrun
    · rw [if_pos ‹_›]
      exact hrun
    · rw [if_neg ‹_›]
      split at hrun
      · cases hrun
      · obtain ⟨k₁, hturn, hrun⟩ := Option.bind_eq_some_iff.1 hrun
        exact Option.bind_eq_some_iff.2 ⟨k₁, turn_extends h hturn, runProcRR_extends h hrun⟩

theorem exec_extends (h : Extends parse parse') {n n' : Nat} (hn : n ≤ n') :
    Extends (exec parse size n) (exec parse' size n') := by
  intro scripts k r hrun
  refine exec_mono ?_ hn
  rw [exec] at hrun ⊢
  split at hrun
  · rw [if_pos ‹_›]
    exact hrun
  · rw [if_neg ‹_›]
    obtain ⟨k₁, hnew, hrun⟩ := Option.bind_eq_some_iff.1 hrun
    exact Option.bind_eq_some_iff.2 ⟨k₁, hnew, runProcRR_extends h hrun⟩

/-! ## The interpreter -/

variable {run run' : List (Option Text) → Kernel σ → Option (Int × Kernel σ)}

theorem runScripts_extends (h : Extends run run') :
    Extends (runScripts sh run) (runScripts sh run') := by
  intro names k r hrun
  rw [runScripts] at hrun ⊢
  obtain ⟨x, hexec, hrun⟩ := Option.bind_eq_some_iff.1 hrun
  exact Option.bind_eq_some_iff.2 ⟨x, h _ _ _ hexec, hrun⟩

/-- Only `run` and `exec` run anything. -/
theorem runCommand_congr {c : Command} {names : List Text} (hrun : c ≠ .run) (hexec : c ≠ .exec) :
    runCommand sh run k c names = runCommand sh run' k c names := by
  unfold runCommand
  split
  all_goals first
    | rfl
    | exact absurd rfl hrun
    | exact absurd rfl hexec

theorem runCommand_extends (h : Extends run run') {c : Command} {names : List Text} {r : Int × Kernel σ}
    (hr : runCommand sh run k c names = some r) : runCommand sh run' k c names = some r := by
  by_cases hrun : c = .run
  · subst hrun
    cases names with
    | nil => exact hr
    | cons s ss =>
      cases ss with
      | nil =>
        change runScripts sh _ [s] k = _ at hr ⊢
        exact runScripts_extends h _ _ _ hr
      | cons s' ss => exact hr
  · by_cases hexec : c = .exec
    · subst hexec
      cases names with
      | nil => exact hr
      | cons s ss =>
        change (if 4 < (s :: ss).length then _ else _) = _ at hr ⊢
        split at hr
        · rw [if_pos ‹_›]
          exact hr
        · rw [if_neg ‹_›]
          exact runScripts_extends h _ _ _ hr
    · rw [runCommand_congr hrun hexec] at hr
      exact hr

theorem interpreter_extends (h : Extends run run') :
    Extends (interpreter sh run) (interpreter sh run') := by
  intro args k r hrun
  unfold interpreter at hrun ⊢
  split at hrun
  · cases hrun
  · rw [if_neg ‹_›]
    cases hwords : args.map stripLine with
    | nil =>
      rw [hwords] at hrun
      exact hrun
    | cons name names =>
      rw [hwords] at hrun
      cases hlook : commandNames.lookup name with
      | none =>
        simp only [hlook] at hrun ⊢
        exact hrun
      | some c =>
        simp only [hlook] at hrun ⊢
        exact runCommand_extends h hrun

theorem parseLoop_extends (h : Extends run run') {r : Int × Kernel σ} :
    ∀ {n n' : Nat} {token : Option Text} {ret : Int} {k : Kernel σ},
      parseLoop sh run n token ret k = some r → n ≤ n' → parseLoop sh run' n' token ret k = some r
  | _, _, none, _, _, hrun, _ => by
    rw [parseLoop] at hrun ⊢
    exact hrun
  | n + 1, n' + 1, some token, ret, k, hrun, hn => by
    rw [parseLoop] at hrun ⊢
    obtain ⟨⟨a, k₁⟩, hcmd, hrun⟩ := Option.bind_eq_some_iff.1 hrun
    refine Option.bind_eq_some_iff.2 ⟨_, interpreter_extends h _ _ _ hcmd, ?_⟩
    simp only at hrun ⊢
    split at hrun
    · rw [if_pos ‹_›]
      exact hrun
    · rw [if_neg ‹_›]
      exact parseLoop_extends h hrun (Nat.le_of_succ_le_succ hn)

theorem parseLine_extends (h : Extends run run') {n n' : Nat} (hn : n ≤ n') :
    Extends (parseLine sh run n) (parseLine sh run' n') := fun _ _ _ hrun =>
  parseLoop_extends h hrun (Nat.add_le_add_right hn _)

/-- What a line does does not depend on the depth it is followed to. -/
theorem parseInput_extends : ∀ {n n' : Nat}, n ≤ n' → Extends (parseInput sh n) (parseInput sh n')
  | 0, 0, _ => fun _ _ _ h => h
  | 0, n' + 1, _ => parseLine_extends (fun _ _ _ h => by cases h) (Nat.zero_le _)
  | n + 1, n' + 1, hn =>
    have hn := Nat.le_of_succ_le_succ hn
    parseLine_extends (exec_extends (parseInput_extends hn) hn) hn

end MyShell.Paging

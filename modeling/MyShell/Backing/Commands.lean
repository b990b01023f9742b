/-
What the commands of a line do to the shell: actions on the memory, the queue
and the host, and then perhaps a scheduler, which is the last thing a command
does. Under a running scheduler another one does nothing.
-/
import MyShell.Backing.Interpreter
import Mathlib.Logic.Relation

namespace MyShell.Backing

open Paging (Text)
open Relation (ReflTransGen)

variable {σ : Type}

/-- One action of a command, other than to run a scheduler. -/
inductive Act (ho : Host σ) (k : Kernel σ) : Kernel σ → Prop
  | load {filename : Text} {r : Int} {k' : Kernel σ} :
      processInitialize ho filename k = some (r, k') → Act ho k k'
  | set (var value : Text) :
    Act ho k { k with store := k.store.memSetValue ho.frameStoreSize var value }
  | get (var : Text) : Act ho k { k with store := (k.store.memGetValue ho.frameStoreSize var).2 }
  | reset : Act ho k { k with store := k.store.memInitVariable ho.frameStoreSize }
  | policy (policy : PagePolicy) : Act ho k { k with store := { k.store with currentPolicy := policy } }
  | system (cmd : Text) : Act ho k { k with host := (ho.system cmd k.host).2 }
  | chdir {name : Text} {r : Int} {host : σ} : ho.chdir name k.host = some (r, host) →
    Act ho k { k with host := host }

/-- Actions, one after the other. -/
abbrev Acts (ho : Host σ) : Kernel σ → Kernel σ → Prop := ReflTransGen (Act ho)

/-- What a command does: actions, and then nothing or a scheduler. -/
def Command.Does (ho : Host σ) (schedule : Text → Kernel σ → Option (Int × Kernel σ))
    (k k' : Kernel σ) : Prop :=
  ∃ k₁, Acts ho k k₁ ∧ (k' = k₁ ∨ ∃ policy r, schedule policy k₁ = some (r, k'))

variable {ho : Host σ} {k k' k₁ : Kernel σ} {schedule : Text → Kernel σ → Option (Int × Kernel σ)}

namespace Command.Does

theorem refl (k : Kernel σ) : Command.Does ho schedule k k := ⟨k, .refl, .inl rfl⟩

theorem act (h : Act ho k k') : Command.Does ho schedule k k' := ⟨k', .single h, .inl rfl⟩

theorem after (h : Act ho k k₁) (h' : Command.Does ho schedule k₁ k') :
    Command.Does ho schedule k k' := by
  obtain ⟨k₂, hacts, hrest⟩ := h'
  exact ⟨k₂, hacts.head h, hrest⟩

theorem scheduled {policy : Text} {r : Int} (h : schedule policy k = some (r, k')) :
    Command.Does ho schedule k k' :=
  ⟨k, .refl, .inr ⟨policy, r, h⟩⟩

end Command.Does

open Command (Does)

/-! ## Each command -/

theorem exec_does {fnames : List Text} {r : Int} (h : exec ho schedule fnames k = some (r, k')) :
    Does ho schedule k k' := by
  induction fnames generalizing k with
  | nil =>
    unfold exec at h
    obtain ⟨⟨r', k₁⟩, hrun, h⟩ := Option.bind_eq_some_iff.1 h
    have hdoes : Does ho schedule k k₁ := .scheduled hrun
    dsimp only at h
    split at h
    · cases h
      exact hdoes
    · cases h
      exact hdoes
  | cons fname fnames ih =>
    unfold exec at h
    obtain ⟨⟨r', k₁⟩, hinit, h⟩ := Option.bind_eq_some_iff.1 h
    dsimp only at h
    split at h
    · cases h
      exact .act (.load hinit)
    · exact .after (.load hinit) (ih h)

theorem run_does {script : Text} {r : Int} (h : run ho schedule script k = some (r, k')) :
    Does ho schedule k k' := by
  unfold run at h
  obtain ⟨⟨r', k₁⟩, hinit, h⟩ := Option.bind_eq_some_iff.1 h
  dsimp only at h
  split at h
  · cases h
    exact .act (.load hinit)
  · obtain ⟨⟨r'', k₂⟩, hrun, h⟩ := Option.bind_eq_some_iff.1 h
    cases h
    exact .after (.load hinit) (.scheduled hrun)

theorem echo_does {var : Option Text} {r : Int} (h : echo ho var k = some (r, k')) :
    Does ho schedule k k' := by
  unfold echo at h
  cases var with
  | none => cases h
  | some var =>
    simp only [Option.bind_eq_bind, Option.bind_some] at h
    split at h
    · cases h
      exact .act (.get _)
    · cases h
      exact .refl k

theorem myMkdir_does {dirname : Option Text} {r : Int}
    (h : myMkdir ho dirname k = some (r, k')) : Does ho schedule k k' := by
  unfold myMkdir at h
  cases dirname with
  | none => cases h
  | some dirname =>
    simp only [Option.bind_eq_bind, Option.bind_some] at h
    split at h
    · split at h
      · cases h
        exact .act (.get _)
      · split at h
        · cases h
          exact .act (.get _)
        · cases h
          exact .after (.get _) (.act (.system _))
    · cases h
      exact .act (.system _)

theorem runCommand_does {behind : Option Text} {c : Command} {args : List Text} {r : Int}
    (h : runCommand ho schedule behind k c args = some (r, k')) : Does ho schedule k k' := by
  unfold runCommand at h
  split at h
  · cases h
    exact .refl k
  · cases h
    exact .act (.set _ _)
  · cases h
    exact .act (.get _)
  · exact run_does h
  · exact echo_does h
  · cases h
    exact .act (.system _)
  · exact myMkdir_does h
  · obtain ⟨name, -, h⟩ := Option.bind_eq_some_iff.1 h
    cases h
    exact .act (.system _)
  · unfold myCd at h
    split at h
    · cases h
      exact .refl k
    · next heq =>
      obtain ⟨name, -, hdir⟩ := Option.bind_eq_some_iff.1 heq
      cases h
      exact .act (.chdir hdir)
  · split at h
    · exact exec_does h
    · cases h
      exact .refl k
  · cases h
    exact .act .reset
  · unfold setPagePolicy at h
    split at h
    · cases h
      exact .act (.policy .fifo)
    · split at h
      · cases h
        exact .act (.policy .lru)
      · cases h
        exact .refl k
  · cases h

theorem interpreter_does {words : List Text} {size : Nat} {r : Int}
    (h : interpreter ho schedule words size k = some (r, k')) : Does ho schedule k k' := by
  unfold interpreter at h
  split at h
  · cases h
    exact .refl k
  split at h
  · cases h
    exact .refl k
  split at h
  · cases h
  split at h
  · cases h
    exact .refl k
  split at h
  · cases h
    exact .refl k
  split at h
  · cases h
    exact .refl k
  · exact runCommand_does h

/-! ## Lines -/

theorem parseLoop_does {ui : Text} {n a w : Nat} {words : List Text} {r : Int}
    (h : parseLoop ho schedule ui n a w words k = some (r, k')) :
    ReflTransGen (Does ho schedule) k k' := by
  induction n generalizing a w words k with
  | zero => cases h
  | succ n ih =>
    unfold parseLoop at h
    split at h
    · exact .single (interpreter_does h)
    dsimp only at h
    split at h
    · exact .single (interpreter_does h)
    split at h
    · exact ih h
    obtain ⟨words', -, h⟩ := Option.bind_eq_some_iff.1 h
    split at h
    · obtain ⟨⟨r', k₁⟩, hcall, h⟩ := Option.bind_eq_some_iff.1 h
      have hdoes := interpreter_does hcall
      dsimp only at h
      split at h
      · cases h
        exact .single hdoes
      · exact .head hdoes (ih h)
    · exact ih h

/-- The schedulers that the lines of a line run. -/
def nestedSchedule (ho : Host σ) : Nat → Text → Kernel σ → Option (Int × Kernel σ)
  | 0 => scheduleByPolicy ho (fun _ _ => none) 0
  | n + 1 => scheduleByPolicy ho (parseInput ho n) n

/-- **One line** is a sequence of commands. -/
theorem parseInput_does {n : Nat} {line : Text} {r : Int} (h : parseInput ho n line k = some (r, k')) :
    ReflTransGen (Does ho (nestedSchedule ho n)) k k' := by
  cases n with
  | zero => exact parseLoop_does h
  | succ n => exact parseLoop_does h

/-! ## Under a scheduler -/

theorem Act.background (h : Act ho k k') : k'.inBackground = k.inBackground := by
  cases h with
  | load h =>
    obtain ⟨-, rfl, -⟩ | ⟨_, _, _, _, _, _, -, -, -, -, ⟨-, -, rfl⟩ | ⟨-, -, _, -, rfl⟩⟩ :=
      processInitialize_cases h
    all_goals rfl
  | set | get | reset | policy | system | chdir => rfl

theorem Acts.background (h : Acts ho k k') : k'.inBackground = k.inBackground := by
  induction h with
  | refl => rfl
  | tail _ hact ih => exact hact.background.trans ih

/-- A scheduler that is not to run while another one does. -/
def Quiet (schedule : Text → Kernel σ → Option (Int × Kernel σ)) : Prop :=
  ∀ policy k r k', k.inBackground = true → schedule policy k = some (r, k') → k' = k

theorem quiet_scheduleByPolicy (parse : Parse σ) (n : Nat) : Quiet (scheduleByPolicy ho parse n) := by
  intro policy k r k' hback h
  unfold scheduleByPolicy at h
  split at h
  · cases h
    rfl
  · rw [if_pos hback] at h
    cases h
    rfl

theorem quiet_nestedSchedule : ∀ n, Quiet (nestedSchedule ho n)
  | 0 => quiet_scheduleByPolicy _ _
  | _ + 1 => quiet_scheduleByPolicy _ _

theorem Command.Does.acts (hs : Quiet schedule) (hback : k.inBackground = true)
    (h : Does ho schedule k k') : Acts ho k k' := by
  obtain ⟨k₁, hacts, rfl | ⟨policy, r, hrun⟩⟩ := h
  · exact hacts
  · obtain rfl := hs _ _ _ _ (hacts.background.trans hback) hrun
    exact hacts

/-- A line that is run while a scheduler runs. -/
theorem parseInput_acts {n : Nat} {line : Text} {r : Int} (hback : k.inBackground = true)
    (h : parseInput ho n line k = some (r, k')) : Acts ho k k' := by
  have hdoes := parseInput_does h
  clear h
  induction hdoes with
  | refl => exact .refl
  | tail _ hstep ih => exact ih.trans (hstep.acts (quiet_nestedSchedule n) (ih.background.trans hback))

end MyShell.Backing

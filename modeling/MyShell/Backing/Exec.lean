/-
`exec` (interpreter.c) makes its processes one after the other, and comes back
with the first error without taking those it has made from the ready queue.
So the queue is as before only where the first file is the one that is refused.
-/
import MyShell.Backing.Frames

namespace MyShell.Backing

open Paging (Text)
open ReadyQueue (Accounts Queued)

variable {σ : Type}

/-- `process_initialize` has to refuse the file: it does not exist or cannot be
copied, no frame is free, or the copy has two lines where the frame store has one. -/
def Refused (ho : Host σ) (fname : Text) (k : Kernel σ) : Prop :=
  match ho.fopen fname k.host with
  | none => True
  | some content =>
    match copyScript ho content k.host with
    | none => True
    | some host => k.store.findAvailableSlot ho.frameStoreSize = some none ∨
        ho.frameStoreSize = 1 ∧ ∃ copy, ho.fopen (backingName ho k.host) host = some copy ∧
        2 ≤ (reads copy).length

/-- The files are initialised one after the other, without an error. -/
inductive Initializes (ho : Host σ) : List Text → Kernel σ → Kernel σ → Prop
  | nil {k : Kernel σ} : Initializes ho [] k k
  | cons {fname : Text} {fnames : List Text} {k k₁ k' : Kernel σ} :
      processInitialize ho fname k = some (0, k₁) →
      Initializes ho fnames k₁ k' → Initializes ho (fname :: fnames) k k'

variable {ho : Host σ} {k k₁ k' : Kernel σ} {fname : Text} {before after : List Text} {e : Int}
  {out ps : List Ptr}

/-- Lines that `load_file` puts beyond the frame store. -/
theorem overfull_iff {threshold i n : Nat} (hi : i < threshold) (hdvd : 3 ∣ i) :
    threshold < i + min (room threshold i) n ↔ threshold = 1 ∧ 2 ≤ n := by
  unfold room
  split
  · omega
  · split
    · omega
    · split <;> omega

theorem processInitialize_spec (h : processInitialize ho fname k = some (e, k')) :
    e ≠ 0 ∧ Refused ho fname k ∧ k'.queue = k.queue ∨
      e = 0 ∧ ¬ Refused ho fname k ∧
        ∀ {out ps}, Accounts k.queue out ps → ∃ p, Accounts k'.queue out (ps ++ [p]) := by
  obtain ⟨hr, rfl, hcopy⟩ | ⟨content, host, copy, error, pcb, store, hopen, hcopy, hread, hload,
      hdone⟩ :=
    processInitialize_cases h
  · refine .inl ⟨hr, ?_, rfl⟩
    unfold Refused
    split
    · trivial
    · next content hopen =>
      rw [hcopy content hopen]
      trivial
  have hrefused : Refused ho fname k ↔ error ≠ 0 := by
    rw [Refused, hopen]
    dsimp only
    rw [hcopy]
    dsimp only
    obtain ⟨hslot, rfl, -⟩ | ⟨i, hslot, herror, -, -⟩ := Store.loadFile_cases hload
    · exact iff_of_true (.inl hslot) (by decide)
    · obtain ⟨hi, hdvd, -⟩ := Store.findAvailableSlot_some hslot
      simp only [overfull_iff hi hdvd] at herror
      rw [herror, hslot, hread]
      simp only [Option.some.injEq, reduceCtorEq, false_or, exists_eq_left', ne_eq,
        ite_eq_right_iff, imp_false, not_not]
  rw [hrefused]
  obtain ⟨herror, hr, rfl⟩ | ⟨herror, hr, queue, hadd, rfl⟩ := hdone
  · exact .inl ⟨hr, herror, rfl⟩
  · exact .inr ⟨hr, not_not.2 herror, fun hacc => ⟨_, hacc.alloc hadd⟩⟩

theorem Initializes.accounts (h : Initializes ho before k k₁) (hacc : Accounts k.queue out ps) :
    ∃ new, new.length = before.length ∧ Accounts k₁.queue out (ps ++ new) := by
  induction h generalizing ps with
  | nil => exact ⟨[], rfl, by rwa [List.append_nil]⟩
  | cons hfirst _ ih =>
    obtain ⟨hne, -⟩ | ⟨-, -, hadd⟩ := processInitialize_spec hfirst
    · exact absurd rfl hne
    · obtain ⟨p, hacc⟩ := hadd hacc
      obtain ⟨new, hlength, hacc⟩ := ih hacc
      refine ⟨p :: new, by rw [List.length_cons, List.length_cons, hlength], ?_⟩
      rwa [List.append_assoc] at hacc

variable {schedule : Text → Kernel σ → Option (Int × Kernel σ)}

theorem Initializes.exec (h : Initializes ho before k k₁) (fnames : List Text) :
    exec ho schedule (before ++ fnames) k = exec ho schedule fnames k₁ := by
  induction h with
  | nil => rfl
  | cons hfirst _ ih =>
    rw [List.cons_append, Backing.exec, hfirst]
    simpa using ih

/-- **`exec` with an error** leaves as many processes in the queue as it has made by then. -/
theorem exec_all_or_nothing (hqueue : Queued k.queue ps) (hbefore : Initializes ho before k k₁)
    (herror : processInitialize ho fname k₁ = some (e, k')) (he : e ≠ 0) :
    exec ho schedule (before ++ fname :: after) k = some (e, k') ∧
      (∃ new, new.length = before.length ∧ Queued k'.queue (ps ++ new)) ∧
      (Queued k'.queue ps ↔ ∃ first ∈ (before ++ fname :: after).head?, Refused ho first k) := by
  obtain ⟨out, hacc, -⟩ := hqueue.accounts
  obtain ⟨new, hlength, hacc⟩ := hbefore.accounts hacc
  obtain ⟨-, hrefused, hsame⟩ | ⟨rfl, -, -⟩ := processInitialize_spec herror
  swap
  · exact absurd rfl he
  have hnew : Queued k'.queue (ps ++ new) := hsame ▸ hacc.queued
  refine ⟨?_, ⟨new, hlength, hnew⟩, ?_⟩
  · rw [hbefore.exec, Backing.exec, herror]
    simp [he, Kernel.answer]
  · have hfirst : Queued k'.queue ps ↔ before = [] := by
      rw [← List.length_eq_zero_iff, ← hlength, List.length_eq_zero_iff]
      constructor
      · exact fun h => List.append_right_eq_self.1 (Linked.Chain.unique hnew h)
      · intro hnil
        rwa [hnil, List.append_nil] at hnew
    rw [hfirst]
    cases hbefore with
    | nil => exact iff_of_true rfl ⟨fname, rfl, hrefused⟩
    | cons hone _ =>
      refine iff_of_false (by simp) fun ⟨first, hhead, hrefused⟩ => ?_
      obtain rfl := Option.some.inj hhead
      obtain ⟨hne, -⟩ | ⟨-, hnot, -⟩ := processInitialize_spec hone
      · exact hne rfl
      · exact hnot hrefused

/-- Two files for `exec`; there is none of the second name. -/
def secondMissing : Kernel (List (Text × Text)) → Option (Int × Kernel (List (Text × Text))) :=
  exec diskHost (scheduleByPolicy diskHost (parseInput diskHost 0) 1) ["p".toList, "q".toList]

theorem processInitialize_missing {k : Kernel (List (Text × Text))}
    (h : k.host.lookup "q".toList = none) :
    processInitialize diskHost "q".toList k = some (1, k) := by
  unfold processInitialize
  rw [show diskHost.fopen "q".toList k.host = none from h]
  rfl

theorem first_initialized :
    ∃ k₁, processInitialize diskHost "p".toList (start diskHost sevenLines) = some (0, k₁) ∧
    k₁.host.lookup "q".toList = none := by
  have hrun : (processInitialize diskHost "p".toList (start diskHost sevenLines)).map
      (fun r => (r.1, r.2.host.lookup "q".toList)) = some (0, none) := by decide +kernel
  simp only [Option.map_eq_some_iff, Prod.mk.injEq] at hrun
  obtain ⟨⟨e, k₁⟩, hinit, rfl, hlookup⟩ := hrun
  exact ⟨k₁, hinit, hlookup⟩

theorem exec_all_or_nothing_missing : ∃ k' p, secondMissing (start diskHost sevenLines) = some (1, k') ∧
    Queued k'.queue [p] := by
  obtain ⟨k₁, hinit, hlookup⟩ := first_initialized
  have hqueue : Queued (start diskHost sevenLines).queue [] := rfl
  obtain ⟨hexec, ⟨new, hlength, hqueued⟩, -⟩ :=
    @exec_all_or_nothing _ diskHost _ k₁ k₁ "q".toList ["p".toList] [] 1 _
    (scheduleByPolicy diskHost (parseInput diskHost 0) 1) hqueue (.cons hinit .nil)
      (processInitialize_missing hlookup)
    (by decide)
  obtain ⟨p, rfl⟩ := List.length_eq_one_iff.1 hlength
  exact ⟨k₁, p, hexec, hqueued⟩

/-- The first process stays in the queue when there is no second file. -/
theorem exec_leaves_first : ∃ k' p, secondMissing (start diskHost sevenLines) = some (1, k') ∧
    Queued (start diskHost sevenLines).queue [] ∧ Queued k'.queue [p] := by
  obtain ⟨k₁, hinit, hlookup⟩ := first_initialized
  have hbefore : Initializes diskHost ["p".toList] (start diskHost sevenLines) k₁ := .cons hinit .nil
  have hmissing := processInitialize_missing hlookup
  have hqueue : Queued (start diskHost sevenLines).queue [] := rfl
  obtain ⟨out, hacc, -⟩ := hqueue.accounts
  obtain ⟨new, hlength, hacc⟩ := hbefore.accounts hacc
  obtain ⟨p, rfl⟩ := List.length_eq_one_iff.1 hlength
  refine ⟨k₁, p, ?_, hqueue, hacc.queued⟩
  unfold secondMissing
  rw [show (["p".toList, "q".toList] : List Text) = ["p".toList] ++ ["q".toList] from rfl,
    hbefore.exec, exec, hmissing]
  rfl

end MyShell.Backing

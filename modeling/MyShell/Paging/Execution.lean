/-
Demand paging executes the programs, for whole sessions of batches on the
interpreter itself.
-/
import MyShell.Paging.Batch
import MyShell.Paging.Commands

namespace MyShell.Paging

variable {σ : Type} {sh : Shell σ} {depth : Nat} {Good : σ → Prop} {texts : List Text} {k k' : Kernel σ}

/-- What the lines of a batch may do: run no script and, as long as the rest of
the shell is as it should be, answer something but the 1 of a page fault. -/
structure Commands (sh : Shell σ) (depth : Nat) (Good : σ → Prop) (texts : List Text) : Prop where
  plain : ∀ text ∈ texts, ∀ line ∈ lines text, Plain line
  answers : ∀ text ∈ texts, ∀ line ∈ lines text, ∀ k : Kernel σ, Good k.shell →
    ∃ r k', parseInput sh depth line k = some (r, k') ∧ r ≠ 1 ∧ Good k'.shell

theorem Commands.harmless (h : Commands sh depth Good texts) :
    ∀ text ∈ texts, Harmless (parseInput sh depth) sh.frameStoreSize Good (lines text) :=
  fun text ht line hl k hk => by
  obtain ⟨r, k', hparse, hr, hgood⟩ := h.answers text ht line hl k hk
  exact ⟨r, k', hparse, hr, parseInput_same (h.plain text ht line hl) hparse, hgood⟩

/-- A session of batches, with commands in between that run no script; the
first argument are the scripts run so far. -/
inductive Session (sh : Shell σ) (depth : Nat) (Good : σ → Prop) : List Text → Kernel σ → Prop
  | start {shell : σ} : Good shell → Session sh depth Good [] (kernelSetup shell)
  | command {texts : List Text} {k k' : Kernel σ} : Session sh depth Good texts k →
      Same sh.frameStoreSize k k' →
      Good k'.shell → Session sh depth Good texts k'
  | batch {texts new : List Text} {k k' : Kernel σ} {n : Nat} {r : Int} :
      Session sh depth Good texts k →
      Batch sh.frameStoreSize new → Commands sh depth Good new →
      exec (parseInput sh depth) sh.frameStoreSize n (new.map some) k = some (r, k') →
      Session sh depth Good (texts ++ new) k'

/-- Between two batches: the processes so far had the pids from 1 on, and have passed their lines. -/
structure Rested (size : Nat) (Good : σ → Prop) (texts : List Text) (k : Kernel σ) : Prop where
  idle : Idle size k
  good : Good k.shell
  counter : k.pidCounter = texts.length + 1
  older : ∀ x ∈ k.passed, x.1 < texts.length + 1
  passed : ∀ i (hi : i < texts.length), (k.passed.filter fun x => x.1 = i + 1).map Prod.snd =
    lines texts[i]

theorem Rested.batch {new : List Text} {n : Nat} {r : Int} (h : Rested sh.frameStoreSize Good texts k)
    (hbatch : Batch sh.frameStoreSize new) (hcommands : Commands sh depth Good new)
    (hexec : exec (parseInput sh depth) sh.frameStoreSize n (new.map some) k = some (r, k')) :
    Rested sh.frameStoreSize Good (texts ++ new) k' := by
  obtain ⟨n', k₁, log, hexec', hidle, hgood, hcounter, hpassed, hpids, hlines⟩ :=
    h.idle.exec hbatch h.good hcommands.harmless
  obtain ⟨-, rfl⟩ := Prod.mk.inj (exec_det hexec hexec')
  rw [h.counter] at hcounter hpids hlines
  refine ⟨hidle, hgood, by rw [hcounter, List.length_append]; omega, fun x hx => ?_, fun i hi => ?_⟩
  · rw [hpassed] at hx
    rw [List.length_append]
    rcases List.mem_append.1 hx with hx | hx
    · have := h.older x hx
      omega
    · have := hpids x hx
      omega
  · rw [hpassed, List.filter_append, List.map_append]
    by_cases hlt : i < texts.length
    · have hnone : log.filter (fun x => x.1 = i + 1) = [] := List.filter_eq_nil_iff.2 fun x hx => by
        have := hpids x hx
        simp
        omega
      rw [hnone, h.passed i hlt, List.getElem_append_left hlt]
      simp
    · have hnone : k.passed.filter (fun x => x.1 = i + 1) = [] :=
        List.filter_eq_nil_iff.2 fun x hx => by
        have := h.older x hx
        simp
        omega
      have hi' : i - texts.length < new.length := by
        rw [List.length_append] at hi
        omega
      have := hlines (i - texts.length) hi'
      rw [show texts.length + 1 + (i - texts.length) = i + 1 by omega] at this
      rw [hnone, this, List.getElem_append_right (by omega)]
      rfl

theorem Session.rested (h : Session sh depth Good texts k) : Rested sh.frameStoreSize Good texts k := by
  induction h with
  | start hgood => exact ⟨⟨rfl, rfl, rfl, fun _ _ => rfl⟩, hgood, rfl, by simp [kernelSetup], by simp⟩
  | command _ hsame hgood ih =>
    refine ⟨⟨hsame.queue.trans ih.idle.queue, hsame.lruCache.trans ih.idle.lruCache,
      hsame.allPcb.trans ih.idle.allPcb,
      fun pos hpos => ?_⟩, hgood, hsame.pidCounter.trans ih.counter, ?_, ?_⟩
    · rw [hsame.memory pos hpos]
      exact ih.idle.free pos hpos
    · rw [hsame.passed]
      exact ih.older
    · rw [hsame.passed]
      exact ih.passed
  | batch _ hbatch hcommands hexec ih => exact ih.batch hbatch hcommands hexec

/-- **Main result.** In every session each process has handed the lines of its
script to `parseInput`, in order and each once, and the next batch runs to its
end. -/
theorem demand_paging (h : Session sh depth Good texts k) :
    (∀ i (hi : i < texts.length), (k.passed.filter fun x => x.1 = i + 1).map Prod.snd =
      lines texts[i]) ∧ ∀ new, Batch sh.frameStoreSize new → Commands sh depth Good new →
        ∃ n k', exec (parseInput sh depth) sh.frameStoreSize n (new.map some) k = some (0, k') := by
  refine ⟨h.rested.passed, fun new hbatch hcommands => ?_⟩
  obtain ⟨n, k', -, hexec, -⟩ := h.rested.idle.exec hbatch h.rested.good hcommands.harmless
  exact ⟨n, k', hexec⟩

/-- A shell without a file system, with room for two pages. -/
def bareShell : Shell Unit where
  frameStoreSize := 6
  varStoreSize := 2
  cwd := []
  system _ s := s
  fopen _ _ := none
  filesysDone s := some s
  fsutilLs s := some (0, s)
  fsutilCat _ s := some (-1, s)
  fsutilRm _ s := some (0, s)
  fsutilCreate _ _ s := some (0, s)
  fsutilWrite _ _ _ s := some (-1, s)
  fsutilRead _ _ s := some (-1, s)
  fsutilSize _ s := some (-1, s)
  fsutilSeek _ _ s := some (-1, s)
  fsutilFreespace s := some s
  findFile _ s := some s
  copyIn _ s := some (1, s)
  copyOut _ s := some (1, s)
  fragmentationDegree s := some s
  defragment s := some s
  recover _ s := some s

/-- Seven lines, so three pages. -/
def sevenLines : Text := "help\nset x 1\necho $x\nhelp\nprint x\nhelp\necho a".toList

theorem sevenLines_batch : Batch bareShell.frameStoreSize [sevenLines] where
  few := by decide
  proper := by
    intro text ht
    rw [List.mem_singleton.1 ht]
    exact ⟨by decide, by decide, by decide, by decide⟩
  fits := by decide

theorem sevenLines_commands : Commands bareShell 0 (fun _ => True) [sevenLines] where
  plain := by
    unfold Plain
    decide
  answers := by
    intro text ht line hl k _
    rw [List.mem_singleton.1 ht] at hl
    have hlines : lines sevenLines = ["help\n".toList, "set x 1\n".toList, "echo $x\n".toList,
      "help\n".toList, "print x\n".toList, "help\n".toList, "echo a".toList] := by decide
    rw [hlines] at hl
    simp only [List.mem_cons, List.not_mem_nil, or_false] at hl
    rcases hl with rfl | rfl | rfl | rfl | rfl | rfl | rfl <;> exact ⟨0, _, rfl, by decide, trivial⟩

theorem demand_paging_sevenLines :
    ∃ n k', exec (parseInput bareShell 0) 6 n [some sevenLines] (kernelSetup ()) = some (0, k') ∧
    (k'.passed.filter fun x => x.1 = 1).map Prod.snd = lines sevenLines := by
  have hstart : Session bareShell 0 (fun _ => True) [] (kernelSetup ()) := .start trivial
  obtain ⟨n, k', hexec⟩ := (demand_paging hstart).2 [sevenLines] sevenLines_batch sevenLines_commands
  exact ⟨n, k', hexec, (demand_paging (hstart.batch sevenLines_batch sevenLines_commands hexec)).1 0
    (by decide)⟩

end MyShell.Paging

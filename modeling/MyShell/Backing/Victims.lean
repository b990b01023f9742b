/-
The frame that `remove_frame` evicts is the one whose first line has the
smallest stamp, and only stamps below 9999 are looked at. This module says in
which states that is a frame at all, and one that is fully loaded.
-/
import MyShell.Backing.Frames

namespace MyShell.Backing

open Paging (Text)
open ReadyQueue (Queued)

variable {σ : Type} {ho : Host σ} {k : Kernel σ} {place : Place} {policy : Policy} {p c : Ptr}
  {quanta i : Nat}

/-! ## A full store -/

theorem Store.Sound.holds_first {threshold : Nat} {m : Store} (h : m.Sound threshold)
    (hfull : m.findAvailableSlot threshold = some none) (hi : i ∈ Store.frameStarts threshold)
    (hlast : i + 2 < threshold) : m.Holds i := by
  have hdvd := (Store.mem_frameStarts.1 hi).2
  obtain ⟨d, s, hd, hs, hused⟩ := Store.frameFree_false (Store.firstFree_none _ hfull i hi)
  have hloaded : m.Holds (i + d) :=
    ⟨s, hs, (h.frames _ s (by omega) hs).resolve_right fun hbare => hused hbare.var_eq⟩
  match d, hd with
  | 0, _ => exact hloaded
  | 1, _ => exact h.first (i + 1) (by omega) (by omega) hloaded
  | 2, _ => exact h.first (i + 1) (by omega) (by omega) (h.first (i + 2) (by omega) (by omega) hloaded)

theorem Store.Holds.accessed_pos {m : Store} (h : m.Holds i) : 0 < m.stamp Slot.accessed i := by
  obtain ⟨s, hs, hloaded⟩ := h
  rw [Store.stamp_of_get hs]
  exact hloaded.accessed

theorem Store.Holds.policyStamp_pos {m : Store} (h : m.Holds i) : 0 < m.policyStamp i := by
  obtain ⟨s, hs, hloaded⟩ := h
  unfold Store.policyStamp
  cases m.currentPolicy with
  | lru => exact Nat.lt_of_lt_of_eq hloaded.accessed (Store.stamp_of_get (f := Slot.accessed) hs).symm
  | fifo => exact Nat.lt_of_lt_of_eq hloaded.age (Store.stamp_of_get (f := Slot.age) hs).symm

theorem Store.Stamped.policyStamp {m : Store} (h : m.Stamped) :
    Clock.Given m.globalAccessTime m.policyStamp := by
  unfold Store.policyStamp
  cases m.currentPolicy with
  | lru => exact h.accessed
  | fifo => exact h.age

/-- Of two first lines one is held: only the last frame may reach beyond the frame store. -/
theorem Store.frameStarts_lt {threshold j : Nat} (hi : i ∈ frameStarts threshold)
    (hj : j ∈ frameStarts threshold) (hne : i ≠ j) : i + 2 < threshold ∨ j + 2 < threshold := by
  have hi := mem_frameStarts.1 hi
  have hj := mem_frameStarts.1 hj
  omega

theorem Reached.size (h : Reached ho place k) : ho.frameStoreSize ≤ k.store.lines.length :=
  h.sound.frames_le

/-! ## Some frame is found -/

/-- **A victim is found**, a frame whose first line has the smallest stamp under
the policy, exactly if some first line has a stamp below 9999. -/
theorem victim_found (h : Reached ho place k) :
    (∃ i, k.store.findReplacementSlot ho.frameStoreSize = some (some i) ∧ i < ho.frameStoreSize ∧
      3 ∣ i ∧ ∀ j, j < ho.frameStoreSize → 3 ∣ j →
      k.store.policyStamp i ≤ k.store.policyStamp j) ↔
    ∃ i, i < ho.frameStoreSize ∧ 3 ∣ i ∧ k.store.policyStamp i < 9999 := by
  rw [Store.findReplacementSlot_eq h.size]
  constructor
  · rintro ⟨i, hfound, hi, hdvd, -⟩
    exact ⟨i, hi, hdvd, (Clock.oldest_spec (Option.some.inj hfound)).2.1⟩
  · intro ⟨i, hi, hdvd, hlt⟩
    obtain ⟨v, hv⟩ := Clock.oldest_isSome.2 ⟨i, Store.mem_frameStarts.2 ⟨hi, hdvd⟩, hlt⟩
    obtain ⟨hmem, -, hmin⟩ := Clock.oldest_spec hv
    refine ⟨v, by rw [hv], (Store.mem_frameStarts.1 hmem).1, (Store.mem_frameStarts.1 hmem).2,
      fun j hj hdvd => ?_⟩
    exact hmin j (Store.mem_frameStarts.2 ⟨hj, hdvd⟩)

/-- A file of four lines. -/
def fourLines : List (Text × Text) := [("b".toList, "help\nhelp\nhelp\nhelp".toList)]

/-- Two files of one page. -/
def onePage : List (Text × Text) :=
  [("a".toList, "help\nhelp\nhelp".toList), ("b".toList, "help\nhelp\nhelp".toList)]

theorem victim_found_four :
    ∃ place k, Reached (smallHost 3) place k ∧ k.store.findAvailableSlot 3 = some none ∧
    ∃ i, k.store.findReplacementSlot 3 = some (some i) ∧ i < 3 ∧ 3 ∣ i ∧
      ∀ j, j < 3 → 3 ∣ j → k.store.policyStamp i ≤ k.store.policyStamp j := by
  have hrun : (batches (smallHost 3) [(["b".toList], .fcfs, 4)] .prompt
    (start (smallHost 3) fourLines)).map
      (fun r => (r.2.store.findAvailableSlot 3, decide (r.2.store.policyStamp 0 < 9999))) =
      some (some none, true) := by
    decide +kernel
  obtain ⟨place, k, hreached, hk⟩ := exists_reached (.start _) hrun
  obtain ⟨hfull, hstamp⟩ := Prod.mk.inj hk
  exact ⟨place, k, hreached, hfull, (victim_found hreached).2
    ⟨0, by decide, by decide, of_decide_eq_true hstamp⟩⟩

/-- The memory after a variable was set and read `n` times. -/
def printed (n : Nat) : Store :=
  ⟨[.literal, .literal, .literal, ⟨some "x".toList, some "1".toList, 0, n⟩, .literal], n, .lru⟩

theorem reached_printed :
    ∀ n, Reached (smallHost 3) .prompt { start (smallHost 3) fourLines with store := printed n }
  | 0 => by
    have hset : (start (smallHost 3) fourLines).store.memSetValue
      (smallHost 3).frameStoreSize "x".toList "1".toList =
        printed 0 := by decide +kernel
    have hact : Act (smallHost 3) (start (smallHost 3) fourLines) _ := .set "x".toList "1".toList
    have hreached := (Reached.start fourLines).step (.command hact)
    rwa [hset] at hreached
  | n + 1 => (reached_printed n).step (.command (.get "x".toList))

/-- After 9999 accesses to a variable the store of one frame is filled, and at the
next page fault no victim is found. -/
theorem victim_not_found :
    ∃ place k, Reached (smallHost 3) place k ∧ k.store.findAvailableSlot 3 = some none ∧
    k.store.findReplacementSlot 3 = some none := by
  have hrun : (batches (smallHost 3) [(["b".toList], .fcfs, 4)] .prompt
      { start (smallHost 3) fourLines with store := printed 9999 }).map
      (fun r => (r.2.store.findAvailableSlot 3, r.2.store.findReplacementSlot 3)) =
        some (some none, some none) := by
    decide +kernel
  obtain ⟨place, k, hreached, hk⟩ := exists_reached (reached_printed 9999) hrun
  exact ⟨place, k, hreached, Prod.mk.inj hk⟩

/-! ## Evictions -/

/-- `execute_process` handles a page fault of process `c` by `remove_frame`. -/
def Evicts (ho : Host σ) (c : Ptr) (k : Kernel σ) : Prop :=
  ∃ pcb content pcb' m', k.pcbs.get c = some pcb ∧ pcb.pageCounter < pcb.currentPage ∧
    ho.fopen pcb.filename k.host = some content ∧
    loadFrame ho.frameStoreSize (some content) pcb k.store = some (-1, pcb', m')

theorem Evicts.full (h : Evicts ho c k) : k.store.findAvailableSlot ho.frameStoreSize = some none := by
  obtain ⟨pcb, content, pcb', m', -, -, -, hload⟩ := h
  rw [loadFrame_eq] at hload
  split at hload
  · cases hload
  obtain ⟨slot, hslot, hload⟩ := Option.bind_eq_some_iff.1 hload
  cases slot with
  | none => exact hslot
  | some i =>
    obtain ⟨store, -, hload⟩ := Option.bind_eq_some_iff.1 hload
    obtain ⟨pcb₁, -, hload⟩ := Option.map_eq_some_iff.1 hload
    cases hload

/-- Whether process `c` misses a page, and what its `load_frame` answers. -/
def misses (ho : Host σ) (c : Ptr) (k : Kernel σ) : Option (Bool × Int) := do
  let pcb ← k.pcbs.get c
  let content ← ho.fopen pcb.filename k.host
  let (r, _) ← loadFrame ho.frameStoreSize (some content) pcb k.store
  pure (pcb.pageCounter < pcb.currentPage, r)

theorem Evicts.of_misses (h : misses ho c k = some (true, -1)) : Evicts ho c k := by
  unfold misses at h
  simp only [Option.bind_eq_bind, Option.bind_eq_some_iff] at h
  obtain ⟨pcb, hpcb, content, hopen, ⟨r, pcb', m'⟩, hload, h⟩ := h
  simp only [Option.pure_def, Option.some.injEq, Prod.mk.injEq, decide_eq_true_eq] at h
  obtain ⟨hlt, rfl⟩ := h
  exact ⟨pcb, content, pcb', m', hpcb, hlt, hopen, hload⟩

/-- **A victim is fully loaded** exactly if the last line of the oldest frame is in use
(and, where a frame lies partly among the variables, its lines are loaded ones). -/
theorem victim_loaded (h : Reached ho (.executing policy p c quanta) k) (hevicts : Evicts ho c k) :
    (∃ i, k.store.findReplacementSlot ho.frameStoreSize = some (some i) ∧ ∀ d, d < 3 →
      k.store.Holds (i + d)) ↔
    ∃ i ∈ Store.frameStarts ho.frameStoreSize, k.store.policyStamp i < 9999 ∧
      (∀ j ∈ Store.frameStarts ho.frameStoreSize, k.store.policyStamp i ≤ k.store.policyStamp j) ∧
      (∃ s, k.store.lines[i + 2]? = some s ∧ str s.var ≠ "none".toList) ∧
      (ho.frameStoreSize ≤ i + 2 → ∀ d, d < 3 → k.store.Holds (i + d)) := by
  have hstore := h.sound.store
  rw [Store.findReplacementSlot_eq h.size]
  constructor
  · intro ⟨i, hfound, hholds⟩
    obtain ⟨hmem, hlt, hmin⟩ := Clock.oldest_spec (Option.some.inj hfound)
    obtain ⟨s, hs, hloaded⟩ := hholds 2 (by decide)
    exact ⟨i, hmem, hlt, hmin, ⟨s, hs, hloaded.var_ne⟩, fun _ => hholds⟩
  · intro ⟨i, hi, hlt, hmin, ⟨s, hs, hused⟩, hpartly⟩
    obtain ⟨v, hv⟩ := Clock.oldest_isSome.2 ⟨i, hi, hlt⟩
    obtain ⟨hmem, -, hvmin⟩ := Clock.oldest_spec hv
    obtain rfl : i = v := by
      by_contra hne
      obtain hlast | hlast := Store.frameStarts_lt hi hmem hne
      · have hpos := (hstore.holds_first hevicts.full hi hlast).policyStamp_pos
        exact hne (hstore.policyStamp.unique (hmin v hmem) (hvmin i hi) hpos)
      · have hpos := (hstore.holds_first hevicts.full hmem hlast).policyStamp_pos
        exact hne (hstore.policyStamp.unique (hvmin i hi) (hmin v hmem) hpos).symm
    refine ⟨i, by rw [hv], ?_⟩
    obtain hi | hout := Nat.lt_or_ge (i + 2) ho.frameStoreSize
    · have hdvd := (Store.mem_frameStarts.1 hmem).2
      have htwo : k.store.Holds (i + 2) :=
        ⟨s, hs, (hstore.frames _ s hi hs).resolve_right fun hbare => hused hbare.var_eq⟩
      have hone : k.store.Holds (i + 1) := hstore.first (i + 2) hi (by omega) htwo
      intro d hd
      match d, hd with
      | 0, _ => exact hstore.first (i + 1) (by omega) (by omega) hone
      | 1, _ => exact hone
      | 2, _ => exact htwo
    · exact hpartly hout

theorem victim_loaded_pages :
    ∃ policy p c quanta k, Reached (smallHost 6) (.executing policy p c quanta) k ∧
    Evicts (smallHost 6) c k ∧
    ∃ i, k.store.findReplacementSlot 6 = some (some i) ∧ ∀ d, d < 3 → k.store.Holds (i + d) := by
  have hrun : (batches (smallHost 6) [(["a".toList], .fcfs, 7), (["b".toList], .fcfs, 4)] .prompt
      (start (smallHost 6) (("a".toList, "help\nhelp\nhelp".toList) :: fourLines))).map
      (fun r => (r.1, decide (misses (smallHost 6) 1 r.2 = some (true, -1) ∧
        (r.2.store.policyStamp 0 < 9999 ∧
        ∀ j ∈ Store.frameStarts 6, r.2.store.policyStamp 0 ≤ r.2.store.policyStamp j) ∧
        (r.2.store.lines[2]?.map fun s => str s.var) = some "backing_store/prog0".toList))) =
      some (.executing .fcfs 1 1 2147483643, true) := by decide +kernel
  obtain ⟨place, k, hreached, hk⟩ := exists_reached (.start _) hrun
  simp only [Prod.mk.injEq, decide_eq_true_eq] at hk
  obtain ⟨rfl, hmisses, ⟨hlt, hmin⟩, hline⟩ := hk
  obtain ⟨s, hs, hvar⟩ := Option.map_eq_some_iff.1 hline
  have hevicts := Evicts.of_misses hmisses
  have hused : str s.var ≠ "none".toList := by rw [hvar]; decide
  exact ⟨.fcfs, 1, 1, _, k, hreached, hevicts,
    (victim_loaded hreached hevicts).2 ⟨0, by decide, hlt, hmin, ⟨s, hs, hused⟩,
      fun hle => absurd hle (by decide)⟩⟩

/-- A file of one line is left in a frame, and the process of another file evicts
it: two of its lines are the literal. -/
theorem victim_not_loaded :
    ∃ policy p c quanta k, Reached (smallHost 6) (.executing policy p c quanta) k ∧
    Evicts (smallHost 6) c k ∧ k.store.findReplacementSlot 6 = some (some 0) ∧
    k.store.findAvailableSlot 6 = some none ∧
    ∃ s, k.store.lines[1]? = some s ∧ s.Bare := by
  have hrun : (batches (smallHost 6) [(["a".toList], .fcfs, 5), (["b".toList], .fcfs, 4)] .prompt
      (start (smallHost 6) (("a".toList, "help".toList) :: fourLines))).map
      (fun r => (r.1, decide (misses (smallHost 6) 1 r.2 = some (true, -1) ∧
        r.2.store.findReplacementSlot 6 = some (some 0) ∧
        (r.2.store.lines[1]?.map fun s => (s.var, s.value)) = some (none, none)))) =
      some (.executing .fcfs 1 1 2147483643, true) := by decide +kernel
  obtain ⟨place, k, hreached, hk⟩ := exists_reached (.start _) hrun
  simp only [Prod.mk.injEq, decide_eq_true_eq] at hk
  obtain ⟨rfl, hmisses, hfound, hline⟩ := hk
  obtain ⟨s, hs, hbare⟩ := Option.map_eq_some_iff.1 hline
  have hevicts := Evicts.of_misses hmisses
  exact ⟨.fcfs, 1, 1, _, k, hreached, hevicts, hfound, hevicts.full, s, hs, Prod.mk.inj hbare⟩

end MyShell.Backing

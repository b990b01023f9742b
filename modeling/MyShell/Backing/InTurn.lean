/-
Least recently used. `find_lru_slot` compares the frames by their first lines
only. As long as no frame is read on once another one has been begun, the
frame whose first line was accessed longest ago is the one used least recently;
otherwise it may be the one used last.
-/
import MyShell.Backing.Victims

namespace MyShell.Backing

open Paging (Text)

/-! ## Accesses in turn -/

namespace Store

variable {threshold : Nat} {m m' : Store} {i : Nat} {s : Slot}

/-- The last access to a line of the frame at `i`. -/
def lastAccess (m : Store) (i : Nat) : Nat :=
  max (m.stamp Slot.accessed i) (max (m.stamp Slot.accessed (i + 1)) (m.stamp Slot.accessed (i + 2)))

/-- No frame is used any more when another one is begun. -/
def InTurn (threshold : Nat) (m : Store) : Prop :=
  Clock.InTurn (m.stamp Slot.accessed) m.lastAccess (frameStarts threshold)

/-- Line `i` is the first one of a frame, or in no frame, or no frame has been
begun since its own was. -/
def MayRead (threshold : Nat) (m : Store) (i : Nat) : Prop :=
  3 ∣ i ∨ threshold ≤ i - i % 3 ∨
    ∀ j ∈ frameStarts threshold, m.stamp Slot.accessed j ≤ m.stamp Slot.accessed (i - i % 3)

instance : Decidable (m.MayRead threshold i) := inferInstanceAs (Decidable (_ ∨ _ ∨ _))

theorem le_lastAccess (m : Store) (i : Nat) : m.stamp Slot.accessed i ≤ m.lastAccess i :=
  Nat.le_max_left ..

theorem Stamped.lastAccess_le (h : m.Stamped) (i : Nat) : m.lastAccess i ≤ m.globalAccessTime :=
  Nat.max_le.2 ⟨h.accessed.le _, Nat.max_le.2 ⟨h.accessed.le _, h.accessed.le _⟩⟩

theorem InTurn.congr (h : m.InTurn threshold)
    (hstamp : m'.stamp Slot.accessed = m.stamp Slot.accessed) : m'.InTurn threshold := by
  have hlast : m'.lastAccess = m.lastAccess := by
    funext j
    rw [lastAccess, lastAccess, hstamp]
  rw [InTurn, hstamp, hlast]
  exact h

namespace Touched

theorem lastAccess (ht : m.Touched i s m') (hm : m.Stamped)
    (hs : s.accessed = m.globalAccessTime + 1) {j : Nat} (hj : 3 ∣ j) :
    m'.lastAccess j = Function.update m.lastAccess (i - i % 3) (m.globalAccessTime + 1) j := by
  have hle := hm.accessed.le
  have h₀ := hle j
  have h₁ := hle (j + 1)
  have h₂ := hle (j + 2)
  rw [Store.lastAccess, ht.stamp, hs]
  by_cases hframe : j = i - i % 3
  · -- one of the three lines has the stamp that is later than all others
    rw [hframe, Function.update_self, ← hframe]
    obtain rfl | rfl | rfl : i = j ∨ i = j + 1 ∨ i = j + 2 := by omega
    · rw [Function.update_self, Function.update_of_ne (by omega), Function.update_of_ne (by omega)]
      omega
    · rw [Function.update_self, Function.update_of_ne (by omega), Function.update_of_ne (by omega)]
      omega
    · rw [Function.update_self, Function.update_of_ne (by omega), Function.update_of_ne (by omega)]
      omega
  · rw [Function.update_of_ne hframe, Function.update_of_ne (by omega),
      Function.update_of_ne (by omega), Function.update_of_ne (by omega)]
    rfl

/-- A line that may be read is accessed, and then the next one may be. -/
theorem inTurn (ht : m.Touched i s m') (hm : m.Stamped) (hs : s.accessed = m.globalAccessTime + 1)
    (h : m.InTurn threshold) (hi : m.MayRead threshold i) :
    m'.InTurn threshold ∧ m'.MayRead threshold (i + 1) := by
  have hstamp := ht.stamp Slot.accessed
  rw [hs] at hstamp
  have hle := hm.accessed.le
  have hlast {j : Nat} (hj : j ∈ frameStarts threshold) := ht.lastAccess hm hs (mem_frameStarts.1 hj).2
  by_cases hdvd : 3 ∣ i
  · have hframe : i - i % 3 = i := by omega
    rw [hframe] at hlast
    refine ⟨?_, .inr (.inr fun j _ => ?_)⟩
    · rw [InTurn, hstamp]
      exact (h.begin (fun j _ => hle j) (fun j _ => hm.lastAccess_le j) i).congr (fun _ _ => rfl)
        fun j hj => hlast hj
    · rw [hstamp, show i + 1 - (i + 1) % 3 = i by omega, Function.update_self]
      by_cases hji : j = i
      · rw [hji, Function.update_self]
      · rw [Function.update_of_ne hji]
        exact Nat.le_succ_of_le (hle j)
  · have hne {j : Nat} (hj : 3 ∣ j) : m'.stamp Slot.accessed j = m.stamp Slot.accessed j := by
      rw [hstamp, Function.update_of_ne]
      rintro rfl
      exact hdvd hj
    have hfirst {j : Nat} (hj : j ∈ frameStarts threshold) := hne (mem_frameStarts.1 hj).2
    have hnext : 3 ∣ i + 1 ∨ i + 1 - (i + 1) % 3 = i - i % 3 := by omega
    rcases hi with hdvd' | hout | hnewest
    · exact absurd hdvd' hdvd
    · refine ⟨Clock.InTurn.congr h (fun j hj => hfirst hj) fun j hj => ?_, ?_⟩
      · have := (mem_frameStarts.1 hj).1
        rw [hlast hj, Function.update_of_ne (by omega)]
      · rcases hnext with hnext | heq
        · exact .inl hnext
        · exact .inr (.inl (by rwa [heq]))
    · refine ⟨(h.resume hnewest (m.globalAccessTime + 1)).congr (fun j hj => hfirst hj)
        fun j hj => hlast hj, ?_⟩
      rcases hnext with hnext | heq
      · exact .inl hnext
      · refine .inr (.inr fun j hj => ?_)
        rw [heq, hfirst hj, hne (by omega)]
        exact hnewest j hj

end Touched

/-! ## Loading and evicting -/

theorem InTurn.putLines {filename : Text} :
    ∀ {ls : List Text} {i : Nat} {m m' : Store}, m.InTurn threshold → m.Stamped →
    m.MayRead threshold i → m.putLines filename ls i = some m' → m'.InTurn threshold
  | [], _, _, _, h, _, _, hput => by
    cases hput
    exact h
  | _ :: _, _, _, _, h, hm, hi, hput => by
    obtain ⟨m₁, hfirst, hput⟩ := Option.bind_eq_some_iff.1 hput
    obtain ⟨ht, -⟩ := touched_putLine hfirst
    obtain ⟨h₁, hi₁⟩ := ht.inTurn hm rfl h hi
    exact InTurn.putLines h₁ (ht.stamped hm rfl (.inl rfl)) hi₁ hput

theorem InTurn.loadFile {content filename : Text} {pid r : Nat} {pcb : PCB} (h : m.InTurn threshold)
    (hm : m.Stamped)
    (hload : loadFile threshold content filename (makePCB pid) m = some (r, pcb, m')) :
    m'.InTurn threshold := by
  obtain ⟨-, -, rfl⟩ | ⟨i, hslot, -, -, hput⟩ := loadFile_cases hload
  · exact h
  · exact h.putLines hm (.inl (findAvailableSlot_some hslot).2.1) hput

theorem InTurn.loadFrame {content : Text} {pcb pcb' : PCB} {r : Int} (h : m.InTurn threshold)
    (hm : m.Stamped) (hload : loadFrame threshold (some content) pcb m = some (r, pcb', m')) :
    m'.InTurn threshold := by
  rw [loadFrame_eq] at hload
  split at hload
  · cases hload
    exact h
  obtain ⟨slot, hslot, hload⟩ := Option.bind_eq_some_iff.1 hload
  cases slot with
  | none =>
    cases hload
    exact h
  | some i =>
    obtain ⟨store, hput, hload⟩ := Option.bind_eq_some_iff.1 hload
    obtain ⟨pcb₁, -, hload⟩ := Option.map_eq_some_iff.1 hload
    cases hload
    exact h.putLines hm (.inl (findAvailableSlot_some hslot).2.1) hput

theorem InTurn.freeLine (h : m.InTurn threshold) (hm : m.Stamped) (hi : m.MayRead threshold i)
    (hfree : m.freeLine i = some m') :
    m'.InTurn threshold ∧ m'.Stamped ∧ m'.MayRead threshold (i + 1) := by
  obtain ⟨ht, -⟩ := touched_freeLine hfree
  obtain ⟨h', hnext⟩ := ht.inTurn hm rfl h hi
  exact ⟨h', ht.stamped hm rfl (.inl rfl), hnext⟩

theorem InTurn.removeFrame {content : Text} {pcb pcb' : PCB} {r : Int} (h : m.InTurn threshold)
    (hm : m.Stamped) (hsize : threshold ≤ m.lines.length)
    (hremove : removeFrame threshold (some content) pcb m = some (r, pcb', m')) :
    m'.InTurn threshold := by
  obtain ⟨i, hslot, hrange, hfree, -, -⟩ := removeFrame_cases hremove
  rw [findReplacementSlot_eq hsize, Option.some.injEq] at hslot
  have hdvd := (mem_frameStarts.1 (Clock.oldest_spec hslot).1).2
  -- the three lines are freed one after the other
  have hlines : ∀ {n j : Nat} {m : Store}, m.InTurn threshold → m.Stamped → m.MayRead threshold j →
      m.memFreeLines (List.range' j n) = some m' → m'.InTurn threshold := by
    intro n
    induction n with
    | zero =>
      intro j m h _ _ hfree
      cases hfree
      exact h
    | succ n ih =>
      intro j m h hm hj hfree
      rw [List.range'_succ, memFreeLines] at hfree
      split at hfree
      · obtain ⟨m₁, hfirst, hfree⟩ := Option.bind_eq_some_iff.1 hfree
        obtain ⟨h₁, hm₁, hj₁⟩ := h.freeLine hm hj hfirst
        exact ih h₁ hm₁ hj₁ hfree
      · cases hfree
        exact h
  exact hlines (n := 3) h hm (.inl hdvd) hfree

end Store

/-! ## Runs -/

variable {σ : Type} {ho : Host σ} {k k' : Kernel σ} {place place' : Place}

/-- A step from `k` to `k'` reads line `i`, of a script or of a variable. -/
inductive Reads (ho : Host σ) : Place → Kernel σ → Kernel σ → Nat → Prop
  | line {policy : Policy} {p c : Ptr} {quanta : Nat} {k k' : Kernel σ} {pcb : PCB} :
      k.pcbs.get c = some pcb →
      pcb.currentPage ≤ pcb.pageCounter → Reads ho (.executing policy p c (quanta + 1)) k k' pcb.pc
  | value {place : Place} {k k' : Kernel σ} {var : Text} {i : Nat} :
      k.store.varIndex ho.frameStoreSize var = some i → k'.store = k.store.access i →
      Reads ho place k k' i

/-- The states of a session in which no frame is read on once another one has been begun. -/
inductive ReachedInTurn (ho : Host σ) : Place → Kernel σ → Prop
  | start (host : σ) : ReachedInTurn ho .prompt (start ho host)
  | step {place place' : Place} {k k' : Kernel σ} : ReachedInTurn ho place k →
      Step ho place k place' k' →
      (∀ i, Reads ho place k k' i → k.store.MayRead ho.frameStoreSize i) → ReachedInTurn ho place' k'

theorem ReachedInTurn.reached (h : ReachedInTurn ho place k) : Reached ho place k := by
  induction h with
  | start host => exact .start host
  | step _ hstep _ ih => exact ih.step hstep

theorem Act.inTurn (hk : k.Sound ho) (h : k.store.InTurn ho.frameStoreSize) (hact : Act ho k k')
    (hreads : ∀ i, Reads ho place k k' i → k.store.MayRead ho.frameStoreSize i) :
    k'.store.InTurn ho.frameStoreSize := by
  cases hact with
  | load hact =>
    obtain ⟨-, rfl, -⟩ | ⟨_, _, _, _, _, store, -, -, -, hload, hdone⟩ := processInitialize_cases hact
    · exact h
    have hstore := h.loadFile hk.store.toStamped hload
    obtain ⟨-, -, rfl⟩ | ⟨-, -, queue, -, rfl⟩ := hdone
    · exact hstore
    · exact hstore
  | set var value => exact h.congr (Store.stamp_memSetValue _ _ _ fun _ _ _ => rfl)
  | get var =>
    unfold Store.memGetValue at hreads ⊢
    cases hi : k.store.varIndex ho.frameStoreSize var with
    | none => exact h
    | some i =>
      rw [hi] at hreads
      have hs := List.getElem?_eq_getElem (Store.varIndex_ge hi).2
      exact ((Store.touched_access hs).inTurn hk.store.toStamped rfl h (hreads i (.value hi rfl))).1
  | reset => exact h.congr (Store.stamp_memInitVariable _ fun _ => rfl)
  | policy | system | chdir => exact h

theorem fetch_inTurn {c : Ptr} {pcb : PCB} {line : Text} (hk : k.Sound ho)
    (h : k.store.InTurn ho.frameStoreSize) (hpcb : k.pcbs.get c = some pcb)
    (hread : k.store.MayRead ho.frameStoreSize pcb.pc) (hfetch : fetch c k = some (line, k')) :
    k'.store.InTurn ho.frameStoreSize := by
  obtain ⟨pcb', store, hpcb', hget, rfl⟩ := fetch_cases hfetch
  obtain rfl := Option.some.inj (hpcb.symm.trans hpcb')
  obtain ⟨s, hs, hget⟩ := Option.bind_eq_some_iff.1 hget
  cases hget
  exact ((Store.touched_access hs).inTurn hk.store.toStamped rfl h hread).1

theorem pageFault_inTurn {c : Ptr} {r : Int} (hk : k.Sound ho) (h : k.store.InTurn ho.frameStoreSize)
    (hfault : pageFault ho c k = some (r, k')) : k'.store.InTurn ho.frameStoreSize := by
  obtain ⟨pcb, content, pcb₁, store₁, pcb', store', hpcb, -, hload, rfl, hdone⟩ :=
    pageFault_cases hfault
  have hname := (hk.pcbs c pcb hpcb).1
  have h₁ := h.loadFrame hk.store.toStamped hload
  obtain ⟨hstore₁, hsize₁, -⟩ := hk.store.loadFrame hname hload
  obtain ⟨-, -, rfl⟩ | ⟨-, r₂, pcb₂, store₂, r₃, hremove, hagain⟩ := hdone
  · exact h₁
  · have hsize : ho.frameStoreSize ≤ store₁.lines.length := by
      rw [hsize₁]
      exact hk.frames_le
    have hstore₂ := (hstore₁.removeFrame hsize hremove).1
    exact (h₁.removeFrame hstore₁.toStamped hsize hremove).loadFrame hstore₂.toStamped hagain

/-- **One step.** -/
theorem Step.inTurn (hk : k.Sound ho) (h : k.store.InTurn ho.frameStoreSize)
    (hstep : Step ho place k place' k')
    (hreads : ∀ i, Reads ho place k k' i → k.store.MayRead ho.frameStoreSize i) :
    k'.store.InTurn ho.frameStoreSize := by
  cases hstep with
  | command hact | act hact => exact hact.inTurn hk h hreads
  | @enter policy _ _ henter =>
    cases policy with
    | aging =>
      obtain ⟨queue, -, henter⟩ := Option.bind_eq_some_iff.1 henter
      cases henter
      exact h
    | fcfs | sjf | rr | rr30 =>
      cases henter
      exact h
  | leave | spent | dropped | back | advance => exact h
  | pick hpick => exact (Policy.pick_store hpick).1 ▸ h
  | noPage _ _ hfault hfinish => exact finish_store hfinish ▸ pageFault_inTurn hk h hfault
  | fault _ _ hfault => exact pageFault_inTurn hk h hfault
  | noLine hpcb hpage hfetch hfinish =>
    exact finish_store hfinish ▸ fetch_inTurn hk h hpcb (hreads _ (.line hpcb hpage)) hfetch
  | fetch hpcb hpage hfetch =>
    have h' := fetch_inTurn hk h hpcb (hreads _ (.line hpcb hpage)) hfetch
    exact h'

theorem ReachedInTurn.inTurn (h : ReachedInTurn ho place k) : k.store.InTurn ho.frameStoreSize := by
  induction h with
  | start host =>
    have hstamp : (Backing.start ho host).store.stamp Slot.accessed = fun _ => 0 :=
      Store.stamp_memInit rfl
    intro i _ j _ hlt
    rw [hstamp] at hlt
    exact absurd hlt (Nat.lt_irrefl 0)
  | step hbefore hstep hreads ih => exact hstep.inTurn hbefore.reached.sound ih hreads

/-- **LRU.** Where no frame is read on once another one has been begun, and the store is full,
`find_lru_slot` finds a frame whose last access is the oldest, exactly if some
first line has a stamp below 9999. -/
theorem least_recently_used (h : ReachedInTurn ho place k)
    (hfull : k.store.findAvailableSlot ho.frameStoreSize = some none) :
    (∃ i, k.store.findLruSlot ho.frameStoreSize = some (some i) ∧
      ∀ j ∈ Store.frameStarts ho.frameStoreSize, k.store.lastAccess i ≤ k.store.lastAccess j) ↔
    ∃ i ∈ Store.frameStarts ho.frameStoreSize, k.store.stamp Slot.accessed i < 9999 := by
  have hreached := h.reached
  have hstore := hreached.sound.store
  have hlru : k.store.findLruSlot ho.frameStoreSize =
      some (Clock.oldest (k.store.stamp Slot.accessed) 9999 (Store.frameStarts ho.frameStoreSize)) := by
    rw [← Clock.search_eq]
    exact Store.findOldest_eq fun i hi =>
      Nat.lt_of_lt_of_le (Store.mem_frameStarts.1 hi).1 hreached.size
  rw [hlru]
  constructor
  · intro ⟨i, hfound, _⟩
    obtain ⟨hmem, hlt, -⟩ := Clock.oldest_spec (Option.some.inj hfound)
    exact ⟨i, hmem, hlt⟩
  · intro hbelow
    obtain ⟨i, hi⟩ := Clock.oldest_isSome.2 hbelow
    obtain ⟨hmem, -, hmin⟩ := Clock.oldest_spec hi
    refine ⟨i, by rw [hi], h.inTurn.oldest (fun j _ => k.store.le_lastAccess j) hmem fun j hj => ?_⟩
    -- the oldest first line is unique, as one of two is held
    rcases Nat.lt_or_eq_of_le (hmin j hj) with hlt | heq
    · exact .inr hlt
    · refine .inl (by_contra fun hne => ?_)
      obtain hlast | hlast := Store.frameStarts_lt hj hmem hne
      · have hpos := (hstore.holds_first hfull hj hlast).accessed_pos
        exact hne (hstore.accessed.unique (Nat.le_of_eq heq.symm) (hmin j hj) hpos)
      · have hpos := (hstore.holds_first hfull hmem hlast).accessed_pos
        exact hne (hstore.accessed.unique (hmin j hj) (Nat.le_of_eq heq.symm) hpos).symm

/-! ## One step after the other -/

/-- The line that `execute_process` reads next, if it does, is read in turn. -/
def readsInTurn (ho : Host σ) : Place → Kernel σ → Bool
  | .executing _ _ c (_ + 1), k => (k.pcbs.get c).all fun pcb =>
    pcb.pageCounter < pcb.currentPage || k.store.MayRead ho.frameStoreSize pcb.pc
  | _, _ => true

/-- So many steps, each in turn. -/
def nextsInTurn (ho : Host σ) : Nat → Place → Kernel σ → Option (Place × Kernel σ)
  | 0, place, k => some (place, k)
  | m + 1, place, k =>
    if readsInTurn ho place k then do
      let (place, k) ← next ho 0 place k
      nextsInTurn ho m place k
    else none

/-- Where no frame reaches into the variables, these may be read. -/
theorem Reads.mayRead {i : Nat} (hdvd : 3 ∣ ho.frameStoreSize) (hok : readsInTurn ho place k = true)
    (h : Reads ho place k k' i) : k.store.MayRead ho.frameStoreSize i := by
  cases h with
  | line hpcb hpage =>
    rw [readsInTurn, hpcb] at hok
    simpa [Nat.not_lt.2 hpage] using hok
  | value hi _ =>
    have := (Store.varIndex_ge hi).1
    exact .inr (.inl (by omega))

theorem ReachedInTurn.lineSteps (hdvd : 3 ∣ ho.frameStoreSize) (h : ReachedInTurn ho place k)
    (hsteps : LineSteps ho place k place' k') : ReachedInTurn ho place' k' := by
  induction hsteps with
  | refl => exact h
  | head hstep _ ih => exact ih (h.step hstep fun i hi => hi.mayRead hdvd rfl)

theorem ReachedInTurn.nexts {m : Nat} (hdvd : 3 ∣ ho.frameStoreSize) (h : ReachedInTurn ho place k)
    (hrun : nextsInTurn ho m place k = some (place', k')) : ReachedInTurn ho place' k' := by
  induction m generalizing place k with
  | zero =>
    cases hrun
    exact h
  | succ m ih =>
    rw [nextsInTurn] at hrun
    split at hrun
    · next hok =>
      obtain ⟨⟨place₁, k₁⟩, hnext, hrun⟩ := Option.bind_eq_some_iff.1 hrun
      obtain ⟨place₂, k₂, hstep, hline⟩ := next_steps hnext
      exact ih ((h.step hstep fun i hi => hi.mayRead hdvd hok).lineSteps hdvd hline) hrun
    · cases hrun

/-- A process alone reads its two pages, and a third one is loaded in place of the first. -/
theorem least_recently_used_pages :
    ∃ place k, ReachedInTurn (smallHost 6) place k ∧ k.passed.length = 6 ∧
    k.store.findAvailableSlot 6 = some none ∧ ∃ i, k.store.findLruSlot 6 = some (some i) ∧
      ∀ j ∈ Store.frameStarts 6, k.store.lastAccess i ≤ k.store.lastAccess j := by
  have hrun : ((processInitialize (smallHost 6) "p".toList
      (start (smallHost 6) sevenLines)).bind fun r =>
        (nextsInTurn (smallHost 6) 8 (.rounds .fcfs) r.2).map fun q =>
          (q.2.passed.length, q.2.store.findAvailableSlot 6,
            decide (q.2.store.stamp Slot.accessed 0 < 9999))) = some (6, some none, true) := by
    decide +kernel
  simp only [Option.bind_eq_some_iff, Option.map_eq_some_iff] at hrun
  obtain ⟨⟨r, k₁⟩, hload, ⟨place, k⟩, hnexts, hrun⟩ := hrun
  simp only [Prod.mk.injEq, decide_eq_true_eq] at hrun
  obtain ⟨hpassed, hfull, hlt⟩ := hrun
  have hdvd : 3 ∣ (smallHost 6).frameStoreSize := by decide
  have hstart : ReachedInTurn (smallHost 6) .prompt (start (smallHost 6) sevenLines) := .start _
  have hloaded := hstart.step (.command (.load hload)) fun i hi => hi.mayRead hdvd rfl
  have hrounds : ReachedInTurn (smallHost 6) (.rounds .fcfs) k₁ :=
    hloaded.step (.enter (show Policy.enter .fcfs k₁ = some k₁ from rfl)) fun i hi =>
      hi.mayRead hdvd rfl
  have hreached := hrounds.nexts hdvd hnexts
  exact ⟨place, k, hreached, hpassed, hfull, (least_recently_used hreached hfull).2 ⟨0, by decide, hlt⟩⟩

/-- Each process has read two lines and the first one its third too: its frame is
found, which was used last. -/
theorem most_recently_used_found :
    ∃ place k, Reached (smallHost 6) place k ∧ k.store.currentPolicy = .lru ∧
    k.store.findAvailableSlot 6 = some none ∧ ¬ ∃ i, k.store.findLruSlot 6 = some (some i) ∧
      ∀ j ∈ Store.frameStarts 6, k.store.lastAccess i ≤ k.store.lastAccess j := by
  have hrun : (batches (smallHost 6) [(["a".toList, "b".toList], .rr, 12)] .prompt
    (start (smallHost 6) onePage)).map
      (fun r => (r.2.store.currentPolicy, r.2.store.findAvailableSlot 6, r.2.store.findLruSlot 6,
        decide (r.2.store.lastAccess 0 ≤ r.2.store.lastAccess 3))) =
        some (.lru, some none, some (some 0), false) := by
    decide +kernel
  obtain ⟨place, k, hreached, hk⟩ := exists_reached (.start _) hrun
  simp only [Prod.mk.injEq, decide_eq_false_iff_not] at hk
  obtain ⟨hlru, hfull, hfound, hlater⟩ := hk
  refine ⟨place, k, hreached, hlru, hfull, ?_⟩
  intro ⟨i, hi, hmin⟩
  rw [hfound] at hi
  cases hi
  exact hlater (hmin 3 (by decide))

end MyShell.Backing

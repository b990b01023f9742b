/-
The page table of a process, and the frames that `load_file` fills: which
lines it overwrites, which pages it counts, and which entries of the table
are written in a session.
-/
import Mathlib.Data.List.TakeWhile
import MyShell.Backing.Frames

namespace MyShell.Backing

open Paging (Text lines readLine readLine_lines lines_eq_nil)

variable {σ : Type} {ho : Host σ} {k : Kernel σ} {place : Place}

/-! ## Lines that `load_file` overwrites -/

theorem room_eq_six {threshold i : Nat} : room threshold i = 6 ↔ i + 5 < threshold := by
  unfold room
  split
  · omega
  · split
    · omega
    · split <;> omega

theorem room_le (threshold i : Nat) : room threshold i ≤ 3 ∨ room threshold i = 6 := by
  unfold room
  split
  · exact .inl (Nat.le_refl 3)
  · split
    · exact .inr rfl
    · split
      · exact .inl (Nat.le_refl 3)
      · exact .inl (by decide)

/-- **`load_file` overwrites free lines only**, exactly if it reads three lines of the
file at most, or there is no second frame behind the first free one, or that
frame begins with a free line. -/
theorem overwrites_free {content filename : Text} {pid r : Nat} {pcb : PCB} {m' : Store}
    (h : Reached ho place k)
    (hload : loadFile ho.frameStoreSize content filename (makePCB pid) k.store = some (r, pcb,
      m')) :
    (∀ (j : Nat) (s : Slot), k.store.lines[j]? = some s → m'.lines[j]? ≠ some s →
      str s.var = "none".toList) ↔
    ∀ i, k.store.findAvailableSlot ho.frameStoreSize = some (some i) → (reads content).length ≤ 3 ∨
      ho.frameStoreSize ≤ i + 5 ∨ ∀ s, k.store.lines[i + 3]? = some s → str s.var = "none".toList := by
  have hstore := h.sound.store
  obtain ⟨hslot, -, rfl⟩ | ⟨i, hslot, -, -, hput⟩ := Store.loadFile_cases hload
  · rw [hslot]
    exact iff_of_true (fun j s hs hne => absurd hs hne) fun i hi => by cases hi
  obtain ⟨hi, hdvd, hfree⟩ := Store.findAvailableSlot_some hslot
  rw [hslot]
  obtain ⟨-, -, -, hget⟩ := Store.putLines_get hput
  rw [List.length_take] at hget
  constructor
  · intro hfreeOnly i' hi'
    cases hi'
    by_contra hno
    simp only [not_or, Nat.not_le, not_forall] at hno
    obtain ⟨hlong, hroom, s, hs, hused⟩ := hno
    refine hused (hfreeOnly (i + 3) s hs fun hsame => ?_)
    -- its stamp is a new one
    rw [hget, room_eq_six.2 hroom, if_pos (by omega)] at hsame
    have hle := hstore.accessed.le (i + 3)
    rw [Store.stamp_of_get hs, ← Option.some.inj hsame] at hle
    simp only at hle
    omega
  · intro hcond j s hs hne
    rw [hget] at hne
    split at hne
    · next hj =>
      by_cases hfirst : j < i + 3
      · obtain ⟨s', hs', hvar⟩ := hfree (j - i) (by omega)
        rw [show i + (j - i) = j by omega] at hs'
        rwa [Option.some.inj (hs.symm.trans hs')]
      · obtain hroom | hroom := room_le ho.frameStoreSize i
        · omega
        · have hend := room_eq_six.1 hroom
          obtain hlen | hlen | hnext := hcond i rfl
          · omega
          · omega
          · -- the lines behind a free first line are free
            have hnot : ¬ k.store.Holds (i + 3) :=
              fun ⟨s', hs', hloaded⟩ => hloaded.var_ne (hnext s' hs')
            have hnot₁ : ¬ k.store.Holds (i + 4) :=
              fun hold => hnot (hstore.first (i + 4) (by omega) (by omega) hold)
            have hnot₂ : ¬ k.store.Holds (i + 5) :=
              fun hold => hnot₁ (hstore.first (i + 5) (by omega) (by omega) hold)
            have hj : ¬ k.store.Holds j := by
              obtain rfl | rfl | rfl : j = i + 3 ∨ j = i + 4 ∨ j = i + 5 := by omega
              · exact hnot
              · exact hnot₁
              · exact hnot₂
            exact ((hstore.frames j s (by omega) hs).resolve_left fun hloaded => hj ⟨s, hs,
              hloaded⟩).var_eq
    · exact absurd hs hne

/-- The lines of another process stay where they are. -/
theorem overwrites_free_loaded : ∃ place k r pcb m' s, Reached (smallHost 12) place k ∧
    k.store.lines[0]? = some s ∧ s.var = some "backing_store/prog0".toList ∧
    loadFile 12 "help\nhelp\nhelp\nhelp".toList "backing_store/prog1".toList (makePCB 2) k.store =
    some (r, pcb, m') ∧
    ∀ (j : Nat) (s : Slot), k.store.lines[j]? = some s → m'.lines[j]? ≠ some s →
      str s.var = "none".toList := by
  have hrun : (batches (smallHost 12) [(["c".toList], .fcfs, 0)] .prompt
    (start (smallHost 12) [("c".toList, "help\nhelp".toList)])).map
      (fun r => decide ((r.2.store.lines[0]?.map Slot.var) = some (some "backing_store/prog0".toList) ∧
        r.2.store.findAvailableSlot 12 = some (some 3) ∧
        (r.2.store.lines[6]?.map fun s => str s.var) = some "none".toList ∧
        (loadFile 12 "help\nhelp\nhelp\nhelp".toList "backing_store/prog1".toList
          (makePCB 2) r.2.store).isSome)) =
      some true := by
    decide +kernel
  obtain ⟨place, k, hreached, hk⟩ := exists_reached (.start _) hrun
  simp only [decide_eq_true_eq, Option.map_eq_some_iff, Option.isSome_iff_exists] at hk
  obtain ⟨⟨s, hs, hvar⟩, hslot, ⟨s₆, hs₆, hfree⟩, ⟨⟨r, pcb, m'⟩, hload⟩⟩ := hk
  refine ⟨place, k, r, pcb, m', s, hreached, hs, hvar, hload, (overwrites_free hreached hload).2
    fun i hi => .inr (.inr ?_)⟩
  obtain rfl : 3 = i := by simpa using hslot.symm.trans hi
  intro s' hs'
  rwa [← Option.some.inj (hs₆.symm.trans hs')]

/-- Files of four lines and of six, the last of them with its newline. -/
def holeFiles : List (Text × Text) :=
  [("b".toList, "help\nhelp\nhelp\nhelp".toList),
    ("a".toList, "help\nhelp\nhelp\nhelp\nhelp\nhelp\n".toList)]

/-- The first file leaves a hole in frame 0 as it ends, and its second page in frame 3;
the second file is loaded over both. -/
theorem page_overwritten : ∃ place k r pcb m' s, Reached (smallHost 6) place k ∧
    loadFile 6 "help\nhelp\nhelp\nhelp".toList "backing_store/prog1".toList (makePCB 2) k.store =
    some (r, pcb, m') ∧
    k.store.lines[3]? = some s ∧ m'.lines[3]? ≠ some s ∧ s.var = some "backing_store/prog0".toList := by
  have hrun : (batches (smallHost 6) [(["a".toList], .fcfs, 13)] .prompt
    (start (smallHost 6) holeFiles)).map (fun r =>
      decide ((r.2.store.lines[3]?.map Slot.var) = some (some "backing_store/prog0".toList) ∧
        ((loadFile 6 "help\nhelp\nhelp\nhelp".toList "backing_store/prog1".toList
          (makePCB 2) r.2.store).map
          fun r => (r.2.2.lines[3]?.map Slot.var)) =
            some (some (some "backing_store/prog1".toList)))) = some true := by
    decide +kernel
  obtain ⟨place, k, hreached, hk⟩ := exists_reached (.start _) hrun
  simp only [decide_eq_true_eq, Option.map_eq_some_iff] at hk
  obtain ⟨⟨s, hs, hvar⟩, ⟨r, pcb, m'⟩, hload, s', hs', hvar'⟩ := hk
  refine ⟨place, k, r, pcb, m', s, hreached, hload, hs, fun hsame => ?_, hvar⟩
  rw [Option.some.inj (hsame.symm.trans hs'), hvar'] at hvar
  exact absurd hvar (by decide)

/-! ## Pages that `load_file` counts -/

theorem lines_shape :
    ∀ {s l : Text}, l ∈ lines s → l ≠ [] ∧ ∃ t, '\n' ∉ t ∧ (l = t ∨ l = t ++ ['\n'])
  | [], _, h => by simp [lines] at h
  | c :: s, l, h => by
    rw [lines] at h
    by_cases hc : c = '\n'
    · rw [if_pos hc, List.mem_cons] at h
      obtain rfl | h := h
      · exact ⟨List.cons_ne_nil _ _, [], List.not_mem_nil, .inr (by rw [hc]; rfl)⟩
      · exact lines_shape h
    · rw [if_neg hc] at h
      cases hs : lines s with
      | nil =>
        rw [hs] at h
        obtain rfl := List.mem_singleton.1 h
        exact ⟨List.cons_ne_nil _ _, [c], by simpa using Ne.symm hc, .inl rfl⟩
      | cons l₁ ls =>
        rw [hs, List.mem_cons] at h
        obtain rfl | h := h
        · obtain ⟨-, t, ht, hl⟩ := lines_shape (s := s) (l := l₁) (by rw [hs]; exact List.mem_cons_self)
          refine ⟨List.cons_ne_nil _ _, c :: t, by simp [ht, Ne.symm hc],
            hl.imp (fun h => by rw [h]) fun h => by rw [h]; rfl⟩
        · exact lines_shape (by rw [hs]; exact List.mem_cons_of_mem _ h)

theorem flatten_lines : ∀ s : Text, (lines s).flatten = s
  | [] => rfl
  | c :: s => by
    have ih := flatten_lines s
    rw [lines]
    by_cases hc : c = '\n'
    · rw [if_pos hc, List.flatten_cons, ih]
      rfl
    · rw [if_neg hc]
      cases hs : lines s with
      | nil =>
        rw [lines_eq_nil.1 hs]
        rfl
      | cons l ls =>
        rw [hs] at ih
        simp only [List.flatten_cons, List.cons_append] at ih ⊢
        rw [ih]

theorem reads_eq_lines :
    ∀ {ls : List Text} {s : Text}, lines s = ls → (∀ l ∈ ls, l.length ≤ 99) → reads s = ls
  | [], s, h, _ => by rw [lines_eq_nil.1 h, reads]
  | l :: ls, s, h, hshort => by
    obtain ⟨hfirst, hrest⟩ := readLine_lines h (hshort l List.mem_cons_self)
    cases s with
    | nil => simp [lines] at h
    | cons c s =>
      rw [reads, hfirst, reads_eq_lines hrest fun l hl => hshort l (List.mem_cons_of_mem _ hl)]

/-- Where the lines are shorter than 99 characters, the end is met with the last of
them exactly if it has no newline. -/
theorem ended_lines {content : Text}
    (hshort : ∀ l ∈ lines content, (l.takeWhile (· ≠ '\n')).length < 99) (hne : content ≠ []) :
    reads content = lines content ∧ (ended (lines content) = true ↔ content.getLast? = some '\n') := by
  have hfits : ∀ l ∈ lines content, l.length ≤ 99 ∧ (full l = true ↔ l.getLast? = some '\n') :=
    fun l hl => by
    have hlen := hshort l hl
    obtain ⟨-, t, ht, hl⟩ := lines_shape hl
    have htake : t.takeWhile (· ≠ '\n') = t := by
      rw [List.takeWhile_eq_self_iff]
      intro c hc
      simpa using ne_of_mem_of_not_mem hc ht
    obtain rfl | rfl := hl
    · rw [htake] at hlen
      refine ⟨Nat.le_of_lt hlen, ?_⟩
      simp only [full, Bool.or_eq_true, decide_eq_true_eq]
      exact ⟨fun h => h.resolve_left (Nat.ne_of_lt hlen), .inr⟩
    · rw [List.takeWhile_append_of_pos (by simpa using fun c hc => ne_of_mem_of_not_mem hc ht)] at hlen
      simp only [ne_eq, not_true_eq_false, decide_false, Bool.false_eq_true, not_false_eq_true,
        List.takeWhile_cons_of_neg, List.append_nil] at hlen
      refine ⟨by simp; omega, by simp [full]⟩
  refine ⟨reads_eq_lines rfl fun l hl => (hfits l hl).1, ?_⟩
  have hlines : lines content ≠ [] := fun h => hne (lines_eq_nil.1 h)
  obtain ⟨front, l, hl⟩ : ∃ front l, lines content = front ++ [l] :=
    ⟨_, _, (List.dropLast_append_getLast hlines).symm⟩
  have hmem : l ∈ lines content := by rw [hl]; simp
  have hlast : content.getLast? = l.getLast? := by
    conv_lhs => rw [← flatten_lines content, hl]
    rw [List.flatten_append, List.flatten_singleton,
      List.getLast?_append_of_ne_nil _ (lines_shape hmem).1]
  rw [hlast, ended, hl, List.getLast?_concat]
  exact (hfits l hmem).2

/-- **The page counter** of a new process is the number of its pages in memory,
rounded up, exactly if the lines loaded fill their pages or the file does not
end with a newline. -/
theorem page_counter {threshold pid : Nat} {content filename : Text} {m m' : Store} {pcb : PCB}
    (hshort : ∀ l ∈ lines content, (l.takeWhile (· ≠ '\n')).length < 99)
    (hload : loadFile threshold content filename (makePCB pid) m = some (0, pcb, m')) :
    ∃ i n, m.findAvailableSlot threshold = some (some i) ∧
      n = min (room threshold i) (lines content).length ∧
      m.putLines filename ((lines content).take n) i = some m' ∧
      ((pcb.pageCounter = (n + 2) / 3 ∧ (∀ j, j < (n + 2) / 3 → pcb.pagetable[j]? = some true) ∧
        ∀ page, page ≤ (n + 2) / 3 → ¬ pcb.pageCounter < page) ↔
      n % 3 = 0 ∨ content.getLast? ≠ some '\n') := by
  obtain ⟨-, hr, -⟩ | ⟨i, hslot, -, rfl, hput⟩ := Store.loadFile_cases hload
  · cases hr
  obtain ⟨hreads, hended⟩ : reads content = lines content ∧
      (lines content ≠ [] → (ended (lines content) = true ↔ content.getLast? = some '\n')) := by
    by_cases hne : content = []
    · subst hne
      exact ⟨by rw [reads, lines], fun h => absurd rfl h⟩
    · exact ⟨(ended_lines hshort hne).1, fun _ => (ended_lines hshort hne).2⟩
  rw [hreads] at hput ⊢
  refine ⟨i, _, hslot, rfl, ?_, ?_⟩
  · rwa [← List.take_eq_take_min]
  have hle := Nat.min_le_right (room threshold i) (lines content).length
  generalize hn : min (room threshold i) (lines content).length = n at hle
  generalize hpcb : loadedPCB pid i filename (lines content) (room threshold i) = pcb
  have hcount : pcb.pageCounter = n / 3 + if n % 3 ≠ 0 && !ended (lines content) then 1 else 0 := by
    rw [← hpcb, ← hn]
    rfl
  have htable : pcb.pagetable = List.replicate pcb.pageCounter true ++
      List.replicate (maxPages - pcb.pageCounter) false := by
    rw [← hpcb]
    rfl
  have hall (hpages : pcb.pageCounter = (n + 2) / 3) : pcb.pageCounter = (n + 2) / 3 ∧
      (∀ j, j < (n + 2) / 3 → pcb.pagetable[j]? = some true) ∧ ∀ page, page ≤ (n + 2) / 3 →
      ¬ pcb.pageCounter < page := by
    refine ⟨hpages, fun j hj => ?_, fun page hpage => by omega⟩
    rw [htable, hpages, List.getElem?_append_left (by simpa using hj)]
    simp [hj]
  by_cases hmod : n % 3 = 0
  · refine iff_of_true (hall ?_) (.inl hmod)
    rw [hcount, if_neg (by simp [hmod])]
    omega
  · have hends := hended (List.ne_nil_of_length_pos (by omega))
    by_cases hlast : content.getLast? = some '\n'
    · -- the end is not met with the last line, and its page is not counted
      rw [if_neg (by simp [hends.2 hlast])] at hcount
      exact iff_of_false (fun h => by omega) fun h => h.elim hmod fun h => h hlast
    · refine iff_of_true (hall ?_) (.inr hlast)
      rw [hcount, if_pos (by simp [hmod, mt hends.1 hlast])]
      omega

/-- Five lines, the last of them without a newline, are two pages. -/
theorem page_counter_five : ∃ pcb m' i n,
    loadFile 18 "help\nset x y\nhelp\nprint x\nhelp".toList "p".toList (makePCB 1) (memInit 18 10) =
    some (0, pcb, m') ∧
    n = 5 ∧ (memInit 18 10).findAvailableSlot 18 = some (some i) ∧ pcb.pageCounter = (n + 2) / 3 ∧
    (∀ j, j < (n + 2) / 3 → pcb.pagetable[j]? = some true) ∧ ∀ page, page ≤ (n + 2) / 3 →
    ¬ pcb.pageCounter < page := by
  have hload : (loadFile 18 "help\nset x y\nhelp\nprint x\nhelp".toList "p".toList (makePCB 1)
    (memInit 18 10)).map Prod.fst =
      some 0 := by decide +kernel
  obtain ⟨⟨_, pcb, m'⟩, hload, rfl⟩ := Option.map_eq_some_iff.1 hload
  obtain ⟨i, n, hslot, hn, -, hpages⟩ := page_counter (by decide) hload
  have hroom : room 18 0 = 6 := rfl
  obtain rfl : i = 0 := by
    have : (memInit 18 10).findAvailableSlot 18 = some (some 0) := by decide +kernel
    simpa using hslot.symm.trans this
  obtain ⟨hcount, htable, hfault⟩ := hpages.2 (.inr (by decide))
  exact ⟨pcb, m', 0, n, hload, hn, hslot, hcount, htable, hfault⟩

/-- A line with its newline: it is loaded, and its page is not counted. -/
theorem page_not_counted : ∃ pcb m' s, loadFile 18 "help\n".toList "p".toList (makePCB 1)
    (memInit 18 10) = some (0, pcb, m') ∧
    m'.lines[0]? = some s ∧ s.var = some "p".toList ∧ s.value = some "help\n".toList ∧
    pcb.pageCounter = 0 ∧ pcb.pageCounter < pcb.currentPage := by
  have hload : (loadFile 18 "help\n".toList "p".toList (makePCB 1) (memInit 18 10)).map (fun r =>
      decide (r.1 = 0 ∧ r.2.1.pageCounter = 0 ∧ r.2.1.currentPage = 1 ∧
        r.2.2.lines[0]?.map (fun s => (s.var, s.value)) =
        some (some "p".toList, some "help\n".toList))) = some true := by
    decide +kernel
  obtain ⟨⟨r, pcb, m'⟩, hload, h⟩ := Option.map_eq_some_iff.1 hload
  obtain ⟨hr, hcount, hpage, hline⟩ := of_decide_eq_true h
  simp only at hr hcount hpage hline
  obtain ⟨s, hs, hline⟩ := Option.map_eq_some_iff.1 hline
  subst hr
  obtain ⟨hvar, hvalue⟩ := Prod.mk.inj hline
  exact ⟨pcb, m', s, hload, hs, hvar, hvalue, hcount, by omega⟩

/-! ## Entries that are written -/

/-- The entries of the page table that `load_file` writes in its loop over lines. -/
def pageEntries : Nat → Loading → List Nat
  | 0, _ => []
  | n + 1, s =>
    if ¬ s.linesLoaded < 6 ∨ s.file.eof then []
    else match s.file.fgets with
      | (none, file) => pageEntries n { s with file := file }
      | (some line, file) =>
        match s.store.putLine s.pcb.filename line s.frameIndex with
        | none => []
        | some store =>
          let s := { s with
            store := store, file := file
            frameIndex := s.frameIndex + 1, linesLoaded := s.linesLoaded + 1 }
          if s.linesLoaded % 3 = 0 ∨ file.eof then
            s.pcb.pageCounter :: match s.pcb.countPage with
              | none => []
              | some pcb =>
                pageEntries n { s with
                  pcb := pcb, loadNextPage := s.loadNextPage && pcb.pageCounter ≠ 2 }
          else pageEntries n s

/-- Those it writes in its loop over pages. -/
def pagesEntries (threshold : Nat) : Nat → Loading → List Nat
  | 0, _ => []
  | n + 1, s =>
    if ¬ s.file.eof ∧ s.loadNextPage ∧ (threshold < 2 ∨ s.frameIndex < threshold - 2) then
      pageEntries 3 s ++ match loadPage 3 s with
        | none => []
        | some s => if threshold < s.frameIndex then [] else pagesEntries threshold n s
    else []

/-- The entries that `load_file` writes. -/
def fileEntries (threshold : Nat) (content filename : Text) (pcb : PCB) (m : Store) : List Nat :=
  match m.findAvailableSlot threshold with
  | some (some i) =>
    pagesEntries threshold 3
      ⟨m, { pcb.place i with filename := filename }, ⟨content, false⟩, i, 0, true⟩
  | _ => []

/-- The entry that `load_frame` writes, once the lines are in their frame. -/
def frameEntries (threshold : Nat) (content : Option Text) (pcb : PCB) (m : Store) : List Nat :=
  match content.bind fun content => skipLines (pcb.pageCounter * 3) ⟨content, false⟩,
    m.findAvailableSlot threshold with
  | some file, some (some i) =>
    match fillFrame 3 ⟨m, pcb.place i, file, i, 0, true⟩ with
    | none => []
    | some s => [s.pcb.pageCounter]
  | _, _ => []

/-- The entries that a page fault writes. -/
def faultEntries (threshold : Nat) (content : Option Text) (pcb : PCB) (m : Store) : List Nat :=
  frameEntries threshold content pcb m ++
    match loadFrame threshold content pcb m with
    | none => []
    | some (error, pcb, m) =>
      if error = -1 then
        match removeFrame threshold content pcb m with
        | none => []
        | some (error, pcb, m) =>
          (if error = 0 then [0] else []) ++ frameEntries threshold content pcb m
      else []

theorem countPage_pagetable {pcb pcb' : PCB} (h : pcb.countPage = some pcb') :
    pcb'.pagetable = pcb.pagetable.set pcb.pageCounter true ∧
    pcb'.pageCounter = pcb.pageCounter + 1 := by
  unfold PCB.countPage at h
  split at h
  · cases h
    exact ⟨rfl, rfl⟩
  · cases h

/-- A page goes on from the entry that is next, and leaves the entries it does not write. -/
theorem pageEntries_spec :
    ∀ {n : Nat} {s : Loading}, (∀ j ∈ pageEntries n s, j < s.pcb.pageCounter + n) ∧
    ∀ s', loadPage n s = some s' → s'.pcb.pageCounter ≤ s.pcb.pageCounter + n ∧
      ∀ j, j ∉ pageEntries n s → s'.pcb.pagetable[j]? = s.pcb.pagetable[j]?
  | 0, s => by
    refine ⟨fun j hj => absurd hj List.not_mem_nil, fun s' h => ?_⟩
    cases h
    exact ⟨Nat.le_refl _, fun j _ => rfl⟩
  | n + 1, s => by
    rw [pageEntries, loadPage]
    split
    · refine ⟨fun j hj => absurd hj List.not_mem_nil, fun s' h => ?_⟩
      cases h
      exact ⟨Nat.le_add_right _ _, fun j _ => rfl⟩
    · cases hget : s.file.fgets with
      | mk line file =>
        cases line with
        | none =>
          obtain ⟨hentries, hpage⟩ := pageEntries_spec (n := n) (s := { s with file := file })
          exact ⟨fun j hj => Nat.lt_succ_of_lt (hentries j hj),
            fun s' h => ⟨Nat.le_succ_of_le (hpage s' h).1, (hpage s' h).2⟩⟩
        | some line =>
          simp only
          cases s.store.putLine s.pcb.filename line s.frameIndex with
          | none => exact ⟨fun j hj => absurd hj List.not_mem_nil, fun s' h => by cases h⟩
          | some store =>
            simp only [Option.bind_eq_bind, Option.bind_some]
            split
            · cases hpcb : s.pcb.countPage with
              | none =>
                refine ⟨fun j hj => ?_, fun s' h => by cases h⟩
                rw [List.mem_singleton.1 hj]
                omega
              | some pcb =>
                obtain ⟨htable, hnext⟩ := countPage_pagetable hpcb
                simp only [Option.bind_some]
                generalize hs : ({ s with
                  store := store, pcb := pcb, file := file
                  frameIndex := s.frameIndex + 1, linesLoaded := s.linesLoaded + 1
                  loadNextPage := s.loadNextPage && pcb.pageCounter ≠ 2 } : Loading) = s₁
                obtain ⟨hentries, hpage⟩ := pageEntries_spec (n := n) (s := s₁)
                rw [show s₁.pcb = pcb by rw [← hs], hnext, htable] at hpage
                rw [show s₁.pcb = pcb by rw [← hs], hnext] at hentries
                refine ⟨fun j hj => ?_, fun s' h => ⟨?_, fun j hj => ?_⟩⟩
                · obtain rfl | hj := List.mem_cons.1 hj
                  · omega
                  · have := hentries j hj
                    omega
                · have := (hpage s' h).1
                  omega
                · obtain ⟨hne, hnot⟩ := List.ne_and_not_mem_of_not_mem_cons hj
                  rw [(hpage s' h).2 j hnot, List.getElem?_set_ne hne.symm]
            · generalize hs : ({ s with
                store := store, file := file
                frameIndex := s.frameIndex + 1, linesLoaded := s.linesLoaded + 1 } : Loading) = s₁
              obtain ⟨hentries, hpage⟩ := pageEntries_spec (n := n) (s := s₁)
              rw [show s₁.pcb = s.pcb by rw [← hs]] at hentries hpage
              exact ⟨fun j hj => Nat.lt_succ_of_lt (hentries j hj),
                fun s' h => ⟨Nat.le_succ_of_le (hpage s' h).1, (hpage s' h).2⟩⟩

theorem pagesEntries_spec (threshold : Nat) : ∀ {n : Nat} {s : Loading},
    (∀ j ∈ pagesEntries threshold n s, j < s.pcb.pageCounter + 3 * n) ∧
    ∀ r s', loadPages threshold n s = some (r, s') →
      ∀ j, j ∉ pagesEntries threshold n s → s'.pcb.pagetable[j]? = s.pcb.pagetable[j]?
  | 0, s => ⟨fun j hj => absurd hj List.not_mem_nil, fun r s' h => by cases h⟩
  | n + 1, s => by
    obtain ⟨hentries, hpage⟩ := pageEntries_spec (n := 3) (s := s)
    rw [pagesEntries, loadPages]
    split
    · cases hload : loadPage 3 s with
      | none =>
        simp only [List.append_nil]
        exact ⟨fun j hj => Nat.lt_of_lt_of_le (hentries j hj) (by omega), fun r s' h => by cases h⟩
      | some s₁ =>
        obtain ⟨hcount, hsame⟩ := hpage s₁ hload
        simp only [Option.bind_eq_bind, Option.bind_some]
        split
        · simp only [List.append_nil]
          refine ⟨fun j hj => Nat.lt_of_lt_of_le (hentries j hj) (by omega), fun r s' h => ?_⟩
          cases h
          exact hsame
        · obtain ⟨hrest, hpages⟩ := pagesEntries_spec threshold (n := n) (s := s₁)
          refine ⟨fun j hj => ?_, fun r s' h j hj => ?_⟩
          · obtain hj | hj := List.mem_append.1 hj
            · have := hentries j hj
              omega
            · have := hrest j hj
              omega
          · obtain ⟨hfirst, hnot⟩ := not_or.1 (mt List.mem_append.2 hj)
            rw [hpages r s' h j hnot, hsame j hfirst]
    · refine ⟨fun j hj => absurd hj List.not_mem_nil, fun r s' h => ?_⟩
      cases h
      exact fun j _ => rfl

/-- **`load_file` stays within the page table** of a new process, and leaves the entries it
does not write. -/
theorem fileEntries_spec {threshold pid : Nat} {content filename : Text} {m : Store} :
    (∀ j ∈ fileEntries threshold content filename (makePCB pid) m, j < maxPages) ∧
    ∀ r pcb m', loadFile threshold content filename (makePCB pid) m = some (r, pcb, m') →
      ∀ j, j ∉ fileEntries threshold content filename (makePCB pid) m →
        pcb.pagetable[j]? = (makePCB pid).pagetable[j]? := by
  unfold fileEntries loadFile
  cases m.findAvailableSlot threshold with
  | none => exact ⟨fun j hj => absurd hj List.not_mem_nil, fun r pcb m' h => by cases h⟩
  | some slot =>
    cases slot with
    | none =>
      refine ⟨fun j hj => absurd hj List.not_mem_nil, fun r pcb m' h => ?_⟩
      cases h
      exact fun j _ => rfl
    | some i =>
      obtain ⟨hentries, hpages⟩ := pagesEntries_spec threshold (n := 3)
        (s := ⟨m, { (makePCB pid).place i with filename := filename }, ⟨content, false⟩, i, 0, true⟩)
      refine ⟨fun j hj => Nat.lt_of_lt_of_le (hentries j hj) (show 0 + 3 * 3 ≤ 10 by decide),
        fun r pcb m' h => ?_⟩
      simp only [Option.bind_eq_bind, Option.bind_some] at h
      obtain ⟨⟨error, s⟩, hload, h⟩ := Option.bind_eq_some_iff.1 h
      cases h
      exact hpages _ _ hload

namespace Store

variable {threshold i : Nat} {m m' : Store}

theorem putLines_isSome {filename : Text} :
    ∀ {ls : List Text} {i : Nat} {m : Store}, i + ls.length ≤ m.lines.length →
    (m.putLines filename ls i).isSome
  | [], _, _, _ => rfl
  | l :: ls, i, m, h => by
    rw [List.length_cons] at h
    rw [putLines, putLine, if_pos (by omega)]
    exact putLines_isSome (by rw [List.length_set]; omega)

theorem putLines_slot (filename : Text) (ls : List Text)
    (h : m.findAvailableSlot threshold = some (some i)) :
    (m.putLines filename (ls.take 3) i).isSome := by
  obtain ⟨s, hs, -⟩ := (findAvailableSlot_some h).2.2 2 (by decide)
  have := (List.getElem?_eq_some_iff.1 hs).1
  refine putLines_isSome ?_
  rw [List.length_take]
  omega

/-- Once a frame is freed, there is a free one. -/
theorem findAvailableSlot_freed (hm : m.Stamped) (hfull : m.findAvailableSlot threshold = some none)
    (hi : i ∈ frameStarts threshold) (hrange : i + 2 < m.lines.length)
    (hfree : m.memFreeLines [i, i + 1, i + 2] = some m') :
    m'.findAvailableSlot threshold = some (some i) := by
  obtain ⟨-, -, -, hget⟩ := hm.memFreeLines (fun j hj => by simp at hj; omega) hfree
  have hnone : ∀ d, d < 3 → (m'.lines[i + d]?).map (fun s => str s.var) = some "none".toList :=
    fun d hd => by
    have := hget (i + d)
    rw [if_pos (by simp; omega)] at this
    obtain ⟨s, hs, hbare⟩ := this
    rw [hs, Option.map_some, hbare.var_eq]
  have hself : m'.frameFree i = some true := by
    obtain ⟨s₀, hs₀, h₀⟩ := Option.map_eq_some_iff.1 (hnone 0 (by decide))
    obtain ⟨s₁, hs₁, h₁⟩ := Option.map_eq_some_iff.1 (hnone 1 (by decide))
    obtain ⟨s₂, hs₂, h₂⟩ := Option.map_eq_some_iff.1 (hnone 2 (by decide))
    rw [Nat.add_zero] at hs₀
    simp only [frameFree, hs₀, hs₁, hs₂, h₀, h₁, h₂, Option.bind_eq_bind, Option.bind_some,
      not_true_eq_false, if_false, ne_eq, decide_true, Option.pure_def]
  have hother : ∀ j ∈ frameStarts threshold, j ≠ i → m'.frameFree j = m.frameFree j :=
    fun j hj hne => by
    have hdvd := (mem_frameStarts.1 hi).2
    have hdvd' := (mem_frameStarts.1 hj).2
    have hsame : ∀ d, d < 3 → m'.lines[j + d]? = m.lines[j + d]? := fun d hd => by
      have := hget (j + d)
      rwa [if_neg (by simp; omega)] at this
    have h₀ := hsame 0 (by decide)
    rw [Nat.add_zero] at h₀
    simp only [frameFree, h₀, hsame 1 (by decide), hsame 2 (by decide)]
  unfold findAvailableSlot at hfull ⊢
  have hnot := firstFree_none _ hfull
  revert hi hother hnot
  generalize frameStarts threshold = is
  intro hi hother hnot
  clear hfull
  induction is with
  | nil => cases hi
  | cons j is ih =>
    by_cases hj : j = i
    · rw [hj, firstFree, hself]
      rfl
    · rw [firstFree, hother j List.mem_cons_self hj, hnot j List.mem_cons_self]
      exact ih (List.mem_of_ne_of_mem (Ne.symm hj) hi)
        (fun j hj => hother j (List.mem_cons_of_mem _ hj))
        fun j hj => hnot j (List.mem_cons_of_mem _ hj)

/-- There is a frame for a page: a free one, or a victim whose three lines can be freed. -/
def Obtains (threshold : Nat) (m : Store) : Prop :=
  (∃ i, m.findAvailableSlot threshold = some (some i)) ∨ m.findAvailableSlot threshold = some none ∧
    ∃ i, m.findReplacementSlot threshold = some (some i) ∧
      ∀ d, d < 3 → ∃ s, m.lines[i + d]? = some s ∧ s.var.isSome ∧ s.value.isSome

end Store

theorem frameEntries_eq {threshold : Nat} {content : Text} {pcb : PCB} {m : Store} :
    frameEntries threshold (some content) pcb m =
      match m.findAvailableSlot threshold with
      | some (some _) => if atEnd (reads content) (pcb.pageCounter * 3) then [] else [pcb.pageCounter]
      | _ => [] := by
  obtain ⟨rest, hrest, hskip⟩ := skipLines_eq (n := pcb.pageCounter * 3) (s := content) rfl
  unfold frameEntries
  rw [Option.bind_some, hskip]
  cases hend : atEnd (reads content) (pcb.pageCounter * 3) with
  | true =>
    rw [if_pos rfl]
    cases m.findAvailableSlot threshold with
    | none => rfl
    | some slot => cases slot <;> rfl
  | false =>
    rw [if_neg Bool.false_ne_true]
    cases hslot : m.findAvailableSlot threshold with
    | none => rfl
    | some slot =>
      cases slot with
      | none => rfl
      | some i =>
        obtain ⟨file, hfill⟩ :=
          fillFrame_eq (n := 3) (s := ⟨m, pcb.place i, ⟨rest, false⟩, i, 0, true⟩) rfl hrest
        obtain ⟨store, hput⟩ := Option.isSome_iff_exists.1 (Store.putLines_slot (pcb.place i).filename
          ((reads content).drop (pcb.pageCounter * 3)) hslot)
        simp only [hfill, hput, Option.map_some]
        rfl

/-- **`remove_frame`** frees the victim, if its lines can be freed. -/
theorem removeFrame_some {threshold : Nat} {content : Text} {pcb pcb' : PCB} {m m' : Store} {r : Int}
    (hsize : threshold ≤ m.lines.length) :
    removeFrame threshold (some content) pcb m = some (r, pcb', m') ↔
    ∃ i, m.findReplacementSlot threshold = some (some i) ∧
      i ∈ Store.frameStarts threshold ∧ i + 2 < m.lines.length ∧ m.memFreeLines [i, i + 1, i + 2] =
      some m' ∧
      r = 0 ∧ pcb' = { pcb.place i with pagetable := pcb.pagetable.set 0 false } := by
  constructor
  · intro h
    obtain ⟨i, hslot, hrange, hfree, hr, hpcb'⟩ := removeFrame_cases h
    have hmem := hslot
    rw [Store.findReplacementSlot_eq hsize, Option.some.injEq] at hmem
    exact ⟨i, hslot, (Clock.oldest_spec hmem).1, hrange, hfree, hr, hpcb'⟩
  · rintro ⟨i, hslot, -, hrange, hfree, rfl, rfl⟩
    unfold removeFrame
    simp only [hslot, hfree, List.getElem?_eq_getElem hrange,
      List.getElem?_eq_getElem (Nat.lt_of_succ_lt hrange),
      Option.bind_eq_bind, Option.bind_some, Option.pure_def]

theorem removeFrame_isSome {threshold : Nat} {content : Text} {pcb : PCB} {m : Store}
    (hsize : threshold ≤ m.lines.length) :
    (∃ r, removeFrame threshold (some content) pcb m = some r) ↔
    ∃ i, m.findReplacementSlot threshold = some (some i) ∧
      ∀ d, d < 3 → ∃ s, m.lines[i + d]? = some s ∧ s.var.isSome ∧ s.value.isSome := by
  have hfrees {i : Nat} (hrange : i + 2 < m.lines.length) :=
    Store.memFreeLines_isSome [i, i + 1, i + 2] (m := m) (by simp) fun j hj => by simp at hj; omega
  constructor
  · intro ⟨⟨r, pcb', m'⟩, h⟩
    obtain ⟨i, hslot, -, hrange, hfree, -⟩ := (removeFrame_some hsize).1 h
    refine ⟨i, hslot, fun d hd => (hfrees hrange).1 (Option.isSome_of_eq_some hfree) (i + d) ?_⟩
    simp
    omega
  · intro ⟨i, hslot, hlines⟩
    obtain ⟨s₂, hs₂, -⟩ := hlines 2 (by decide)
    have hrange := (List.getElem?_eq_some_iff.1 hs₂).1
    have hmem := hslot
    rw [Store.findReplacementSlot_eq hsize, Option.some.injEq] at hmem
    have hfree := (hfrees hrange).2 fun j hj => by
      obtain ⟨d, rfl⟩ : ∃ d, j = i + d := ⟨j - i, by simp at hj; omega⟩
      exact hlines d (by simp at hj; omega)
    obtain ⟨m', hfree⟩ := Option.isSome_iff_exists.1 hfree
    exact ⟨_, (removeFrame_some hsize).2 ⟨i, hslot, (Clock.oldest_spec hmem).1, hrange, hfree,
      rfl, rfl⟩⟩

/-- The entry that counts is the one `load_frame` writes, and it does so once it has the
page and a frame for it. -/
theorem faultEntries_lt {threshold : Nat} {content : Text} {pcb : PCB} {m : Store} (hm : m.Stamped)
    (hsize : threshold ≤ m.lines.length) :
    (∀ j ∈ faultEntries threshold (some content) pcb m, j < maxPages) ↔
      pcb.pageCounter < maxPages ∨ atEnd (reads content) (pcb.pageCounter * 3) = true ∨
      ¬ m.Obtains threshold := by
  unfold faultEntries
  rw [frameEntries_eq, loadFrame_eq]
  cases hend : atEnd (reads content) (pcb.pageCounter * 3) with
  | true =>
    refine iff_of_true (fun j hj => ?_) (.inr (.inl rfl))
    cases hslot : m.findAvailableSlot threshold with
    | none => simp [hslot] at hj
    | some slot => cases slot <;> simp [hslot] at hj
  | false =>
    cases hslot : m.findAvailableSlot threshold with
    | none =>
      refine iff_of_true (fun j hj => by simp at hj) (.inr (.inr fun h => ?_))
      obtain ⟨i, hi⟩ | ⟨hnone, -⟩ := h
      · simp [hslot] at hi
      · simp [hslot] at hnone
    | some slot =>
    cases slot with
    | some i =>
      have hobtains : m.Obtains threshold := .inl ⟨i, hslot⟩
      obtain ⟨store, hput⟩ := Option.isSome_iff_exists.1 (Store.putLines_slot pcb.filename
        ((reads content).drop (pcb.pageCounter * 3)) hslot)
      simp only [hput, Option.bind_some, Bool.false_eq_true, if_false, hobtains, not_true_eq_false,
        or_false]
      cases hcount : (pcb.place i).countPage <;> simp
    | none =>
      simp only [Option.bind_some, Bool.false_eq_true, if_false, false_or, List.nil_append]
      cases hremove : removeFrame threshold (some content) pcb m with
      | none =>
        refine iff_of_true (fun j hj => by simp at hj) (.inr fun h => ?_)
        obtain ⟨i, hi⟩ | ⟨-, hvictim⟩ := h
        · simp [hslot] at hi
        · obtain ⟨r, hr⟩ : ∃ r, removeFrame threshold (some content) pcb m = some r :=
            (removeFrame_isSome hsize).2 hvictim
          cases hremove.symm.trans hr
      | some r =>
        have hobtains : m.Obtains threshold := .inr ⟨hslot, (removeFrame_isSome hsize).1 ⟨r, hremove⟩⟩
        obtain ⟨r, pcb', m'⟩ := r
        obtain ⟨i, -, hmem, hrange, hfree, rfl, rfl⟩ := (removeFrame_some hsize).1 hremove
        simp only [if_true]
        rw [frameEntries_eq, Store.findAvailableSlot_freed hm hslot hmem hrange hfree]
        simp only [PCB.place, hend, Bool.false_eq_true, if_false, hobtains, not_true_eq_false,
          or_false, List.cons_append, List.nil_append, List.forall_mem_cons]
        exact ⟨fun h => h.2.1, fun h => ⟨by decide, h, fun j hj => absurd hj List.not_mem_nil⟩⟩

theorem loadFrame_entries {threshold : Nat} {content : Option Text} {pcb pcb' : PCB} {m m' : Store}
    {r : Int} (hload : loadFrame threshold content pcb m = some (r, pcb', m')) :
    ∀ j, j ∉ frameEntries threshold content pcb m → pcb'.pagetable[j]? = pcb.pagetable[j]? := by
  cases content with
  | none => cases hload
  | some content =>
    intro j hj
    rw [loadFrame_eq] at hload
    rw [frameEntries_eq] at hj
    split at hload
    · cases hload
      rfl
    · next hend =>
      obtain ⟨slot, hslot, hload⟩ := Option.bind_eq_some_iff.1 hload
      cases slot with
      | none =>
        cases hload
        rfl
      | some i =>
        obtain ⟨store, -, hload⟩ := Option.bind_eq_some_iff.1 hload
        obtain ⟨pcb₁, hcount, hload⟩ := Option.map_eq_some_iff.1 hload
        cases hload
        simp only [hslot, hend, Bool.false_eq_true, if_false, List.mem_singleton] at hj
        rw [(countPage_pagetable hcount).1]
        exact List.getElem?_set_ne (Ne.symm hj)

/-- A page fault leaves the entries it does not write. -/
theorem pageFault_entries {c : Ptr} {pcb : PCB} {k' : Kernel σ} {r : Int}
    (hpcb : k.pcbs.get c = some pcb) (hfault : pageFault ho c k = some (r, k')) :
    ∃ pcb', k'.pcbs.get c = some pcb' ∧
      ∀ j, j ∉ faultEntries ho.frameStoreSize (ho.fopen pcb.filename k.host) pcb k.store →
        pcb'.pagetable[j]? = pcb.pagetable[j]? := by
  obtain ⟨pcb₀, content, pcb₁, store₁, pcb', store', hpcb₀, hopen, hload, rfl, hdone⟩ :=
    pageFault_cases hfault
  obtain rfl := Option.some.inj (hpcb.symm.trans hpcb₀)
  refine ⟨pcb', by rw [Heap.get_modify_iff hpcb, if_pos rfl], fun j hj => ?_⟩
  unfold faultEntries at hj
  rw [hopen, hload] at hj
  obtain ⟨hnone, rfl, rfl⟩ | ⟨rfl, r₂, pcb₂, store₂, r₃, hremove, hagain⟩ := hdone
  · exact loadFrame_entries hload j (by simpa [hnone] using hj)
  · dsimp only at hj
    rw [if_pos rfl, hremove] at hj
    simp only [List.mem_append, not_or] at hj
    obtain ⟨hfirst, hvictim, hlast⟩ := hj
    rw [loadFrame_entries hagain j hlast, ← loadFrame_entries hload j hfirst]
    obtain ⟨i, -, -, -, rfl, rfl⟩ := removeFrame_cases hremove
    exact List.getElem?_set_ne fun h => hvictim (by simp [← h])

/-- **The page table is not overrun** as a process is made, and by a page fault exactly if
fewer than ten pages are loaded so far, or there is no eleventh page in the file, or no frame for it. -/
theorem page_table_in_range (h : Reached ho place k) :
    (∀ content filename pid,
      ∀ j ∈ fileEntries ho.frameStoreSize content filename (makePCB pid) k.store, j < maxPages) ∧
    ∀ policy p c quanta pcb, place = .executing policy p c (quanta + 1) → k.pcbs.get c = some pcb →
      pcb.pageCounter < pcb.currentPage →
      ((∀ j ∈ faultEntries ho.frameStoreSize (ho.fopen pcb.filename k.host) pcb k.store, j < maxPages) ↔
        pcb.pageCounter < maxPages ∨
        (∀ content, ho.fopen pcb.filename k.host = some content →
          skipLines (maxPages * 3) ⟨content, false⟩ = none) ∨
        ¬ k.store.Obtains ho.frameStoreSize) := by
  refine ⟨fun content filename pid => fileEntries_spec.1, fun policy p c quanta pcb _ hpcb _ => ?_⟩
  cases hopen : ho.fopen pcb.filename k.host with
  | none =>
    have hentries : faultEntries ho.frameStoreSize none pcb k.store = [] := rfl
    rw [hentries]
    exact iff_of_true (fun j hj => absurd hj List.not_mem_nil)
      (.inr (.inl fun content hcontent => by cases hcontent))
  | some content =>
    rw [faultEntries_lt h.sound.store.toStamped h.sound.frames_le]
    obtain ⟨rest, -, hskip⟩ := skipLines_eq (n := maxPages * 3) (s := content) rfl
    have hends : (∀ content', some content = some content' →
      skipLines (maxPages * 3) ⟨content', false⟩ = none) ↔
        atEnd (reads content) (maxPages * 3) = true := by
      refine ⟨fun hnone => ?_, fun hend content' hcontent => ?_⟩
      · have := hnone content rfl
        rw [hskip] at this
        by_contra hend
        rw [if_neg hend] at this
        cases this
      · obtain rfl := Option.some.inj hcontent
        rw [hskip, if_pos hend]
    rw [hends]
    obtain hlt | hten := Nat.lt_or_eq_of_le (h.sound.pcbs c pcb hpcb).2
    · exact iff_of_true (.inl hlt) (.inl hlt)
    · rw [hten]

/-- A script of so many lines. -/
def helpFiles (n : Nat) : List (Text × Text) :=
  [("a".toList, (List.replicate n "help\n".toList).flatten)]

/-- What a page fault of process `c` would write, if it has one now. -/
def faultNow (ho : Host σ) (c : Ptr) (k : Kernel σ) : Option (Nat × List Nat) :=
  match k.pcbs.get c with
  | none => none
  | some pcb =>
    if pcb.pageCounter < pcb.currentPage then
      some (pcb.pageCounter, faultEntries ho.frameStoreSize (ho.fopen pcb.filename k.host) pcb k.store)
    else none

theorem faultNow_some {c : Ptr} {n : Nat} {js : List Nat} (h : faultNow ho c k = some (n, js)) :
    ∃ pcb, k.pcbs.get c = some pcb ∧ pcb.pageCounter < pcb.currentPage ∧ pcb.pageCounter = n ∧
      faultEntries ho.frameStoreSize (ho.fopen pcb.filename k.host) pcb k.store = js := by
  unfold faultNow at h
  cases hpcb : k.pcbs.get c with
  | none =>
    rw [hpcb] at h
    cases h
  | some pcb =>
    rw [hpcb] at h
    dsimp only at h
    split at h
    · next hpage =>
      cases h
      exact ⟨pcb, rfl, hpage, rfl, rfl⟩
    · cases h

theorem page_table_in_range_first :
    ∃ policy p c quanta k pcb, Reached (smallHost 18) (.executing policy p c (quanta + 1)) k ∧
    k.pcbs.get c = some pcb ∧ pcb.pageCounter < pcb.currentPage ∧
    ∀ j ∈ faultEntries 18 ((smallHost 18).fopen pcb.filename k.host) pcb k.store, j < maxPages := by
  have hrun : (batches (smallHost 18) [(["a".toList], .fcfs, 1)] .prompt
    (start (smallHost 18) (helpFiles 1))).map
      (fun r => (r.1, (faultNow (smallHost 18) 0 r.2).map Prod.fst)) =
        some (.executing .fcfs 0 0 (2147483645 + 1), some 0) := by decide +kernel
  obtain ⟨place, k, hreached, hk⟩ := exists_reached (.start _) hrun
  obtain ⟨hplace, hnow⟩ := Prod.mk.inj hk
  simp only at hplace hnow
  subst hplace
  obtain ⟨⟨n, js⟩, hnow, rfl⟩ := Option.map_eq_some_iff.1 hnow
  obtain ⟨pcb, hpcb, hpage, hcount, -⟩ := faultNow_some hnow
  refine ⟨.fcfs, 0, 0, 2147483645, k, pcb, hreached, hpcb, hpage,
    ((page_table_in_range hreached).2 _ _ _ _ pcb rfl hpcb hpage).2 (.inl ?_)⟩
  rw [hcount]
  decide

/-- After thirty lines, the last of them with its newline. -/
theorem page_table_overrun :
    ∃ policy p c quanta k pcb, Reached (smallHost 18) (.executing policy p c (quanta + 1)) k ∧
    k.pcbs.get c = some pcb ∧ pcb.pageCounter < pcb.currentPage ∧
    maxPages ∈ faultEntries 18 ((smallHost 18).fopen pcb.filename k.host) pcb k.store := by
  have hrun : (batches (smallHost 18) [(["a".toList], .fcfs, 55)] .prompt
    (start (smallHost 18) (helpFiles 30))).map
      (fun r => (r.1, faultNow (smallHost 18) 0 r.2)) =
        some (.executing .fcfs 0 0 (2147483642 + 1), some (10, [0, 10])) := by decide +kernel
  obtain ⟨place, k, hreached, hk⟩ := exists_reached (.start _) hrun
  obtain ⟨hplace, hnow⟩ := Prod.mk.inj hk
  simp only at hplace hnow
  subst hplace
  obtain ⟨pcb, hpcb, hpage, -, hentries⟩ := faultNow_some hnow
  refine ⟨.fcfs, 0, 0, 2147483642, k, pcb, hreached, hpcb, hpage, ?_⟩
  rw [show faultEntries 18 ((smallHost 18).fopen pcb.filename k.host) pcb k.store =
    [0, 10] from hentries]
  decide

end MyShell.Backing

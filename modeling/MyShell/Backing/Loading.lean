/-
What `load_file` and `load_frame` do, in terms of the reads that `fgets`
makes of a file: lines of the file go to consecutive lines of the memory, and
a page is counted when its third line is read, or a line at the end of the
file. A last line that has its newline does not meet that end; then only the
next read does.
-/
import MyShell.Backing.Store

namespace MyShell.Backing

open Paging (Text readLine readLine_length readLine_lines lines lines_eq_nil)

/-! ## Reads -/

/-- What `fgets` reads of a file, call by call. -/
def reads : Text → List Text
  | [] => []
  | c :: s => (readLine 99 (c :: s)).1 :: reads (readLine 99 (c :: s)).2
termination_by s => s.length
decreasing_by
  have := readLine_length 99 (c :: s)
  have hpos : 0 < (readLine 99 (c :: s)).1.length := by
    rw [readLine]
    split <;> simp
  omega

/-- The read has not met the end of the file: it stopped at a newline or for lack of room. -/
def full (l : Text) : Bool := l.length = 99 || l.getLast? = some '\n'

/-- The end of the file is not met before a read finds nothing. -/
def ended (ls : List Text) : Bool := ls.getLast?.all full

/-- The end of the file is met in `n` reads. -/
def atEnd (ls : List Text) (n : Nat) : Bool := ls.length < n || (ls.length = n && !ended ls)

theorem length_readLine_le : ∀ (n : Nat) (s : Text), (readLine n s).1.length ≤ n
  | 0, _ => Nat.le_refl 0
  | _ + 1, [] => Nat.zero_le _
  | n + 1, c :: s => by
    rw [readLine]
    split
    · simp
    · have := length_readLine_le n s
      simp only [List.length_cons]
      omega

/-- A read that is not full takes all there is. -/
theorem readLine_rest :
    ∀ {n : Nat} {s : Text}, (readLine n s).1.length < n → (readLine n s).1.getLast? ≠ some '\n' →
    (readLine n s).2 = []
  | 0, _, h, _ => absurd h (Nat.not_lt_zero _)
  | _ + 1, [], _, _ => rfl
  | n + 1, c :: s, h, hlast => by
    rw [readLine] at h hlast ⊢
    split at h
    · next hc =>
      rw [if_pos hc] at hlast
      exact absurd (by rw [hc]; rfl) hlast
    · next hc =>
      rw [if_neg hc] at hlast ⊢
      simp only [List.length_cons, Nat.add_lt_add_iff_right] at h
      refine readLine_rest h fun hl => hlast ?_
      rw [List.getLast?_cons, hl]
      rfl

theorem reads_eq_nil {s : Text} : reads s = [] ↔ s = [] := by
  cases s with
  | nil => simp [reads]
  | cons c s => simp [reads]

theorem Stream.fgets_nil {s : Text} (h : reads s = []) :
    Stream.fgets ⟨s, false⟩ = (none, ⟨[], true⟩) := by
  rw [reads_eq_nil.1 h]
  rfl

theorem Stream.fgets_cons {s l : Text} {ls : List Text} (h : reads s = l :: ls) :
    ∃ rest, Stream.fgets ⟨s, false⟩ = (some l, ⟨rest, !full l⟩) ∧ reads rest = ls ∧
      (full l = false → ls = []) := by
  cases s with
  | nil => simp [reads] at h
  | cons c s =>
    rw [reads] at h
    obtain ⟨rfl, rfl⟩ := List.cons.inj h
    have hle := length_readLine_le 99 (c :: s)
    refine ⟨_, ?_, rfl, fun hfull => ?_⟩
    · simp only [Stream.fgets, Bool.false_or, full, Prod.mk.injEq, Stream.mk.injEq, true_and]
      rw [Bool.not_or]
      congr 1
      · rw [← decide_not]
        exact decide_eq_decide.2 (by omega)
      · rw [← decide_not]
    · simp only [full, Bool.or_eq_false_iff, decide_eq_false_iff_not] at hfull
      rw [readLine_rest (by omega) hfull.2, reads_eq_nil]

theorem ended_cons {l : Text} {ls : List Text} (h : full l = true) : ended (l :: ls) = ended ls := by
  cases ls with
  | nil => simp [ended, h]
  | cons l' ls => rw [ended, ended, List.getLast?_cons_cons]

theorem atEnd_cons {l : Text} {ls : List Text} (n : Nat) (h : full l = true) :
    atEnd (l :: ls) (n + 1) = atEnd ls n := by
  simp [atEnd, ended_cons h]

theorem atEnd_last {l : Text} (n : Nat) (h : full l = false) : atEnd [l] (n + 1) = true := by
  cases n <;> simp [atEnd, ended, h]

/-- **`load_frame`'s skipping** stops short where it meets the end of the file. -/
theorem skipLines_eq : ∀ {n : Nat} {s : Text} {ls : List Text}, reads s = ls →
    ∃ rest, reads rest = ls.drop n ∧ skipLines n ⟨s, false⟩ = if atEnd ls n then none else
      some ⟨rest, false⟩
  | 0, s, ls, h => ⟨s, h, by
      rw [skipLines, if_neg]
      cases ls <;> simp [atEnd, ended]⟩
  | n + 1, s, [], h => ⟨[], by rw [List.drop_nil]; exact reads_eq_nil.2 rfl, by
      rw [skipLines, Stream.fgets_nil h, if_pos rfl, if_pos (by simp [atEnd])]⟩
  | n + 1, s, l :: ls, h => by
    obtain ⟨s', hget, hs', hlast⟩ := Stream.fgets_cons h
    rw [skipLines, hget]
    cases hfull : full l with
    | false =>
      obtain rfl := hlast hfull
      refine ⟨[], by simp [reads], ?_⟩
      rw [if_pos (atEnd_last n hfull)]
      rfl
    | true =>
      obtain ⟨rest, hrest, hskip⟩ := skipLines_eq (n := n) hs'
      refine ⟨rest, hrest, ?_⟩
      rw [atEnd_cons n hfull]
      exact hskip

/-! ## Lines of the memory -/

/-- The lines go to memory one after the other, from line `i` on. -/
def Store.putLines (filename : Text) : List Text → Nat → Store → Option Store
  | [], _, m => some m
  | line :: ls, i, m => do putLines filename ls (i + 1) (← m.putLine filename line i)

/-- The process with so many pages counted. -/
def PCB.counted (pcb : PCB) (n : Nat) : PCB :=
  { pcb with
    pageCounter := n
    pagetable := List.replicate n true ++ List.replicate (maxPages - n) false }

theorem PCB.countPage_counted (pcb : PCB) {n : Nat} (h : n < maxPages) :
    (pcb.counted n).countPage = some (pcb.counted (n + 1)) := by
  unfold PCB.countPage
  rw [if_pos (show (pcb.counted n).pageCounter < maxPages from h)]
  simp only [counted, Option.some.injEq]
  congr 1
  rw [List.set_append_right _ _ (by simp), List.length_replicate, Nat.sub_self, List.replicate_succ',
    show maxPages - n = maxPages - (n + 1) + 1 by
      omega, List.replicate_succ, List.set_cons_zero, List.append_assoc]
  rfl

/-- A page is counted in these `n` reads. -/
def pageDone (ls : List Text) (n : Nat) : Bool :=
  (0 < n && n ≤ ls.length) || (ls.length ≤ n && !ended ls)

theorem pageDone_cons {l : Text} {ls : List Text} {n : Nat} (hn : 0 < n) (h : full l = true) :
    pageDone (l :: ls) (n + 1) = pageDone ls n := by
  simp [pageDone, ended_cons h, hn]

/-- **A page** of `load_file`. -/
theorem loadPage_eq :
    ∀ {n : Nat} {s : Loading} {rest : Text} {ls : List Text} (base : PCB) (pages : Nat),
    s.file = ⟨rest, false⟩ → reads rest = ls → s.pcb = base.counted pages → pages < maxPages →
    n ≤ 3 →
    (s.linesLoaded + n) % 3 = 0 → s.linesLoaded + n ≤ 6 →
    ∃ rest', reads rest' = ls.drop n ∧ loadPage n s =
      (s.store.putLines base.filename (ls.take n) s.frameIndex).map fun store =>
        { store := store
          pcb := base.counted (if pageDone ls n then pages + 1 else pages)
          file := ⟨rest', atEnd ls n⟩
          frameIndex := s.frameIndex + min n ls.length
          linesLoaded := s.linesLoaded + min n ls.length
          loadNextPage := s.loadNextPage && (!pageDone ls n || pages + 1 ≠ 2) }
  | 0, s, rest, ls, base, pages, hfile, hls, hpcb, _, _, _, _ => by
    refine ⟨rest, hls, ?_⟩
    have hdone : pageDone ls 0 = false := by cases ls <;> simp [pageDone, ended]
    have hend : atEnd ls 0 = false := by cases ls <;> simp [atEnd, ended]
    rw [loadPage, hdone, hend]
    obtain ⟨store, pcb, file, frameIndex, linesLoaded, loadNextPage⟩ := s
    simp only at hfile hpcb
    simp [hfile, hpcb, Store.putLines]
  | n + 1, s, rest, ls, base, pages, hfile, hls, hpcb, hpages, hn, hmod, hsix => by
    rw [loadPage, if_neg (by
      rw [hfile]
      simp only [Bool.false_eq_true, or_false, not_not]
      omega), hfile]
    cases ls with
    | nil =>
      rw [Stream.fgets_nil hls]
      refine ⟨[], by rw [List.drop_nil]; exact reads_eq_nil.2 rfl, ?_⟩
      have hstop : ∀ s' : Loading, s'.file.eof = true → loadPage n s' = some s' := fun s' h => by
        cases n with
        | zero => rfl
        | succ n => rw [loadPage, if_pos (.inr h)]
      simp only
      rw [hstop _ rfl]
      simp [Store.putLines, pageDone, atEnd, ended, hpcb]
    | cons l ls =>
      obtain ⟨rest', hget, hrest', hlast⟩ := Stream.fgets_cons hls
      rw [hget]
      simp only [List.take_succ_cons, Store.putLines]
      have hname : s.pcb.filename = base.filename := by rw [hpcb]; rfl
      rw [hname]
      cases hput : s.store.putLine base.filename l s.frameIndex with
      | none =>
        obtain ⟨rest₂, hrest₂, -⟩ := skipLines_eq (n := n) hrest'
        exact ⟨rest₂, hrest₂, rfl⟩
      | some store =>
        simp only [Option.bind_eq_bind, Option.bind_some]
        cases hfull : full l with
        | false =>
          -- the last line, which meets the end
          obtain rfl := hlast hfull
          have hdone : pageDone [l] (n + 1) = true := by simp [pageDone, ended, hfull]
          refine ⟨rest', by simpa using hrest', ?_⟩
          rw [if_pos (.inr rfl), hpcb, PCB.countPage_counted base hpages, Option.bind_some, hdone,
            atEnd_last n hfull]
          have hstop : ∀ s' : Loading, s'.file.eof = true → loadPage n s' = some s' := fun s' h => by
            cases n with
            | zero => rfl
            | succ n => rw [loadPage, if_pos (.inr h)]
          rw [hstop _ rfl]
          simp [Store.putLines, PCB.counted]
        | true =>
          cases n with
          | zero =>
            -- the third line of a page
            have hdone : pageDone (l :: ls) 1 = true := by simp [pageDone]
            refine ⟨rest', by simpa using hrest', ?_⟩
            rw [if_pos (.inl (by omega)), hpcb, PCB.countPage_counted base hpages,
              Option.bind_some, hdone, atEnd_cons 0 hfull]
            have hend : atEnd ls 0 = false := by cases ls <;> simp [atEnd, ended]
            rw [hend]
            simp [loadPage, Store.putLines, PCB.counted]
          | succ n =>
            obtain ⟨rest₂, hrest₂, hpage⟩ := loadPage_eq (n := n + 1) base pages
              (s := { s with
                store := store, file := ⟨rest', !true⟩
                frameIndex := s.frameIndex + 1, linesLoaded := s.linesLoaded + 1 })
              rfl hrest' hpcb hpages (by omega) (by simp only; omega) (by simp only; omega)
            refine ⟨rest₂, hrest₂, ?_⟩
            rw [if_neg (by simp only [Bool.not_true, Bool.false_eq_true, or_false]; omega), hpage,
              pageDone_cons (Nat.succ_pos n) hfull, atEnd_cons (n + 1) hfull]
            have hmin : min (n + 1 + 1) (l :: ls).length = 1 + min (n + 1) ls.length := by
              rw [List.length_cons]
              omega
            simp only [hmin, Nat.add_assoc]

theorem Store.putLines_append (filename : Text) : ∀ (ls ls' : List Text) (i : Nat) (m : Store),
    m.putLines filename (ls ++ ls') i =
    (m.putLines filename ls i).bind (putLines filename ls' (i + ls.length))
  | [], ls', i, m => rfl
  | l :: ls, ls', i, m => by
    rw [List.cons_append, putLines, putLines]
    cases m.putLine filename l i with
    | none => rfl
    | some m =>
      simp only [Option.bind_eq_bind, Option.bind_some]
      rw [putLines_append filename ls ls' (i + 1) m, List.length_cons, Nat.add_assoc, Nat.add_comm 1]

/-! ## `load_file` -/

/-- How many lines `load_file` has room for from line `i` on. Only a store of one line lets
it go on beyond its end. -/
def room (threshold i : Nat) : Nat :=
  if threshold < 2 then 3 else if i + 3 < threshold - 2 then 6 else if i < threshold - 2 then 3 else 0

/-- The pages it counts: those with three lines, and one that meets the end of the file. -/
def pagesCounted (ls : List Text) (room : Nat) : Nat :=
  min room ls.length / 3 + if min room ls.length % 3 ≠ 0 && !ended ls then 1 else 0

theorem ended_drop {ls : List Text} {n : Nat} (h : n < ls.length) : ended (ls.drop n) = ended ls := by
  rw [ended, ended, List.getLast?_drop, if_neg (Nat.not_le_of_lt h)]

theorem atEnd_length {ls : List Text} {n : Nat} (h : atEnd ls n = true) : ls.length ≤ n := by
  simp only [atEnd, Bool.or_eq_true, decide_eq_true_eq, Bool.and_eq_true] at h
  omega

theorem length_of_not_atEnd {ls : List Text} {n : Nat} (h : atEnd ls n = false) :
    n ≤ ls.length ∧ (ls.length = n → ended ls = true) := by
  simp only [atEnd, Bool.or_eq_false_iff, decide_eq_false_iff_not, Nat.not_lt, Bool.and_eq_false_iff,
    Bool.not_eq_false'] at h
  exact ⟨h.1, fun he => h.2.resolve_left (not_not.2 he)⟩

theorem pagesCounted_last {ls : List Text} {room : Nat} (hroom : 3 ≤ room) (hend : atEnd ls 3 = true) :
    pagesCounted ls room = if pageDone ls 3 then 1 else 0 := by
  have hlen := atEnd_length hend
  rw [pagesCounted, Nat.min_eq_right (Nat.le_trans hlen hroom)]
  match ls, hlen with
  | [], _ => simp [pageDone, ended]
  | [_], _ => simp [pageDone]
  | [_, _], _ => simp [pageDone]
  | [_, _, _], _ => simp [pageDone]

theorem pagesCounted_two {ls : List Text} (hend : atEnd ls 3 = false) :
    pagesCounted ls 6 = if pageDone (ls.drop 3) 3 then 2 else 1 := by
  obtain ⟨hlen, hended⟩ := length_of_not_atEnd hend
  rw [pagesCounted, pageDone, List.length_drop]
  by_cases hfew : ls.length = 3
  · have : ls.drop 3 = [] := List.drop_of_length_le (by omega)
    simp [hfew, this, ended]
  · rw [ended_drop (by omega)]
    by_cases hsix : 6 ≤ ls.length
    · rw [Nat.min_eq_left hsix]
      have : 3 ≤ ls.length - 3 := by omega
      simp [this]
    · have hmod : ls.length % 3 ≠ 0 := by omega
      have hdiv : ls.length / 3 = 1 := by omega
      have hle : ls.length - 3 ≤ 3 := by omega
      have hlt : ¬ 3 ≤ ls.length - 3 := by omega
      rw [Nat.min_eq_right (by omega)]
      cases hE : ended ls <;> simp [hmod, hdiv, hle, hlt]

theorem loadPages_stop {threshold n : Nat} {s : Loading}
    (h : ¬ (¬ s.file.eof ∧ s.loadNextPage ∧ (threshold < 2 ∨ s.frameIndex < threshold - 2))) :
    loadPages threshold (n + 1) s = some (0, s) := by
  rw [loadPages, if_neg h]
  rfl

theorem three_le_room {threshold i : Nat} (h : threshold < 2 ∨ i < threshold - 2) :
    3 ≤ room threshold i := by
  unfold room
  split
  · exact Nat.le_refl 3
  · split
    · omega
    · exact Nat.le_of_eq (if_pos (h.resolve_left ‹_›)).symm

/-- **The loop over pages** of `load_file`. -/
theorem loadPages_eq {threshold i : Nat} (hi : i < threshold) (base : PCB) (content : Text)
    (m : Store) :
    ∃ file next, loadPages threshold 3 ⟨m, base.counted 0, ⟨content, false⟩, i, 0, true⟩ =
      (m.putLines base.filename ((reads content).take (room threshold i)) i).map fun store =>
        (if threshold < i + min (room threshold i) (reads content).length then 21 else 0,
          { store := store
            pcb := base.counted (pagesCounted (reads content) (room threshold i))
            file := file
            frameIndex := i + min (room threshold i) (reads content).length
            linesLoaded := min (room threshold i) (reads content).length
            loadNextPage := next }) := by
  generalize hls : reads content = ls
  by_cases hfirst : threshold < 2 ∨ i < threshold - 2
  · obtain ⟨rest, hrest, hpage⟩ :=
      loadPage_eq (n := 3) (s := ⟨m, base.counted 0, ⟨content, false⟩, i, 0, true⟩)
      base 0 rfl hls rfl (by decide) (by decide) (by simp) (by simp)
    have hthree := three_le_room hfirst
    rw [loadPages, if_pos ⟨Bool.false_ne_true, rfl, hfirst⟩, hpage]
    simp only [Nat.zero_add, Bool.true_and]
    have hsplit : ls.take (room threshold i) = ls.take 3 ++
        (ls.drop 3).take (room threshold i - 3) := by
      rw [← List.take_add]
      congr 1
      omega
    rw [hsplit, Store.putLines_append]
    cases hput : m.putLines base.filename (ls.take 3) i with
    | none => exact ⟨⟨content, false⟩, true, rfl⟩
    | some store =>
      simp only [Option.map_some, Option.bind_eq_bind, Option.bind_some]
      cases hend : atEnd ls 3 with
      | true =>
        -- the file ends within the page
        have hlen := atEnd_length hend
        have hmin : min (room threshold i) ls.length = min 3 ls.length := by omega
        rw [List.drop_of_length_le hlen, List.take_nil, Store.putLines, hmin,
          pagesCounted_last hthree hend]
        refine ⟨⟨rest, true⟩, !pageDone ls 3 || decide (1 ≠ 2), ?_⟩
        split
        · rfl
        · rw [loadPages_stop fun h => h.1 rfl]
          rfl
      | false =>
        obtain ⟨hlen, hended⟩ := length_of_not_atEnd hend
        have hdone : pageDone ls 3 = true := by simp [pageDone, hlen]
        have hone : pagesCounted ls 3 = 1 := by simp [pagesCounted, hlen]
        have htake : (ls.take 3).length = 3 := by rw [List.length_take, Nat.min_eq_left hlen]
        rw [Nat.min_eq_left hlen, hdone, if_pos rfl, htake]
        by_cases hover : threshold < i + 3
        · -- a store of one line
          have hroom : room threshold i = 3 := by
            unfold room
            rw [if_pos (by omega)]
          rw [hroom, Nat.sub_self, List.take_zero, Store.putLines, if_pos hover, hone,
            Nat.min_eq_left hlen]
          exact ⟨⟨rest, false⟩, true, by rw [Option.map_some, if_pos hover]; rfl⟩
        rw [if_neg hover]
        by_cases hsecond : i + 3 < threshold - 2
        · have hroom : room threshold i = 6 := by
            unfold room
            rw [if_neg (by omega), if_pos hsecond]
          obtain ⟨rest₂, hrest₂, hpage₂⟩ :=
            loadPage_eq (n := 3) (s := ⟨store, base.counted 1, ⟨rest, false⟩, i + 3, 3, true⟩)
            base 1 rfl hrest rfl (by decide) (by decide) (by simp) (by simp)
          have hmin : min 6 ls.length = 3 + min 3 (ls.drop 3).length := by
            rw [List.length_drop]
            omega
          rw [loadPages, if_pos ⟨Bool.false_ne_true, rfl, .inr hsecond⟩]
          rw [show (!true || decide (1 ≠ 2)) = true from rfl, hpage₂, hroom, hmin,
            pagesCounted_two hend]
          simp only [Nat.reduceSub]
          cases hput₂ : store.putLines base.filename ((ls.drop 3).take 3) (i + 3) with
          | none => exact ⟨⟨content, false⟩, true, rfl⟩
          | some store₂ =>
            have hroom₂ : ¬ threshold < i + (3 + min 3 (ls.drop 3).length) := by omega
            refine ⟨⟨rest₂, atEnd (ls.drop 3) 3⟩, !pageDone (ls.drop 3) 3, ?_⟩
            simp only [Option.map_some, Option.bind_eq_bind, Option.bind_some, Bool.true_and]
            rw [if_neg (by omega), if_neg hroom₂, loadPages_stop]
            · simp [Nat.add_assoc]
            · -- the second page is full, or the end is met
              rintro ⟨heof, hnext, -⟩
              have hlen₂ := (length_of_not_atEnd (Bool.eq_false_iff.2 heof)).1
              have hdone₂ : pageDone (ls.drop 3) 3 = true := by simp only [pageDone, hlen₂]; simp
              rw [hdone₂] at hnext
              cases hnext
        · have hroom : room threshold i = 3 := by
            unfold room
            rw [if_neg (by omega), if_neg hsecond, if_pos (by omega)]
          rw [hroom, Nat.sub_self, List.take_zero, Store.putLines, hone, Nat.min_eq_left hlen]
          refine ⟨⟨rest, false⟩, true, ?_⟩
          rw [loadPages_stop fun h => by simp only at h; omega, Option.map_some, if_neg hover]
          rfl
  · have hroom : room threshold i = 0 := by
      unfold room
      rw [if_neg (by omega), if_neg (by omega), if_neg (by omega)]
    rw [loadPages_stop fun h => hfirst h.2.2, hroom, List.take_zero, Nat.zero_min, Nat.add_zero]
    have hsmall : ¬ threshold < i := by omega
    exact ⟨⟨content, false⟩, true, by simp [Store.putLines, hsmall, pagesCounted]⟩

/-- The process that `load_file` leaves. -/
def loadedPCB (pid i : Nat) (filename : Text) (ls : List Text) (room : Nat) : PCB :=
  { ({ (makePCB pid).place i with filename := filename } : PCB).counted (pagesCounted ls room) with
    stop := (i + min room ls.length : Nat) - 1 }

/-- **`load_file`** for a new process. -/
theorem loadFile_eq {threshold i pid : Nat} {content filename : Text} {m : Store}
    (hi : i < threshold) (hslot : m.findAvailableSlot threshold = some (some i)) :
    loadFile threshold content filename (makePCB pid) m =
      (m.putLines filename ((reads content).take (room threshold i)) i).map fun store =>
        (if threshold < i + min (room threshold i) (reads content).length then 21 else 0,
          loadedPCB pid i filename (reads content) (room threshold i), store) := by
  obtain ⟨file, next, hpages⟩ :=
    loadPages_eq hi { (makePCB pid).place i with filename := filename } content m
  unfold loadFile
  rw [hslot]
  simp only [Option.bind_eq_bind, Option.bind_some]
  rw [show ({ (makePCB pid).place i with filename := filename } : PCB) =
    ({ (makePCB pid).place i with filename := filename } : PCB).counted 0 from rfl, hpages]
  cases m.putLines filename ((reads content).take (room threshold i)) i with
  | none => rfl
  | some store => rfl

/-! ## `load_frame` -/

theorem fillFrame_eq : ∀ {n : Nat} {s : Loading} {rest : Text} {ls : List Text}, s.file =
    ⟨rest, false⟩ → reads rest = ls →
    ∃ file, fillFrame n s = (s.store.putLines s.pcb.filename (ls.take n) s.frameIndex).map fun store =>
      { s with store := store, file := file, frameIndex := s.frameIndex + min n ls.length }
  | 0, s, rest, ls, _, _ => ⟨s.file, by simp [fillFrame, Store.putLines]⟩
  | n + 1, s, rest, ls, hfile, hls => by
    have hstop : ∀ s' : Loading, s'.file.eof = true → fillFrame n s' = some s' := fun s' h => by
      cases n with
      | zero => rfl
      | succ n => rw [fillFrame, if_pos h]
    rw [fillFrame, if_neg (by rw [hfile]; exact Bool.false_ne_true), hfile]
    cases ls with
    | nil =>
      rw [Stream.fgets_nil hls]
      refine ⟨⟨[], true⟩, ?_⟩
      simp only
      rw [hstop _ rfl]
      simp [Store.putLines]
    | cons l ls =>
      obtain ⟨rest', hget, hrest', hlast⟩ := Stream.fgets_cons hls
      rw [hget]
      simp only [List.take_succ_cons, Store.putLines]
      cases hput : s.store.putLine s.pcb.filename l s.frameIndex with
      | none => exact ⟨⟨[], true⟩, rfl⟩
      | some store =>
        simp only [Option.bind_eq_bind, Option.bind_some]
        cases hfull : full l with
        | false =>
          obtain rfl := hlast hfull
          refine ⟨⟨rest', true⟩, ?_⟩
          rw [hstop _ rfl]
          simp [Store.putLines]
        | true =>
          obtain ⟨file, hfill⟩ := fillFrame_eq (n := n)
            (s := { s with store := store, file := ⟨rest', !true⟩, frameIndex := s.frameIndex + 1 })
            rfl hrest'
          refine ⟨file, ?_⟩
          rw [hfill]
          have hmin : min (n + 1) (l :: ls).length = 1 + min n ls.length := by
            rw [List.length_cons]
            omega
          simp only [hmin, Nat.add_assoc]

/-- **`load_frame`** on a file that can be opened. -/
theorem loadFrame_eq {threshold : Nat} {content : Text} {pcb : PCB} {m : Store} :
    loadFrame threshold (some content) pcb m =
      if atEnd (reads content) (pcb.pageCounter * 3) then some (-2, pcb, m)
      else (m.findAvailableSlot threshold).bind fun
        | none => some (-1, pcb, m)
        | some i =>
          (m.putLines pcb.filename (((reads content).drop (pcb.pageCounter * 3)).take 3) i).bind
          fun store =>
          (pcb.place i).countPage.map fun pcb' => (0,
            { pcb' with
              stop := (i + min 3 ((reads content).length - pcb.pageCounter * 3) : Nat) - 1 },
            store) := by
  obtain ⟨rest, hrest, hskip⟩ := skipLines_eq (n := pcb.pageCounter * 3) (s := content) rfl
  unfold loadFrame
  simp only [Option.bind_eq_bind, Option.bind_some]
  rw [hskip]
  cases hend : atEnd (reads content) (pcb.pageCounter * 3) with
  | true => rfl
  | false =>
    rw [if_neg Bool.false_ne_true, if_neg Bool.false_ne_true]
    simp only
    cases m.findAvailableSlot threshold with
    | none => rfl
    | some slot =>
      cases slot with
      | none => rfl
      | some i =>
        obtain ⟨file, hfill⟩ :=
          fillFrame_eq (n := 3) (s := ⟨m, pcb.place i, ⟨rest, false⟩, i, 0, true⟩) rfl hrest
        rw [List.length_drop] at hfill
        simp only [Option.bind_some, hfill]
        rw [show (pcb.place i).filename = pcb.filename from rfl]
        cases m.putLines pcb.filename (((reads content).drop (pcb.pageCounter * 3)).take 3) i with
        | none => rfl
        | some store =>
          simp only [Option.map_some, Option.bind_some]
          cases (pcb.place i).countPage with
          | none => rfl
          | some pcb' => rfl

end MyShell.Backing

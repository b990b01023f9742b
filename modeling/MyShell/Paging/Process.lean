/-
One process: its control block against the lines of its script, the number of
lines run and the number of pages read, and what `load_PAGE` and `PAGE_evict`
do to it.
-/
import MyShell.Paging.Frames

namespace MyShell.Paging

open DemandPaging (pages)

/-! ## Reading a page -/

/-- What reading lines into some lines `js` of a page does: the lines that the
file still has go to the first of them, and nothing else changes. -/
theorem readLines_spec (pid : Text) : ∀ (js : List (Fin 3)) (page : Page) (src : Text) (m : Memory),
    js.Nodup → Function.Injective page.index →
    ∃ valid src' m', readLines pid js page src m = ({ page with validBit := valid }, src', m') ∧
      pieces src' = (pieces src).drop js.length ∧
      (∀ i, ∀ h : i < js.length, ∀ h' : i < (pieces src).length,
        valid js[i] = true ∧ m' (page.index js[i]) = ⟨pid, (pieces src)[i]⟩) ∧
      (∀ j ∉ js.take (pieces src).length, valid j = page.validBit j) ∧
      ∀ pos, (∀ j ∈ js.take (pieces src).length, pos ≠ page.index j) → m' pos = m pos
  | [], page, src, m, _, _ =>
    ⟨page.validBit, src, m, rfl, by simp, by simp, fun _ _ => rfl, fun _ _ => rfl⟩
  | j :: js, page, src, m, hn, hinj => by
    obtain ⟨hj, hn⟩ := List.nodup_cons.1 hn
    cases hget : fgets 999 src with
    | none =>
      rw [pieces_none hget]
      exact ⟨page.validBit, src, m, by rw [readLines, hget], by simpa using pieces_none hget, by simp,
        fun _ _ => rfl, fun _ _ => rfl⟩
    | some x =>
      obtain ⟨l, rest⟩ := x
      rw [pieces_some hget]
      obtain ⟨valid, src', m', hread, hsrc, hval, hvalid, hm⟩ := readLines_spec pid js
        { page with validBit := Function.update page.validBit j true } rest
        (Function.update m (page.index j) ⟨pid, l⟩) hn hinj
      generalize pieces rest = ls at hsrc hval hvalid hm ⊢
      simp only at hval hvalid hm
      have hnot : ∀ j' ∈ js.take ls.length, j ≠ j' := by
        rintro j' hj' rfl
        exact hj (List.mem_of_mem_take hj')
      refine ⟨valid, src', m', by rw [readLines, hget]; exact hread, by simpa using hsrc,
        fun i hi hi' => ?_, fun j' hj' => ?_, fun pos hpos => ?_⟩
      · cases i with
        | zero =>
          refine ⟨?_, ?_⟩
          · rw [List.getElem_cons_zero, hvalid j fun hm => hnot j hm rfl, Function.update_self]
          · rw [List.getElem_cons_zero, List.getElem_cons_zero,
              hm _ fun j' hj' he => hnot j' hj' (hinj he), Function.update_self]
        | succ i => simpa using hval i (by simpa using hi) (by simpa using hi')
      · simp only [List.length_cons, List.take_succ_cons, List.mem_cons, not_or] at hj'
        rw [hvalid j' hj'.2, Function.update_of_ne hj'.1]
      · simp only [List.length_cons, List.take_succ_cons, List.mem_cons, forall_eq_or_imp] at hpos
        rw [hm pos hpos.2, Function.update_of_ne hpos.1]

/-- A page read from a file: as many of its lines are valid as the file had left. -/
theorem readLines_page (pid : Text) (page : Page) (start : Nat) (src : Text) (m : Memory) :
    ∃ src' m', readLines pid [0, 1, 2] (page.place start) src m =
        ({ page with
            index := fun j => start + j
            validBit := fun j => decide ((j : Nat) < (pieces src).length) }, src', m') ∧
      pieces src' = (pieces src).drop 3 ∧
      (∀ j : Fin 3, ∀ h : (j : Nat) < (pieces src).length, m' (start + j) = ⟨pid, (pieces src)[j]⟩) ∧
      ∀ pos, (∀ j : Fin 3, (j : Nat) < (pieces src).length → pos ≠ start + j) → m' pos = m pos := by
  have hget : ∀ j : Fin 3, ([0, 1, 2] : List (Fin 3))[(j : Nat)] = j := by decide
  obtain ⟨valid, src', m', hread, hsrc, hval, hvalid, hm⟩ := readLines_spec pid [0, 1, 2]
    (page.place start) src m (by decide) (fun i j h => by simpa [Page.place, Fin.ext_iff] using h)
  have htake : ∀ j : Fin 3, j ∈ ([0, 1, 2] : List (Fin 3)).take (pieces src).length ↔
      (j : Nat) < (pieces src).length := by
    intro j
    rw [List.mem_take_iff_getElem]
    refine ⟨fun ⟨i, hi, he⟩ => ?_, fun h => ⟨j, by simp; omega, hget j⟩⟩
    have hi3 : i < 3 := by simp at hi; omega
    rw [← he, show ([0, 1, 2] : List (Fin 3))[i] = ⟨i, hi3⟩ from hget ⟨i, hi3⟩]
    exact (Nat.lt_min.1 hi).1
  have heq : valid = fun j : Fin 3 => decide ((j : Nat) < (pieces src).length) := by
    funext j
    by_cases hj : (j : Nat) < (pieces src).length
    · have := (hval j j.2 hj).1
      rw [hget j] at this
      simp [this, hj]
    · rw [hvalid j fun hm => hj ((htake j).1 hm)]
      simp [Page.place, hj]
  refine ⟨src', m', by rw [hread, heq]; rfl, hsrc, fun j hj => ?_,
    fun pos hpos => hm pos fun j hj => ?_⟩
  · have := (hval j j.2 hj).2
    rwa [hget j] at this
  · exact hpos j ((htake j).1 hj)

/-! ## A process and its frames -/

/-- The page `c` of a process of `n` lines, read into the frame `f`. -/
structure PageAt (f c pid n : Nat) (page : Page) : Prop where
  index : ∀ j, page.index j = 3 * f + j
  valid : ∀ j : Fin 3, 3 * c + (j : Nat) < n → page.validBit j = true
  pageIndex : page.pageIndex = c
  pagePid : page.pagePid = pid

/-- The frame `f` holds the page `c` of the script. -/
def Stored (m : Memory) (f pid : Nat) (script : List Text) (c : Nat) : Prop :=
  ∀ j : Fin 3, (m (3 * f + j)).var = pidStr pid ∧
    ∀ h : 3 * c + (j : Nat) < script.length, (m (3 * f + j)).value = script[3 * c + (j : Nat)]

/-- The program counters of a process that has run `done` of its `n` lines. -/
def counters (n done : Nat) : List Nat := (List.range (pages n)).map fun c => min 3 (done - 3 * c)

/-- The control block of a process that has run `done` lines of its script and
read `loaded` pages. -/
structure Proc (frame : Ptr × Nat → Nat) (recent : List (Ptr × Nat)) (m : Memory) (p : Ptr) (pid : Nat)
    (script : List Text) (done loaded : Nat) (pcb : PCB) : Prop where
  pidEq : pcb.pid = pid
  sizeEq : pcb.size = (script.length : Int) - done
  countersEq : pcb.programCounter = counters script.length done
  table : pcb.pageTable.length = pages script.length
  source : (pieces pcb.sourceFile).take (script.length - 3 * loaded) = script.drop (3 * loaded)
  resident : ∀ c < pages script.length, (p, c) ∈ recent → ∃ page, pcb.pageTable[c]? = some page ∧
    PageAt (frame (p, c)) c pid script.length page ∧ Stored m (frame (p, c)) pid script c
  missing : ∀ c < pages script.length, (p, c) ∉ recent → ∃ page, pcb.pageTable[c]? = some page ∧
    page.pageIndex = c ∧ page.pagePid = pid ∧ ∀ j, page.validBit j = false

namespace Proc

variable {size : Nat} {frame frame' : Ptr × Nat → Nat} {recent recent' : List (Ptr × Nat)}
  {m m' : Memory} {p : Ptr} {pid : Nat} {script : List Text} {done loaded : Nat} {pcb : PCB}

theorem stored_congr {f c : Nat} (h : Stored m f pid script c)
    (hm : ∀ pos, pos / 3 = f → m' pos = m pos) : Stored m' f pid script c := fun j => by
  rw [hm _ (by omega)]
  exact h j

/-- Only the frames of the process itself matter. -/
theorem congr (h : Proc frame recent m p pid script done loaded pcb)
    (hr : ∀ c, (p, c) ∈ recent' ↔ (p, c) ∈ recent)
    (hf : ∀ c, (p, c) ∈ recent → frame' (p, c) = frame (p, c))
    (hm : ∀ c, (p, c) ∈ recent → ∀ pos, pos / 3 = frame (p, c) → m' pos = m pos) :
    Proc frame' recent' m' p pid script done loaded pcb where
  pidEq := h.pidEq
  sizeEq := h.sizeEq
  countersEq := h.countersEq
  table := h.table
  source := h.source
  resident c hc hmem := by
    have hmem := (hr c).1 hmem
    obtain ⟨page, hget, hat, hs⟩ := h.resident c hc hmem
    rw [hf c hmem]
    exact ⟨page, hget, hat, stored_congr hs (hm c hmem)⟩
  missing c hc hmem := h.missing c hc fun hmem' => hmem ((hr c).2 hmem')

/-- What the file has left of the lines of the process. -/
theorem left (h : Proc frame recent m p pid script done loaded pcb) :
    script.length - 3 * loaded ≤ (pieces pcb.sourceFile).length ∧
      ∀ j (hj : j < (pieces pcb.sourceFile).length) (hj' : 3 * loaded + j < script.length),
        (pieces pcb.sourceFile)[j] = script[3 * loaded + j] := by
  have hlength := congrArg List.length h.source
  rw [List.length_take, List.length_drop] at hlength
  refine ⟨by omega, fun j hj hj' => ?_⟩
  have hget := congrArg (·[j]?) h.source
  simp only [List.getElem?_take, List.getElem?_drop] at hget
  rw [if_pos (by omega), List.getElem?_eq_getElem hj, List.getElem?_eq_getElem hj'] at hget
  exact Option.some.inj hget

/-- `load_PAGE` on the next page, while there are frames. -/
theorem load (h : Proc frame recent m p pid script done loaded pcb) (hF : Frames size frame recent m)
    (hlt : recent.length < size / 3) (hnot : (p, loaded) ∉ recent) (hc : loaded < pages script.length) :
    ∃ f pcb' m', pcb.load size loaded m = some (pcb', m') ∧ (∀ x ∈ recent, frame x ≠ f) ∧
      (∀ pos, pos / 3 ≠ f → m' pos = m pos) ∧
      Frames size (Function.update frame (p, loaded) f) ((p, loaded) :: recent) m' ∧
      Proc (Function.update frame (p, loaded) f) ((p, loaded) :: recent) m' p pid
      script done (loaded + 1) pcb' := by
  obtain ⟨page, hpage, hindex, hpid, -⟩ := h.missing loaded hc hnot
  obtain ⟨f, hf, hunused, halloc⟩ := hF.alloc hlt (pidStr pid)
  obtain ⟨hleft, hpieces⟩ := h.left
  obtain ⟨src', m', hread, hsrc, hlines, hkeep⟩ := readLines_page (pidStr pid) page (3 * f)
    pcb.sourceFile (Frames.taken m (3 * f) (pidStr pid))
  have hother : ∀ pos, pos / 3 ≠ f → m' pos = m pos := fun pos hpos => by
    rw [hkeep pos fun j _ => by omega, Frames.taken, if_neg (by omega)]
  have hvar : ∀ j : Fin 3, (m' (3 * f + j)).var = pidStr pid := fun j => by
    by_cases hj : (j : Nat) < (pieces pcb.sourceFile).length
    · rw [hlines j hj]
    · rw [hkeep _ fun j' hj' => by omega, Frames.taken, if_pos (by omega)]
  have hstored : Stored m' f pid script loaded := fun j => ⟨hvar j, fun hj => by
    rw [hlines j (by omega)]
    exact hpieces j (by omega) hj⟩
  have hused : ∀ pos, pos / 3 = f → (m' pos).var ≠ vacant := fun pos hpos => by
    have := hvar ⟨pos % 3, Nat.mod_lt _ (by decide)⟩
    rw [show 3 * f + pos % 3 = pos by omega] at this
    rw [this]
    exact pidStr_ne_vacant pid
  let page' : Page := { page with
    index := fun j => 3 * f + j
    validBit := fun j => decide ((j : Nat) < (pieces pcb.sourceFile).length) }
  have hat : PageAt f loaded pid script.length page' :=
    ⟨fun _ => rfl, fun j hj => decide_eq_true (by omega), hindex, hpid⟩
  have hload : pcb.load size loaded m = some (pcb.setPage loaded page' src', m') := by
    rw [PCB.load, hpage]
    simp only [Option.bind_eq_bind, Option.bind_some, loadPage, h.pidEq, halloc, Option.map_some, hread]
    rfl
  have hlen : loaded < pcb.pageTable.length := by rw [h.table]; exact hc
  refine ⟨f, _, m', hload, hunused, hother, hF.add hnot hf hunused hused hother, ?_⟩
  refine ⟨h.pidEq, h.sizeEq, h.countersEq, ?_, ?_, fun c hc' hmem => ?_, fun c hc' hmem => ?_⟩
  · rw [PCB.setPage, List.length_set]
    exact h.table
  · rw [PCB.setPage, hsrc, Nat.mul_succ, ← List.drop_drop, ← h.source, List.drop_take, Nat.sub_add_eq]
  · by_cases hcl : c = loaded
    · subst hcl
      rw [Function.update_self, PCB.setPage, List.getElem?_set_self hlen]
      exact ⟨page', rfl, hat, hstored⟩
    · have hmem : (p, c) ∈ recent := (List.mem_cons.1 hmem).resolve_left (by simp [hcl])
      obtain ⟨pagec, hget, hatc, hst⟩ := h.resident c hc' hmem
      rw [Function.update_of_ne (by simp [hcl]), PCB.setPage, List.getElem?_set_ne (Ne.symm hcl)]
      exact ⟨pagec, hget, hatc, stored_congr hst fun pos hpos => hother pos (hpos ▸ hunused _ hmem)⟩
  · have hcl : c ≠ loaded := by
      rintro rfl
      exact hmem List.mem_cons_self
    rw [PCB.setPage, List.getElem?_set_ne (Ne.symm hcl)]
    exact h.missing c hc' fun hm => hmem (List.mem_cons_of_mem _ hm)

theorem evict (h : Proc frame recent m p pid script done loaded pcb)
    (hF : Frames size frame recent m) {c : Nat} (hperm : recent.Perm ((p, c) :: recent'))
    (hc : c < pages script.length) :
    ∃ page blank m', pcb.pageTable[c]? = some page ∧ page.pageIndex = c ∧ page.pagePid = pid ∧
      pageEvict page m = (blank, m') ∧ (∀ pos, pos / 3 ≠ frame (p, c) → m' pos = m pos) ∧
      Frames size frame recent' m' ∧
      Proc frame recent' m' p pid script done loaded
      { pcb with pageTable := pcb.pageTable.set c blank } := by
  have hmem : (p, c) ∈ recent := hperm.mem_iff.2 List.mem_cons_self
  have hnot : (p, c) ∉ recent' := (List.nodup_cons.1 (hperm.nodup_iff.1 hF.nodup)).1
  obtain ⟨page, hget, hat, -⟩ := h.resident c hc hmem
  have hlen : c < pcb.pageTable.length := by rw [h.table]; exact hc
  have hkeep : ∀ pos, pos / 3 ≠ frame (p, c) → (pageEvict page m).2 pos = m pos := by
    intro pos hpos
    simp only [pageEvict, hat.index, List.foldl_cons, List.foldl_nil, memFreeAt]
    rw [Function.update_of_ne (by simp; omega), Function.update_of_ne (by simp; omega),
      Function.update_of_ne (by simp; omega)]
  have hfree : ∀ pos, pos / 3 = frame (p, c) → ((pageEvict page m).2 pos).var = vacant := by
    intro pos hpos
    simp only [pageEvict, hat.index, List.foldl_cons, List.foldl_nil, memFreeAt, Function.update_apply]
    split
    · rfl
    · split
      · rfl
      · rw [if_pos (by simp at *; omega)]
  refine ⟨page, _, _, hget, hat.pageIndex, hat.pagePid, rfl, hkeep, hF.remove hperm hfree hkeep, ?_⟩
  refine ⟨h.pidEq, h.sizeEq, h.countersEq, ?_, h.source, fun c' hc' hmem' => ?_, fun c' hc' hmem' => ?_⟩
  · rw [List.length_set]
    exact h.table
  · have hne : c' ≠ c := by
      rintro rfl
      exact hnot hmem'
    have hmem₀ : (p, c') ∈ recent := hperm.mem_iff.2 (List.mem_cons_of_mem _ hmem')
    obtain ⟨page', hget', hat', hst⟩ := h.resident c' hc' hmem₀
    rw [List.getElem?_set_ne (Ne.symm hne)]
    refine ⟨page', hget', hat', stored_congr hst fun pos hpos => hkeep pos fun he => hne ?_⟩
    have := hF.inj _ hmem₀ _ hmem (hpos.symm.trans he)
    exact (Prod.mk.inj this).2
  · by_cases hne : c' = c
    · subst hne
      rw [List.getElem?_set_self hlen]
      exact ⟨_, rfl, hat.pageIndex, hat.pagePid, fun _ => rfl⟩
    · rw [List.getElem?_set_ne (Ne.symm hne)]
      refine h.missing c' hc' fun hm => ?_
      rcases List.mem_cons.1 (hperm.mem_iff.1 hm) with he | hm
      · exact hne (Prod.mk.inj he).2
      · exact hmem' hm

end Proc

/-! ## Program counters -/

section
variable {n done : Nat}

theorem counters_get {c : Nat} (hc : c < pages n) :
    (counters n done)[c]? = some (min 3 (done - 3 * c)) := by
  rw [counters, List.getElem?_map, List.getElem?_range hc]
  rfl

theorem page_lt (h : done < n) : done / 3 < pages n := by
  rw [pages]
  omega

theorem counters_current (h : done < n) : (counters n done)[done / 3]? = some (done % 3) := by
  rw [counters_get (page_lt h)]
  exact congrArg some (by omega)

/-- The first page that is not finished is the page of the next line. -/
theorem findIdx_counters (h : done < n) : (counters n done).findIdx (· ≠ 3) = done / 3 := by
  have hlen : done / 3 < (counters n done).length := by simpa [counters] using page_lt h
  rw [List.findIdx_eq hlen]
  refine ⟨?_, fun j hj => ?_⟩
  · simp [counters]
    omega
  · simp [counters]
    omega

theorem counters_modify : (counters n done).modify (done / 3) (· + 1) = counters n (done + 1) := by
  refine List.ext_getElem? fun c => ?_
  rw [List.getElem?_modify]
  by_cases hc : c < pages n
  · rw [counters_get hc, counters_get hc, Option.map_eq_map, Option.map_some]
    split <;> exact congrArg some (by omega)
  · rw [List.getElem?_eq_none (by simpa [counters] using hc),
      List.getElem?_eq_none (by simpa [counters] using hc)]
    rfl

theorem le_done_of_counters (h : ∀ x ∈ counters n done, x = 3) : n ≤ done := by
  by_contra hlt
  have := h (done % 3) (List.mem_of_getElem? (counters_current (by omega)))
  omega

end

end MyShell.Paging

/-
Program text and variables: where the calls of `run` and `exec` keep to the frame
store, no variable changes but by `mem_set_value` and `mem_init_variable`
(`text_stays`).
-/
import MyShell.Backing.Footprint
import MyShell.Backing.Victims

namespace MyShell.Backing

open Paging (Text)

/-- The variables are the same. -/
def Store.SameVariables (threshold : Nat) (m m' : Store) : Prop :=
  ∀ j, threshold ≤ j →
    (m'.lines[j]?).map (fun s => (s.var, s.value)) = (m.lines[j]?).map fun s => (s.var, s.value)

namespace Store.SameVariables

variable {threshold i : Nat} {m m' : Store}

theorem of_lines (h : ∀ j, threshold ≤ j → m'.lines[j]? = m.lines[j]?) : SameVariables threshold m m' :=
  fun j hj => congrArg _ (h j hj)

theorem of_eq (h : m' = m) : SameVariables threshold m m' := of_lines fun _ _ => by rw [h]

theorem access (m : Store) (i : Nat) : SameVariables threshold m (m.access i) := by
  intro j _
  simp only [Store.access, List.getElem?_modify]
  split
  · cases m.lines[j]? with
    | none => rfl
    | some s => rfl
  · simp

theorem memGetValue (m : Store) (var : Text) :
    SameVariables threshold m (m.memGetValue threshold var).2 := by
  unfold Store.memGetValue
  split
  · exact access m _
  · exact of_eq rfl

theorem memGetValueAtLine {line : Text} (h : m.memGetValueAtLine i = some (line, m')) :
    SameVariables threshold m m' := by
  obtain ⟨s, -, h⟩ := Option.bind_eq_some_iff.1 h
  cases h
  exact access m i

end Store.SameVariables

variable {σ : Type} {ho : Host σ} {k k' : Kernel σ} {place place' : Place} {c : Ptr} {pcb : PCB}
  {r : Int}

theorem processInitialize_frame {filename : Text} (hsize : ho.frameStoreSize ≤ k.store.lines.length)
    (hin : k.store.SearchInside ho.frameStoreSize)
    (h : processInitialize ho filename k = some (r, k')) :
    k.store.SameVariables ho.frameStoreSize k'.store := by
  obtain ⟨-, rfl, -⟩ | ⟨_, _, copy, error, pcb, store, -, -, -, hload, hdone⟩ :=
    processInitialize_cases h
  · exact .of_eq rfl
  · have hsame : k.store.SameVariables ho.frameStoreSize store := .of_lines fun j hj =>
      loadFile_frame hload j fun hmem => Nat.not_lt.2 hj ((fileLines_lt hsize).2 hin j hmem)
    obtain ⟨-, -, rfl⟩ | ⟨-, -, queue, -, rfl⟩ := hdone
    · exact hsame
    · exact hsame

/-- **A page fault** leaves the lines it does not look at, fill or free. -/
theorem pageFault_frame (hpcb : k.pcbs.get c = some pcb) (h : pageFault ho c k = some (r, k')) (j : Nat)
    (hj : (j : Int) ∉ faultLines ho.frameStoreSize (ho.fopen pcb.filename k.host) pcb k.store) :
    k'.store.lines[j]? = k.store.lines[j]? := by
  have hmem {lines : List Nat} (h : (j : Int) ∉ lines.map Int.ofNat) : j ∉ lines := fun hmem =>
    h (List.mem_map.2 ⟨j, hmem, rfl⟩)
  obtain ⟨pcb₀, content, pcb₁, store₁, pcb', store', hpcb₀, hopen, hload, rfl, hdone⟩ :=
    pageFault_cases h
  obtain rfl := Option.some.inj (hpcb.symm.trans hpcb₀)
  unfold faultLines at hj
  rw [hopen, hload, List.mem_append, not_or] at hj
  obtain ⟨hfirst, hj⟩ := hj
  have hlines₁ := loadFrame_frame hload j (hmem hfirst)
  obtain ⟨-, -, rfl⟩ | ⟨rfl, r₂, pcb₂, store₂, r₃, hremove, hagain⟩ := hdone
  · exact hlines₁
  · dsimp only at hj
    rw [if_pos rfl, hremove, List.mem_append, not_or] at hj
    obtain ⟨hvictim, hlast⟩ := hj
    exact (loadFrame_frame hagain j (hmem hlast)).trans
      ((removeFrame_frame hremove j hvictim).trans hlines₁)

/-- A call of the step leaves the frame store. -/
def Overruns (ho : Host σ) (place : Place) (k k' : Kernel σ) : Prop :=
  (∃ filename r, processInitialize ho filename k = some (r, k')) ∧
    ¬ k.store.SearchInside ho.frameStoreSize ∨
    ∃ policy p c quanta pcb, place = .executing policy p c (quanta + 1) ∧ k.pcbs.get c = some pcb ∧
      pcb.pageCounter < pcb.currentPage ∧
      ¬ FaultInside ho.frameStoreSize (ho.fopen pcb.filename k.host) pcb k.store

theorem pageFault_variables (hm : k.store.Stamped) (hsize : ho.frameStoreSize ≤ k.store.lines.length)
    (hpcb : k.pcbs.get c = some pcb) (h : pageFault ho c k = some (r, k'))
    (hin : FaultInside ho.frameStoreSize (ho.fopen pcb.filename k.host) pcb k.store) :
    k.store.SameVariables ho.frameStoreSize k'.store :=
  .of_lines fun j hj => pageFault_frame hpcb h j fun hmem => by
    have := ((faultLines_inside hm hsize).2 hin j hmem).2
    omega

/-- Only `mem_set_value` and `mem_init_variable` change a variable, unless a call overruns
the frame store. -/
def VariablesKept (ho : Host σ) (place : Place) (k k' : Kernel σ) : Prop :=
  k.store.SameVariables ho.frameStoreSize k'.store ∨
    (∃ var value, k'.store = k.store.memSetValue ho.frameStoreSize var value) ∨
    k'.store = k.store.memInitVariable ho.frameStoreSize ∨ Overruns ho place k k'

theorem Act.variables (hsize : ho.frameStoreSize ≤ k.store.lines.length) (h : Act ho k k') :
    VariablesKept ho place k k' := by
  cases h with
  | @load filename r _ hload =>
    by_cases hin : k.store.SearchInside ho.frameStoreSize
    · exact .inl (processInitialize_frame hsize hin hload)
    · exact .inr (.inr (.inr (.inl ⟨⟨filename, r, hload⟩, hin⟩)))
  | set var value => exact .inr (.inl ⟨var, value, rfl⟩)
  | get var => exact .inl (.memGetValue k.store var)
  | reset => exact .inr (.inr (.inl rfl))
  | policy | system | chdir => exact .inl fun _ _ => rfl

theorem fetch_variables {line : Text} (h : fetch c k = some (line, k')) :
    k.store.SameVariables ho.frameStoreSize k'.store := by
  obtain ⟨pcb, store, -, hget, rfl⟩ := fetch_cases h
  exact .memGetValueAtLine hget

/-- **A step** leaves the variables, unless it sets one, resets them or overruns the frame store. -/
theorem Step.variables (hk : k.Sound ho) (hstep : Step ho place k place' k') :
    VariablesKept ho place k k' := by
  have hsize := hk.frames_le
  cases hstep with
  | command h | act h => exact h.variables hsize
  | @enter policy _ _ henter =>
    cases policy with
    | aging =>
      obtain ⟨queue, -, henter⟩ := Option.bind_eq_some_iff.1 henter
      cases henter
      exact .inl (.of_eq rfl)
    | fcfs | sjf | rr | rr30 =>
      cases henter
      exact .inl (.of_eq rfl)
  | leave | spent | advance | dropped | back => exact .inl (.of_eq rfl)
  | pick hpick => exact .inl (.of_eq (Policy.pick_store hpick).1)
  | @noPage policy _ k₁ _ p c quanta pcb hpcb hpage hfault hfinish =>
    by_cases hin : FaultInside ho.frameStoreSize (ho.fopen pcb.filename k.host) pcb k.store
    · left
      rw [finish_store hfinish]
      exact pageFault_variables hk.store.toStamped hsize hpcb hfault hin
    · exact .inr (.inr (.inr (.inr ⟨policy, p, c, quanta, pcb, rfl, hpcb, hpage, hin⟩)))
  | @fault policy _ _ p c quanta pcb r hpcb hpage hfault =>
    by_cases hin : FaultInside ho.frameStoreSize (ho.fopen pcb.filename k.host) pcb k.store
    · exact .inl (pageFault_variables hk.store.toStamped hsize hpcb hfault hin)
    · exact .inr (.inr (.inr (.inr ⟨policy, p, c, quanta, pcb, rfl, hpcb, hpage, hin⟩)))
  | noLine _ _ hfetch hfinish =>
    left
    rw [finish_store hfinish]
    exact fetch_variables hfetch
  | fetch _ _ hfetch =>
    have hsame : k.store.SameVariables ho.frameStoreSize _ := fetch_variables hfetch
    exact .inl hsame

/-- **Program text stays out of the variables.** In every state the lines that `load_file` looks at
and fills are below `THRESHOLD` exactly if its search stays there, and those of a page fault
exactly if the search does and the victim's frame is a whole one; and a step that keeps to
this changes no variable but by `mem_set_value` and `mem_init_variable`. -/
theorem text_stays (h : Reached ho place k) :
    (∀ text filename pid, (∀ j ∈ fileLines ho.frameStoreSize text filename (makePCB pid) k.store,
      j < ho.frameStoreSize) ↔ k.store.SearchInside ho.frameStoreSize) ∧
    (∀ c pcb, k.pcbs.get c = some pcb →
      ((∀ j ∈ faultLines ho.frameStoreSize (ho.fopen pcb.filename k.host) pcb k.store, 0 ≤ j ∧
        j < ho.frameStoreSize) ↔
        FaultInside ho.frameStoreSize (ho.fopen pcb.filename k.host) pcb k.store)) ∧
    ∀ place' k', Step ho place k place' k' → VariablesKept ho place k k' := by
  refine ⟨fun text filename pid => fileLines_lt h.size, fun c pcb _ => ?_,
    fun place' k' hstep => hstep.variables h.sound⟩
  exact faultLines_inside h.sound.store.toStamped h.size

/-- In a store of two frames the second process is loaded into the second frame. -/
theorem text_stays_pages : ∃ place k, Reached (smallHost 6) place k ∧
    ∀ j ∈ fileLines 6 "help\nhelp\nhelp\nhelp".toList "p".toList (makePCB 2) k.store, j < 6 := by
  have hrun : (batches (smallHost 6) [(["a".toList], .rr, 0)] .prompt (start (smallHost 6) onePage)).map
      (fun r => r.2.store.findAvailableSlot 6) = some (some (some 3)) := by decide +kernel
  obtain ⟨place, k, hreached, -⟩ := exists_reached (.start _) hrun
  have hdvd : 3 ∣ (smallHost 6).frameStoreSize := by decide
  exact ⟨place, k, hreached, ((text_stays hreached).1 _ _ _).2 (.inl hdvd)⟩

/-- The lines that hold text of the file `filename`. -/
def textLines (filename : Text) (m : Store) : List Bool := m.lines.map fun s => s.var = some filename

/-- The lines of a page fault of process `c`, if it has one now, and its text in the memory
before and after. -/
def faultView (ho : Host σ) (c : Ptr) (k : Kernel σ) : Option (List Int × List Bool × List Bool) := do
  let pcb ← k.pcbs.get c
  let (_, k') ← pageFault ho c k
  if pcb.pageCounter < pcb.currentPage then
    some (faultLines ho.frameStoreSize (ho.fopen pcb.filename k.host) pcb k.store,
      textLines pcb.filename k.store, textLines pcb.filename k'.store)
  else none

theorem faultView_some {lines : List Int} {before after : List Bool}
    (h : faultView ho c k = some (lines, before, after)) :
    ∃ pcb r k', k.pcbs.get c = some pcb ∧ pcb.pageCounter < pcb.currentPage ∧
      pageFault ho c k = some (r, k') ∧
      faultLines ho.frameStoreSize (ho.fopen pcb.filename k.host) pcb k.store = lines ∧
      textLines pcb.filename k.store = before ∧ textLines pcb.filename k'.store = after := by
  simp only [faultView, Option.bind_eq_bind, Option.bind_eq_some_iff] at h
  obtain ⟨pcb, hpcb, ⟨r, k'⟩, hfault, h⟩ := h
  split at h
  · next hpage =>
    cases h
    exact ⟨pcb, r, k', hpcb, hpage, hfault, rfl, rfl, rfl⟩
  · cases h

/-- With a frame store of four lines and two variables, the second page of a script goes to
line 3 and the variables. -/
theorem text_in_variables :
    ∃ policy p c quanta k pcb r k', Reached (smallHost 4) (.executing policy p c (quanta + 1)) k ∧
    k.pcbs.get c = some pcb ∧ pcb.pageCounter < pcb.currentPage ∧ pageFault (smallHost 4) c k =
    some (r, k') ∧
    faultLines 4 ((smallHost 4).fopen pcb.filename k.host) pcb k.store = [0, 3, 4, 5, 3, 4, 5] ∧
    textLines pcb.filename k.store = [true, true, true, false, false, false] ∧
    textLines pcb.filename k'.store = [true, true, true, true, true, true] := by
  have hrun : (batches (smallHost 4) [(["a".toList], .fcfs, 4)] .prompt
    (start (smallHost 4) (helpFiles 6))).map
      (fun r => (r.1, faultView (smallHost 4) 0 r.2)) = some (.executing .fcfs 0 0 (2147483642 + 1),
        some ([0, 3, 4, 5, 3, 4, 5], [true, true, true, false, false, false],
          [true, true, true, true, true, true])) := by
    decide +kernel
  obtain ⟨place, k, hreached, hk⟩ := exists_reached (.start _) hrun
  obtain ⟨hplace, hview⟩ := Prod.mk.inj hk
  dsimp only at hplace hview
  subst hplace
  obtain ⟨pcb, r, k', hpcb, hpage, hfault, hlines, hbefore, hafter⟩ := faultView_some hview
  exact ⟨.fcfs, 0, 0, 2147483642, k, pcb, r, k', hreached, hpcb, hpage, hfault, hlines, hbefore, hafter⟩

end MyShell.Backing

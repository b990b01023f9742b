/-
Page faults and answers. `cpu_run` answers 1 for a line that is not in memory,
and otherwise what the line answers, and `run_proc` takes every 1 for a page
fault. Some commands do answer 1.
-/
import MyShell.Paging.Nested

namespace MyShell.Paging

variable {σ : Type} {sh : Shell σ} {k k' : Kernel σ} {p : Ptr} {r : Int} {n : Nat}

/-! ## The answers of the commands -/

/-- The commands that answer 1. -/
def answersOne (sh : Shell σ) (s : σ) : Command → List Text → Prop
  | .exec, names => names.length = 4
  | .cat, [file] => (sh.fsutilCat file s).map Prod.fst = some 1
  | .rm, [file] => (sh.fsutilRm file s).map Prod.fst = some 1
  | .read, [file, size] =>
    (sh.fsutilRead file (atoi size) s).map Prod.fst = some (atoi size) ∧ atoi size ≠ -1
  | .copyIn, [file] => (sh.copyIn (sh.cwd ++ "/".toList ++ file) s).map Prod.fst = some 1
  | .copyOut, [file] => (sh.copyOut file s).map Prod.fst = some 1
  | .size, [file] => (sh.fsutilSize file s).map Prod.fst = some (-1)
  | .seek, [file, offset] => (sh.fsutilSeek file (atoi offset) s).map Prod.fst = some (-1)
  | _, _ => False

/-- The same for the words of a command. -/
def AnswersOne (sh : Shell σ) (s : σ) (args : List Text) : Prop :=
  match args.map stripLine with
  | [] => False
  | name :: args => ∃ c, commandNames.lookup name = some c ∧ answersOne sh s c args

/-- The interpreter stays inside its arrays, and runs no script. -/
def Contained (args : List Text) : Prop :=
  args.length ≤ 100 ∧ args.map stripLine ≠ ["echo".toList] ∧ started args = []

/-- A command that leaves the scheduler alone, and answers 1 exactly if `P`, where it returns. -/
def Answers (size : Nat) (k : Kernel σ) (x : Option (Int × Kernel σ)) (P : Prop) : Prop :=
  ∀ r k', x = some (r, k') → Kept size k k' ∧ (r = 1 ↔ P)

namespace Answers

variable {size : Nat} {x : Option (Int × Kernel σ)} {P Q : Prop}

theorem congr (h : Answers size k x P) (hpq : P ↔ Q) : Answers size k x Q := fun r k' hx =>
  ⟨(h r k' hx).1, (h r k' hx).2.trans hpq⟩

theorem none : Answers size k none P := fun _ _ h => by cases h

theorem answer (a : Int) : Answers size k (k.answer a) (a = 1) := fun r k' h => by
  have hkept : Kept size k k' := .answer h
  cases h
  exact ⟨hkept, Iff.rfl⟩

theorem shellCall {f : σ → Option (Int × σ)} {g : Int → Int}
    (hP : ∀ a, (f k.shell).map Prod.fst = some a → (g a = 1 ↔ P)) :
    Answers size k (k.shellCall f g) P := fun r k' h => by
  refine ⟨.shellCall h, ?_⟩
  obtain ⟨x, hx, h⟩ := Option.map_eq_some_iff.1 h
  cases h
  exact hP _ (by rw [hx]; rfl)

theorem shellStep (f : σ → Option σ) (a : Int) : Answers size k (k.shellStep f a) (a = 1) :=
  fun r k' h => by
  refine ⟨.shellStep h, ?_⟩
  obtain ⟨s, -, h⟩ := Option.map_eq_some_iff.1 h
  cases h
  exact Iff.rfl

theorem setMemory {m : Memory} (hm : ∀ pos < size, m pos = k.memory pos) (a : Int) :
    Answers size k (some (a, { k with memory := m })) (a = 1) := fun r k' h => by
  have hkept : Kept size k k' := .setMemory hm h
  cases h
  exact ⟨hkept, Iff.rfl⟩

end Answers

/-- The commands from the token on run no script and stay inside the arrays of
the interpreter, and the last one interpreted does not answer 1. -/
inductive Calm (sh : Shell σ) (n : Nat) : Option Text → Kernel σ → Prop
  | empty {k : Kernel σ} : Calm sh n none k
  | last {token : Text} {k k' : Kernel σ} {r : Int} : Contained (words token) →
      interpreter sh (exec (parseInput sh n) sh.frameStoreSize n) (words token) k = some (r, k') →
      (r = -1 ∨ strtok k'.strtokRest = none) → ¬ AnswersOne sh k.shell (words token) →
      Calm sh n (some token) k
  | next {token : Text} {k k' : Kernel σ} {r : Int} : Contained (words token) →
      interpreter sh (exec (parseInput sh n) sh.frameStoreSize n) (words token) k = some (r, k') →
      r ≠ -1 → strtok k'.strtokRest ≠ none →
      Calm sh n (nextToken k'.strtokRest k').1 (nextToken k'.strtokRest k').2 →
      Calm sh n (some token) k

theorem Kernel.Alive.kept {size : Nat} (h : k.Alive p) (hkept : Same size k k') : k'.Alive p where
  all := by
    rw [hkept.allPcb]
    exact h.all
  get := by
    rw [hkept.pcbs]
    exact h.get

/-- What `run_proc` on page `i` of the process `p` works on. -/
structure Ready (k : Kernel σ) (p : Ptr) (i : Nat) (pcb : PCB) (page : Page) (pc : Fin 3) : Prop where
  alive : k.Alive p
  get : k.pcbs.get p = some pcb
  table : pcb.pageTable[i]? = some page
  counter : pcb.programCounter[i]? = some pc.val
  /-- The recency list points to pages of processes, and a page with valid lines is on it. -/
  listed : ∀ x ∈ k.lruCache, (k.page x).isSome
  recent : page.validBit pc = true → (p, i) ∈ k.lruCache

/-- There is a frame for one more page, if need be in the place of the page least recently used. -/
def Room (size : Nat) (k : Kernel σ) : Prop :=
  (∃ i < size, frameFree size k.memory i) ∨
    ∃ k₁, evictTail k = some k₁ ∧ ∃ i < size, frameFree size k₁.memory i

theorem removeElem_isSome (k : Kernel σ) {start : Nat} {x : Ptr × Nat} {page : Page}
    (hpage : k.page x = some page) (hstart : page.index 0 = start) :
    ∀ {l : List (Ptr × Nat)}, x ∈ l → (∀ y ∈ l, (k.page y).isSome) →
    ∃ y rest, k.removeElem start l = some (y, rest)
  | [], hx, _ => by cases hx
  | y :: l, hx, hl => by
    obtain ⟨page', hpage'⟩ := Option.isSome_iff_exists.1 (hl y List.mem_cons_self)
    rw [Kernel.removeElem, Kernel.pageEqual, hpage']
    by_cases he : page'.index 0 = start
    · exact ⟨y, l, by simp [he]⟩
    · have hne : x ≠ y := by
        rintro rfl
        rw [hpage] at hpage'
        exact he (Option.some.inj hpage' ▸ hstart)
      obtain ⟨z, rest, hrest⟩ :=
        removeElem_isSome k hpage hstart ((List.mem_cons.1 hx).resolve_left hne)
        fun z hz => hl z (List.mem_cons_of_mem _ hz)
      exact ⟨z, y :: rest, by simp [he, hrest]⟩

section
variable {size i : Nat} {pcb : PCB} {page : Page} {pc : Fin 3}

namespace Ready

end Ready

namespace Follows

open DemandPaging (pages)

variable {frame : Ptr × Nat → Nat} {ps : List Ptr} {pid : Ptr → Nat} {script : Ptr → List Text}
  {older : List (Nat × Text)} {s : DemandPaging.State Ptr}

/-- The next line of a process is valid exactly if its page is in memory. -/
theorem ready (h : Follows size frame ps pid script older k s) (hp : p ∈ ps)
    (hlt : s.done p < (script p).length) :
    ∃ pcb page, Ready k p (s.done p / 3) pcb page ⟨s.done p % 3, Nat.mod_lt _ (by decide)⟩ ∧
      (page.validBit ⟨s.done p % 3, Nat.mod_lt _ (by decide)⟩ = true ↔ s.current p ∈ s.recent) := by
  obtain ⟨pcb, hget, hproc⟩ := h.proc p hp
  have halive : k.Alive p := ⟨by rw [h.all]; exact hp, by rw [hget]; rfl⟩
  have hlisted : ∀ x ∈ k.lruCache, (k.page x).isSome := fun x hx => by
    obtain ⟨page, hpage, -⟩ := h.page_resident (by rw [← h.recent]; exact hx)
    rw [hpage]
    rfl
  have hcounter : pcb.programCounter[s.done p / 3]? = some (s.done p % 3) := by
    rw [hproc.countersEq]
    exact counters_current hlt
  by_cases hcur : s.current p ∈ s.recent
  · obtain ⟨page, hpage, hat, -⟩ := hproc.resident _ (page_lt hlt) hcur
    refine ⟨pcb, page, ⟨halive, hget, hpage, hcounter, hlisted,
      fun _ => by rw [h.recent]; exact hcur⟩, ?_⟩
    exact iff_of_true (hat.valid _ (by simp only; omega)) hcur
  · obtain ⟨page, hpage, -, -, hvalid⟩ := hproc.missing _ (page_lt hlt) hcur
    refine ⟨pcb, page, ⟨halive, hget, hpage, hcounter, hlisted, fun ht => ?_⟩, ?_⟩
    · rw [hvalid] at ht
      cases ht
    · simp [hvalid, hcur]

theorem room (h : Follows size frame ps pid script older k s) (hlen : s.recent.length ≤ size / 3)
    (hpos : 0 < size / 3) : Room size k := by
  have hfree : ∀ {k : Kernel σ} {s : DemandPaging.State Ptr},
      Follows size frame ps pid script older k s →
      s.recent.length < size / 3 → ∃ j < size, frameFree size k.memory j := fun h hlt => by
    obtain ⟨f, hf, hunused⟩ := Frames.exists_free frame hlt
    exact ⟨3 * f, by omega, h.frames.frameFree_of_unused hf hunused⟩
  by_cases hroom : s.recent.length < size / 3
  · exact .inl (hfree h hroom)
  · have hne : s.recent ≠ [] := by
      intro he
      rw [he] at hroom
      exact hroom hpos
    obtain ⟨m, pcbs, hevict, hfollow⟩ := h.evictTail_ok hne
    have hlt : s.recent.dropLast.length < size / 3 := by
      rw [List.length_dropLast]
      have := List.length_pos_iff.2 hne
      omega
    exact .inr ⟨_, hevict, hfree hfollow hlt⟩

end Follows

end

end MyShell.Paging

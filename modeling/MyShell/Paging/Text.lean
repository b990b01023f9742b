/-
Text as the program reads it through the C library: `fgets` and `count_lines`
on a script, `strtok` and the word loop of `parseInput` on a line. A text is
what a C string or a text file holds; the NUL that ends a string is not part
of it.
-/
import Mathlib.Data.List.Basic
import Mathlib.Tactic.Common

namespace MyShell.Paging

abbrev Text := List Char

/-! ## Reading lines -/

/-- At most `n` characters, up to and with the first newline, and the rest. -/
def readLine : Nat → Text → Text × Text
  | 0, s => ([], s)
  | _ + 1, [] => ([], [])
  | n + 1, c :: s =>
    if c = '\n' then ([c], s)
    else (c :: (readLine n s).1, (readLine n s).2)

/-- `fgets(line, n, file)`: nothing at the end of the file. -/
def fgets (n : Nat) : Text → Option (Text × Text)
  | [] => none
  | c :: s => some (readLine (n - 1) (c :: s))

/-- The loop of `count_lines` after the character `last`. -/
def countNewlines : Char → Text → Nat
  | _, [] => 0
  | last, c :: s => (if c = '\n' ∧ last ≠ '\n' then 1 else 0) + countNewlines c s

def countLines (script : Text) : Nat := countNewlines '\n' script + 1

/-! ## Lines -/

/-- The lines of a text, each with its newline. -/
def lines : Text → List Text
  | [] => []
  | c :: s =>
    if c = '\n' then [c] :: lines s
    else match lines s with
      | [] => [[c]]
      | l :: ls => (c :: l) :: ls

/-- A script the scheduler is made for: some lines, none of them blank or over
900 characters, and no newline after the last. -/
structure Proper (script : Text) : Prop where
  nonempty : script ≠ []
  notBlank : ∀ l ∈ lines script, l ≠ ['\n']
  short : ∀ l ∈ lines script, l.length ≤ 901
  unended : script.getLast? ≠ some '\n'

theorem lines_eq_nil {s : Text} : lines s = [] ↔ s = [] := by
  cases s with
  | nil => simp [lines]
  | cons c s =>
    rw [lines]
    split
    · simp
    · split <;> simp

/-- A first line that fits is read whole. -/
theorem readLine_lines : ∀ {s l : Text} {ls : List Text} {n : Nat}, lines s = l :: ls → l.length ≤ n →
    (readLine n s).1 = l ∧ lines (readLine n s).2 = ls
  | [], l, ls, n, h, _ => by simp [lines] at h
  | c :: s, l, ls, n, h, hn => by
    by_cases hc : c = '\n'
    · rw [lines, if_pos hc] at h
      obtain ⟨rfl, rfl⟩ := List.cons.inj h
      obtain ⟨n, rfl⟩ : ∃ m, n = m + 1 := ⟨n - 1, by simp at hn; omega⟩
      simp [readLine, hc]
    · rw [lines, if_neg hc] at h
      cases hs : lines s with
      | nil =>
        rw [hs] at h
        obtain ⟨rfl, rfl⟩ := List.cons.inj h
        obtain rfl := lines_eq_nil.1 hs
        obtain ⟨n, rfl⟩ : ∃ m, n = m + 1 := ⟨n - 1, by simp at hn; omega⟩
        cases n <;> simp [readLine, hc, lines]
      | cons l' ls' =>
        rw [hs] at h
        obtain ⟨rfl, rfl⟩ := List.cons.inj h
        obtain ⟨n, rfl⟩ : ∃ m, n = m + 1 := ⟨n - 1, by simp at hn; omega⟩
        have hrest := readLine_lines (n := n) hs (by simpa using hn)
        simp [readLine, hc, hrest]

theorem fgets_nil {s : Text} (h : lines s = []) : fgets 999 s = none := by
  rw [lines_eq_nil.1 h, fgets]

theorem fgets_lines {s l : Text} {ls : List Text} (h : lines s = l :: ls) (hl : l.length ≤ 901) :
    ∃ rest, fgets 999 s = some (l, rest) ∧ lines rest = ls := by
  cases s with
  | nil => simp [lines] at h
  | cons c s =>
    obtain ⟨h1, h2⟩ := readLine_lines h (n := 998) (by omega)
    exact ⟨_, by rw [fgets, ← h1], h2⟩

/-- Where no line is blank and the last one is not ended, `count_lines` sees
one newline less than there are lines. -/
theorem countNewlines_lines : ∀ {s : Text} {a : Char}, s ≠ [] → s.getLast? ≠ some '\n' →
    (∀ l ∈ (lines s).tail, l ≠ ['\n']) → (a = '\n' → ∀ l ∈ lines s, l ≠ ['\n']) →
    countNewlines a s + 1 = (lines s).length
  | [], _, h, _, _, _ => absurd rfl h
  | c :: s, last, _, hend, htail, hfirst => by
    rw [countNewlines]
    by_cases hc : c = '\n'
    · have hlines : lines (c :: s) = [c] :: lines s := by rw [lines, if_pos hc]
      have hlast : last ≠ '\n' := fun hl => hfirst hl [c] (by simp [hlines]) (by rw [hc])
      have hs : s ≠ [] := by
        rintro rfl
        simp [hc] at hend
      rw [hlines, List.tail_cons] at htail
      have ih := countNewlines_lines (a := c) hs
        (by rwa [List.getLast?_cons_of_ne_nil hs] at hend)
        (fun l hl => htail l (List.mem_of_mem_tail hl)) (fun _ => htail)
      rw [hlines, List.length_cons, ← ih, if_pos ⟨hc, hlast⟩]
      omega
    · rw [if_neg fun h => hc h.1]
      cases hs : lines s with
      | nil =>
        obtain rfl := lines_eq_nil.1 hs
        simp [lines, hc, countNewlines]
      | cons l ls =>
        have hlines : lines (c :: s) = (c :: l) :: ls := by rw [lines, if_neg hc, hs]
        have hne : s ≠ [] := by
          rintro rfl
          simp [lines] at hs
        rw [hlines, List.tail_cons] at htail
        have ih := countNewlines_lines (a := c) hne
          (by rwa [List.getLast?_cons_of_ne_nil hne] at hend) (by rwa [hs]) (fun h => absurd h hc)
        rw [hlines, List.length_cons, ← List.length_cons (a := l), ← hs, ← ih]
        omega

/-- A script with some lines, none of them blank, and no newline after the last. -/
structure Counted (script : Text) : Prop where
  nonempty : script ≠ []
  notBlank : ∀ l ∈ lines script, l ≠ ['\n']
  unended : script.getLast? ≠ some '\n'

theorem Proper.counted {script : Text} (h : Proper script) : Counted script :=
  ⟨h.nonempty, h.notBlank, h.unended⟩

theorem Counted.countLines_eq {script : Text} (h : Counted script) :
    countLines script = (lines script).length :=
  countNewlines_lines h.nonempty h.unended (fun l hl => h.notBlank l (List.mem_of_mem_tail hl))
    fun _ => h.notBlank

/-! ## Reading a file -/

theorem readLine_length :
    ∀ (n : Nat) (s : Text), (readLine n s).1.length + (readLine n s).2.length = s.length
  | 0, _ => by simp [readLine]
  | _ + 1, [] => rfl
  | n + 1, c :: s => by
    rw [readLine]
    split
    · simp [Nat.add_comm]
    · have := readLine_length n s
      simp only [List.length_cons]
      omega

theorem fgets_length {n : Nat} {s l rest : Text} (h : fgets (n + 2) s = some (l, rest)) :
    rest.length < s.length := by
  cases s with
  | nil => cases h
  | cons c s =>
    have hread : (readLine (n + 1) (c :: s)).2 = rest := congrArg Prod.snd (Option.some.inj h)
    rw [← hread, readLine]
    split
    · exact Nat.lt_succ_self _
    · have := readLine_length n s
      simp only [List.length_cons]
      omega

/-- What `fgets` reads of a file, call by call: the lines, in pieces where they are long. -/
def pieces (s : Text) : List Text :=
  match h : fgets 999 s with
  | none => []
  | some (l, rest) =>
    have := fgets_length h
    l :: pieces rest
termination_by s.length

theorem pieces_none {s : Text} (h : fgets 999 s = none) : pieces s = [] := by
  rw [pieces]
  split
  · rfl
  · rename_i h'
    rw [h] at h'
    cases h'

theorem pieces_some {s l rest : Text} (h : fgets 999 s = some (l, rest)) :
    pieces s = l :: pieces rest := by
  rw [pieces]
  split
  · rename_i h'
    rw [h] at h'
    cases h'
  · rename_i h'
    rw [h] at h'
    obtain ⟨rfl, rfl⟩ := Prod.mk.inj (Option.some.inj h')
    rfl

/-- Where no line is long, the pieces are the lines. -/
theorem pieces_eq_lines :
    ∀ {ls : List Text} {s : Text}, lines s = ls → (∀ l ∈ ls, l.length ≤ 901) → pieces s = ls
  | [], _, hs, _ => pieces_none (fgets_nil hs)
  | l :: ls, s, hs, hshort => by
    obtain ⟨rest, hget, hrest⟩ := fgets_lines hs (hshort l List.mem_cons_self)
    rw [pieces_some hget, pieces_eq_lines hrest fun l hl => hshort l (List.mem_cons_of_mem _ hl)]

/-- One read takes at most one line. -/
theorem length_lines_readLine :
    ∀ (n : Nat) (s : Text), (lines s).length ≤ (lines (readLine n s).2).length + 1
  | 0, _ => Nat.le_succ _
  | _ + 1, [] => Nat.zero_le _
  | n + 1, c :: s => by
    rw [readLine, lines]
    split
    · exact Nat.le_refl _
    · have ih := length_lines_readLine n s
      split
      · exact Nat.le_add_left ..
      · rename_i l ls hs
        rw [hs] at ih
        exact ih

theorem length_lines_le (s : Text) : (lines s).length ≤ (pieces s).length := by
  induction hn : s.length using Nat.strongRecOn generalizing s with
  | _ n ih =>
    cases hget : fgets 999 s with
    | none =>
      cases s with
      | nil => exact Nat.zero_le _
      | cons c s => cases hget
    | some x =>
      obtain ⟨l, rest⟩ := x
      have hrest := ih rest.length (hn ▸ fgets_length hget) rest rfl
      have hread : (lines s).length ≤ (lines rest).length + 1 := by
        cases s with
        | nil => cases hget
        | cons c s =>
          obtain ⟨-, rfl⟩ := Prod.mk.inj (Option.some.inj hget)
          exact length_lines_readLine 998 (c :: s)
      rw [pieces_some hget, List.length_cons]
      omega

/-- The lines a process has: as many pieces of its script as `count_lines` finds lines. -/
def scriptLines (script : Text) : List Text := (pieces script).take (countLines script)

theorem Counted.length_scriptLines {script : Text} (h : Counted script) :
    (scriptLines script).length = countLines script := by
  rw [scriptLines, List.length_take, Nat.min_eq_left]
  rw [h.countLines_eq]
  exact length_lines_le script

theorem Proper.scriptLines_eq {script : Text} (h : Proper script) :
    scriptLines script = lines script := by
  rw [scriptLines, pieces_eq_lines rfl h.short, h.counted.countLines_eq, List.take_length]

/-! ## Splitting a line into commands and words -/

/-- `strtok` with the delimiter `;`: the next token and what lies after it. -/
def strtok (s : Text) : Option (Text × Text) :=
  match s.dropWhile (· = ';') with
  | [] => none
  | c :: rest => some ((c :: rest).takeWhile (· ≠ ';'), ((c :: rest).dropWhile (· ≠ ';')).drop 1)

/-- The word loop of `parseInput`, between two words or inside the word read so far. -/
def splitWords : Option Text → Text → List Text
  | none, [] => []
  | none, c :: s => if c = ' ' then [] :: splitWords none s else splitWords (some [c]) s
  | some w, [] => [w]
  | some w, c :: s => if c = ' ' then w :: splitWords none s else splitWords (some (w ++ [c])) s

def words (token : Text) : List Text := splitWords none (token.dropWhile (· = ' '))

end MyShell.Paging

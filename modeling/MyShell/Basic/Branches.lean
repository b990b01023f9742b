/-
The `if` of a1. It cuts a branch out of its words, joins it with spaces and
hands it to `parseInput`, which takes it apart again: the interpreter is entered
with the words of the branch (`if_runs_branch`).
-/
import MyShell.Basic.Interpreter
import Mathlib.Data.List.TakeWhile

namespace MyShell.Basic

open Paging (Text stripLine joinWords)

variable {σ : Type} {host : Host σ} {enter : Words → State σ → Outcome σ} {s : State σ}
  {w u rest : Text} {ws cs ds front back : List Text}

/-! ## Joining and splitting -/

/-- A word that `parseInput` does not split. -/
def Token (w : Text) : Prop := w ≠ [] ∧ ∀ c ∈ w, c ≠ ' ' ∧ c ≠ ';' ∧ c ≠ '\n'

theorem splitWords_word (hu : ∀ c ∈ u, c ≠ ' ' ∧ c ≠ ';' ∧ c ≠ '\n') :
    splitWords (some w) (u ++ rest) = splitWords (some (w ++ u)) rest := by
  induction u generalizing w with
  | nil => simp
  | cons c u ih =>
    obtain ⟨hspace, hsemi, hline⟩ := hu c List.mem_cons_self
    rw [List.cons_append, splitWords, if_neg (by simp [hspace, hsemi, hline]),
      ih fun d hd => hu d (List.mem_cons_of_mem _ hd), List.append_assoc]
    rfl

theorem splitWords_token (hw : Token w) : splitWords none (w ++ rest) = splitWords (some w) rest := by
  obtain ⟨hne, hw⟩ := hw
  cases w with
  | nil => exact absurd rfl hne
  | cons c w =>
    obtain ⟨hspace, hsemi, hline⟩ := hw c List.mem_cons_self
    rw [List.cons_append, splitWords, if_neg hline, if_neg (by simp [hspace, hsemi]),
      splitWords_word fun d hd => hw d (List.mem_cons_of_mem _ hd)]
    rfl

theorem joinWords_cons_cons (w u : Text) (ws : List Text) :
    joinWords (w :: u :: ws) = w ++ ' ' :: joinWords (u :: ws) := by
  simp [joinWords, List.intercalate]

/-- Words joined by spaces come apart again. -/
theorem splitWords_joinWords (hws : ∀ w ∈ ws, Token w) : splitWords none (joinWords ws) = ws := by
  induction ws with
  | nil => rfl
  | cons w ws ih =>
    have hw := hws w List.mem_cons_self
    have hrest := ih fun u hu => hws u (List.mem_cons_of_mem _ hu)
    cases ws with
    | nil =>
      have hone : joinWords [w] = w ++ [] := by simp [joinWords, List.intercalate]
      rw [hone, splitWords_token hw]
      rfl
    | cons u ws =>
      rw [joinWords_cons_cons, splitWords_token hw, splitWords, if_pos (by simp), hrest]

/-- A joined branch starts with a word. -/
theorem dropWhile_joinWords (hws : ∀ w ∈ ws, Token w) :
    (joinWords ws).dropWhile (· = ' ') = joinWords ws := by
  cases ws with
  | nil => rfl
  | cons w ws =>
    obtain ⟨hne, hw⟩ := hws w List.mem_cons_self
    obtain ⟨c, w, rfl⟩ := List.exists_cons_of_ne_nil hne
    have hjoin : ∃ rest, joinWords ((c :: w) :: ws) = c :: rest := by
      cases ws with
      | nil => exact ⟨w, by simp [joinWords, List.intercalate]⟩
      | cons u ws => exact ⟨_, by rw [joinWords_cons_cons]; rfl⟩
    obtain ⟨rest, hrest⟩ := hjoin
    rw [hrest, List.dropWhile_cons_of_neg (by simpa using (hw c List.mem_cons_self).1)]

/-- `parseInput` on a joined branch enters the interpreter with its words. -/
theorem parseInput_joinWords (hws : ∀ w ∈ ws, Token w) (hlength : (joinWords ws).length < 800)
    (hfew : ws.length ≤ 100) (hshort : ∀ w ∈ ws, w.length < 200) :
    parseInput enter (joinWords ws) s = enter ⟨ws, hfew, hshort⟩ s := by
  have hsplit : splitWords none (((joinWords ws).take 1000).dropWhile (· = ' ')) = ws := by
    rw [List.take_of_length_le (by omega), dropWhile_joinWords hws, splitWords_joinWords hws]
  rw [parseInput, dif_pos (by rw [hsplit]; exact ⟨hfew, hshort⟩)]
  simp only [hsplit]

/-! ## Cutting out a branch -/

theorem segment_eq {stop : Nat} (hws : ws ≠ []) (hstop : stop = front.length + ws.length) :
    segment (front ++ ws ++ back) front.length stop = some ws := by
  obtain ⟨w, ws, rfl⟩ := List.exists_cons_of_ne_nil hws
  have hget : (front ++ w :: ws ++ back)[front.length]? = some w := by simp
  have htake : (front ++ w :: ws ++ back).take stop = front ++ w :: ws := by
    rw [hstop, ← List.length_append, List.take_left]
  rw [segment, hget, htake, Option.map_some]
  simp

theorem findIdx?_else (h : "else".toList ∉ cs) :
    (cs ++ "else".toList :: back).findIdx? (· = "else".toList) = some cs.length := by
  induction cs with
  | nil => rw [List.nil_append, List.findIdx?_cons, if_pos (by simp), List.length_nil]
  | cons c cs ih =>
    rw [List.mem_cons, not_or] at h
    rw [List.cons_append, List.findIdx?_cons, if_neg (by simpa using Ne.symm h.1), ih h.2]
    simp

theorem newline_notMem_stripLine {c : Char} (hc : c ∈ stripLine w) : c ≠ '\n' := by
  have := List.mem_takeWhile_imp hc
  simp only [decide_eq_true_eq] at this
  exact this.2

theorem length_stripLine_le (w : Text) : (stripLine w).length ≤ w.length :=
  (List.takeWhile_prefix _).length_le

/-! ## if -/

/-- The stripped words of an `if`. -/
def ifWords (x op y thn : Text) (cs ds : List Text) : List Text :=
  ["if".toList, x, op, y, thn] ++ cs ++ ["else".toList] ++ ds ++ ["fi".toList]

/-- The branch an `if` has to run, for the values of its identifiers. -/
def chosen (op v w : Text) (cs ds : List Text) : List Text :=
  if v = w ∧ op = "==".toList ∨ v ≠ w ∧ op = "!=".toList then cs else ds

theorem ifCommand_eq {x op y thn v w : Text} (hop : op = "==".toList ∨ op = "!=".toList)
    (hcs : cs ≠ []) (hds : ds ≠ []) (helse : "else".toList ∉ cs) (hfi : cs.head? ≠ some "fi".toList)
    (hx : expand s.memory x = some v) (hy : expand s.memory y = some w)
    (hlength : (joinWords (chosen op v w cs ds)).length < 800) :
    ifCommand host enter (ifWords x op y thn cs ds) s =
      (parseInput enter (joinWords (chosen op v w cs ds)) s).noAnswer := by
  obtain ⟨c, cs', rfl⟩ := List.exists_cons_of_ne_nil hcs
  have hc : c ≠ "fi".toList := fun h => hfi (by rw [h]; rfl)
  have hindex : ((ifWords x op y thn (c :: cs') ds).drop 5).findIdx? (· = "else".toList) =
      some (c :: cs').length := by
    have hdrop : (ifWords x op y thn (c :: cs') ds).drop 5 =
        c :: cs' ++ "else".toList :: (ds ++ ["fi".toList]) := by
      simp [ifWords]
    rw [hdrop, findIdx?_else helse]
  have hthen : segment (ifWords x op y thn (c :: cs') ds) 5 ((c :: cs').length + 5) =
      some (c :: cs') := by
    have hparts : ifWords x op y thn (c :: cs') ds =
        ["if".toList, x, op, y, thn] ++ (c :: cs') ++ (["else".toList] ++ ds ++ ["fi".toList]) := by
          simp [ifWords]
    rw [hparts]
    exact segment_eq hcs (by simp; omega)
  have helse' : segment (ifWords x op y thn (c :: cs') ds) ((c :: cs').length + 5 + 1)
      ((ifWords x op y thn (c :: cs') ds).length - 1) = some ds := by
    have hfront : (c :: cs').length + 5 + 1 =
        (["if".toList, x, op, y, thn] ++ (c :: cs') ++ ["else".toList]).length := by
      simp
    rw [hfront]
    exact segment_eq hds (by simp [ifWords]; omega)
  have hget : (ifWords x op y thn (c :: cs') ds)[1]? = some x ∧
    (ifWords x op y thn (c :: cs') ds)[2]? = some op ∧
      (ifWords x op y thn (c :: cs') ds)[3]? = some y ∧ (ifWords x op y thn (c :: cs') ds)[5]? =
      some c := by
    simp [ifWords]
  obtain ⟨h1, h2, h3, h5⟩ := hget
  have hbad : ¬ (op ≠ "==".toList ∧ op ≠ "!=".toList) := fun h => hop.elim h.1 h.2
  have hbranch : (if v = w ∧ op = "==".toList ∨ v ≠ w ∧
    op = "!=".toList then some (c :: cs') else some ds) =
      some (chosen op v w (c :: cs') ds) := by
    rw [chosen]
    split <;> rfl
  rw [ifCommand, h1, h2, h3, h5]
  simp only [if_neg hc, if_neg hbad, hx, hy, hindex, hthen, helse', hbranch, if_pos hlength]

/-- **Main result.** Of an `if` whose identifiers are defined and whose branches
fit into the buffer, the interpreter is entered once, with the words of the
branch that the comparison asks for, whatever that entry does; nothing else
changes the state. -/
theorem if_runs_branch (args : Words) {rest : List Text} {x op y thn v w : Text}
    (hraw : args.list = "if".toList :: rest)
    (hwords : args.list.map stripLine = ifWords x op y thn cs ds)
    (hop : op = "==".toList ∨ op = "!=".toList) (hcs : cs ≠ []) (hds : ds ≠ [])
    (helse : "else".toList ∉ cs) (hfi : cs.head? ≠ some "fi".toList)
    (htokens : ∀ t ∈ cs ++ ds, t ≠ [] ∧ ∀ c ∈ t, c ≠ ' ' ∧ c ≠ ';')
    (hthen : (joinWords cs).length < 800) (helse' : (joinWords ds).length < 800)
    (hx : expand s.memory x = some v) (hy : expand s.memory y = some w) :
    ∃ branch : Words, branch.list = chosen op v w cs ds ∧ interpreter host enter args s =
      (enter branch s).noAnswer := by
  have hmem : ∀ t ∈ chosen op v w cs ds, t ∈ cs ++ ds ∧ t ∈ args.list.map stripLine := fun t ht => by
    rw [hwords, ifWords]
    rw [chosen] at ht
    split at ht <;> simp [ht]
  have htoken : ∀ t ∈ chosen op v w cs ds, Token t := fun t ht => by
    obtain ⟨hne, hchars⟩ := htokens t (hmem t ht).1
    obtain ⟨raw, -, rfl⟩ := List.mem_map.1 (hmem t ht).2
    exact ⟨hne, fun c hc => ⟨(hchars c hc).1, (hchars c hc).2, newline_notMem_stripLine hc⟩⟩
  have hshort : ∀ t ∈ chosen op v w cs ds, t.length < 200 := fun t ht => by
    obtain ⟨raw, hraw, rfl⟩ := List.mem_map.1 (hmem t ht).2
    exact Nat.lt_of_le_of_lt (length_stripLine_le raw) (args.short raw hraw)
  have hfew : (chosen op v w cs ds).length ≤ 100 := by
    have hlength := congrArg List.length hwords
    have := args.few
    rw [chosen]
    simp only [ifWords, List.length_map, List.length_append, List.length_cons,
      List.length_nil] at hlength
    split <;> omega
  have hlength : (joinWords (chosen op v w cs ds)).length < 800 := by
    rw [chosen]
    split
    · exact hthen
    · exact helse'
  refine ⟨⟨chosen op v w cs ds, hfew, hshort⟩, rfl, ?_⟩
  have hcommand : runCommand host enter (ifWords x op y thn cs ds) s =
      ifCommand host enter (ifWords x op y thn cs ds) s := rfl
  rw [interpreter, hraw]
  simp only
  rw [if_neg (by simp), ← hraw, hwords, hcommand, ifCommand_eq hop hcs hds helse hfi hx hy hlength,
    parseInput_joinWords htoken hlength hfew hshort]

/-- A host without files. -/
def bareHost : Host Unit where
  printf _ h := h
  system _ h := (0, h)
  mkdir _ h := (-1, h)
  chdir _ h := (-1, h)
  fopen _ _ := none
  create _ _ := none

/-- The variable `x` is 1. -/
def oneVariable : State Unit :=
  ⟨("x".toList, "1".toList) :: List.replicate 999 (Paging.vacant, Paging.vacant), ()⟩

def ifLine : Words where
  list := ["if", "$x", "==", "1", "then", "set", "y", "2", "else", "print", "x", "fi"].map String.toList
  few := by decide
  short := by decide

theorem if_runs_branch_set : ∃ branch : Words, branch.list = ["set", "y", "2"].map String.toList ∧
    interpreter bareHost (entered bareHost 1) ifLine oneVariable =
    (entered bareHost 1 branch oneVariable).noAnswer :=
  @if_runs_branch Unit bareHost (entered bareHost 1) oneVariable (["set", "y", "2"].map String.toList)
    (["print", "x"].map String.toList) ifLine _ "$x".toList "==".toList "1".toList "then".toList
    "1".toList "1".toList rfl
    rfl (.inl rfl) (by decide) (by decide) (by decide) (by decide) (by simp) (by decide)
      (by decide) rfl rfl

end MyShell.Basic

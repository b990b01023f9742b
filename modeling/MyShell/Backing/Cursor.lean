/-
The position at which `parseInput` (shell.c) reads its line. A turn of the loop
that finds no word does not pass the character it stands at; so the loop is left
only where that character is a newline, and at a semicolon it goes on for ever
(`parse_input_ends`).
-/
import MyShell.Backing.Interpreter
import MyShell.Lib.Turns

namespace MyShell.Backing

open Paging (Text)
open Turns

/-- Where the next turn of the loop reads, if this one does not leave the loop
and no command answers -1. -/
def nextTurn (ui : Text) (a : Nat) : Option Nat :=
  if ¬ (a < 1000 ∧ a < ui.length) ∨ ui[a]? = some '\n' then none
  else
    let a := a + ((ui.drop a).takeWhile (· = ' ')).length
    if ui.length ≤ a then none
    else if wordAt ui a = [] then some a
    else
      let a := a + (wordAt ui a).length
      if ui[a]? = some ';' then some (skipSpaces ui (a + 1)) else some (a + 1)

/-! ## The loop and its position -/

section Loop

variable {σ : Type} {ho : Host σ} {schedule : Text → Kernel σ → Option (Int × Kernel σ)} {ui : Text}
  {n m a a' w : Nat} {words : List Text} {k k' : Kernel σ} {r : Int}

theorem parseLoop_leave (h : nextTurn ui a = none) :
    parseLoop ho schedule ui (n + 1) a w words k = interpreter ho schedule words w k := by
  unfold nextTurn at h
  rw [parseLoop]
  split at h
  · next hleave => rw [if_pos hleave]
  · next hstay =>
    rw [if_neg hstay]
    dsimp only at h ⊢
    split at h
    · next hend => rw [if_pos hend]
    · split at h
      · cases h
      · split at h <;> cases h

/-- A turn fails in a command, is ended by one that answers -1, or goes on. -/
theorem parseLoop_turn (h : nextTurn ui a = some a') :
    (∀ n, parseLoop ho schedule ui (n + 1) a w words k = none) ∨
      (∃ k', ∀ n, parseLoop ho schedule ui (n + 1) a w words k = some (-1, k')) ∨
      ∃ w' words' k', ∀ n, parseLoop ho schedule ui (n + 1) a w words k =
        parseLoop ho schedule ui n a' w' words' k' := by
  unfold nextTurn at h
  simp only [parseLoop]
  split at h
  · cases h
  next hstay =>
  simp only [if_neg hstay]
  dsimp only at h
  split at h
  · cases h
  next hend =>
  simp only [if_neg hend]
  split at h
  · next hempty =>
    obtain rfl := Option.some.inj h
    simp only [if_pos hempty]
    exact .inr (.inr ⟨w, words, k, fun _ => rfl⟩)
  next hword =>
  simp only [if_neg hword]
  cases hput : putWord words w (wordAt ui (a + ((ui.drop a).takeWhile (· = ' ')).length)) with
  | none => exact .inl fun _ => rfl
  | some words =>
    simp only [Option.bind_eq_bind, Option.bind_some]
    split at h
    · next hsemi =>
      obtain rfl := Option.some.inj h
      simp only [if_pos hsemi]
      cases hcall : interpreter ho schedule words (w + 1) k with
      | none => exact .inl fun _ => rfl
      | some answer =>
        obtain ⟨r, k₁⟩ := answer
        simp only [Option.bind_some]
        by_cases hr : r = -1
        · simp only [hr]
          exact .inr (.inl ⟨k₁, fun _ => rfl⟩)
        · simp only [if_neg hr]
          exact .inr (.inr ⟨0, _, k₁, fun _ => rfl⟩)
    · next hsemi =>
      obtain rfl := Option.some.inj h
      simp only [if_neg hsemi]
      exact .inr (.inr ⟨w + 1, words, k, fun _ => rfl⟩)

theorem nextTurn_lt (h : nextTurn ui a = some a') : a < ui.length := by
  unfold nextTurn at h
  split at h
  · cases h
  · next hstay =>
    rw [not_or, not_not] at hstay
    exact hstay.1.2

/-- As many turns as characters are left are enough for a loop that advances. -/
theorem parseLoop_enough (h : Turns.Advances (nextTurn ui) a) (hn : ui.length - a < n)
    (hm : ui.length - a < m) :
    parseLoop ho schedule ui n a w words k = parseLoop ho schedule ui m a w words k := by
  induction n generalizing m a w words k with
  | zero => cases hn
  | succ n ih =>
    obtain ⟨m, rfl⟩ := Nat.exists_eq_succ_of_ne_zero (Nat.ne_of_gt (Nat.zero_lt_of_lt hm))
    cases hnext : nextTurn ui a with
    | none => rw [parseLoop_leave hnext, parseLoop_leave hnext]
    | some a' =>
      obtain ⟨hlt, hadv⟩ := (Turns.advances_iff hnext).1 h
      have hlength := nextTurn_lt hnext
      obtain hnone | ⟨k', hanswer⟩ | ⟨w', words', k', hgo⟩ :=
        @parseLoop_turn σ ho schedule ui a a' w words k hnext
      · rw [hnone, hnone]
      · rw [hanswer, hanswer]
      · rw [hgo, hgo]
        exact ih hadv (by omega) (by omega)

/-- A loop without end answers only what a command has answered that ended it. -/
theorem parseLoop_stuck (h : ¬ Turns.Ends (nextTurn ui) a)
    (hrun : parseLoop ho schedule ui n a w words k = some (r, k')) : r = -1 := by
  induction n generalizing a w words k with
  | zero => cases hrun
  | succ n ih =>
    cases hnext : nextTurn ui a with
    | none => exact absurd (Turns.ends_of_none hnext) h
    | some a' =>
      rw [Turns.ends_iff hnext] at h
      obtain hnone | ⟨k₁, hanswer⟩ | ⟨w', words', k₁, hgo⟩ :=
        @parseLoop_turn σ ho schedule ui a a' w words k hnext
      · simp [hnone] at hrun
      · rw [hanswer] at hrun
        cases hrun
        rfl
      · exact ih h (hgo n ▸ hrun)

end Loop

/-! ## What a turn passes -/

section Passed

variable {ui : Text} {a a' i : Nat} {c : Char}

def separators : List Char := [' ', ';', '\n']

/-- No word ends directly before position `i`. -/
def Fresh (ui : Text) (i : Nat) : Prop := i = 0 ∨ ∃ d ∈ separators, ui[i - 1]? = some d

/-- The character at `i`, where no word ends directly before it. -/
def Bare (ui : Text) (i : Nat) (c : Char) : Prop := ui[i]? = some c ∧ Fresh ui i

/-- The semicolons that no word ends before stand behind such a newline. -/
def Stops (ui : Text) : Prop := ∀ i, Bare ui i ';' → ∃ j < i, Bare ui j '\n'

theorem takeWhile_spec (p : Char → Bool) (s : Text) :
    (∀ j < (s.takeWhile p).length, ∃ c, s[j]? = some c ∧ p c = true) ∧
    ∀ c, s[(s.takeWhile p).length]? = some c → p c = false := by
  induction s with
  | nil => simp
  | cons d s ih =>
    rw [List.takeWhile_cons]
    split
    · next hd =>
      refine ⟨fun j hj => ?_, fun c hc => ih.2 c (by simpa using hc)⟩
      cases j with
      | zero => exact ⟨d, rfl, hd⟩
      | succ j => exact ih.1 j (by simpa using hj)
    · next hd =>
      refine ⟨fun j hj => by simp at hj, fun c hc => ?_⟩
      obtain rfl : d = c := by simpa using hc
      simpa using hd

/-- The characters from `a` on that satisfy `p`, and the one that does not. -/
theorem run_spec (p : Char → Bool) (ui : Text) (a : Nat) :
    (∀ i, a ≤ i → i < a + ((ui.drop a).takeWhile p).length → ∃ c, ui[i]? = some c ∧ p c = true) ∧
      ∀ c, ui[a + ((ui.drop a).takeWhile p).length]? = some c → p c = false := by
  obtain ⟨hrun, hstop⟩ := takeWhile_spec p (ui.drop a)
  simp only [List.getElem?_drop] at hrun hstop
  refine ⟨fun i hle hlt => ?_, hstop⟩
  obtain ⟨c, hc, hp⟩ := hrun (i - a) (by omega)
  exact ⟨c, by rwa [Nat.add_sub_cancel' hle] at hc, hp⟩

theorem spaces_spec (ui : Text) (a : Nat) :
    (∀ i, a ≤ i → i < a + ((ui.drop a).takeWhile (· = ' ')).length → ui[i]? = some ' ') ∧
      ui[a + ((ui.drop a).takeWhile (· = ' ')).length]? ≠ some ' ' := by
  obtain ⟨hrun, hstop⟩ := run_spec (· = ' ') ui a
  refine ⟨fun i hle hlt => ?_, fun hspace => ?_⟩
  · obtain ⟨c, hc, hp⟩ := hrun i hle hlt
    rw [hc, of_decide_eq_true hp]
  · exact absurd (hstop ' ' hspace) (by decide)

theorem length_run_le (p : Char → Bool) (ui : Text) (a : Nat) (ha : a ≤ ui.length) :
    a + ((ui.drop a).takeWhile p).length ≤ ui.length := by
  have hle := (List.takeWhile_prefix p (l := ui.drop a)).length_le
  rw [List.length_drop] at hle
  omega

/-- In a line that fits into the buffer the word is not cut off. -/
theorem word_spec (hlen : ui.length ≤ 999) (ha : a ≤ ui.length) :
    (∀ i, a ≤ i → i < a + (wordAt ui a).length → ∃ c, ui[i]? = some c ∧ c ∉ separators) ∧
      (∀ c, ui[a + (wordAt ui a).length]? = some c → c ∈ separators) ∧
      a + (wordAt ui a).length ≤ ui.length := by
  let p : Char → Bool := fun c => c ≠ ';' ∧ c ≠ '\n' ∧ c ≠ ' '
  have hp (c : Char) : p c = true ↔ c ∉ separators := by
    simp only [p, separators, decide_eq_true_eq, List.mem_cons, List.not_mem_nil, or_false, not_or]
    tauto
  have hle := length_run_le p ui a ha
  have hword : wordAt ui a = (ui.drop a).takeWhile p :=
    List.take_of_length_le (show ((ui.drop a).takeWhile p).length ≤ _ by omega)
  obtain ⟨hrun, hstop⟩ := run_spec p ui a
  rw [← hword] at hrun hstop hle
  refine ⟨fun i h h' => ?_, fun c hc => ?_, hle⟩
  · obtain ⟨c, hc, hpc⟩ := hrun i h h'
    exact ⟨c, hc, (hp c).1 hpc⟩
  · by_contra hnot
    simpa [hstop c hc] using (hp c).2 hnot

/-- Between `a` and `a'` no word is missing before a semicolon or a newline. -/
def Passes (ui : Text) (a a' : Nat) : Prop :=
  ∀ i, a ≤ i → i < a' → ¬ Bare ui i ';' ∧ ¬ Bare ui i '\n'

theorem Passes.trans {a'' : Nat} (h : Passes ui a a') (h' : Passes ui a' a'') : Passes ui a a'' :=
  fun i hle hlt => (Nat.lt_or_ge i a').elim (h i hle) fun hge => h' i hge hlt

theorem passes_spaces (h : ∀ i, a ≤ i → i < a' → ui[i]? = some ' ') : Passes ui a a' :=
  fun i hle hlt => by
  constructor <;> intro ⟨hc, _⟩ <;> simp [h i hle hlt] at hc

theorem passes_word (h : ∀ i, a ≤ i → i < a' → ∃ c, ui[i]? = some c ∧ c ∉ separators)
    (hlt : a < a') : Passes ui a (a' + 1) := fun i hle hi => by
  have hbare (d : Char) (hd : d ∈ separators) : ¬ Bare ui i d := by
    intro ⟨hc, hfresh⟩
    by_cases heq : i = a'
    · -- a word ends before it
      obtain ⟨c, hc, hnot⟩ := h (i - 1) (by omega) (by omega)
      obtain h0 | ⟨d', hd', hget⟩ := hfresh
      · omega
      · exact hnot (Option.some.inj (hc.symm.trans hget) ▸ hd')
    · obtain ⟨c, hc', hnot⟩ := h i hle (by omega)
      exact hnot (Option.some.inj (hc'.symm.trans hc) ▸ hd)
  exact ⟨hbare _ (by decide), hbare _ (by decide)⟩

theorem fresh_spaces (h : ∀ i, a ≤ i → i < a' → ui[i]? = some ' ') (hle : a ≤ a')
    (hfresh : Fresh ui a) : Fresh ui a' := by
  by_cases heq : a' = a
  · rwa [heq]
  · exact .inr ⟨' ', by decide, h (a' - 1) (by omega) (by omega)⟩

/-- **A turn** leaves the loop, stays at a semicolon, or goes on past characters that are not bare. -/
theorem nextTurn_spec (hlen : ui.length ≤ 999) (hfresh : a ≤ ui.length → Fresh ui a) :
    nextTurn ui a = none ∧ (Bare ui a '\n' ∨ Passes ui a ui.length) ∨
      nextTurn ui a = some a ∧ Bare ui a ';' ∨
      ∃ a', nextTurn ui a = some a' ∧ a < a' ∧ a' ≤ ui.length + 1 ∧ Passes ui a a' ∧
        (a' ≤ ui.length → Fresh ui a') := by
  by_cases ha : a < ui.length
  swap
  · refine .inl ⟨if_pos (.inl fun h => ha h.2), .inr fun i hle hlt => by omega⟩
  have hfresh := hfresh (Nat.le_of_lt ha)
  by_cases hnewline : ui[a]? = some '\n'
  · exact .inl ⟨if_pos (.inr hnewline), .inl ⟨hnewline, hfresh⟩⟩
  have hturn : ¬ (¬ (a < 1000 ∧ a < ui.length) ∨ ui[a]? = some '\n') := by
    simp only [hnewline, or_false, not_not]
    omega
  obtain ⟨hspaces, hstop⟩ := spaces_spec ui a
  have hend := length_run_le (· = ' ') ui a (Nat.le_of_lt ha)
  unfold nextTurn
  simp only [if_neg hturn]
  generalize hb : a + ((ui.drop a).takeWhile (· = ' ')).length = b at *
  have hab : a ≤ b := by omega
  have hfreshb := fresh_spaces hspaces hab hfresh
  have hpass := passes_spaces hspaces
  split
  · next hout => exact .inl ⟨rfl, .inr (Nat.le_antisymm hend hout ▸ hpass)⟩
  next hin =>
  obtain ⟨hword, hafter, hwordEnd⟩ := word_spec hlen (show b ≤ ui.length by omega)
  obtain ⟨c, hc⟩ : ∃ c, ui[b]? = some c := ⟨_, List.getElem?_eq_getElem (show b < ui.length by omega)⟩
  split
  · next hempty =>
    -- the turn stops before a separator that is no space
    rw [hempty, List.length_nil, Nat.add_zero] at hafter
    have hsep := hafter c hc
    by_cases heq : b = a
    · subst heq
      have hsemi : c = ';' := by
        simp only [separators, List.mem_cons, List.not_mem_nil, or_false] at hsep
        obtain rfl | rfl | rfl := hsep
        · exact absurd hc hstop
        · rfl
        · exact absurd hc hnewline
      exact .inr (.inl ⟨rfl, hsemi ▸ hc, hfresh⟩)
    · exact .inr (.inr ⟨b, rfl, by omega, by omega, hpass, fun _ => hfreshb⟩)
  next hnonempty =>
  have hpos : 0 < (wordAt ui b).length := List.length_pos_iff.2 hnonempty
  generalize hd : b + (wordAt ui b).length = d at *
  have hpassWord := hpass.trans (passes_word hword (by omega))
  split
  · next hsemi =>
    -- the spaces behind the semicolon are skipped
    obtain ⟨hspaces', -⟩ := spaces_spec ui (d + 1)
    have hd' : d < ui.length := (List.getElem?_eq_some_iff.1 hsemi).1
    have hend' := length_run_le (· = ' ') ui (d + 1) hd'
    have hskip : skipSpaces ui (d + 1) = d + 1 + ((ui.drop (d + 1)).takeWhile (· = ' ')).length := by
      unfold skipSpaces
      omega
    rw [hskip]
    refine .inr (.inr ⟨_, rfl, by omega, by omega, hpassWord.trans (passes_spaces hspaces'),
      fun _ => ?_⟩)
    exact fresh_spaces hspaces' (by omega) (.inr ⟨';', by decide, hsemi⟩)
  · refine .inr (.inr ⟨d + 1, rfl, by omega, by omega, hpassWord, fun hle => ?_⟩)
    have hget := List.getElem?_eq_getElem (show d < ui.length by omega)
    exact .inr ⟨_, hafter _ hget, hget⟩

/-- **The loop** from a position before which nothing is bare. -/
theorem loop_iff (hlen : ui.length ≤ 999) (hfresh : a ≤ ui.length → Fresh ui a)
    (hpass : Passes ui 0 a) :
    (Turns.Ends (nextTurn ui) a ↔ Stops ui) ∧ (Turns.Advances (nextTurn ui) a ↔ Stops ui) := by
  induction hn : ui.length + 1 - a using Nat.strongRecOn generalizing a with
  | ind n ih =>
  obtain ⟨hnone, hbare⟩ | ⟨hself, hbare⟩ | ⟨a', hnext, hlt, hle, hpass', hfresh'⟩ :=
    nextTurn_spec hlen hfresh
  · have hstops : Stops ui := by
      intro i hi
      have hia : a ≤ i := by
        by_contra hlt
        exact (hpass i (Nat.zero_le i) (by omega)).1 hi
      obtain hbare | hrest := hbare
      · refine ⟨a, Nat.lt_of_le_of_ne hia fun heq => ?_, hbare⟩
        subst heq
        exact absurd (hi.1.symm.trans hbare.1) (by decide)
      · exact absurd hi (hrest i hia (List.getElem?_eq_some_iff.1 hi.1).1).1
    exact ⟨iff_of_true (Turns.ends_of_none hnone) hstops,
      iff_of_true (Turns.advances_of_none hnone) hstops⟩
  · have hstays : ¬ Stops ui := by
      intro hstops
      obtain ⟨j, hj, hnewline⟩ := hstops a hbare
      exact (hpass j (Nat.zero_le j) hj).2 hnewline
    refine ⟨iff_of_false (Turns.not_ends_of_self hself) hstays, iff_of_false (fun hadv => ?_) hstays⟩
    exact Nat.lt_irrefl a ((Turns.advances_iff hself).1 hadv).1
  · obtain ⟨hends, hadvances⟩ := ih (ui.length + 1 - a') (by omega) hfresh' (hpass.trans hpass') rfl
    rw [Turns.ends_iff hnext, Turns.advances_iff hnext, hends, hadvances]
    exact ⟨.rfl, and_iff_right hlt⟩

end Passed

/-- **`parseInput` ends** on a line, and each turn of its loop advances, only where every
semicolon that no word ends before stands behind a newline that no word ends
before. There the turns are enough that `parseLine` allows; on other lines
`parseInput` answers -1 or not at all, however many turns it is given. -/
theorem parse_input_ends (ui : Text) (hlen : ui.length ≤ 999) :
    (Turns.Ends (nextTurn ui) (skipSpaces ui 0) ↔ Stops ui) ∧
    (Turns.Advances (nextTurn ui) (skipSpaces ui 0) ↔ Stops ui) ∧
      ∀ (σ : Type) (ho : Host σ) (schedule : Text → Kernel σ → Option (Int × Kernel σ)) (k : Kernel σ),
        (Stops ui → ∀ n, ui.length < n →
          parseLoop ho schedule ui n (skipSpaces ui 0) 0 [] k = parseLine ho schedule ui k) ∧
        (¬ Stops ui → ∀ n r k', parseLoop ho schedule ui n (skipSpaces ui 0) 0 [] k = some (r, k') →
          r = -1) := by
  obtain ⟨hspaces, -⟩ := spaces_spec ui 0
  have hend := length_run_le (· = ' ') ui 0 (Nat.zero_le _)
  have hskip : skipSpaces ui 0 = 0 + ((ui.drop 0).takeWhile (· = ' ')).length := by
    unfold skipSpaces
    omega
  rw [← hskip] at hspaces
  obtain ⟨hends, hadvances⟩ := loop_iff hlen (fun _ => fresh_spaces hspaces (Nat.zero_le _) (.inl rfl))
    (passes_spaces hspaces)
  refine ⟨hends, hadvances, fun σ ho schedule k => ⟨fun hstops n hn => ?_,
    fun hstops n r k' hrun => ?_⟩⟩
  · exact parseLoop_enough (hadvances.2 hstops) (by omega) (by omega)
  · exact parseLoop_stuck (fun h => hstops (hends.1 h)) hrun


/-- As a test that runs over the separators. -/
theorem fresh_iff {ui : Text} {i : Nat} :
    Fresh ui i ↔ i = 0 ∨ (separators.any fun d => decide (ui[i - 1]? = some d)) = true := by
  simp only [Fresh, List.any_eq_true, decide_eq_true_eq]

/-- Semicolons right behind words, and one behind a newline that stands alone. -/
def severalCommands : Text := "  set x 5;print x; help\n\n;".toList

theorem parse_input_ends_several :
    Turns.Ends (nextTurn severalCommands) (skipSpaces severalCommands 0) ∧
    Turns.Advances (nextTurn severalCommands) (skipSpaces severalCommands 0) := by
  have hstops : Stops severalCommands := fun i hi => by
    have hlt : i < 26 := (List.getElem?_eq_some_iff.1 hi.1).1
    have hlast : ∀ i < 26, Bare severalCommands i ';' → i = 25 := by
      simp only [Bare, fresh_iff]
      decide +kernel
    obtain rfl := hlast i hlt hi
    refine ⟨24, by decide, ?_⟩
    simp only [Bare, fresh_iff]
    decide +kernel
  obtain ⟨hends, hadvances, -⟩ := parse_input_ends severalCommands (by decide)
  exact ⟨hends.2 hstops, hadvances.2 hstops⟩

/-- The space before a semicolon makes the loop go on for ever. -/
theorem parse_input_hangs :
    ¬ Turns.Ends (nextTurn "help ; help\n".toList) (skipSpaces "help ; help\n".toList 0) := by
  rw [show skipSpaces "help ; help\n".toList 0 = 0 by decide, Turns.ends_iff (b := 5) (by decide)]
  exact Turns.not_ends_of_self (by decide)

end MyShell.Backing

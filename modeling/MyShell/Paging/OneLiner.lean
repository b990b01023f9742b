/-
One-liners. `parseInput` walks a line with `strtok`, whose single position is
also that of the script lines a command of the line passes to `parseInput`:
what it reads after such a command is what the last of them has left.
-/
import MyShell.Paging.Reading

namespace MyShell.Paging

variable {σ : Type} {sh : Shell σ} {k k' : Kernel σ} {r : Int}

/-! ## The commands of a line -/

/-- What lies between semicolons, where it is not empty. -/
def commandsOf (line : Text) : List Text := (segments line).filter (· ≠ [])

theorem segments_cons (s : Text) : segments s = s.takeWhile (· ≠ ';') ::
    match s.dropWhile (· ≠ ';') with
    | [] => []
    | _ :: rest => segments rest := by
  induction s with
  | nil => rfl
  | cons c s ih =>
    by_cases hc : c = ';'
    · subst hc
      simp [segments]
    · rw [segments, if_neg hc, ih, List.takeWhile_cons_of_pos (by simpa using hc),
        List.dropWhile_cons_of_pos (by simpa using hc)]

theorem commandsOf_dropWhile (s : Text) : commandsOf (s.dropWhile (· = ';')) = commandsOf s := by
  induction s with
  | nil => rfl
  | cons c s ih =>
    by_cases hc : c = ';'
    · rw [List.dropWhile_cons_of_pos (by simpa using hc), ih, commandsOf, commandsOf, segments,
        if_pos hc]
      simp
    · rw [List.dropWhile_cons_of_neg (by simpa using hc)]

theorem commandsOf_strtok (s : Text) : commandsOf s =
    match strtok s with
    | none => []
    | some (token, rest) => token :: commandsOf rest := by
  rw [← commandsOf_dropWhile, strtok]
  cases hs : s.dropWhile (· = ';') with
  | nil => rfl
  | cons c s' =>
    have hc : c ≠ ';' := by
      have := List.head?_dropWhile_not (· = ';') s
      rw [hs] at this
      simpa using this
    have htoken : (c :: s').takeWhile (· ≠ ';') ≠ [] := by
      rw [List.takeWhile_cons_of_pos (by simpa using hc)]
      exact List.cons_ne_nil _ _
    simp only
    rw [commandsOf, segments_cons, List.filter_cons_of_pos (by simpa using htoken)]
    cases (c :: s').dropWhile (· ≠ ';') <;> rfl

theorem length_commandsOf_le (s : Text) : (commandsOf s).length ≤ s.length := by
  induction s with
  | nil => exact Nat.le_refl _
  | cons c s ih =>
    rw [commandsOf, segments]
    split
    · exact Nat.le_succ_of_le (by simpa [commandsOf] using ih)
    · split
      · exact absurd ‹_› (segments_ne_nil s)
      · rename_i l ls hs
        have hle : ∀ P : Text → Bool, (ls.filter P).length ≤ ((l :: ls).filter P).length := fun P =>
          ((List.sublist_cons_self l ls).filter P).length_le
        rw [commandsOf, hs] at ih
        rw [List.filter_cons_of_pos (by simp), List.length_cons, List.length_cons]
        exact Nat.succ_le_succ (Nat.le_trans (hle _) ih)

/-! ## The calls of `interpreter` -/

/-- A call of `interpreter` on the words of a token. -/
structure Call where
  token : Text
  /-- None where the call does not return. -/
  answer : Option Int
  /-- Where `strtok` goes on after the call. -/
  left : Text

/-- The calls that `parseLoop` makes. -/
def loopCalls (sh : Shell σ) (exec : List (Option Text) → Kernel σ → Option (Int × Kernel σ)) :
    Nat → Option Text → Kernel σ → List Call
  | _, none, _ => []
  | 0, some _, _ => []
  | n + 1, some token, k =>
    match interpreter sh exec (words token) k with
    | none => [⟨token, none, []⟩]
    | some (ret, k) =>
      let (tokens, k') := nextToken k.strtokRest k
      ⟨token, some ret, k.strtokRest⟩ :: if ret = -1 then [] else loopCalls sh exec n tokens k'

/-- The calls that `parseLine` makes. -/
def lineCalls (sh : Shell σ) (exec : List (Option Text) → Kernel σ → Option (Int × Kernel σ))
    (n : Nat) (ui : Text) (k : Kernel σ) : List Call :=
  let (tokens, k) := nextToken ui k
  loopCalls sh exec (n + ui.length) tokens k

/-- The calls that `parseInput` makes itself, not through the scripts it runs. -/
def inputCalls (sh : Shell σ) : Nat → Text → Kernel σ → List Call
  | 0 => lineCalls sh (fun _ _ => none) 0
  | n + 1 => lineCalls sh (exec (parseInput sh n) sh.frameStoreSize n) n

variable {run : List (Option Text) → Kernel σ → Option (Int × Kernel σ)}

/-- Where the loop returns, every call has returned, and the answer is that of the last one. -/
theorem parseLoop_calls : ∀ {n : Nat} {token : Option Text} {ret : Int} {k : Kernel σ},
    parseLoop sh run n token ret k = some (r, k') →
      (∀ call ∈ loopCalls sh run n token k, call.answer.isSome) ∧
        (((loopCalls sh run n token k).map Call.answer).getLast?).getD (some ret) = some r
  | _, none, ret, k, h => by
    rw [parseLoop] at h
    obtain ⟨rfl, -⟩ := Prod.mk.inj (Option.some.inj h)
    simp [loopCalls]
  | 0, some _, _, _, h => by cases h
  | n + 1, some token, ret, k, h => by
    rw [parseLoop] at h
    obtain ⟨⟨a, k₁⟩, hcmd, h⟩ := Option.bind_eq_some_iff.1 h
    rw [loopCalls, hcmd]
    simp only at h ⊢
    split at h
    · obtain ⟨rfl, -⟩ := Prod.mk.inj (Option.some.inj h)
      rw [if_pos ‹_›]
      simp
    · rw [if_neg ‹_›]
      obtain ⟨hall, hlast⟩ := parseLoop_calls h
      refine ⟨fun call hcall => ?_, ?_⟩
      · rcases List.mem_cons.1 hcall with rfl | hcall
        · rfl
        · exact hall call hcall
      · rw [List.map_cons, List.getLast?_cons]
        exact hlast

/-- The calls are those of the commands of the line, in order, but for the
commands after one that answers -1 or does not return. -/
def AllCalled (line : Text) (calls : List Call) : Prop :=
  ∃ rest, commandsOf line = calls.map Call.token ++ rest ∧
    (rest ≠ [] → ∃ call, calls.getLast? = some call ∧ (call.answer = some (-1) ∨ call.answer = none))

theorem AllCalled.ended {line token : Text} {rest : List Text} {answer : Option Int} {left : Text}
    (hline : commandsOf line = token :: rest) (h : answer = some (-1) ∨ answer = none) :
    AllCalled line [⟨token, answer, left⟩] := ⟨rest, hline, fun _ => ⟨_, rfl, h⟩⟩

theorem AllCalled.cons {line rest token : Text} {call : Call} {calls : List Call}
    (hline : commandsOf line = token :: commandsOf rest) (htoken : call.token = token)
    (h : AllCalled rest calls) : AllCalled line (call :: calls) := by
  obtain ⟨after, hsplit, hend⟩ := h
  refine ⟨after, by rw [hline, hsplit, List.map_cons, htoken]; rfl, fun hafter => ?_⟩
  obtain ⟨last, hlast, hanswer⟩ := hend hafter
  refine ⟨last, ?_, hanswer⟩
  rw [List.getLast?_cons, hlast]
  rfl

/-! ## A command that starts no script -/

/-- In every state and on every host the command answers -1, or it crashes. -/
def Command.ends : Command → List Text → Bool
  | .quit, [] | .echo, [] => true
  | .set, var :: v :: vs => isAlphaNumStr var ∧ setBuffer [] (v :: vs) = none
  | .read, [_, n] => ¬ (-1 ≤ atoi n ∧ atoi n + 1 < 2147483648)
  | .copyIn, [file] => 1023 ≤ file.length
  | _, _ => false

/-- A command that ends the line: it answers -1 or does not return. -/
def ends (args : List Text) : Bool :=
  100 < args.length ||
    match args.map stripLine with
    | [] => false
    | name :: args =>
      match commandNames.lookup name with
      | none => false
      | some c => c.ends args

theorem runCommand_ends {c : Command} {args : List Text} (h : c.ends args = true) :
    runCommand sh run k c args = none ∨ ∃ k', runCommand sh run k c args = some (-1, k') := by
  unfold Command.ends at h
  split at h
  · cases hdone : runCommand sh run k .quit [] with
    | none => exact .inl rfl
    | some x =>
      obtain ⟨s, -, rfl⟩ := Option.map_eq_some_iff.1 hdone
      exact .inr ⟨_, rfl⟩
  · exact .inl rfl
  · obtain ⟨hvar, hlong⟩ := of_decide_eq_true h
    exact .inl (by rw [runCommand, if_pos hvar, hlong]; rfl)
  · exact .inl (if_neg (of_decide_eq_true h))
  · refine .inl (if_neg ?_)
    have hfile := of_decide_eq_true h
    simp only [List.length_append]
    have hslash : "/".toList.length = 1 := rfl
    omega
  · cases h

theorem interpreter_ends {args : List Text} (h : ends args = true) :
    interpreter sh run args k = none ∨ ∃ k', interpreter sh run args k = some (-1, k') := by
  unfold interpreter
  rw [ends] at h
  by_cases hlong : 100 < args.length
  · exact .inl (if_pos hlong)
  · rw [if_neg hlong]
    rw [decide_eq_false hlong, Bool.false_or] at h
    cases hwords : args.map stripLine with
    | nil =>
      rw [hwords] at h
      cases h
    | cons name names =>
      rw [hwords] at h
      simp only at h ⊢
      cases hlook : commandNames.lookup name with
      | none =>
        rw [hlook] at h
        cases h
      | some c =>
        rw [hlook] at h
        exact runCommand_ends h

/-- More than three scripts are not run. -/
def Rejects (run : List (Option Text) → Kernel σ → Option (Int × Kernel σ)) : Prop :=
  ∀ {scripts k r k'}, 3 < scripts.length → run scripts k = some (r, k') → k' = k

theorem rejects_none : Rejects (σ := σ) fun _ _ => none := fun _ h => by cases h

theorem rejects_exec (parse : Parse σ) (size n : Nat) : Rejects (exec parse size n) := fun hlong h => by
  rw [exec, if_pos hlong] at h
  exact (Prod.mk.inj (Option.some.inj h)).2.symm

theorem storeScripts_rest : ∀ (names : List Text) (k : Kernel σ),
    (storeScripts sh names k).2.strtokRest = k.strtokRest
  | [], _ => rfl
  | _ :: names, _ => storeScripts_rest names _

theorem storeScripts_same {size : Nat} (names : List Text) (k : Kernel σ) :
    Same size k (storeScripts sh names k).2 := by
  induction names generalizing k with
  | nil => exact .refl k
  | cons name names ih =>
    have hcopy : ∀ s n, Same size k { k with shell := s, newNameCount := n } := fun _ _ =>
      ⟨fun _ _ => rfl, rfl, rfl, rfl, rfl, rfl, rfl⟩
    exact (hcopy _ _).trans (ih _)

theorem runScripts_rest (hrun : Rejects run) {names : List Text} (hlong : 3 < names.length)
    (h : runScripts sh run names k = some (r, k')) : k'.strtokRest = k.strtokRest := by
  rw [runScripts] at h
  have hrest : (storeScripts sh names k).2.strtokRest = k.strtokRest := storeScripts_rest names k
  have hlength : (storeScripts sh names k).1.length = names.length := storeScripts_length names k
  obtain ⟨⟨a, k₂⟩, hexec, h⟩ := Option.bind_eq_some_iff.1 h
  obtain ⟨-, rfl⟩ := Prod.mk.inj (Option.some.inj h)
  obtain rfl := hrun (by rw [List.length_map, hlength]; exact hlong) hexec
  exact hrest

/-- A command that starts no script leaves the position of `strtok` alone. -/
theorem interpreter_rest (hrun : Rejects run) {args : List Text} (hargs : started args = [])
    (h : interpreter sh run args k = some (r, k')) : k'.strtokRest = k.strtokRest := by
  cases hscript : startsScript args with
  | false => exact (interpreter_kept hscript h).strtokRest
  | true =>
    unfold interpreter at h
    unfold startsScript at hscript
    unfold started at hargs
    split at h
    · cases h
    · cases hwords : args.map stripLine with
      | nil =>
        rw [hwords] at hscript
        cases hscript
      | cons name names =>
        rw [hwords] at h hscript hargs
        simp only at hargs
        rcases of_decide_eq_true hscript with hlook | hlook
        · simp only [hlook] at h
          simp only [hlook, true_and, reduceCtorEq, false_and, or_false, Option.some.injEq] at hargs
          cases names with
          | nil => exact (Kept.answer h : Kept 0 k k').strtokRest
          | cons s ss =>
            cases ss with
            | nil => simp at hargs
            | cons s' ss => exact (Kept.answer h : Kept 0 k k').strtokRest
        · simp only [hlook] at h
          simp only [hlook, true_and, reduceCtorEq, false_and, false_or, Option.some.injEq] at hargs
          cases names with
          | nil => exact (Kept.answer h : Kept 0 k k').strtokRest
          | cons s ss =>
            have hlong : 3 < (s :: ss).length := by
              by_contra hle
              rw [if_pos (by omega)] at hargs
              cases hargs
            change (if 4 < (s :: ss).length then _ else _) = _ at h
            split at h
            · exact (Kept.answer h : Kept 0 k k').strtokRest
            · exact runScripts_rest hrun hlong h

/-! ## Lines that are called whole -/

/-- No command starts scripts, of those up to one that ends the line. -/
def undisturbed : List Text → Bool
  | [] => true
  | token :: tokens => ends (words token) ∨ started (words token) = [] ∧ undisturbed tokens

theorem loopCalls_undisturbed (hrun : Rejects run) : ∀ {n : Nat} {s : Text} {k : Kernel σ},
    undisturbed (commandsOf s) = true → (commandsOf s).length ≤ n →
      AllCalled s (loopCalls sh run n (nextToken s k).1 (nextToken s k).2)
  | n, s, k, h, hn => by
    rw [nextToken]
    have htokens := commandsOf_strtok s
    cases hs : strtok s with
    | none =>
      rw [hs] at htokens
      exact ⟨[], by simpa [loopCalls] using htokens, by simp⟩
    | some x =>
      obtain ⟨token, rest⟩ := x
      rw [hs] at htokens
      simp only at htokens ⊢
      rw [htokens, List.length_cons] at hn
      obtain ⟨n, rfl⟩ : ∃ m, n = m + 1 := ⟨n - 1, by omega⟩
      rw [loopCalls]
      cases hcmd : interpreter sh run (words token) { k with strtokRest := rest } with
      | none => exact .ended htokens (.inr rfl)
      | some x =>
        obtain ⟨a, k₁⟩ := x
        simp only
        split
        · rename_i ha
          exact .ended htokens (.inl (by rw [ha]))
        · rename_i ha
          rw [htokens, undisturbed, decide_eq_true_iff] at h
          rcases h with hends | ⟨hstarted, hrest⟩
          · rcases interpreter_ends hends with hnone | ⟨k₂, hquit⟩
            · rw [hnone] at hcmd
              cases hcmd
            · rw [hquit] at hcmd
              cases hcmd
              exact absurd rfl ha
          · have hleft := interpreter_rest hrun hstarted hcmd
            simp only at hleft
            rw [hleft]
            exact .cons htokens rfl (loopCalls_undisturbed hrun hrest (by omega))

/-! ## Lines whose scripts are read to their end -/

/-- Scripts have run, and the line goes on. -/
def Call.RunsOn (call : Call) : Prop :=
  started (words call.token) ≠ [] ∧ ∃ a, call.answer = some a ∧ a ≠ -1

theorem AllCalled.tail {line rest : Text} {call : Call} {calls : List Call} {a : Int}
    (hline : commandsOf line = call.token :: commandsOf rest) (hanswer : call.answer = some a)
    (ha : a ≠ -1) (h : AllCalled line (call :: calls)) : AllCalled rest calls := by
  obtain ⟨after, hsplit, hend⟩ := h
  rw [hline, List.map_cons, List.cons_append] at hsplit
  refine ⟨after, (List.cons.inj hsplit).2, fun hafter => ?_⟩
  obtain ⟨last, hlast, hlastAnswer⟩ := hend hafter
  cases calls with
  | nil =>
    obtain rfl : call = last := Option.some.inj hlast
    rw [hanswer] at hlastAnswer
    rcases hlastAnswer with h | h
    · exact absurd (Option.some.inj h) ha
    · cases h
  | cons c cs => exact ⟨last, by rwa [List.getLast?_cons_cons] at hlast, hlastAnswer⟩

theorem loopCalls_nil {s : Text} (h : commandsOf s = []) (n : Nat) (k : Kernel σ) :
    loopCalls sh run n (nextToken s k).1 (nextToken s k).2 = [] := by
  rw [nextToken]
  cases hs : strtok s with
  | none => rw [loopCalls]
  | some x =>
    rw [commandsOf_strtok, hs] at h
    cases h

/-- The calls of a line whose scripts leave nothing unread are the commands of
the line exactly where only the last of these starts scripts. -/
theorem loopCalls_unbroken (hrun : Rejects run) :
    ∀ {n : Nat} {s : Text} {k : Kernel σ}, (commandsOf s).length ≤ n →
    (∀ call ∈ loopCalls sh run n (nextToken s k).1 (nextToken s k).2, call.RunsOn →
      commandsOf call.left = []) →
      (AllCalled s (loopCalls sh run n (nextToken s k).1 (nextToken s k).2) ↔
        ∀ i call, (loopCalls sh run n (nextToken s k).1 (nextToken s k).2)[i]? = some call →
          call.RunsOn → i + 1 = (commandsOf s).length)
  | n, s, k, hn => by
    rw [nextToken]
    have htokens := commandsOf_strtok s
    cases hs : strtok s with
    | none =>
      rw [hs] at htokens
      exact fun _ => ⟨by simp [loopCalls], fun _ => ⟨[], by simpa [loopCalls] using htokens, by simp⟩⟩
    | some x =>
      obtain ⟨token, rest⟩ := x
      rw [hs] at htokens
      simp only at htokens ⊢
      have hlength : (commandsOf s).length = (commandsOf rest).length + 1 := by
        rw [htokens, List.length_cons]
      obtain ⟨n, rfl⟩ : ∃ m, n = m + 1 := ⟨n - 1, by omega⟩
      rw [loopCalls]
      have hended : ∀ {answer left}, answer = some (-1) ∨ answer = none →
        (AllCalled s [⟨token, answer, left⟩] ↔
          ∀ i call, ([⟨token, answer, left⟩] : List Call)[i]? = some call → call.RunsOn →
            i + 1 = (commandsOf s).length) := fun hanswer => by
        refine ⟨fun _ i call hcall hruns => ?_, fun _ => .ended htokens hanswer⟩
        obtain rfl := List.mem_singleton.1 (List.mem_of_getElem? hcall)
        obtain ⟨-, a, ha, hne⟩ := hruns
        rcases hanswer with rfl | rfl
        · exact absurd (Option.some.inj ha).symm hne
        · cases ha
      cases hcmd : interpreter sh run (words token) { k with strtokRest := rest } with
      | none => exact fun _ => hended (.inr rfl)
      | some x =>
        obtain ⟨a, k₁⟩ := x
        simp only
        by_cases ha : a = -1
        · rw [if_pos ha]
          exact fun _ => hended (.inl (by rw [ha]))
        · rw [if_neg ha]
          intro hunbroken
          by_cases hstarted : started (words token) = []
          · -- the position is still in the line
            have hleft : k₁.strtokRest = rest := interpreter_rest hrun hstarted hcmd
            rw [hleft] at hunbroken ⊢
            have ih := loopCalls_unbroken hrun (by omega : (commandsOf rest).length ≤ n)
              fun call hcall => hunbroken call (List.mem_cons_of_mem _ hcall)
            refine ⟨fun h i call hcall hruns => ?_,
              fun h => .cons htokens rfl (ih.2 fun i call hcall hruns => ?_)⟩
            · cases i with
              | zero =>
                obtain rfl := Option.some.inj hcall
                exact absurd hstarted hruns.1
              | succ i => rw [hlength, ih.1 (h.tail htokens rfl ha) i call hcall hruns]
            · have := h (i + 1) call hcall hruns
              omega
          · -- nothing is left to read
            have hruns : Call.RunsOn ⟨token, some a, k₁.strtokRest⟩ := ⟨hstarted, a, rfl, ha⟩
            have hleft : commandsOf k₁.strtokRest = [] := hunbroken _ List.mem_cons_self hruns
            rw [loopCalls_nil hleft]
            refine ⟨fun h i call hcall _ => ?_, fun h => ?_⟩
            · obtain ⟨after, hsplit, hend⟩ := h.tail htokens rfl ha
              have hafter : after = [] := by
                by_contra hne
                obtain ⟨call, hlast, -⟩ := hend hne
                cases hlast
              rw [hafter] at hsplit
              rw [hlength, hsplit]
              cases i with
              | zero => rfl
              | succ i => cases hcall
            · have := h 0 _ rfl hruns
              have hrest : commandsOf rest = [] := List.eq_nil_of_length_eq_zero (by omega)
              exact .cons htokens rfl ⟨[], hrest, by simp⟩

/-! ## Lines that are not -/

theorem handleError_ne (e : Error) : handleError e ≠ -1 := by
  rw [handleError]
  omega

theorem echo_ne_quit (var : Text) : echo var ≠ -1 := by
  unfold echo
  split
  · split
    · decide
    · exact handleError_ne _
  · split
    · decide
    · exact handleError_ne _

/-- A host on which every script reads `script`. -/
def scriptShell (script : Text) : Shell Unit :=
  { bareShell with frameStoreSize := 9, fopen := fun _ _ => some script }

variable {script : Text} {kU kU' : Kernel Unit}

theorem runCommand_returns {run : List (Option Text) → Kernel Unit → Option (Int × Kernel Unit)}
    {c : Command} {args : List Text} (hrun : c ≠ .run) (hexec : c ≠ .exec)
    (hends : c.ends args = false) :
    ∃ a k', runCommand (scriptShell script) run kU c args = some (a, k') ∧ a ≠ -1 := by
  unfold runCommand
  split
  case h_2 => cases hends
  case h_3 var v vs =>
    split
    · rename_i hvar
      cases hvalue : setBuffer [] (v :: vs) with
      | none => exact absurd ⟨hvar, hvalue⟩ (of_decide_eq_false hends)
      | some value =>
        cases value with
        | none => exact ⟨_, _, rfl, handleError_ne _⟩
        | some value => exact ⟨0, _, rfl, by decide⟩
    · exact ⟨_, _, rfl, handleError_ne _⟩
  case h_5 => exact absurd rfl hrun
  case h_6 => cases hends
  case h_8 => exact absurd rfl hexec
  case h_16 =>
    rw [if_pos (not_not.1 (of_decide_eq_false hends))]
    exact ⟨_, _, rfl, of_decide_eq_true rfl⟩
  case h_17 file =>
    have hfile : ¬ 1023 ≤ file.length := of_decide_eq_false hends
    rw [if_pos (by change file.length + 1 < 1024; omega)]
    exact ⟨_, _, rfl, of_decide_eq_true rfl⟩
  all_goals first
    | exact ⟨_, _, rfl, handleError_ne _⟩
    | exact ⟨_, _, rfl, echo_ne_quit _⟩
    | exact ⟨_, _, rfl, of_decide_eq_true rfl⟩

theorem Idle.same {size : Nat} (h : Idle size k) (hsame : Same size k k') : Idle size k' :=
  ⟨hsame.queue.trans h.queue, hsame.lruCache.trans h.lruCache, hsame.allPcb.trans h.allPcb,
    fun pos hpos => by
    rw [hsame.memory pos hpos]
    exact h.free pos hpos⟩

/-- More than three scripts are copied, and that is all. -/
theorem runScripts_long {names : List Text} (hlong : 3 < names.length) : ∃ k', Same 9 kU k' ∧
    ∀ parse n, runScripts (scriptShell script) (exec parse 9 n) names kU = some (1, k') := by
  have hsame : Same 9 kU (storeScripts (scriptShell script) names kU).2 := storeScripts_same names kU
  have hlength : (storeScripts (scriptShell script) names kU).1.length = names.length :=
    storeScripts_length names kU
  refine ⟨clearStore (scriptShell script) (storeScripts (scriptShell script) names kU).2, ?_,
    fun parse n => ?_⟩
  · exact hsame.trans ⟨fun _ _ => rfl, rfl, rfl, rfl, rfl, rfl, rfl⟩
  · have hexec : ∀ k, exec parse 9 n ((storeScripts (scriptShell script) names kU).1.map fun copy =>
        (scriptShell script).fopen copy k.shell) k = some (1, k) := fun k =>
      if_pos (by rw [List.length_map, hlength]; exact hlong)
    exact Option.bind_eq_some_iff.2 ⟨_, hexec _, rfl⟩

/-- A command that starts no script does the same whatever scripts do. -/
theorem interpreter_plain {args : List Text} (hargs : started args = []) (hends : ends args = false)
    (hidle : Idle 9 kU) : ∃ a k', a ≠ -1 ∧ Idle 9 k' ∧ k'.strtokRest = kU.strtokRest ∧
      ∀ parse n, interpreter (scriptShell script) (exec parse 9 n) args kU = some (a, k') := by
  rw [ends, Bool.or_eq_false_iff, decide_eq_false_iff_not] at hends
  obtain ⟨hlong, hname⟩ := hends
  obtain ⟨a, k', ha, hsame, heq⟩ : ∃ a k', a ≠ -1 ∧ Same 9 kU k' ∧
      ∀ parse n, interpreter (scriptShell script) (exec parse 9 n) args kU = some (a, k') := by
    unfold interpreter
    rw [started] at hargs
    simp only [if_neg hlong]
    cases hwords : args.map stripLine with
    | nil => exact ⟨_, _, handleError_ne .tooFewTokens, .refl _, fun _ _ => rfl⟩
    | cons name names =>
      rw [hwords] at hargs hname
      simp only at hargs
      cases hlook : commandNames.lookup name with
      | none =>
        simp only [hlook]
        exact ⟨_, _, handleError_ne .badCommand, .refl _, fun _ _ => rfl⟩
      | some c =>
        simp only [hlook]
        by_cases hrun : c = .run
        · subst hrun
          cases names with
          | nil => exact ⟨_, _, handleError_ne .tooFewTokens, .refl _, fun _ _ => rfl⟩
          | cons s ss =>
            cases ss with
            | nil => simp [hlook] at hargs
            | cons s' ss => exact ⟨_, _, handleError_ne .tooManyTokens, .refl _, fun _ _ => rfl⟩
        · by_cases hexec : c = .exec
          · subst hexec
            cases names with
            | nil => exact ⟨_, _, handleError_ne .tooFewTokens, .refl _, fun _ _ => rfl⟩
            | cons s ss =>
              have hthree : 3 < (s :: ss).length := by
                by_contra hle
                rw [if_pos (.inr ⟨hlook, by omega⟩)] at hargs
                cases hargs
              by_cases hfour : 4 < (s :: ss).length
              · exact ⟨_, _, handleError_ne .tooManyTokens, .refl _, fun _ _ => if_pos hfour⟩
              · obtain ⟨k', hsame, heq⟩ := runScripts_long hthree
                exact ⟨1, k', by decide, hsame, fun parse n => (if_neg hfour).trans (heq parse n)⟩
          · obtain ⟨a, k', heq, ha⟩ : ∃ a k', runCommand (scriptShell script)
              (fun _ _ => none) kU c names =
                some (a, k') ∧ a ≠ -1 :=
                  runCommand_returns hrun hexec (by simpa only [hlook] using hname)
            have hkept := runCommand_kept hrun hexec heq
            exact ⟨a, k', ha, hkept.toSame, fun parse n => (runCommand_congr hrun hexec).trans heq⟩
  exact ⟨a, k', ha, hidle.same hsame, interpreter_rest (rejects_exec (fun _ _ => none) 9 0) hargs
    (heq _ 0), heq⟩

/-- A script of one line that leaves `left` unread. -/
structure Leaves (script left : Text) : Prop where
  proper : Proper script
  line : lines script = [script]
  reads : ∀ k : Kernel Unit, ∃ r k', parseInput (scriptShell script) 0 script k = some (r, k') ∧
    r ≠ 1 ∧ Same 9 k k' ∧ k'.strtokRest = left

theorem interpreter_passed {args : List Text}
    (h : interpreter sh (fun _ _ => none) args k = some (r, k')) : k'.passed = k.passed := by
  cases hscript : startsScript args with
  | false => exact (interpreter_kept hscript h).passed
  | true =>
    unfold interpreter at h
    unfold startsScript at hscript
    split at h
    · cases h
    · cases hwords : args.map stripLine with
      | nil =>
        rw [hwords] at hscript
        cases hscript
      | cons name names =>
        rw [hwords] at h hscript
        obtain ⟨c, hlook, hc⟩ : ∃ c, commandNames.lookup name = some c ∧ (c = .run ∨ c = .exec) := by
          rcases of_decide_eq_true hscript with hlook | hlook
          · exact ⟨_, hlook, .inl rfl⟩
          · exact ⟨_, hlook, .inr rfl⟩
        simp only [hlook] at h
        rcases runCommand_scripts hc h with hrun | ⟨a, hanswer⟩
        · cases hrun
        · exact (Kept.answer hanswer : Kept 0 k k').passed

theorem parseLoop_passed : ∀ {n : Nat} {token : Option Text} {ret : Int} {k : Kernel σ},
    parseLoop sh (fun _ _ => none) n token ret k = some (r, k') → k'.passed = k.passed
  | _, none, _, _, h => by
    rw [parseLoop] at h
    cases h
    rfl
  | 0, some _, _, _, h => by cases h
  | n + 1, some token, _, k, h => by
    rw [parseLoop] at h
    obtain ⟨⟨a, k₁⟩, hcmd, h⟩ := Option.bind_eq_some_iff.1 h
    have hpassed := interpreter_passed hcmd
    have hnext := (nextToken_same k₁.strtokRest k₁ : Same 0 _ _).passed
    simp only at h
    split at h
    · cases h
      exact hnext.trans hpassed
    · exact (parseLoop_passed h).trans (hnext.trans hpassed)

/-- Without runs within runs only the scheduler passes lines. -/
theorem parseInput_passed {line : Text} (h : parseInput sh 0 line k = some (r, k')) :
    k'.passed = k.passed :=
  (parseLoop_passed h).trans (nextToken_same line k : Same 0 _ _).passed

variable {left : Text}

theorem Leaves.exec (h : Leaves script left) (hidle : Idle 9 kU) {m : Nat} (hpos : 0 < m) (hm : m ≤ 3) :
    ∃ N k', k'.strtokRest = left ∧ ∀ n, N ≤ n →
      MyShell.Paging.exec (parseInput (scriptShell script) n) 9 n
      (List.replicate m (some script)) kU = some (0, k') := by
  have hbatch : Batch 9 (List.replicate m script) := by
    refine ⟨by rw [List.length_replicate]; exact hm, fun text ht => ?_, ?_⟩
    · rw [List.eq_of_mem_replicate ht]
      exact h.proper
    · have hfirst : DemandPaging.first [script].length = 1 := by
        rw [List.length_singleton]
        decide
      rw [List.map_replicate, List.sum_replicate_nat, h.line, hfirst]
      omega
  have hquiet : ∀ text ∈ List.replicate m script,
      Harmless (parseInput (scriptShell script) 0) 9 (fun _ => True) (lines text) :=
        fun text ht line hl k _ => by
    rw [List.eq_of_mem_replicate ht, h.line] at hl
    obtain rfl := List.mem_singleton.1 hl
    obtain ⟨r, k', hparse, hr, hsame, -⟩ := h.reads k
    exact ⟨r, k', hparse, hr, hsame, trivial⟩
  obtain ⟨N, k', new, hexec, -, -, -, hnew, hpids, hlines⟩ := hidle.exec hbatch trivial hquiet
  rw [List.map_replicate] at hexec
  obtain ⟨read, hpassed, -, hread⟩ := exec_reads parseInput_passed hexec
  obtain rfl : read = new := List.append_cancel_left (hpassed.symm.trans hnew)
  have hpid : ∀ i < m, (read.filter fun x => x.1 = kU.pidCounter + i).map Prod.snd = [script] :=
    fun i hi => by
    have := hlines i (by rwa [List.length_replicate])
    rwa [List.getElem_replicate, h.line] at this
  have hmem : ∀ x ∈ read, x.2 = script := fun x hx => by
    obtain ⟨hle, hlt⟩ := hpids x hx
    rw [List.length_replicate] at hlt
    have hx : x.2 ∈ (read.filter fun y => y.1 = kU.pidCounter + (x.1 - kU.pidCounter)).map Prod.snd :=
      List.mem_map_of_mem (List.mem_filter.2 ⟨hx, by simp; omega⟩)
    rw [hpid _ (by omega)] at hx
    exact List.mem_singleton.1 hx
  have hne : read ≠ [] := by
    intro hnil
    have := hpid 0 hpos
    rw [hnil] at this
    cases this
  obtain ⟨x, hx, k₀, r, k₁, hparse, hrest⟩ := hread hne
  rw [hmem x hx] at hparse
  obtain ⟨r', k₁', hparse', -, -, hleft⟩ := h.reads k₀
  rw [hparse'] at hparse
  obtain ⟨-, rfl⟩ := Prod.mk.inj (Option.some.inj hparse)
  refine ⟨N, k', hrest.trans hleft, fun n hn => ?_⟩
  exact exec_extends (parseInput_extends (Nat.zero_le n)) hn _ _ _ hexec

/-- A command that starts scripts leaves the position of `strtok` where they do. -/
theorem Leaves.interpreter (h : Leaves script left) (hidle : Idle 9 kU) {args : List Text}
    (hargs : started args ≠ []) : ∃ N a k', a ≠ -1 ∧ k'.strtokRest = left ∧ ∀ n, N ≤ n →
      MyShell.Paging.interpreter (scriptShell script)
      (MyShell.Paging.exec (parseInput (scriptShell script) n) 9 n) args kU =
        some (a, k') := by
  have hrun : ∀ {names : List Text}, 0 < names.length → names.length ≤ 3 →
    ∃ N k', k'.strtokRest = left ∧ ∀ n, N ≤ n →
      runScripts (scriptShell script) (MyShell.Paging.exec (parseInput (scriptShell script) n) 9 n)
      names kU =
        some (0, k') := fun {names} hpos hle => by
    have hsame : Same 9 kU (storeScripts (scriptShell script) names kU).2 := storeScripts_same names kU
    have hlength : (storeScripts (scriptShell script) names kU).1.length = names.length :=
      storeScripts_length names kU
    obtain ⟨N, k', hleft, hexec⟩ := h.exec (hidle.same hsame) hpos hle
    refine ⟨N, clearStore (scriptShell script) k', hleft, fun n hn => ?_⟩
    refine Option.bind_eq_some_iff.2 ⟨(0, k'), ?_, rfl⟩
    rw [← hexec n hn, ← hlength, ← List.map_const]
    rfl
  unfold started at hargs
  cases hwords : args.map stripLine with
  | nil =>
    rw [hwords] at hargs
    exact absurd rfl hargs
  | cons name names =>
    have hlength : args.length = names.length + 1 := by simpa using congrArg List.length hwords
    rw [hwords] at hargs
    simp only at hargs
    split at hargs
    · rename_i hlook
      have hle : names.length ≤ 3 := by
        rcases hlook with ⟨-, hone⟩ | ⟨-, hle⟩
        · omega
        · exact hle
      obtain ⟨N, k', hleft, heq⟩ := hrun (List.length_pos_of_ne_nil hargs) hle
      refine ⟨N, 0, k', by decide, hleft, fun n hn => ?_⟩
      rw [← heq n hn, MyShell.Paging.interpreter, if_neg (by omega), hwords]
      rcases hlook with ⟨hlook, hone⟩ | ⟨hlook, -⟩
      · obtain ⟨script, rfl⟩ := List.length_eq_one_iff.1 hone
        simp only [hlook]
        rfl
      · obtain ⟨s, ss, rfl⟩ := List.exists_cons_of_ne_nil hargs
        simp only [hlook]
        exact if_neg (by omega)
    · exact absurd rfl hargs

theorem help_leaves : Leaves "help".toList [] :=
  ⟨⟨by decide, by decide, by decide, by decide⟩, by decide, fun _ => ⟨_, _, rfl, by decide,
    ⟨fun _ _ => rfl, rfl, rfl, rfl, rfl, rfl, rfl⟩, rfl⟩⟩

/-- After `quit` the next token is read but not called. -/
theorem quit_leaves : Leaves "quit;help;help".toList "help".toList :=
  ⟨⟨by decide, by decide, by decide, by decide⟩, by decide, fun _ => ⟨_, _, rfl, by decide,
    ⟨fun _ _ => rfl, rfl, rfl, rfl, rfl, rfl, rfl⟩, rfl⟩⟩

theorem exists_disturbing : ∀ {tokens : List Text}, undisturbed tokens = false → ∃ pre token post,
    tokens = pre ++ token :: post ∧ started (words token) ≠ [] ∧
      ∀ t ∈ pre, started (words t) = [] ∧ ends (words t) = false
  | [], h => by cases h
  | token :: tokens, h => by
    rw [undisturbed, decide_eq_false_iff_not, not_or, not_and_or] at h
    obtain ⟨hends, hstarted | hrest⟩ := h
    · exact ⟨[], token, tokens, rfl, hstarted, by simp⟩
    · by_cases hstarted : started (words token) = []
      · obtain ⟨pre, t, post, rfl, ht, hpre⟩ := exists_disturbing (eq_false_of_ne_true hrest)
        refine ⟨token :: pre, t, post, rfl, ht, fun t' ht' => ?_⟩
        rcases List.mem_cons.1 ht' with rfl | ht'
        · exact ⟨hstarted, eq_false_of_ne_true hends⟩
        · exact hpre t' ht'
      · exact ⟨[], token, tokens, rfl, hstarted, by simp⟩

theorem nextToken_cons {s t : Text} {ts : List Text} (h : commandsOf s = t :: ts) (k : Kernel σ) :
    ∃ rest, nextToken s k = (some t, { k with strtokRest := rest }) ∧ commandsOf rest = ts := by
  rw [commandsOf_strtok] at h
  rw [nextToken]
  cases hs : strtok s with
  | none =>
    rw [hs] at h
    cases h
  | some x =>
    obtain ⟨token, rest⟩ := x
    rw [hs] at h
    obtain ⟨rfl, hrest⟩ := List.cons.inj h
    exact ⟨rest, rfl, hrest⟩

/-- Where the scripts leave other commands than the line has, these are what is called. -/
theorem Leaves.not_called (h : Leaves script left) {post : List Text}
    (hleft : commandsOf left = [] ↔ post ≠ []) {token : Text}
    (htoken : started (words token) ≠ []) : ∀ {pre : List Text} {s : Text} {k : Kernel Unit},
    (∀ t ∈ pre, started (words t) = [] ∧ ends (words t) = false) →
    commandsOf s = pre ++ token :: post → Idle 9 k →
      ∃ N, ∀ n, N ≤ n → ∀ m, pre.length + 1 < m → ¬AllCalled s (loopCalls (scriptShell script)
        (MyShell.Paging.exec (parseInput (scriptShell script) n) 9 n) m (nextToken s k).1
        (nextToken s k).2)
  | [], s, k, _, hs, hidle => by
    obtain ⟨rest, hnext, hrest⟩ := nextToken_cons hs k
    have hidle' : Idle 9 { k with strtokRest := rest } :=
      ⟨hidle.queue, hidle.lruCache, hidle.allPcb, hidle.free⟩
    obtain ⟨N, a, k₁, ha, hleft₁, hcmd⟩ := h.interpreter hidle' htoken
    refine ⟨N, fun n hn m hm hall => ?_⟩
    obtain ⟨m, rfl⟩ : ∃ j, m = j + 2 := ⟨m - 2, by simp at hm; omega⟩
    rw [hnext, loopCalls, hcmd n hn] at hall
    simp only [if_neg ha, hleft₁] at hall
    have hline : commandsOf s = token :: commandsOf rest := by rw [hs, hrest]; rfl
    obtain ⟨after, hsplit, hend⟩ := hall.tail hline rfl ha
    by_cases hpost : post = []
    · -- what the scripts have left is called
      cases hleftover : commandsOf left with
      | nil => exact hleft.1 hleftover hpost
      | cons t ts =>
        obtain ⟨rest', hnext', -⟩ := nextToken_cons hleftover k₁
        rw [hnext', loopCalls, hrest, hpost] at hsplit
        split at hsplit <;> cases hsplit
    · -- the rest of the line is lost
      rw [loopCalls_nil (hleft.2 hpost), hrest] at hsplit
      obtain ⟨call, hcall, -⟩ := hend (by rw [← hsplit.trans (List.nil_append after)]; exact hpost)
      rw [loopCalls_nil (hleft.2 hpost)] at hcall
      cases hcall
  | t :: pre, s, k, hpre, hs, hidle => by
    obtain ⟨rest, hnext, hrest⟩ := nextToken_cons hs k
    have hidle' : Idle 9 { k with strtokRest := rest } :=
      ⟨hidle.queue, hidle.lruCache, hidle.allPcb, hidle.free⟩
    obtain ⟨hstarted, hends⟩ := hpre t List.mem_cons_self
    obtain ⟨a, k₁, ha, hidle₁, hleft₁, hcmd⟩ := interpreter_plain hstarted hends hidle'
    obtain ⟨N, hN⟩ :=
      h.not_called hleft htoken (fun t ht => hpre t (List.mem_cons_of_mem _ ht)) hrest hidle₁
    refine ⟨N, fun n hn m hm hall => ?_⟩
    obtain ⟨m, rfl⟩ : ∃ j, m = j + 1 := ⟨m - 1, by omega⟩
    rw [hnext, loopCalls, hcmd] at hall
    simp only [if_neg ha, hleft₁] at hall
    have hline : commandsOf s = t :: commandsOf rest := by rw [hs, hrest]; rfl
    exact hN n hn m (by simpa using hm) (hall.tail hline rfl ha)

/-- **Main result.** The commands of a line are called whole, in every state and
whatever scripts there are, exactly where none of those reached starts scripts.
Where all scripts are read to their end, the last command may. -/
theorem one_liner (line : Text) :
    ((∀ {σ : Type} (sh : Shell σ) n k, AllCalled line (inputCalls sh n line k)) ↔
      undisturbed (commandsOf line) = true) ∧
    ∀ {σ : Type} (sh : Shell σ) n k,
      (∀ call ∈ inputCalls sh n line k, call.RunsOn → commandsOf call.left = []) →
        (AllCalled line (inputCalls sh n line k) ↔
          ∀ i call, (inputCalls sh n line k)[i]? = some call → call.RunsOn →
            i + 1 = (commandsOf line).length) := by
  have hlength := length_commandsOf_le line
  refine ⟨⟨fun h => ?_, fun h σ sh n k => ?_⟩, fun sh n k => ?_⟩
  · by_contra hdisturbed
    obtain ⟨pre, token, post, hline, htoken, hpre⟩ := exists_disturbing (eq_false_of_ne_true hdisturbed)
    obtain ⟨script, left, hleaves, hleft⟩ : ∃ script left, Leaves script left ∧
        (commandsOf left = [] ↔ post ≠ []) := by
      by_cases hpost : post = []
      · exact ⟨_, _, quit_leaves, by rw [hpost]; decide⟩
      · exact ⟨_, _, help_leaves, by simp [hpost, commandsOf, segments]⟩
    have hidle : Idle 9 (kernelSetup ()) := ⟨rfl, rfl, rfl, fun _ _ => rfl⟩
    obtain ⟨N, hN⟩ := hleaves.not_called hleft htoken hpre hline hidle
    rw [hline, List.length_append, List.length_cons] at hlength
    exact hN (N + 1) (by omega) (N + 1 + line.length) (by omega)
      (h (scriptShell script) (N + 2) (kernelSetup ()))
  · cases n with
    | zero => exact loopCalls_undisturbed rejects_none h (by omega)
    | succ n => exact loopCalls_undisturbed (rejects_exec _ _ n) h (by omega)
  · cases n with
    | zero => exact loopCalls_unbroken rejects_none (by omega)
    | succ n => exact loopCalls_unbroken (rejects_exec _ _ n) (by omega)

/-- The line of the script has moved the position of `strtok` to its own end. -/
theorem one_liner_run_help : ¬AllCalled "run b;help".toList
    (inputCalls (scriptShell "help".toList) 4 "run b;help".toList (kernelSetup ())) := by
  have hcalls : (inputCalls (scriptShell "help".toList) 4 "run b;help".toList (kernelSetup ())).map
      (fun call => (call.token, call.answer)) = [("run b".toList, some 0)] := by decide +kernel
  intro ⟨rest, hsplit, hend⟩
  have hone := congrArg List.length hcalls
  rw [List.length_map, List.length_singleton, List.length_eq_one_iff] at hone
  obtain ⟨call, hone⟩ := hone
  rw [hone] at hcalls hsplit hend
  obtain ⟨-, hanswer⟩ := Prod.mk.inj (List.cons.inj hcalls).1
  have hrest : rest ≠ [] := by
    intro hnil
    have htwo : (commandsOf "run b;help".toList).length = 2 := by decide
    rw [hsplit, hnil] at htwo
    cases htwo
  obtain ⟨last, hlast, hlastAnswer⟩ := hend hrest
  obtain rfl : call = last := Option.some.inj hlast
  rw [hanswer] at hlastAnswer
  revert hlastAnswer
  decide

end MyShell.Paging

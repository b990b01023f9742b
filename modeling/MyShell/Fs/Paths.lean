/-
The buffers for `split_path_filename` (directory.c). Its callers in filesys.c
declare arrays for the two parts of a path; only `filesys_open` counts the NUL.
The parts fit elsewhere if the path has a slash and is more than one
(`split_path_fits`), so that a plain file name does not.
-/
import MyShell.Fs.Root

namespace MyShell.Fs

/-- The functions of filesys.c that split a path. -/
inductive SplitCaller
  | filesysCreate | filesysOpen | filesysRemove
deriving DecidableEq

/-- The size of the arrays `directory` and `file_name` that the function declares. -/
def SplitCaller.bufferSize (path : CString) : SplitCaller → Nat
  | .filesysCreate => path.length
  | .filesysOpen => path.length + 1
  | .filesysRemove => path.length

/-- Both parts of the path fit into their arrays, with the NUL. -/
def SplitCaller.Fits (path : CString) (f : SplitCaller) : Prop :=
  (splitPathFilename path).1.length + 1 ≤ f.bufferSize path ∧
    (splitPathFilename path).2.length + 1 ≤ f.bufferSize path

variable {path : CString}

/-! ## Lengths of the tokens -/

/-- The characters of the tokens, and one more for each. -/
def room (toks : List CString) : Nat := (toks.map fun t => t.length + 1).sum

@[simp] theorem room_nil : room [] = 0 := rfl

@[simp] theorem room_cons (t : CString) (toks : List CString) :
    room (t :: toks) = t.length + 1 + room toks :=
  List.sum_cons

theorem room_append (toks toks' : List CString) : room (toks ++ toks') = room toks + room toks' := by
  rw [room, List.map_append, List.sum_append]
  rfl

/-- Each slash belongs to the piece before it, and the last piece has none. -/
theorem room_splitOn (path : CString) : room (path.splitOn slash) = path.length + 1 := by
  induction path with
  | nil => rfl
  | cons c path ih =>
    rw [List.splitOn_cons_eq_if_modifyHead]
    split
    · rw [room_cons, ih, List.length_nil, List.length_cons]
      omega
    · cases hsplit : path.splitOn slash with
      | nil =>
        rw [hsplit, room_nil] at ih
        omega
      | cons first rest =>
        rw [hsplit, room_cons] at ih
        rw [List.modifyHead_cons, room_cons, List.length_cons, List.length_cons]
        omega

theorem length_lt_room {t : CString} {toks : List CString} (h : t ∈ toks) : t.length < room toks := by
  obtain ⟨before, after, rfl⟩ := List.mem_iff_append.1 h
  rw [room_append, room_cons]
  omega

/-- A slash takes a character from every piece. -/
theorem length_lt_of_mem_splitOn {t : CString} (h : t ∈ path.splitOn slash) (hslash : slash ∈ path) :
    t.length < path.length := by
  obtain ⟨front, back, rfl⟩ := List.mem_iff_append.1 hslash
  rw [List.splitOn_append_cons_self, List.mem_append] at h
  rw [List.length_append, List.length_cons]
  obtain h | h := h
  · have hroom := length_lt_room h
    rw [room_splitOn] at hroom
    omega
  · have hroom := length_lt_room h
    rw [room_splitOn] at hroom
    omega

theorem room_filter_le (toks : List CString) : room (toks.filter (· ≠ [])) ≤ room toks := by
  induction toks with
  | nil => exact Nat.le_refl _
  | cons t toks ih =>
    rw [List.filter_cons, room_cons]
    split
    · rw [room_cons]
      omega
    · omega

/-- The tokens leave out the empty piece in front of a leading slash. -/
theorem room_tokens_le (path : CString) :
    (if path.head? = some slash then 1 else 0) + room (tokens path) ≤ path.length + 1 := by
  rw [← room_splitOn]
  cases path with
  | nil => exact Nat.zero_le _
  | cons c path =>
    by_cases hc : c = slash
    · rw [tokens, List.splitOn_cons_eq_if_modifyHead, if_pos (by simpa using hc), if_pos (by simp [hc]),
        List.filter_cons_of_neg (by simp), room_cons, List.length_nil]
      have := room_filter_le (path.splitOn slash)
      omega
    · rw [if_neg (by simpa using hc), Nat.zero_add]
      exact room_filter_le _

/-! ## The two parts -/

theorem length_flatMap_slash (toks : List CString) :
    (toks.flatMap (· ++ [slash])).length = room toks := by
  induction toks with
  | nil => rfl
  | cons t toks ih =>
    rw [List.flatMap_cons, List.length_append, List.length_append, ih, room_cons,
      List.length_singleton]

/-- A path with a token is as long as its parts, or longer. -/
theorem parts_length_le (h : tokens path ≠ []) :
    (splitPathFilename path).1.length + (fileName path).length ≤ path.length := by
  have hroom := room_tokens_le path
  rw [← List.dropLast_append_getLast h, room_append, room_cons, room_nil] at hroom
  have hdirectory : (splitPathFilename path).1.length =
      (if path.head? = some slash then 1 else 0) + room (tokens path).dropLast := by
    rw [splitPathFilename, List.length_append, length_flatMap_slash]
    split <;> rfl
  have hname : fileName path = (tokens path).getLast h := by
    rw [fileName, splitPathFilename, List.getLastD_eq_getLast?, List.getLast?_eq_some_getLast h,
      Option.getD_some]
  rw [hdirectory, hname]
  omega

theorem fileName_length_lt (h : slash ∈ path) : (fileName path).length < path.length := by
  have hlast : fileName path ∈ [] :: tokens path := List.getLastD_mem_cons
  obtain hnil | hmem := List.mem_cons.1 hlast
  · rw [hnil]
    exact List.length_pos_of_mem h
  · exact length_lt_of_mem_splitOn (List.mem_filter.1 hmem).1 h

/-- Without a token there is at most the leading slash. -/
theorem splitPathFilename_of_tokens (h : tokens path = []) :
    (splitPathFilename path).1.length ≤ 1 ∧ fileName path = [] := by
  rw [fileName, splitPathFilename, h]
  refine ⟨?_, rfl⟩
  rw [List.dropLast_nil, List.flatMap_nil, List.append_nil]
  split
  · exact Nat.le_refl _
  · exact Nat.zero_le _

theorem part_length_le (h : path ≠ []) :
    (splitPathFilename path).1.length ≤ path.length ∧ (fileName path).length ≤ path.length := by
  by_cases htokens : tokens path = []
  · obtain ⟨hdirectory, hname⟩ := splitPathFilename_of_tokens htokens
    have hpos := List.length_pos_of_ne_nil h
    exact ⟨Nat.le_trans hdirectory hpos, hname ▸ Nat.zero_le _⟩
  · have hparts := parts_length_le htokens
    exact ⟨by omega, Nat.le_trans (Nat.le_add_left _ _) hparts⟩

/-- A slash leaves room for a NUL after the directory, and one alone does not. -/
theorem directory_length_lt (h : slash ∈ path) (hpath : path ≠ [slash]) :
    (splitPathFilename path).1.length < path.length := by
  by_cases htokens : tokens path = []
  · obtain ⟨hdirectory, -⟩ := splitPathFilename_of_tokens htokens
    match path, h, hpath with
    | [_], h, hpath => exact absurd (List.mem_singleton.1 h ▸ rfl) hpath
    | _ :: _ :: _, _, _ => exact Nat.lt_of_le_of_lt hdirectory (Nat.succ_lt_succ (Nat.succ_pos _))
  · have hparts := parts_length_le htokens
    have hname : fileName path ≠ [] := by
      rw [fileName, splitPathFilename, List.getLastD_eq_getLast?, List.getLast?_eq_some_getLast htokens]
      exact of_decide_eq_true (List.mem_filter.1 (List.getLast_mem htokens)).2
    have hpos := List.length_pos_of_ne_nil hname
    omega

/-- **Path splitting stays inside its buffers** in `filesys_open`, and in
`filesys_create` and `filesys_remove` where the path has a slash and more than that. -/
theorem split_path_fits (f : SplitCaller) (h : path ≠ []) :
    f.Fits path ↔ f = .filesysOpen ∨ (slash ∈ path ∧ path ≠ [slash]) := by
  -- what the arrays without a place for the NUL take
  have htight : ((splitPathFilename path).1.length + 1 ≤ path.length ∧
    (fileName path).length + 1 ≤ path.length) ↔
      slash ∈ path ∧ path ≠ [slash] := by
    constructor
    · intro ⟨hdirectory, hname⟩
      constructor
      · by_contra hslash
        rw [fileName_plain h hslash] at hname
        exact Nat.not_succ_le_self _ hname
      · intro hpath
        rw [hpath] at hdirectory
        exact absurd hdirectory (by decide)
    · intro ⟨hslash, hpath⟩
      exact ⟨directory_length_lt hslash hpath, fileName_length_lt hslash⟩
  cases f with
  | filesysCreate => exact htight.trans (or_iff_right (by decide)).symm
  | filesysOpen =>
    obtain ⟨hdirectory, hname⟩ := part_length_le h
    exact iff_of_true ⟨Nat.succ_le_succ hdirectory, Nat.succ_le_succ hname⟩ (.inl rfl)
  | filesysRemove => exact htight.trans (or_iff_right (by decide)).symm

/-- The path `/a`. -/
theorem split_path_fits_rooted : SplitCaller.filesysCreate.Fits [slash, 97] :=
  (split_path_fits .filesysCreate (by decide)).2 (.inr ⟨by decide, by decide⟩)

/-- The file name of the path `a` is one byte longer than its array. -/
theorem split_path_overruns : [(97 : UInt8)] ≠ [] ∧ SplitCaller.filesysCreate.bufferSize [97] = 1 ∧
    splitPathFilename [97] = ([], [97]) ∧ ¬ SplitCaller.filesysCreate.Fits [97] ∧
    ¬ SplitCaller.filesysRemove.Fits [97] := by
  have hsplit : splitPathFilename [97] = ([], [97]) := splitPathFilename_plain (by decide) (by decide)
  refine ⟨by decide, rfl, hsplit, ?_, ?_⟩
  · rw [SplitCaller.Fits, hsplit]
    exact fun h => absurd h.2 (by decide)
  · rw [SplitCaller.Fits, hsplit]
    exact fun h => absurd h.2 (by decide)

end MyShell.Fs

/-
What a path means to `filesys_create`, `filesys_open` and `filesys_remove`. The
first two look at the last part of the path only, and take it for a name in the
root directory; the last one opens the directory before it. `inode_reopen` does
not count, so a directory that is reached over `.` or `..` is closed with the
one it was found in, unless that is open elsewhere.
-/
import MyShell.Fs.CopyIn

namespace MyShell.Fs

open Storage Session

/-! ## Parts of a path -/

/-- The directories on the way to the file. -/
def directoryTokens (path : CString) : List CString := (tokens path).dropLast

section tokens

variable {path token : CString}

theorem mem_tokens (h : token ∈ tokens path) : token ≠ [] ∧ slash ∉ token := by
  obtain ⟨hmem, hne⟩ := List.mem_filter.1 h
  exact ⟨by simpa using hne, (mem_splitOn hmem).1⟩

theorem tokens_slash (path : CString) : tokens (slash :: path) = tokens path := by
  rw [tokens, List.splitOn_cons_eq_if_modifyHead, if_pos (beq_self_eq_true _),
    List.filter_cons_of_neg (by simp)]
  rfl

theorem tokens_cons (hne : token ≠ []) (hslash : slash ∉ token) (path : CString) :
    tokens (token ++ slash :: path) = token :: tokens path := by
  rw [tokens, List.splitOn_append_cons_self_of_not_mem hslash,
    List.filter_cons_of_pos (by simpa using hne)]
  rfl

theorem tokens_flatMap {toks : List CString} (h : ∀ t ∈ toks, t ≠ [] ∧ slash ∉ t) :
    tokens (toks.flatMap (· ++ [slash])) = toks := by
  induction toks with
  | nil => rfl
  | cons t toks ih =>
    obtain ⟨⟨hne, hslash⟩, h⟩ := List.forall_mem_cons.1 h
    rw [List.flatMap_cons, List.append_assoc, List.singleton_append, tokens_cons hne hslash, ih h]

/-- The directory part of a path has its directories. -/
theorem tokens_directory (path : CString) :
    tokens (splitPathFilename path).1 = directoryTokens path := by
  have hflat := tokens_flatMap fun t (ht : t ∈ directoryTokens path) =>
    mem_tokens (List.dropLast_subset _ ht)
  unfold splitPathFilename
  dsimp only
  split
  · rw [List.singleton_append, tokens_slash]
    exact hflat
  · exact hflat

theorem head_directory (path : CString) :
    (splitPathFilename path).1.head? = some slash ↔ path.head? = some slash := by
  unfold splitPathFilename
  dsimp only
  split
  · next habs => simp [habs]
  · next hrel =>
    refine iff_of_false ?_ hrel
    rw [List.nil_append]
    cases htoks : (tokens path).dropLast with
    | nil => simp
    | cons t toks =>
      obtain ⟨hne, hslash⟩ := mem_tokens (List.dropLast_subset _ (htoks ▸ List.mem_cons_self))
      obtain ⟨c, t, rfl⟩ := List.exists_cons_of_ne_nil hne
      intro hhead
      rw [List.flatMap_cons] at hhead
      exact hslash (by simpa using Or.inl (Option.some.inj hhead).symm)

end tokens

/-! ## The way to a directory -/

/-- Where `dir_open_path` starts. -/
def pathStart (path : CString) : FsM (Option Ptr) :=
  if path.head? = some slash then dirOpenRoot
  else do
    match (← Cmd.getState).cwd with
    | none => dirOpenRoot
    | some cwd => dirReopen cwd

/-- What it does about the directory it comes to. -/
def pathEnd (curr : Option Ptr) : FsM (Option Ptr) := do
  match curr with
  | none => pure none
  | some p => do
    if ← inodeIsRemoved (← dirGetInode p) then do
      dirClose (some p)
      pure none
    else pure (some p)

theorem dirOpenPath_eq (path : CString) : dirOpenPath path = (do
    let curr ← pathStart path
    let last ← openPath curr (tokens path)
    pathEnd last) := rfl

/-- The rest of the way, from a directory whose inode is gone: there is none. -/
theorem exec_walk_stale {st : FsState} {v : Image} {d : Ptr} {dir : Dir} (hd : st.dirs.get d = some dir)
    (hone : dir.openCnt = 1) (hstale : st.openInodes.get dir.inode = none) (toks : List CString) :
    (openPath (some d) toks >>= pathEnd).exec st v = none := by
  have hderef : (derefDir d).exec st v = some (dir, st, v) := by rw [exec_derefDir, hd]; rfl
  cases toks with
  | nil => simp [openPath, pathEnd, dirGetInode, hderef, inodeIsRemoved, exec_derefInode, hstale]
  | cons t toks =>
    have hne : d ≠ st.dirs.next := fun he => by
      rw [he, Heap.get_next] at hd
      cases hd
    by_cases hdot : t = [dot]
    · -- the new handle is of the same inode, which cannot be closed again
      have hd' : (st.setDirs (st.dirs.alloc ⟨dir.inode, 36, 1⟩)).dirs.get d = some dir := by
        rw [FsState.setDirs_dirs, Heap.get_alloc, if_neg hne, hd]
      have hclose : (dirClose (some d)).exec (st.setDirs (st.dirs.alloc ⟨dir.inode, 36, 1⟩)) v =
          none := by
        rw [exec_dirClose_last hd' hone]
        simp [inodeClose, exec_derefInode, hstale]
      have hlook : (dirLookup d t).exec st v = some (some dir.inode, st, v) := by
        simp [dirLookup, hderef, hdot, inodeReopen]
      simp [openPath, hlook, exec_dirOpen, hclose]
    · have hlook : (dirLookup d t).exec st v = none := by
        simp [dirLookup, hderef, hdot, readEntry, inodeReadAt, lookup, dirFuel, inodeLength,
          exec_derefInode, hstale]
      simp [openPath, hlook]

section walk

variable {s s' : Session} {a : BlockSector → Option Node} {g : Growable UInt8} {T : Table} {d : Ptr}
  {dir : Dir} {path name t : CString}

/-- One step over `.` or `..`: a new handle of the root directory, whose inode is gone if the old
handle was closed for good. -/
theorem Rooted.openPath_dots (h : Rooted s a g T)
    (hd : OpenDir s a d dir rootDirSector rootDirSector g T) (ht : IsDots t) (toks : List CString) :
    ∃ d' s', s'.st.dirs.get d' = some ⟨dir.inode, 36, 1⟩ ∧
      (openPath (some d) (t :: toks)).exec s.st s.image =
      (openPath (some d') toks).exec s'.st s'.image ∧
      (dir.openCnt = 1 → s'.st.openInodes.get dir.inode = none) ∧
      (dir.openCnt ≠ 1 → Rooted s' a g T ∧ OpenDir s' a d' ⟨dir.inode, 36,
        1⟩ rootDirSector rootDirSector g T) := by
  obtain ⟨s₁, hopen, hstands₁⟩ := Volume.dirOpen (s := s) dir.inode
  have hvol₁ := hstands₁.volume h.vol
  have hne : d ≠ s.st.dirs.next := fun he => by
    have := hd.handle
    rw [he, Heap.get_next] at this
    cases this
  have hget₁ : s₁.st.dirs.get d = some dir := by rw [hstands₁.get, if_neg hne, hd.handle]
  have hholds₁ : s₁.Holds dir.inode rootDirSector := (hstands₁.holds _ _).2 hd.holds
  have hstep {s₂ : Session} (hclose : s₁.Does (dirClose (some d)) () s₂) :
      (openPath (some d) (t :: toks)).exec s.st s.image =
      (openPath (some s.st.dirs.next) toks).exec s₂.st s₂.image := by
    have hlook : (dirLookup d t).exec s.st s.image = some (some dir.inode, s.st, s.image) :=
      hd.dirLookup_dots h.vol ht
    have hopen : (dirOpen (some dir.inode)).exec s.st s.image = some (some s.st.dirs.next, s₁.st,
        s₁.image) := hopen
    have hclose : (dirClose (some d)).exec s₁.st s₁.image = some ((), s₂.st, s₂.image) := hclose
    simp [openPath, hlook, hopen, hclose]
  by_cases hone : dir.openCnt = 1
  · obtain ⟨s₂, hclose, -, hshuts⟩ := OpenDir.close_last hvol₁ hget₁ hholds₁ hd.sector hone
    refine ⟨_, s₂, ?_, hstep hclose, fun _ => ?_, fun hno => absurd hone hno⟩
    · rw [hshuts.get, if_neg (Ne.symm hne), hstands₁.get, if_pos rfl]
    · exact Session.get_of_not_holds fun x hx => ((hshuts.holds _ _).1 hx).2 rfl
  · obtain ⟨s₂, hclose, hstands₂⟩ := OpenDir.close_more hget₁ hone
    have h₂ : Rooted s₂ a g T := h.next (hstands₂.volume hvol₁) (hstands₂.live.trans hstands₁.live)
    have hget₂ : s₂.st.dirs.get s.st.dirs.next = some ⟨dir.inode, 36, 1⟩ := by
      rw [hstands₂.get, if_neg (Ne.symm hne), hstands₁.get, if_pos rfl]
    exact ⟨_, s₂, hget₂, hstep hclose, fun hyes => absurd hyes hone, fun _ =>
      ⟨h₂, h₂.openDir hget₂ ((hstands₂.holds _ _).2 hholds₁)⟩⟩

/-- The first directory is the root directory. It stays open when its handle is closed where the
path is absolute and there is a global directory. -/
theorem Rooted.pathStart (h : Rooted s a g T) (hcwd : s.CwdOk) (path : CString) :
    ∃ d dir s', s.Does (pathStart path) (some d) s' ∧ Rooted s' a g T ∧
      OpenDir s' a d dir rootDirSector rootDirSector g T ∧
      (dir.openCnt ≠ 1 ↔ path.head? = some slash ∧ s.st.cwd ≠ none) := by
  unfold Fs.pathStart
  by_cases habs : path.head? = some slash
  · rw [if_pos habs]
    obtain ⟨d, dir, s', henter, h', hd, -, -, -, -, hout, -⟩ := h.enter hcwd
    refine ⟨d, dir, s', henter, h', hd, ?_⟩
    rw [and_iff_right habs]
    unfold Outside at hout
    split at hout
    · next hone => exact iff_of_false (not_not_intro hone) (not_not_intro hout)
    · next hmore => exact iff_of_true hmore (by rw [hout.1]; simp)
  · rw [if_neg habs]
    have hstate : s.Does Cmd.getState s.st s := rfl
    cases hc : s.st.cwd with
    | none =>
      obtain ⟨d, dir, s', henter, h', hd, -, -, -, -, hout, -⟩ := h.enter hcwd
      refine ⟨d, dir, s', hstate.bind (by rw [hc]; exact henter), h', hd,
        iff_of_false (fun hmore => ?_) (by simp)⟩
      rw [Outside, if_neg hmore, hc] at hout
      cases hout.1
    | some d₀ =>
      obtain ⟨dir₀, hget, hholds, -⟩ := hcwd d₀ hc
      obtain ⟨s', hopen, hstands⟩ := Volume.dirOpen (s := s) dir₀.inode
      have hreopen : s.Does (dirReopen d₀) (some s.st.dirs.next) s' :=
        (h.openDir hget hholds).derefDir.bind (Does.bind (.pure _ _) hopen)
      have h' : Rooted s' a g T := h.next (hstands.volume h.vol) hstands.live
      have hget' : s'.st.dirs.get s.st.dirs.next = some ⟨dir₀.inode, 36, 1⟩ := by
        rw [hstands.get, if_pos rfl]
      exact ⟨_, _, s', hstate.bind (by rw [hc]; exact hreopen), h',
        h'.openDir hget' ((hstands.holds _ _).2 hholds), iff_of_false (by simp) fun hno => habs hno.1⟩

theorem Rooted.pathEnd (h : Rooted s a g T) (hd : OpenDir s a d dir rootDirSector rootDirSector g T) :
    s.Does (pathEnd (some d)) (some d) s := by
  have hremoved := h.vol.isRemoved hd.holds hd.sector
  rw [decide_eq_false (not_not_intro h.root)] at hremoved
  exact hd.getInode.bind (hremoved.bind (.pure _ _))

theorem Rooted.dirClose (h : Rooted s a g T) (hd : OpenDir s a d dir rootDirSector rootDirSector g T) :
    ∃ s', s.Does (dirClose (some d)) () s' ∧ Rooted s' a g T := by
  by_cases hone : dir.openCnt = 1
  · obtain ⟨s', hclose, hvol', hshuts⟩ := OpenDir.close_last h.vol hd.handle hd.holds hd.sector hone
    exact ⟨s', hclose, h.next hvol' hshuts.live⟩
  · obtain ⟨s', hclose, hstands⟩ := OpenDir.close_more hd.handle hone
    exact ⟨s', hclose, h.next (hstands.volume h.vol) hstands.live⟩

/-- A name on the way that is not there, or too many of `.` and `..`: the walk ends in a
fault, or without a directory. -/
theorem Rooted.walk_blocked {toks : List CString} (h : Rooted s a g T)
    (hd : OpenDir s a d dir rootDirSector rootDirSector g T)
    (htoks : ∀ t ∈ toks, IsDots t ∨ SlotMap.lookup T t = none)
    (hmany : toks ≠ [] ∧ (dir.openCnt = 1 ∨ ∀ t, IsDots t → toks ≠ [t])) :
    (openPath (some d) toks >>= Fs.pathEnd).exec s.st s.image = none ∨
      ∃ s', s.Does (openPath (some d) toks >>= Fs.pathEnd) none s' := by
  induction toks generalizing s d dir with
  | nil => exact absurd rfl hmany.1
  | cons t toks ih =>
    obtain ⟨ht, htoks⟩ := List.forall_mem_cons.1 htoks
    by_cases hdots : IsDots t
    · obtain ⟨d', s', hget, hexec, hstale, hlive⟩ := h.openPath_dots hd hdots toks
      have hwalk : (openPath (some d) (t :: toks) >>= Fs.pathEnd).exec s.st s.image =
          (openPath (some d') toks >>= Fs.pathEnd).exec s'.st s'.image := by
        rw [Cmd.exec_bind, hexec, ← Cmd.exec_bind]
      by_cases hone : dir.openCnt = 1
      · exact .inl (hwalk.trans (exec_walk_stale hget rfl (hstale hone) toks))
      · obtain ⟨h', hd'⟩ := hlive hone
        have hne : toks ≠ [] := by
          rintro rfl
          exact hmany.2.resolve_left hone t hdots rfl
        rcases ih h' hd' htoks ⟨hne, .inl rfl⟩ with hfault | ⟨s'', hnone⟩
        · exact .inl (hwalk.trans hfault)
        · exact .inr ⟨s'', hwalk.trans hnone⟩
    · have hlook := h.listed.dirLookup hd (not_or.1 hdots)
      rw [ht.resolve_left hdots] at hlook
      obtain ⟨s', hclose, -⟩ := h.dirClose hd
      have hopen : s.Does (openPath (some d) (t :: toks)) none s' :=
        Does.bind (.pure _ _) (hlook.bind (hclose.bind (.pure _ _)))
      exact .inr ⟨s', hopen.bind (.pure _ _)⟩

/-- The directory part of the path leads to the root directory: it is empty, or it is one `.` or
`..` from a root directory that is open elsewhere. -/
def Session.Reaches (s : Session) (path : CString) : Prop :=
  directoryTokens path = [] ∨
    path.head? = some slash ∧ s.st.cwd ≠ none ∧ ∃ t, IsDots t ∧ directoryTokens path = [t]

/-- Then `dir_open_path` opens the root directory. -/
theorem Rooted.directory_opens (h : Rooted s a g T) (hcwd : s.CwdOk) (hreach : s.Reaches path) :
    ∃ d dir s', s.Does (dirOpenPath (splitPathFilename path).1) (some d) s' ∧ Rooted s' a g T ∧
      OpenDir s' a d dir rootDirSector rootDirSector g T := by
  obtain ⟨d, dir, s₁, hstart, h₁, hd, hopen⟩ := h.pathStart hcwd (splitPathFilename path).1
  rw [head_directory] at hopen
  rw [dirOpenPath_eq, tokens_directory]
  rcases hreach with hnil | ⟨habs, hset, t, hdots, htok⟩
  · rw [hnil]
    exact ⟨d, dir, s₁, hstart.bind (Does.bind (.pure _ _) (h₁.pathEnd hd)), h₁, hd⟩
  · obtain ⟨d', s₂, hget, hexec, -, hlive⟩ := h₁.openPath_dots hd hdots []
    obtain ⟨h₂, hd₂⟩ := hlive (hopen.2 ⟨habs, hset⟩)
    rw [htok]
    exact ⟨d', _, s₂, hstart.bind (Does.bind (hexec : s₁.Does _ _ s₂) (h₂.pathEnd hd₂)),
      h₂, hd₂⟩

/-- Otherwise it faults, or finds no directory. -/
theorem Rooted.directory_blocked (h : Rooted s a g T) (hcwd : s.CwdOk) (hnot : ¬ s.Reaches path)
    (htoks : ∀ t ∈ directoryTokens path, IsDots t ∨ SlotMap.lookup T t = none) :
    (dirOpenPath (splitPathFilename path).1).exec s.st s.image = none ∨
      ∃ s', s.Does (dirOpenPath (splitPathFilename path).1) none s' := by
  obtain ⟨d, dir, s₁, hstart, h₁, hd, hopen⟩ := h.pathStart hcwd (splitPathFilename path).1
  rw [head_directory] at hopen
  have hmany : directoryTokens path ≠ [] ∧ (dir.openCnt = 1 ∨ ∀ t, IsDots t →
      directoryTokens path ≠ [t]) := by
    refine ⟨fun hnil => hnot (.inl hnil), ?_⟩
    by_contra hfew
    simp only [not_or, not_forall, not_not] at hfew
    obtain ⟨hmore, t, hdots, htok⟩ := hfew
    obtain ⟨habs, hset⟩ := hopen.1 hmore
    exact hnot (.inr ⟨habs, hset, t, hdots, htok⟩)
  rw [dirOpenPath_eq, tokens_directory]
  have hfirst : (Fs.pathStart (splitPathFilename path).1).exec s.st s.image =
      some (some d, s₁.st, s₁.image) := hstart
  rcases h₁.walk_blocked hd htoks hmany with hfault | ⟨s', hnone⟩
  · left
    rw [Cmd.exec_bind, hfirst]
    exact hfault
  · exact .inr ⟨s', hstart.bind hnone⟩

/-! ## The three calls -/

/-- `filesys_open` opens the inode `y`, of so many bytes and not a directory. -/
def Session.OpensNew (s : Session) (path : CString) (y : BlockSector) (length : Int) : Prop :=
  ∃ f p s', s.Does (filesysOpen path) (some f) s' ∧ s'.st.files.get f = some ⟨p, 0, false⟩ ∧
    s'.Holds p y ∧ (s'.data y).length = length ∧ (s'.data y).isDir = false

/-- `filesys_remove` answers true, and the directory has lost this name and no other. -/
def Session.RemovesOnly (s : Session) (path : CString) (T : Table) : Prop :=
  ∃ s' a' g' T', s.Does (filesysRemove path) true s' ∧ Rooted s' a' g' T' ∧
    ∀ name, SlotMap.lookup T' name = if name = fileName path then none else SlotMap.lookup T name

theorem Rooted.removes_only (h : Rooted s a g T) (hcwd : s.CwdOk) (hreach : s.Reaches path)
    {y : BlockSector} (hy : SlotMap.lookup T (fileName path) = some y) : s.RemovesOnly path T := by
  obtain ⟨d, dir, s₁, hpath, h₁, hd⟩ := h.directory_opens hcwd hreach
  obtain ⟨s₂, ok, hremove, hb, -, -, hres⟩ := hd.remove h₁.vol fun z hz =>
    h₁.files z (Table.mem_sectors.2 ⟨_, List.reduceOption_mem_iff.2 hz⟩)
  obtain ⟨rfl, i, z, g', hi, hlive, -, hvol, hd₂⟩ := hres.resolve_right fun hno => by
    rw [hy] at hno
    cases hno.1
  have h₂ := h₁.unbind hi hlive hvol hd₂.folder
  obtain ⟨s₃, hclose, h₃⟩ := h₂.dirClose hd₂
  have hdoes : s.Does (Fs.filesysRemove path) true s₃ :=
    hpath.bind (hremove.bind (hclose.bind (.pure _ _)))
  exact ⟨s₃, _, _, _, hdoes, h₃, SlotMap.lookup_free h.distinct hi⟩

theorem Rooted.not_removes (h : Rooted s a g T) (hcwd : s.CwdOk) (hnot : ¬ s.Reaches path)
    (htoks : ∀ t ∈ directoryTokens path, IsDots t ∨ SlotMap.lookup T t = none) {s' : Session} :
    ¬ s.Does (Fs.filesysRemove path) true s' := by
  intro hdoes
  rcases h.directory_blocked hcwd hnot htoks with hfault | ⟨s₁, hnone⟩
  · have hexec : (Fs.filesysRemove path).exec s.st s.image = none := by
      unfold Fs.filesysRemove
      rw [Cmd.exec_bind, hfault]
      rfl
    rw [Does, hexec] at hdoes
    cases hdoes
  · have hfalse : s.Does (Fs.filesysRemove path) false s₁ :=
      hnone.bind (Does.bind (.pure _ _) (Does.bind (.pure _ _) (.pure _ _)))
    rw [Does, hdoes] at hfalse
    cases hfalse

/-- By the name `.` or `..` `filesys_open` opens the root directory, if anything. -/
theorem Rooted.not_opens (h : Rooted s a g T) (hcwd : s.CwdOk) (hdots : IsDots (fileName path))
    {y : BlockSector} (hy : y ≠ rootDirSector) {length : Int} : ¬ s.OpensNew path y length := by
  rintro ⟨f, p, s', hopen, hf, hp, -⟩
  obtain ⟨d, dir, s₁, henter, h₁, hd, -⟩ := h.enter hcwd
  have hlook := hd.dirLookup_dots h₁.vol hdots
  have hne : fileName path ≠ [] := by rcases hdots with he | he <;> simp [he]
  obtain ⟨directory, hsplit⟩ : ∃ directory, splitPathFilename path = (directory, fileName path) :=
    ⟨_, Prod.ext rfl rfl⟩
  have hexec {s₂ : Session} (hclose : s₁.Does (Fs.dirClose (some d)) () s₂) :
      (Fs.filesysOpen path).exec s.st s.image =
        (do if ← inodeIsRemoved dir.inode then pure none else fileOpen (some dir.inode)).exec s₂.st
        s₂.image := by
    have henter : dirOpenRoot.exec s.st s.image = some (some d, s₁.st, s₁.image) := henter
    have hlook : (Fs.dirLookup d (fileName path)).exec s₁.st s₁.image =
        some (some dir.inode, s₁.st, s₁.image) := hlook
    have hclose : (Fs.dirClose (some d)).exec s₁.st s₁.image = some ((), s₂.st, s₂.image) := hclose
    unfold Fs.filesysOpen
    rw [if_neg (ne_nil_of_fileName rfl hne), hsplit]
    simp [henter, hne, hlook, hclose]
  rw [Does] at hopen
  by_cases hone : dir.openCnt = 1
  · -- the inode is gone with its directory
    obtain ⟨s₂, hclose, -, hshuts⟩ := OpenDir.close_last h₁.vol hd.handle hd.holds hd.sector hone
    have hgone : s₂.st.openInodes.get dir.inode = none :=
      Session.get_of_not_holds fun x hx => ((hshuts.holds _ _).1 hx).2 rfl
    rw [hexec hclose] at hopen
    simp [inodeIsRemoved, exec_derefInode, hgone] at hopen
  · obtain ⟨s₂, hclose, hstands⟩ := OpenDir.close_more hd.handle hone
    have h₂ : Rooted s₂ a g T := h₁.next (hstands.volume h₁.vol) hstands.live
    have hholds : s₂.Holds dir.inode rootDirSector := (hstands.holds _ _).2 hd.holds
    have hremoved := h₂.vol.isRemoved hholds hd.sector
    rw [decide_eq_false (not_not_intro h₂.root)] at hremoved
    have hremoved : (inodeIsRemoved dir.inode).exec s₂.st s₂.image =
        some (false, s₂.st, s₂.image) := hremoved
    obtain ⟨s₃, hfile, hm⟩ := exists_fileOpen s₂ dir.inode
    have hfile : (fileOpen (some dir.inode)).exec s₂.st s₂.image =
        some (some s₂.st.files.next, s₃.st, s₃.image) := hfile
    rw [hexec hclose, Cmd.exec_bind, hremoved, Option.bind_some, if_neg Bool.false_ne_true, hfile,
      Option.some.injEq, Prod.mk.injEq, Prod.mk.injEq, Option.some.injEq] at hopen
    obtain ⟨rfl, hst, -⟩ := hopen
    rw [← hst, hm.get, if_pos rfl] at hf
    obtain rfl : dir.inode = p := by simpa using hf
    have hroot : s'.Holds dir.inode rootDirSector := by
      rw [Session.Holds, ← hst]
      exact (hm.holds _ _).2 hholds
    exact hy (hp.unique hroot)

theorem Rooted.opens_new (h : Rooted s a g T) (hcwd : s.CwdOk) (hne : fileName path ≠ [])
    (hdots : ¬ IsDots (fileName path)) {y : BlockSector} {f : Growable UInt8}
    (hy : SlotMap.lookup T (fileName path) = some y) (ha : a y = some ⟨f, false⟩) :
    s.OpensNew path y f.length := by
  obtain ⟨p, s', hopen, h', ho⟩ := h.filesysOpen hcwd rfl hne (not_or.1 hdots) hy
  obtain ⟨hylive, hy0, -⟩ := h.listed.file_of_lookup hy
  obtain ⟨⟨hlength, -⟩, hdir⟩ := h'.vol.shows y _ hy0 (.inl (by rw [ho.live]; exact hylive)) ha
  exact ⟨_, p, s', hopen, ho.file.handle, ho.file.holds, hlength, hdir⟩

theorem filesysCreate_unnamed {length : Int} {st st' : FsState} {v v' : Image} {ok : Bool}
    (hname : fileName path = [])
    (h : (Fs.filesysCreate path length false).exec st v = some (ok, st', v')) : ok = false := by
  obtain ⟨directory, hsplit⟩ : ∃ directory, splitPathFilename path = (directory, []) :=
    ⟨_, Prod.ext rfl hname⟩
  unfold Fs.filesysCreate at h
  rw [hsplit] at h
  simp only [Cmd.exec_bind, Option.bind_eq_some_iff] at h
  obtain ⟨⟨dir, st₁, v₁⟩, -, ⟨⟨success, x⟩, st₂, v₂⟩, hmade, h⟩ := h
  obtain rfl : success = ok := by
    dsimp only at h
    split at h
    · simp only [Cmd.exec_bind, Option.bind_eq_some_iff] at h
      obtain ⟨_, -, _, -, h⟩ := h
      cases h
      rfl
    · simp only [Cmd.exec_bind, Option.bind_eq_some_iff] at h
      obtain ⟨_, -, h⟩ := h
      cases h
      rfl
  clear h
  cases dir with
  | none =>
    cases hmade
    rfl
  | some d =>
    simp only [Cmd.exec_bind, Option.bind_eq_some_iff] at hmade
    obtain ⟨⟨sector, st₅, v₅⟩, -, hmade⟩ := hmade
    cases sector with
    | none =>
      cases hmade
      rfl
    | some x' =>
      simp only [Cmd.exec_bind, Option.bind_eq_some_iff] at hmade
      obtain ⟨⟨created, st₆, v₆⟩, -, hmade⟩ := hmade
      cases created with
      | false =>
        cases hmade
        rfl
      | true =>
        have hadd : ∀ st v, (dirAdd d [] x' false).exec st v = some (false, st, v) := fun _ _ => rfl
        simp only [if_true, Cmd.exec_bind, hadd, Option.bind_some, Cmd.exec_pure] at hmade
        cases hmade
        rfl

/-- After `filesys_create` the file name is bound to a new inode. -/
theorem Rooted.binds_new (h : Rooted s a g T) (hcwd : s.CwdOk) (h0 : 0 ∉ path) {length : Int}
    (hlength : length < 2 ^ 31) {st : FsState} {v : Image}
    (hcreate : (Fs.filesysCreate path length false).exec s.st s.image = some (true, st, v)) :
    ∃ s' a' g' y, s'.st = st ∧ s'.image = v ∧ y ∉ s.live ∧
      Rooted s' a' g' (SlotMap.put T (fileName path, y)) ∧ s'.CwdOk ∧
      s'.st.cwd = s.st.cwd ∧ fileName path ≠ [] ∧ SlotMap.lookup T (fileName path) = none ∧
      0 ≤ length ∧
      y ≠ rootDirSector ∧ a' y = some ⟨.zeros length.toNat, false⟩ := by
  have hne : fileName path ≠ [] := fun hname => by cases filesysCreate_unnamed hname hcreate
  obtain ⟨hslash, hsub⟩ := fileName_chars path
  obtain ⟨s', ok, hdoes, hkeep, hres⟩ :=
    h.filesysCreate hcwd rfl ⟨hne, fun h => h0 (hsub h), hslash⟩ hlength
  rw [Does, hcreate, Option.some.injEq, Prod.mk.injEq, Prod.mk.injEq] at hdoes
  obtain ⟨rfl, hst, himage⟩ := hdoes
  obtain ⟨-, hroom, -, hno, -, y, g', hy, -, -, h'⟩ := hres.resolve_right fun hfail => by cases hfail.1
  have hbound : SlotMap.lookup (SlotMap.put T (fileName path, y)) (fileName path) = some y := by
    rw [SlotMap.lookup_put h.distinct hno, if_pos rfl]
  have hyroot := (h'.file_of_lookup hbound).2.2.1
  exact ⟨s', _, g', y, hst.symm, himage.symm, hy, h', hkeep.cwd, hkeep.dir.cwd, hne, hno, hroom.1,
    hyroot, by
    rw [Function.update_of_ne hyroot, Function.update_self]⟩

/-- **A path means the same to the three calls**, right after it was used to create a file, if
its last part is not `.` or `..` and its directory part leads to the root directory; and only then,
as far as the way does not lead over a file. -/
theorem same_path (h : Rooted s a g T) (hcwd : s.CwdOk) (h0 : 0 ∉ path) {length : Int}
    (hlength : length < 2 ^ 31) {st : FsState} {v : Image}
    (hcreate : (filesysCreate path length false).exec s.st s.image = some (true, st, v)) :
    ∃ s' a' g' y, s'.st = st ∧ s'.image = v ∧ y ∉ s.live ∧
      Rooted s' a' g' (SlotMap.put T (fileName path, y)) ∧
      (¬ IsDots (fileName path) ∧ s.Reaches path →
        s'.OpensNew path y length ∧ s'.RemovesOnly path (SlotMap.put T (fileName path, y))) ∧
      ((∀ t ∈ directoryTokens path, IsDots t ∨ SlotMap.lookup (SlotMap.put T (fileName path, y)) t =
        none) → s'.OpensNew path y length ∧ s'.RemovesOnly path (SlotMap.put T (fileName path, y)) →
        ¬ IsDots (fileName path) ∧ s.Reaches path) := by
  obtain ⟨s', a', g', y, hst, himage, hy, h', hcwd', hcwd_eq, hne, hno, hpos, hyroot, ha⟩ :=
    h.binds_new hcwd h0 hlength hcreate
  have hbound : SlotMap.lookup (SlotMap.put T (fileName path, y)) (fileName path) = some y := by
    rw [SlotMap.lookup_put h.distinct hno, if_pos rfl]
  have hreaches : s'.Reaches path ↔ s.Reaches path := by rw [Reaches, Reaches, hcwd_eq]
  refine ⟨s', a', g', y, hst, himage, hy, h', ?_, ?_⟩
  · rintro ⟨hdots, hreach⟩
    refine ⟨?_, h'.removes_only hcwd' (hreaches.2 hreach) hbound⟩
    have hopens := h'.opens_new hcwd' hne hdots hbound ha
    rwa [Growable.length_zeros, Int.toNat_of_nonneg hpos] at hopens
  · rintro htoks ⟨hopens, hremoves⟩
    constructor
    · exact fun hdots => h'.not_opens hcwd' hdots hyroot hopens
    · by_contra hnot
      obtain ⟨s'', -, -, -, hremove, -⟩ := hremoves
      exact h'.not_removes hcwd' (fun hreach => hnot (hreaches.1 hreach)) htoks hremove

end walk

/-- On a new file system of 200 sectors a path of one byte as its file name creates an empty file. -/
theorem exists_filesysCreate {path : CString} {c : UInt8} (hpath : fileName path = [c])
    (hc : c ≠ 0 ∧ c ≠ slash) :
    ∃ st v a g T st' v', (filesysInit 200 true).exec initialState (fun _ => Sector.zeros) =
      some (true, st, v) ∧
      Rooted ⟨st, v, [rootDirSector], []⟩ a g T ∧ Session.CwdOk ⟨st, v, [rootDirSector], []⟩ ∧
      (∀ name, SlotMap.lookup T name = none) ∧ (filesysCreate path 0 false).exec st v =
      some (true, st', v') := by
  obtain ⟨st, v, a, g, T, hformat, hrooted, hcwd, hempty, hslot, hfree, -, -⟩ := exists_rooted
  have hroom : Session.FileRoom ⟨st, v, [rootDirSector], []⟩ 0 :=
    ⟨Int.le_refl 0, by decide, by rw [hfree]; decide⟩
  have hname : [c] ≠ [] ∧ 0 ∉ [c] ∧ slash ∉ [c] :=
    ⟨List.cons_ne_nil _ _, by simpa using hc.1.symm, by simpa using hc.2.symm⟩
  obtain ⟨s', ok, hcreate, -, hres⟩ :=
    hrooted.filesysCreate hcwd hpath hname (show (0 : Int) < 2 ^ 31 by decide)
  obtain ⟨rfl, -⟩ :=
    hres.resolve_right fun hfail => hfail.2.2.2 ⟨hroom, by simp [nameMax], hempty _, hslot⟩
  exact ⟨st, v, a, g, T, s'.st, s'.image, hformat, hrooted, hcwd, hempty, hcreate⟩

/-- The path `/a`. -/
theorem same_path_rooted : ∃ st v st' v' s T y,
    (filesysInit 200 true).exec initialState (fun _ => Sector.zeros) = some (true, st, v) ∧
    (filesysCreate [slash, 97] 0 false).exec st v = some (true, st', v') ∧ s.st = st' ∧ s.image = v' ∧
    Session.OpensNew s [slash, 97] y 0 ∧ s.RemovesOnly [slash, 97] T := by
  have hpath : fileName [slash, 97] = [97] := by decide
  obtain ⟨st, v, a, g, T, st', v', hformat, hrooted, hcwd, -, hcreate⟩ :=
    exists_filesysCreate hpath (by decide)
  obtain ⟨s, -, -, y, hst, himage, -, -, hsame, -⟩ :=
    same_path hrooted hcwd (by decide) (by decide) hcreate
  have hdots : ¬ IsDots (fileName [slash, 97]) := by rw [hpath, IsDots]; decide
  obtain ⟨hopens, hremoves⟩ := hsame ⟨hdots, .inl (by decide)⟩
  exact ⟨st, v, st', v', s, _, y, hformat, hcreate, hst, himage, hopens, hremoves⟩

/-- With the path `d/x` a file `x` is created, which the same path does not remove. -/
theorem other_path : ∃ st v st' v', (filesysInit 200 true).exec initialState
    (fun _ => Sector.zeros) = some (true, st, v) ∧
    (filesysCreate [100, slash, 120] 0 false).exec st v = some (true, st', v') ∧
    ¬ ∃ st'' v'', (filesysRemove [100, slash, 120]).exec st' v' = some (true, st'', v'') := by
  have hpath : fileName [100, slash, 120] = [120] := by decide
  obtain ⟨st, v, a, g, T, st', v', hformat, hrooted, hcwd, hempty, hcreate⟩ :=
    exists_filesysCreate hpath (by decide)
  refine ⟨st, v, st', v', hformat, hcreate, ?_⟩
  obtain ⟨s, a', g', y, rfl, rfl, -, h', hcwd', -⟩ :=
    hrooted.binds_new hcwd (by decide) (by decide) hcreate
  have hdirs : directoryTokens [100, slash, 120] = [[100]] := by decide
  have hnot : ¬ s.Reaches [100, slash, 120] := by
    rw [Session.Reaches, hdirs]
    simp [slash]
  have htoks : ∀ t ∈ directoryTokens [100, slash, 120],
      IsDots t ∨ SlotMap.lookup (SlotMap.put T (fileName [100, slash, 120], y)) t = none := by
    rw [hdirs, hpath]
    intro t ht
    obtain rfl := List.mem_singleton.1 ht
    right
    rw [SlotMap.lookup_put hrooted.distinct (hempty _), if_neg (by simp), hempty]
  rintro ⟨st'', v'', hremove⟩
  have hremoved : s.Does (Fs.filesysRemove [100, slash, 120]) true ⟨st'', v'', [], []⟩ := hremove
  exact h'.not_removes hcwd' hnot htoks hremoved

end MyShell.Fs

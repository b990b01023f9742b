/-
Which calls close the global directory as often as they open it. The directory
is one object with a count (`Level`); a path of slashes only is the one on
which `filesys_open` opens it and does not close it.
-/
import MyShell.Fs.Steady
import MyShell.Fs.ShellCommands
import MyShell.Fs.Defragment

namespace MyShell.Fs

open Storage

/-! ## The global directory -/

/-- The global directory is closed, or it is this object, held as often as it says. -/
def Level : Option (Ptr × Dir) → Option Ptr → Heap Dir → Prop
  | none => fun cwd _ => cwd = none
  | some (d, dir) => fun cwd dirs => cwd = some d ∧ dirs.get d = some dir ∧ 0 < dir.openCnt

/-- `dir_open_root` has answered `x`, one level above. -/
def Within (o : Option (Ptr × Dir)) (x : Option Ptr) (cwd : Option Ptr) (dirs : Heap Dir) : Prop :=
  ∃ d dir, x = some d ∧ Level (some (d, dir)) cwd dirs ∧
    match o with
    | none => dir.openCnt = 1
    | some (d₀, dir₀) =>
      d₀ = d ∧ 0 < dir₀.openCnt ∧ dir = { dir₀ with openCnt := dir₀.openCnt + 1 }

/-- The directory `x` is held once, and the global directory is no other. -/
def Held : Option Ptr → Option Ptr → Heap Dir → Prop
  | none => fun cwd _ => cwd = none
  | some d =>
    fun cwd dirs => (cwd = none ∨ cwd = some d) ∧ ∃ dir, dirs.get d = some dir ∧ dir.openCnt = 1

/-- The call leaves it so, if it returns. -/
def Leaves {α : Type} (K : Option Watch) (R : Option Ptr → Heap Dir → Prop) (m : FsM α) : Prop :=
  m.Ensures (Still K R) fun _ => Still K R

theorem exec_dirOpenRoot_open {st : FsState} {v : Image} {d : Ptr} {dir : Dir} (hcwd : st.cwd = some d)
    (hd : st.dirs.get d = some dir) : dirOpenRoot.exec st v =
      some (some d, st.setDirs (st.dirs.modify d
        fun dir => { dir with openCnt := dir.openCnt + 1 }), v) := by
  simp [dirOpenRoot, hcwd, exec_derefDir, hd, exec_modifyDir]

theorem exec_dirOpenRoot_closed {st : FsState} {v : Image} (hcwd : st.cwd = none) :
    dirOpenRoot.exec st v = ((inodeOpen rootDirSector).exec st v).map fun r =>
      (some r.2.1.dirs.next, (r.2.1.setDirs (r.2.1.dirs.alloc ⟨r.1, dirEntrySize, 1⟩)).setCwd
        (some r.2.1.dirs.next), r.2.2) := by
  simp only [dirOpenRoot, Cmd.exec_bind, Cmd.exec_getState, Option.bind_some, hcwd]
  cases (inodeOpen rootDirSector).exec st v with
  | none => rfl
  | some r => rfl

section handles

variable {K : Option Watch} {o : Option (Ptr × Dir)} {x : Option Ptr} {d : Ptr}

theorem dirOpenRoot_ensures :
    dirOpenRoot.Ensures (Still K (Level o)) fun x => Still K (Within o x) := by
  intro st v x st' v' h hexec
  cases o with
  | none =>
    rw [exec_dirOpenRoot_closed h.dirs, Option.map_eq_some_iff] at hexec
    obtain ⟨⟨p, st₁, v₁⟩, hopen, hexec⟩ := hexec
    cases hexec
    refine (Steady.inodeOpen rootDirSector _ _ _ _ _ _ h hopen).imp (fun _ => ?_) rfl
    exact ⟨_, ⟨p, dirEntrySize, 1⟩, rfl, ⟨rfl, (Heap.get_alloc _ _ _).trans (if_pos rfl),
      Int.one_pos⟩, rfl⟩
  | some c =>
    obtain ⟨d, dir⟩ := c
    obtain ⟨hcwd, hd, hpos⟩ := h.dirs
    rw [exec_dirOpenRoot_open hcwd hd] at hexec
    cases hexec
    refine h.imp (fun _ => ⟨d, { dir with openCnt := dir.openCnt + 1 }, rfl,
      ⟨hcwd, ?_, Int.lt_add_one_of_le hpos.le⟩, rfl, hpos, rfl⟩) rfl
    rw [FsState.setDirs_dirs, Heap.get_modify, if_pos rfl, hd]
    rfl

/-- The last holder closes the inode. -/
theorem dirClose_last {R R' : Option Ptr → Heap Dir → Prop} {dir : Dir}
    (hR : ∀ cwd dirs, R cwd dirs → dirs.get d = some dir ∧ dir.openCnt = 1 ∧
      R' none ((dirs.modify d fun dir => { dir with openCnt := 0 }).free d)) :
    (dirClose (some d)).Ensures (Still K R) fun _ => Still K R' := by
  intro st v _ st' v' h hexec
  obtain ⟨hd, hcnt, hR'⟩ := hR _ _ h.dirs
  rw [exec_dirClose_last hd hcnt, Option.map_eq_some_iff] at hexec
  obtain ⟨⟨_, st₁, v₁⟩, hclose, hexec⟩ := hexec
  cases hexec
  have h₁ : Still K (fun _ dirs => R' none (dirs.free d))
      (st.setDirs (st.dirs.modify d fun dir => { dir with openCnt := 0 })) v :=
    h.imp (fun _ => hR') rfl
  exact (Steady.inodeClose (some dir.inode) _ _ _ _ _ _ h₁ hclose).imp id rfl

theorem dirClose_within : (dirClose x).Ensures (Still K (Within o x)) fun _ => Still K (Level o) := by
  intro st v _ st' v' h hexec
  obtain ⟨d, dir, rfl, ⟨hcwd, hd, -⟩, ho⟩ := h.dirs
  cases o with
  | none =>
    refine dirClose_last (R := fun _ dirs => dirs.get d = some dir)
      (fun _ dirs hget => ⟨hget, ho, ?_⟩) _ _ _ _ _ (h.imp (fun _ => hd) rfl) hexec
    rfl
  | some c =>
    obtain ⟨d₀, dir₀⟩ := c
    obtain ⟨rfl, hpos, rfl⟩ := ho
    rw [exec_dirClose_more hd (by dsimp only; omega)] at hexec
    cases hexec
    refine h.imp (fun _ => ⟨hcwd, ?_, hpos⟩) rfl
    rw [FsState.setDirs_dirs, Heap.get_modify, if_pos rfl, hd, Option.map_some, Int.add_sub_cancel]

/-- After that the global directory is closed. -/
theorem dirClose_held : (dirClose x).Ensures (Still K (Held x)) fun _ => Still K (Level none) := by
  cases x with
  | none => exact .pure fun _ _ h => h.imp id rfl
  | some d =>
    intro st v _ st' v' h hexec
    obtain ⟨-, dir, hd, hcnt⟩ := h.dirs
    refine dirClose_last (R := fun _ dirs => dirs.get d = some dir)
      (fun _ dirs hget => ⟨hget, hcnt, ?_⟩) _ _ _ _ _ (h.imp (fun _ => hd) rfl) hexec
    rfl

theorem Within.held {st : FsState} {v : Image} (h : Still K (Within none x) st v) :
    Still K (Held x) st v := by
  obtain ⟨d, dir, rfl, ⟨hcwd, hd, -⟩, hcnt⟩ := h.dirs
  exact h.imp (fun _ => ⟨.inr hcwd, dir, hd, hcnt⟩) rfl

end handles

/-! ## Calls -/

theorem fragmentedLoop_reads (rounds : Nat) (sectors : List BlockSector) :
    (fragmentedLoop rounds sectors).Reads := by
  induction rounds generalizing sectors with
  | zero => exact .pure _
  | succ rounds ih =>
    cases sectors with
    | nil => exact .fault
    | cons sector sectors =>
      cases sectors with
      | nil => exact .fault
      | cons next sectors => exact .ite (.pure _) (ih (next :: sectors))

namespace Leaves

variable {α γ : Type} {K : Option Watch} {R : Option Ptr → Heap Dir → Prop} {o : Option (Ptr × Dir)}
  {path : CString}

theorem pure (a : α) : Leaves K R (Pure.pure a : FsM α) := Steady.pure a R

theorem bind {m : FsM α} {f : α → FsM γ} (hm : Leaves K R m) (hf : ∀ a, Leaves K R (f a)) :
    Leaves K R (m >>= f) :=
  Cmd.Ensures.bind hm hf

theorem filesysCreate (path : CString) (length : Int) :
    Leaves none (Level o) (Fs.filesysCreate path length false) := by
  unfold Fs.filesysCreate
  refine dirOpenRoot_ensures.bind fun dir => ?_
  have hclose (success : Bool) : (do dirClose dir; Pure.pure success : FsM Bool).Ensures
    (Still none (Within o dir)) fun _ =>
      Still none (Level o) :=
    dirClose_within.bind fun _ => .pure fun _ _ => id
  refine .bind (Q := fun _ => Still none (Within o dir)) ?_ fun made => ?_
  · split
    · exact Steady.pure _ _
    · refine Steady.bind (.withFreeMap _) (fun x => ?_) _
      split
      · exact .pure _
      · exact .bind (.inodeCreate _ _ _) fun ok => .ite (.bind (.dirAdd _ _ _) fun _ => .pure _)
          (.pure _)
  · dsimp only
    split
    · exact (Steady.withFreeMap _ _).bind fun _ => hclose _
    · exact hclose _

theorem filesysOpen (hpath : ¬ Slashes path) : Leaves K (Level o) (Fs.filesysOpen path) := by
  refine .ite (fun _ => .pure fun _ _ => id) fun hne => dirOpenRoot_ensures.bind fun dir => ?_
  cases dir with
  | none => exact fun st v _ _ _ h => by obtain ⟨d, dir, hd, -⟩ := h.dirs; cases hd
  | some d =>
    refine .bind (Q := fun _ => Still K (Level o)) ?_ fun inode => ?_
    · have hname : fileName path ≠ [] := fun hnil => hpath ⟨hne, hnil⟩
      exact .ite (fun _ => (Steady.dirLookup d _ _).bind fun inode => dirClose_within.bind
        fun _ => .pure fun _ _ => id) fun h => absurd hname h
    · cases inode with
      | none => exact .pure fun _ _ => id
      | some p =>
        exact Steady.bind (.of (inodeIsRemoved_reads p))
          (fun removed => .ite (.pure _) (.fileOpen _)) _

section path

variable (hopen : Leaves K R (Fs.filesysOpen path))
include hopen

theorem openFname : Leaves K R (Fs.openFname path) := by
  refine bind (getFileByFname_reads path _) fun f => ?_
  cases f with
  | some f => exact pure _
  | none =>
    refine bind hopen fun f => ?_
    cases f with
    | none => exact pure _
    | some f => exact bind (Steady.addToFileTable f path _) fun _ => pure _

/-- A command that goes on with the file under the path. -/
theorem onFile {f : Ptr → FsM α} {a : α} (hf : ∀ p, Steady K (f p)) :
    Leaves K R (do match ← Fs.openFname path with | none => Pure.pure a | some p => f p) := by
  refine bind (openFname hopen) fun p => ?_
  cases p with
  | none => exact pure _
  | some p => exact hf p _

theorem fsutilSize : Leaves K R (Fs.fsutilSize path) :=
  onFile hopen fun p => .bind (.of (fileTell_reads p)) fun _ => .bind (.of (fileLength_reads p))
    fun _ =>
    .bind (.fileSeek p _) fun _ => .pure _

theorem fsutilRead (size : Int) : Leaves K R (Fs.fsutilRead path size) :=
  onFile hopen fun p => .bind (.fileRead p size) fun _ => .pure _

theorem readCommand (bytes : Int) : Leaves K R (Fs.readCommand path bytes) := by
  unfold Fs.readCommand
  split
  · exact fsutilRead hopen bytes
  · exact .fault

theorem fsutilCat : Leaves K R (Fs.fsutilCat path) := by
  have hloop (p : Ptr) (size : Int) (fuel : Nat) : Steady K (catLoop p size fuel) := by
    induction fuel with
    | zero => exact .pure _
    | succ fuel ih =>
      exact .bind (.of (fileTell_reads p)) fun _ => .bind (.fileRead p size) fun _ =>
        .ite (.pure _) (.bind ih fun _ => .pure _)
  refine bind (getFileByFname_reads path _) fun found => onFile hopen fun p => ?_
  refine .bind (.of (fileTell_reads p)) fun _ => .bind (.fileSeek p 0) fun _ =>
    .bind (.of (fileLength_reads p)) fun size => ?_
  refine .bind (hloop p size _) fun _ => .bind (.fileSeek p _) fun _ => ?_
  dsimp only
  split
  · exact .bind (.removeFromFileTable path) fun _ => .pure _
  · exact .pure _

theorem findInFile (pattern : CString) : Leaves K R (Fs.findInFile pattern path) := by
  refine bind (bind (fsutilSize hopen) fun size => ?_) fun r => pure _
  split
  · exact pure _
  · refine bind (fsutilRead hopen size) fun buffer => ?_
    cases buffer with
    | none => exact pure _
    | some buffer => exact Steady.ite (.pure _) (.bind (.of (.ofOption _)) fun _ => .pure _) _

theorem countFile : Leaves K R (Fs.countFile path) := by
  refine bind hopen fun file => ?_
  cases file with
  | none => exact pure _
  | some file =>
    refine Steady.bind (.of (fileGetInode_reads file))
      (fun p => .bind ?_ fun _ => .bind (.fileClose _) fun _ => .pure _) _
    refine .bind (.of (inodeLength_reads p)) fun _ =>
      .ite (.pure _) (.bind (.of (derefInode_reads p)) fun _ => ?_)
    exact .bind (.of (getInodeDataSectors_reads _)) fun _ => .bind (.of (.ofOption _)) fun sectors =>
      .of (fragmentedLoop_reads _ sectors)

theorem saveFile : Leaves K R (Fs.saveFile path) := by
  refine bind hopen fun file => ?_
  cases file with
  | none => exact pure _
  | some file =>
    refine Steady.bind (.of (fileGetInode_reads file)) (fun p => .bind (.of (inodeLength_reads p))
      fun size => ?_) _
    refine .bind (.fileRead file size) fun buffer => .ite (.bind (.fileClose _) fun _ => .pure _) ?_
    exact .bind (.modifyState (fun _ => rfl) (fun _ => rfl) fun _ => rfl) fun _ =>
      .bind (.fileClose _) fun _ => .pure _

theorem recoverFile (writable : CString → Bool) : Leaves K R (Fs.recoverFile writable path) := by
  refine bind hopen fun file => ?_
  cases file with
  | none => exact pure _
  | some file =>
    refine Steady.bind (.of (fileGetInode_reads file)) (fun p => .bind (.of (inodeLength_reads p))
      fun _ => .ite ?_ ?_) _
    · exact .bind (.inodeClose _) fun _ => .pure _
    · refine .bind (.of (derefInode_reads p)) fun _ => .bind (.of (getInodeDataSectors_reads _))
        fun sectors => ?_
      cases sectors with
      | none => exact .bind (.inodeClose _) fun _ => .pure _
      | some sectors =>
        exact .bind (.of (.ofOption _)) fun _ => .bind (.of (.read _)) fun _ =>
          .bind (.inodeClose _) fun _ => .pure _

end path

theorem writeCommand (hpath : ¬ Slashes path) (args : List CString) :
    Leaves none (Level o) (Fs.writeCommand (path :: args)) := by
  cases args with
  | nil => exact pure _
  | cons arg args =>
    exact bind (onFile (filesysOpen hpath) fun p => .fileWrite p _) fun _ =>
      Steady.ite (.pure _) (.ite (.pure _) (.pure _)) _

end Leaves

/-! ## Removing -/

/-- All inodes in memory but perhaps one are held once and not removed. -/
structure StillBut (p : Ptr) (R : Option Ptr → Heap Dir → Prop) (st : FsState) : Prop where
  calm : ∀ p' i, p' ≠ p → st.openInodes.get p' = some i → i.openCnt = 1 ∧ i.removed = false
  dirs : R st.cwd st.dirs

section removing

variable {R : Option Ptr → Heap Dir → Prop} {p d : Ptr} {x : Option Ptr}

theorem Still.but {K : Option Watch} {st : FsState} {v : Image} (h : Still K R st v) (p : Ptr) :
    StillBut p R st :=
  ⟨fun p' i _ hp' => h.calm p' i hp', h.dirs⟩

theorem StillBut.modify {st : FsState} (h : StillBut p R st) (f : Inode → Inode) :
    StillBut p R (st.setInodes (st.openInodes.modify p f)) where
  calm p' i hne hp' := by
    rw [FsState.setInodes_openInodes, Heap.get_modify, if_neg hne] at hp'
    exact h.calm p' i hne hp'
  dirs := h.dirs

/-- The inode that is removed is held once, and closed next. -/
theorem inodeClose_but : (inodeClose (some p)).Ensures
    (fun st _ => StillBut p R st ∧ ∀ i, st.openInodes.get p = some i → i.openCnt = 1) fun _ =>
      Still none R := by
  have hfree : (Cmd.modifyState fun s : FsState =>
    { s with openInodes := s.openInodes.free p } : FsM Unit).Ensures
      (fun st _ => StillBut p R st) fun _ => Still none R := by
    refine .modifyState fun st v h => ⟨fun p' i hp' => ?_, h.dirs, fun _ hw => by cases hw⟩
    rw [Heap.get_free] at hp'
    split at hp'
    · cases hp'
    · next hne => exact h.calm p' i hne hp'
  have hmap {α : Type} (m : Option InodeDisk → Disk Bitmap α) :
    (withFreeMap m).Ensures (fun st _ => StillBut p R st) fun _ st _ =>
      StillBut p R st :=
    (withFreeMap_ensures (A := fun _ => True) (P := fun st => StillBut p R st)
      (fun _ _ _ _ _ _ _ _ => trivial) fun _ _ h => ⟨h.calm, h.dirs⟩).post fun _ _ _ h => h.2
  refine .bind (Q := fun i st _ => i.openCnt = 1 ∧ StillBut p R st) (.getState fun st => ?_)
    fun i => .assume (fun _ _ h => h.1) fun hcnt => ?_
  · exact .ofOption fun i hi _ _ h => ⟨h.2.2 i (by rw [h.1]; exact hi), h.2.1⟩
  · refine .bind (Q := fun _ st _ => StillBut p R st) (.modifyState fun st _ h => h.2.modify _)
      fun _ => .ite (fun _ => ?_) fun hno => ?_
    · refine .bind (Q := fun _ st _ => StillBut p R st)
        (.ite (fun _ => ?_) fun _ => .pure fun _ _ => id) fun _ => hfree
      exact (hmap _).bind fun _ => (hmap _).bind fun _ => .pure fun _ _ => id
    · exact absurd (by rw [hcnt]; rfl) hno

theorem inodeRemove_but : (inodeRemove p).Ensures (Still none R) fun _ st _ =>
    StillBut p R st ∧ ∀ i, st.openInodes.get p = some i → i.openCnt = 1 := by
  refine (derefInode_reads p _).bind fun _ => .modifyState fun st v h =>
    ⟨(h.but p).modify _, fun i hi => ?_⟩
  rw [Heap.get_modify, if_pos rfl] at hi
  obtain ⟨j, hj, rfl⟩ := Option.map_eq_some_iff.1 hi
  exact (h.calm p j hj).1

/-- Besides the directory `d`, `x` is another one, held once. -/
def Beside (d : Ptr) (x : Option Ptr) (cwd : Option Ptr) (dirs : Heap Dir) : Prop :=
  ∃ t, x = some t ∧ t ≠ d ∧ Held (some d) cwd dirs ∧ ∃ dir, dirs.get t = some dir ∧
    dir.openCnt = 1

theorem dirOpen_beside {K : Option Watch} :
    (dirOpen (some p)).Ensures (Still K (Held (some d))) fun x => Still K (Beside d x) := by
  intro st v x st' v' h hexec
  rw [exec_dirOpen] at hexec
  cases hexec
  refine h.imp (fun hheld => ?_) rfl
  obtain ⟨hcwd, dir, hd, hcnt⟩ := hheld
  have hne : d ≠ st.dirs.next := by
    rintro rfl
    rw [Heap.get_next] at hd
    cases hd
  refine ⟨_, rfl, Ne.symm hne, ⟨hcwd, dir, ?_, hcnt⟩, ⟨p, dirEntrySize, 1⟩, ?_, rfl⟩
  · rw [FsState.setDirs_dirs, Heap.get_alloc, if_neg hne, hd]
  · rw [FsState.setDirs_dirs, Heap.get_alloc, if_pos rfl]

theorem get_free_modify {dirs : Heap Dir} {f : Dir → Dir} {d t : Ptr} (hne : t ≠ d) :
    ((dirs.modify d f).free d).get t = dirs.get t := by
  rw [Heap.get_free, if_neg hne, Heap.get_modify, if_neg hne]

/-- One of the two is closed. -/
theorem dirClose_beside {K : Option Watch} :
    (dirClose x).Ensures (Still K (Beside d x)) (fun _ => Still K (Held (some d))) ∧
      (dirClose (some d)).Ensures (Still K (Beside d x)) fun _ => Still K (Held x) := by
  constructor
  · intro st v _ st' v' h hexec
    obtain ⟨t, rfl, hne, ⟨-, dir, hd, hcnt⟩, dir', ht, hcnt'⟩ := h.dirs
    refine dirClose_last (R := fun _ dirs => dirs.get t = some dir' ∧ dirs.get d = some dir)
      (fun _ dirs hget => ⟨hget.1, hcnt', ?_⟩) _ _ _ _ _ (h.imp (fun _ => ⟨ht, hd⟩) rfl) hexec
    exact ⟨.inl rfl, dir, (get_free_modify (Ne.symm hne)).trans hget.2, hcnt⟩
  · intro st v _ st' v' h hexec
    obtain ⟨t, rfl, hne, ⟨-, dir, hd, hcnt⟩, dir', ht, hcnt'⟩ := h.dirs
    refine dirClose_last (R := fun _ dirs => dirs.get t = some dir' ∧ dirs.get d = some dir)
      (fun _ dirs hget => ⟨hget.2, hcnt, ?_⟩) _ _ _ _ _ (h.imp (fun _ => ⟨ht, hd⟩) rfl) hexec
    exact ⟨.inl rfl, dir', (get_free_modify hne).trans hget.1, hcnt'⟩

theorem dirRemove_ensures (name : CString) :
    (dirRemove d name).Ensures (Still none (Held (some d))) fun _ => Still none (Held (some d)) := by
  refine (lookup_reads d name _).bind fun found => ?_
  obtain ⟨found, ofs⟩ := found
  cases found with
  | none => exact .pure fun _ _ => id
  | some e =>
    refine (Steady.inodeOpen e.inodeSector _).bind fun p => (inodeIsDirectory_reads p _).bind
      fun isDir => ?_
    refine .bind (Q := fun _ => Still none (Held (some d))) ?_ fun deletable => ?_
    · refine .ite (fun _ => ?_) fun _ => .pure fun _ _ => id
      refine dirOpen_beside.bind fun target => (Cmd.Reads.ofOption target _).bind fun t =>
        (dirIsEmpty_reads t _).bind fun isEmpty => ?_
      exact dirClose_beside.1.bind fun _ => .pure fun _ _ => id
    · refine .bind (Q := fun _ st _ => StillBut p (Held (some d)) st ∧
        ∀ i, st.openInodes.get p = some i → i.openCnt = 1) ?_
        fun success => inodeClose_but.bind fun _ => .pure fun _ _ => id
      have hstay (st : FsState) (v : Image) (h : Still none (Held (some d)) st v) :
          StillBut p (Held (some d)) st ∧ ∀ i, st.openInodes.get p = some i → i.openCnt = 1 :=
        ⟨h.but p, fun i hi => (h.calm p i hi).1⟩
      refine .ite (fun _ => .pure hstay) fun _ => (dirGetInode_reads d _).bind fun q =>
        (Steady.inodeWriteAt q _ _ _).bind fun n => ?_
      exact .ite (fun _ => .pure hstay) fun _ => inodeRemove_but.bind fun _ => .pure fun _ _ => id

theorem openPath_ensures (toks : List CString) :
    (openPath x toks).Ensures (Still none (Held x)) fun y => Still none (Held y) := by
  induction toks generalizing x with
  | nil => exact .pure fun _ _ => id
  | cons token rest ih =>
    cases x with
    | none => exact .bind (Q := fun _ _ _ => False) .fault fun _ => .assume (fun _ _ => id) False.elim
    | some d =>
      refine (Steady.dirLookup d token _).bind fun inode => ?_
      cases inode with
      | none => exact dirClose_held.bind fun _ => .pure fun _ _ => id
      | some p => exact dirOpen_beside.bind fun next => dirClose_beside.2.bind fun _ => ih

theorem dirOpenPath_ensures (path : CString) :
    (dirOpenPath path).Ensures (Still none (Level none)) fun x => Still none (Held x) := by
  refine .bind (Q := fun x => Still none (Held x)) ?_ fun curr => (openPath_ensures _).bind
    fun dir => ?_
  · have hopen := (dirOpenRoot_ensures (K := none) (o := none)).post fun _ _ _ => Within.held
    refine .ite (fun _ => hopen) fun _ => .getState fun st => ?_
    cases hcwd : st.cwd with
    | none => exact hopen.pre fun _ _ h => h.2
    | some d =>
      refine .assume (φ := False) (fun st' v h => ?_) False.elim
      obtain ⟨rfl, h⟩ := h
      cases hcwd.symm.trans h.dirs
  · cases dir with
    | none => exact .pure fun _ _ => id
    | some d =>
      refine (dirGetInode_reads d _).bind fun p => (inodeIsRemoved_reads p _).bind fun removed =>
        .ite (fun _ => ?_) fun _ => ?_
      · exact dirClose_held.bind fun _ => .pure fun _ _ => id
      · exact .pure fun _ _ => id

/-- `filesys_remove` where the global directory is closed. -/
theorem fsutilRm_ensures (path : CString) :
    (fsutilRm path).Ensures (Still none (Level none)) fun _ => Still none (Level none) := by
  refine (Steady.removeFromFileTable path _).bind fun _ => (dirOpenPath_ensures _).bind fun dir => ?_
  refine .bind (Q := fun _ => Still none (Held dir)) ?_ fun success => dirClose_held.bind fun _ =>
    .pure fun _ _ => id
  cases dir with
  | none => exact .pure fun _ _ => id
  | some d => exact dirRemove_ensures _

end removing

end MyShell.Fs

/-
The list at `file_list_head` (fsutil2.c): no call of the file system touches it
but `defragment` itself.
-/
import MyShell.Fs.Fsutil
import MyShell.Fs.Partition

namespace MyShell.Fs

open Storage

/-- The list is the same. -/
abbrev KeepsList {α : Type} (m : FsM α) : Prop :=
  ∀ l, m.Preserves fun st => (st.fileListHead, st.fileInfos) = l

section list

variable {α γ : Type}

theorem KeepsList.pure (a : α) : KeepsList (Pure.pure a : FsM α) := fun _ => .pure a

theorem KeepsList.bind {m : FsM α} {f : α → FsM γ} (hm : KeepsList m) (hf : ∀ a, KeepsList (f a)) :
    KeepsList (m >>= f) :=
  fun l => .bind (hm l) fun a => hf a l

/-- What holds of the list goes on holding. -/
theorem KeepsList.list {I : Option Ptr × Heap FileInfo → Prop} {m : FsM α} (h : KeepsList m) :
    m.Preserves fun st => I (st.fileListHead, st.fileInfos) := fun s v a s' v' hs hexec => by
  have heq : (s'.fileListHead, s'.fileInfos) = (s.fileListHead, s.fileInfos) :=
    h _ s v a s' v' rfl hexec
  change I (s'.fileListHead, s'.fileInfos)
  rw [heq]
  exact hs

theorem withFreeMap_list (m : Option InodeDisk → Disk Bitmap α) : KeepsList (withFreeMap m) := by
  intro l
  refine .bind (.getState fun s hs => ?_) fun file => .zoom fun _ _ hs => hs
  split
  · exact .pure _
  · exact .bind (.getState fun s _ => .ofOption _) fun f => .bind (.getState fun s _ => .ofOption _)
      fun i => .pure _

theorem derefInode_list (p : Ptr) : KeepsList (derefInode p) :=
  fun _ => .getState fun _ _ => .ofOption _
theorem derefFile_list (p : Ptr) : KeepsList (derefFile p) := fun _ => .getState fun _ _ => .ofOption _
theorem derefDir_list (p : Ptr) : KeepsList (derefDir p) := fun _ => .getState fun _ _ => .ofOption _
theorem modifyInode_list (p : Ptr) (f : Inode → Inode) : KeepsList (modifyInode p f) :=
  fun _ => .modifyState fun _ hs => hs
theorem modifyFile_list (p : Ptr) (f : File → File) : KeepsList (modifyFile p f) :=
  fun _ => .modifyState fun _ hs => hs
theorem modifyDir_list (p : Ptr) (f : Dir → Dir) : KeepsList (modifyDir p f) :=
  fun _ => .modifyState fun _ hs => hs

theorem inodeOpen_list (x : BlockSector) : KeepsList (inodeOpen x) := by
  intro l
  refine .getState fun s hs => ?_
  split
  · exact .pure _
  · exact .bind (.read _) fun data => .bind (.setState hs) fun _ => .pure _

theorem inodeClose_list (p : Option Ptr) : KeepsList (inodeClose p) := by
  cases p with
  | none => exact .pure _
  | some p =>
    refine .bind (derefInode_list p) fun i => .bind (modifyInode_list p _) fun _ => ?_
    split
    · refine .bind ?_ fun _ _ => .modifyState fun _ hs => hs
      split
      · exact .bind (withFreeMap_list _) fun _ => .bind (withFreeMap_list _) fun _ => .pure _
      · exact .pure _
    · exact .pure _

theorem inodeReadAt_list (p : Ptr) (size offset : Int) : KeepsList (inodeReadAt p size offset) := by
  refine .bind (derefInode_list p) fun i _ => .keeps ?_
  unfold readAt
  generalize size.toNat = fuel
  induction fuel generalizing size offset with
  | zero => exact .pure _
  | succ fuel ih =>
    rw [readLoop]
    refine .ite (.pure _) (.bind (byteToSector_keeps _ _) fun _ => .ite (.pure _) (.ite .fault ?_))
    exact .bind (.read _) fun _ => .bind (ih _ _) fun _ => .pure _

theorem inodeWriteAt_list (p : Ptr) (buffer : List UInt8) (offset : Int) :
    KeepsList (inodeWriteAt p buffer offset) :=
  .bind (derefInode_list p) fun _ => .bind (withFreeMap_list _) fun _ =>
    .bind (modifyInode_list p _) fun _ => .pure _

theorem inodeLength_list (p : Ptr) : KeepsList (inodeLength p) :=
  .bind (derefInode_list p) fun _ => .pure _

theorem inodeIsRemoved_list (p : Ptr) : KeepsList (inodeIsRemoved p) :=
  .bind (derefInode_list p) fun _ => .pure _

theorem dirOpen_list (inode : Option Ptr) : KeepsList (dirOpen inode) := by
  cases inode with
  | none => exact .bind (inodeClose_list none) fun _ => .pure _
  | some p => exact fun _ => .getState fun s hs => .bind (.setState hs) fun _ => .pure _

theorem dirClose_list (dir : Option Ptr) : KeepsList (dirClose dir) := by
  cases dir with
  | none => exact .pure _
  | some p =>
    refine .bind (derefDir_list p) fun d => .bind (modifyDir_list p _) fun _ => ?_
    split
    · exact .bind (inodeClose_list _) fun _ _ => .modifyState fun _ hs => hs
    · exact .pure _

theorem dirOpenRoot_list : KeepsList dirOpenRoot := by
  intro l
  refine .getState fun s _ => ?_
  split
  · exact .bind (inodeOpen_list _ _) fun p => .bind (dirOpen_list _ _) fun d =>
      .bind (.modifyState fun _ hs => hs) fun _ => .pure _
  · exact .bind (derefDir_list _ _) fun _ => .bind (modifyDir_list _ _ _) fun _ => .pure _

theorem dirFuel_list (p : Ptr) : KeepsList (dirFuel p) := .bind (inodeLength_list p) fun _ => .pure _

theorem readEntry_list (p : Ptr) (ofs : Int) : KeepsList (readEntry p ofs) :=
  .bind (inodeReadAt_list p _ ofs) fun _ => .pure _

theorem scanEntries_list (p : Ptr) (want : DirEntry → Bool) (fuel : Nat) (ofs : Int) :
    KeepsList (scanEntries p want fuel ofs) := by
  induction fuel generalizing ofs with
  | zero => exact .pure _
  | succ fuel ih =>
    refine .bind (readEntry_list p ofs) fun e => ?_
    split
    · exact .pure _
    · split
      · exact .pure _
      · exact ih _

theorem lookup_list (d : Ptr) (name : CString) : KeepsList (lookup d name) :=
  .bind (derefDir_list d) fun _ => .bind (dirFuel_list _) fun _ => scanEntries_list _ _ _ _

theorem dirLookup_list (d : Ptr) (name : CString) : KeepsList (dirLookup d name) := by
  refine .bind (derefDir_list d) fun dir => ?_
  split
  · exact .pure _
  · split
    · exact .bind (readEntry_list _ _) fun _ => .bind (fun _ => .ofOption _) fun _ =>
        .bind (inodeOpen_list _) fun _ => .pure _
    · refine .bind (lookup_list d name) fun r => ?_
      split
      · exact .bind (inodeOpen_list _) fun _ => .pure _
      · exact .pure _

theorem dirGetInode_list (d : Ptr) : KeepsList (dirGetInode d) :=
  .bind (derefDir_list d) fun _ => .pure _

theorem dirIsEmpty_list (d : Ptr) : KeepsList (dirIsEmpty d) :=
  .bind (derefDir_list d) fun _ => .bind (dirFuel_list _) fun _ => .bind (scanEntries_list _ _ _ _)
    fun _ => .pure _

theorem openPath_list (curr : Option Ptr) (toks : List CString) : KeepsList (openPath curr toks) := by
  induction toks generalizing curr with
  | nil => exact .pure _
  | cons token rest ih =>
    refine .bind (fun _ => .ofOption _) fun p => .bind (dirLookup_list p token) fun inode => ?_
    split
    · exact .bind (dirClose_list _) fun _ => .pure _
    · exact .bind (dirOpen_list _) fun _ => .bind (dirClose_list _) fun _ => ih _

theorem dirOpenPath_list (path : CString) : KeepsList (dirOpenPath path) := by
  refine .bind ?_ fun curr => .bind (openPath_list curr _) fun dir => ?_
  · split
    · exact dirOpenRoot_list
    · refine fun l => .getState fun s _ => ?_
      split
      · exact dirOpenRoot_list _
      · exact .bind (derefDir_list _ _) fun _ => .bind (.pure _) fun _ => dirOpen_list _ _
  · split
    · exact .pure _
    · refine .bind (dirGetInode_list _) fun p => .bind (inodeIsRemoved_list p) fun removed => ?_
      split
      · exact .bind (dirClose_list _) fun _ => .pure _
      · exact .pure _

theorem dirAdd_list (d : Ptr) (name : CString) (x : BlockSector) :
    KeepsList (dirAdd d name x false) := by
  unfold dirAdd
  split
  · exact .pure _
  · refine .bind (lookup_list d name) fun found => ?_
    split
    · exact .pure _
    · refine .bind (.pure _) fun ok => ?_
      split
      · exact .pure _
      · exact .bind (dirGetInode_list d) fun p => .bind (dirFuel_list p) fun fuel =>
          .bind (scanEntries_list p _ fuel 0) fun r =>
          .bind (inodeWriteAt_list p _ _) fun _ => .pure _

theorem dirRemove_list (d : Ptr) (name : CString) : KeepsList (dirRemove d name) := by
  refine .bind (lookup_list d name) fun found => ?_
  split
  · exact .pure _
  · next e ofs =>
    refine .bind (inodeOpen_list _) fun inode =>
      .bind (.bind (derefInode_list inode) fun _ => .pure _) fun isDir =>
      .bind ?_ fun deletable => .bind ?_ fun success => .bind (inodeClose_list _) fun _ => .pure _
    · split
      · exact .bind (dirOpen_list _) fun target => .bind (fun _ => .ofOption _) fun p =>
          .bind (dirIsEmpty_list p) fun _ =>
          .bind (dirClose_list _) fun _ => .pure _
      · exact .pure _
    · split
      · exact .pure _
      · refine .bind (dirGetInode_list d) fun p => .bind (inodeWriteAt_list p _ ofs) fun n => ?_
        split
        · exact .pure _
        · exact .bind (.bind (derefInode_list inode) fun _ => modifyInode_list _ _) fun _ => .pure _

theorem dirReaddir_list (d : Ptr) : KeepsList (dirReaddir d) := by
  refine .bind (derefDir_list d) fun dir => .bind (dirFuel_list _) fun fuel => ?_
  induction fuel with
  | zero => exact .pure _
  | succ fuel ih =>
    refine .bind (derefDir_list d) fun dir => .bind (readEntry_list _ _) fun e => ?_
    split
    · exact .pure _
    · refine .bind (modifyDir_list d _) fun _ => ?_
      split
      · exact .pure _
      · exact ih

theorem fileOpen_list (inode : Option Ptr) : KeepsList (fileOpen inode) := by
  cases inode with
  | none => exact .bind (inodeClose_list none) fun _ => .pure _
  | some p => exact fun _ => .getState fun s hs => .bind (.setState hs) fun _ => .pure _

theorem fileClose_list (file : Option Ptr) : KeepsList (fileClose file) := by
  cases file with
  | none => exact .pure _
  | some f =>
    refine .bind ?_ fun _ => .bind (derefFile_list f) fun file => .bind (inodeClose_list _)
      fun _ _ => .modifyState fun _ hs => hs
    refine .bind (derefFile_list f) fun file => ?_
    split
    · exact .bind (modifyFile_list f _) fun _ => .bind (derefInode_list _) fun _ => modifyInode_list _ _
    · exact .pure _

theorem fileRead_list (f : Ptr) (size : Int) : KeepsList (fileRead f size) :=
  .bind (derefFile_list f) fun _ => .bind (inodeReadAt_list _ _ _) fun _ =>
    .bind (modifyFile_list f _) fun _ => .pure _

theorem fileWrite_list (f : Ptr) (buffer : List UInt8) : KeepsList (fileWrite f buffer) := by
  unfold fileWrite
  split
  · exact fun _ => .fault
  · exact .bind (derefFile_list f) fun _ => .bind (inodeWriteAt_list _ _ _) fun _ =>
      .bind (modifyFile_list f _) fun _ => .pure _

theorem getFileByFname_list (fname : CString) : KeepsList (getFileByFname fname) :=
  fun _ => .getState fun _ _ => .pure _

theorem removeFromFileTable_list (fname : CString) : KeepsList (removeFromFileTable fname) := by
  refine .bind (getFileByFname_list fname) fun f => ?_
  split
  · exact .pure _
  · exact .bind (fileClose_list _) fun _ => .bind (fun _ => .modifyState fun _ hs => hs) fun _ =>
      .pure _

theorem filesysCreate_list (path : CString) (length : Int) :
    KeepsList (filesysCreate path length false) := by
  unfold filesysCreate
  refine .bind dirOpenRoot_list fun dir => .bind ?_ fun made => ?_
  · split
    · exact .pure _
    · refine .bind (withFreeMap_list _) fun x => ?_
      split
      · exact .pure _
      · refine .bind (withFreeMap_list _) fun ok => ?_
        split
        · exact .bind (dirAdd_list _ _ _) fun _ => .pure _
        · exact .pure _
  · have hclose (success : Bool) : KeepsList (do dirClose dir; pure success) :=
      .bind (dirClose_list dir) fun _ => .pure _
    dsimp only
    split
    · exact .bind (withFreeMap_list _) fun _ => hclose _
    · exact hclose _

theorem filesysOpen_list (name : CString) : KeepsList (filesysOpen name) := by
  unfold filesysOpen
  split
  · exact .pure _
  · refine .bind dirOpenRoot_list fun dir => ?_
    split
    · exact .pure _
    · refine .bind ?_ fun inode => ?_
      · split
        · exact .bind (dirLookup_list _ _) fun _ => .bind (dirClose_list _) fun _ => .pure _
        · exact .bind (dirGetInode_list _) fun _ => .pure _
      · split
        · exact .pure _
        · refine .bind (inodeIsRemoved_list _) fun removed => ?_
          split
          · exact .pure _
          · exact fileOpen_list _

theorem filesysRemove_list (name : CString) : KeepsList (filesysRemove name) := by
  refine .bind (dirOpenPath_list _) fun dir => .bind ?_ fun _ => .bind (dirClose_list dir) fun _ =>
    .pure _
  split
  · exact .pure _
  · exact dirRemove_list _ _

theorem fsutilRm_list (fileName : CString) : KeepsList (fsutilRm fileName) :=
  .bind (removeFromFileTable_list fileName) fun _ => filesysRemove_list fileName

theorem fsutilCreate_list (fname : CString) (isize : Int) : KeepsList (fsutilCreate fname isize) := by
  unfold fsutilCreate
  split
  · exact .pure _
  · exact filesysCreate_list fname isize

theorem fsutilWrite_list (fileName : CString) (buffer : List UInt8) :
    KeepsList (fsutilWrite fileName buffer) := by
  refine .bind (.bind (getFileByFname_list fileName) fun f => ?_) fun f => ?_
  · split
    · exact .pure _
    · refine .bind (filesysOpen_list fileName) fun f => ?_
      split
      · exact .pure _
      · refine .bind (.bind (getFileByFname_list fileName) fun found => ?_) fun _ => .pure _
        split
        · exact .pure _
        · exact fun _ => .modifyState fun _ hs => hs
  · split
    · exact .pure _
    · exact fileWrite_list _ _

end list

end MyShell.Fs

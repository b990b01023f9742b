/-
What the calls of the file system leave alone, in any state at all: the global
directory and all directory objects, and the rule that an inode in memory is
held once and not removed (`Still`). Calls that only read also leave the
contents of the device and of the inodes in memory (`Watch`).

`inode_reopen` does not count, so whoever closes an inode is the last to do so.
-/
import MyShell.Fs.Recover
import MyShell.Lib.Triple

namespace MyShell.Fs

open Storage

/-- Each inode in memory is held once, and none is removed. -/
def FsState.Calm (st : FsState) : Prop :=
  ∀ p i, st.openInodes.get p = some i → i.openCnt = 1 ∧ i.removed = false

/-- An inode in memory, its data, and the contents of the device. -/
structure Watch where
  inode : Ptr
  data : InodeDisk
  image : Image

/-- The device is as it was, and so is the inode, unless it has been closed. -/
structure Watch.Holds (w : Watch) (st : FsState) (v : Image) : Prop where
  image : v = w.image
  old : w.inode < st.openInodes.next
  data : ∀ i, st.openInodes.get w.inode = some i → i.data = w.data

/-- What is the same again after a call: `R` says what is known of the global
directory and the directory objects. -/
structure Still (K : Option Watch) (R : Option Ptr → Heap Dir → Prop) (st : FsState) (v : Image) :
    Prop where
  calm : st.Calm
  dirs : R st.cwd st.dirs
  watched : ∀ w ∈ K, w.Holds st v

/-- The call leaves it so, if it returns. -/
def Steady {α : Type} (K : Option Watch) (m : FsM α) : Prop :=
  ∀ R, m.Ensures (Still K R) fun _ => Still K R

namespace Still

variable {K : Option Watch} {R R' : Option Ptr → Heap Dir → Prop} {st st' : FsState} {v v' : Image}

theorem imp (h : Still K R st v) (hR : R st.cwd st.dirs → R' st'.cwd st'.dirs)
    (hinodes : st'.openInodes = st.openInodes) : Still K R' st' v where
  calm := by rw [FsState.Calm, hinodes]; exact h.calm
  dirs := hR h.dirs
  watched w hw := ⟨(h.watched w hw).image, by rw [hinodes]; exact (h.watched w hw).old,
    by rw [hinodes]; exact (h.watched w hw).data⟩

theorem unwatch (h : Still K R st v) : Still none R st v' := ⟨h.calm, h.dirs, fun _ hw => by cases hw⟩

/-- One inode is changed, but not its data if it is watched. -/
theorem modifyInode {p : Ptr} {f : Inode → Inode} (h : Still K R st v)
    (hf : ∀ i, st.openInodes.get p = some i → (f i).openCnt = 1 ∧ (f i).removed = false ∧
      (K.isSome → (f i).data = i.data)) :
    Still K R (st.setInodes (st.openInodes.modify p f)) v where
  calm p' i hp' := by
    rw [FsState.setInodes_openInodes, Heap.get_modify] at hp'
    split at hp'
    · obtain ⟨j, hj, rfl⟩ := Option.map_eq_some_iff.1 hp'
      exact ⟨(hf j hj).1, (hf j hj).2.1⟩
    · exact h.calm p' i hp'
  dirs := h.dirs
  watched w hw := by
    refine ⟨(h.watched w hw).image, (h.watched w hw).old, fun i hi => ?_⟩
    rw [FsState.setInodes_openInodes, Heap.get_modify] at hi
    split at hi
    · next hp =>
      obtain ⟨j, hj, rfl⟩ := Option.map_eq_some_iff.1 hi
      rw [(hf j hj).2.2 (by rw [hw]; rfl)]
      exact (h.watched w hw).data j (by rw [hp]; exact hj)
    · exact (h.watched w hw).data i hi

theorem freeInode (h : Still K R st v) (p : Ptr) :
    Still K R (st.setInodes (st.openInodes.free p)) v where
  calm p' i hp' := by
    rw [FsState.setInodes_openInodes, Heap.get_free] at hp'
    split at hp'
    · cases hp'
    · exact h.calm p' i hp'
  dirs := h.dirs
  watched w hw := by
    refine ⟨(h.watched w hw).image, (h.watched w hw).old, fun i hi => ?_⟩
    rw [FsState.setInodes_openInodes, Heap.get_free] at hi
    split at hi
    · cases hi
    · exact (h.watched w hw).data i hi

theorem allocInode {i : Inode} (h : Still K R st v) (hi : i.openCnt = 1 ∧ i.removed = false) :
    Still K R (st.setInodes (st.openInodes.alloc i)) v where
  calm p' j hp' := by
    rw [FsState.setInodes_openInodes, Heap.get_alloc] at hp'
    split at hp'
    · cases hp'
      exact hi
    · exact h.calm p' j hp'
  dirs := h.dirs
  watched w hw := by
    refine ⟨(h.watched w hw).image, Nat.lt_succ_of_lt (h.watched w hw).old, fun j hj => ?_⟩
    rw [FsState.setInodes_openInodes, Heap.get_alloc, if_neg (Nat.ne_of_lt (h.watched w hw).old)] at hj
    exact (h.watched w hw).data j hj

end Still

theorem exec_inodeOpen (x : BlockSector) (st : FsState) (v : Image) : (inodeOpen x).exec st v =
    match st.openInodes.cells.find? fun c => c.2.sector = x with
    | some c => some (c.1, st, v)
    | none =>
      some (st.openInodes.next, st.setInodes (st.openInodes.alloc ⟨x, 1, false, 0,
        .ofSector (v x)⟩), v) := by
  simp only [inodeOpen, Cmd.exec_bind, Cmd.exec_getState, Option.bind_some]
  cases st.openInodes.cells.find? fun c => c.2.sector = x with
  | none => simp [FsState.setInodes]
  | some c => rfl

theorem exec_inodeClose_once {st : FsState} {v : Image} {p : Ptr} {i : Inode}
    (hp : st.openInodes.get p = some i) (hcnt : i.openCnt = 1) (hremoved : i.removed = false) :
    (inodeClose (some p)).exec st v = some ((), st.setInodes (st.openInodes.free p), v) := by
  simp [inodeClose, exec_derefInode, hp, exec_modifyInode, hcnt, hremoved, Heap.free_modify,
    FsState.setInodes]

/-- Code that works on the free map does not change anything else. -/
theorem withFreeMap_ensures {α : Type} {m : Option InodeDisk → Disk Bitmap α} {A : α → Prop}
    {P : FsState → Prop} (hm : ∀ file, (m file).Ensures (fun _ _ => True) fun a _ _ => A a)
    (hP : ∀ st b, P st → P (st.setFreeMap b)) :
    (withFreeMap m).Ensures (fun st _ => P st) fun a st _ => A a ∧ P st := by
  refine .bind (Q := fun _ st _ => P st) (.getState fun st => ?_) fun file => ?_
  · split
    · exact .pure fun _ _ h => h.2
    · refine .bind (Q := fun _ st _ => P st) (.getState fun _ => .ofOption fun _ _ _ _ h => h.2.2)
        fun f => ?_
      exact .bind (Q := fun _ st _ => P st) (.getState fun _ => .ofOption fun _ _ _ _ h => h.2)
        fun i => .pure fun _ _ => id
  · exact .zoom (hm file) fun a b st _ _ h ha => ⟨ha, hP st b h⟩

/-! ## What changes nothing -/

section reads

theorem derefInode_reads (p : Ptr) : (derefInode p).Reads := .getState fun _ => .ofOption _
theorem derefFile_reads (p : Ptr) : (derefFile p).Reads := .getState fun _ => .ofOption _
theorem derefDir_reads (p : Ptr) : (derefDir p).Reads := .getState fun _ => .ofOption _

theorem readAt_reads (data : InodeDisk) (size offset : Int) :
    (readAt data size offset : FsM (List UInt8)).Reads := by
  unfold readAt
  generalize size.toNat = fuel
  induction fuel generalizing size offset with
  | zero => exact .pure _
  | succ fuel ih =>
    rw [readLoop]
    have hbyte : (byteToSector data offset : FsM BlockSector).Reads := fun P st v x st' v' h hexec => by
      rw [exec_byteToSector_some] at hexec
      cases hexec
      exact h
    refine .ite (.pure _) (.bind hbyte fun _ => .ite (.pure _) (.ite .fault ?_))
    exact .bind (.read _) fun _ => .bind (ih _ _) fun _ => .pure _

theorem inodeReadAt_reads (p : Ptr) (size offset : Int) : (inodeReadAt p size offset).Reads :=
  .bind (derefInode_reads p) fun _ => readAt_reads _ _ _

theorem inodeLength_reads (p : Ptr) : (inodeLength p).Reads :=
  .bind (derefInode_reads p) fun _ => .pure _
theorem inodeIsRemoved_reads (p : Ptr) : (inodeIsRemoved p).Reads :=
  .bind (derefInode_reads p) fun _ => .pure _
theorem inodeIsDirectory_reads (p : Ptr) : (inodeIsDirectory p).Reads :=
  .bind (derefInode_reads p) fun _ => .pure _

theorem getInodeDataSectors_reads (data : InodeDisk) :
    (getInodeDataSectors data : FsM (Option (List BlockSector))).Reads := by
  have hsecond (l2 : Nat) (blocks : List BlockSector) (n : Nat) :
      (secondLevelSectors l2 blocks n : FsM (List BlockSector)).Reads := by
    induction l2 generalizing blocks n with
    | zero => exact .pure _
    | succ l2 ih =>
      cases blocks with
      | nil => exact .fault
      | cons entry blocks => exact .bind (.read _) fun _ => .bind (ih _ _) fun _ => .pure _
  refine .ite (.pure _) (.bind (.ite (.bind (.read _) fun _ => .pure _) (.pure _)) fun _ => ?_)
  exact .bind (.ite (.bind (.read _) fun _ => hsecond _ _ _) (.pure _)) fun _ => .pure _

theorem dirGetInode_reads (d : Ptr) : (dirGetInode d).Reads := .bind (derefDir_reads d) fun _ => .pure _

theorem dirFuel_reads (p : Ptr) : (dirFuel p).Reads := .bind (inodeLength_reads p) fun _ => .pure _

theorem readEntry_reads (p : Ptr) (ofs : Int) : (readEntry p ofs).Reads :=
  .bind (inodeReadAt_reads p _ ofs) fun _ => .pure _

theorem scanEntries_reads (p : Ptr) (want : DirEntry → Bool) (fuel : Nat) (ofs : Int) :
    (scanEntries p want fuel ofs).Reads := by
  induction fuel generalizing ofs with
  | zero => exact .pure _
  | succ fuel ih =>
    refine .bind (readEntry_reads p ofs) fun e => ?_
    cases e with
    | none => exact .pure _
    | some e => exact .ite (.pure _) (ih _)

theorem lookup_reads (d : Ptr) (name : CString) : (lookup d name).Reads :=
  .bind (derefDir_reads d) fun _ => .bind (dirFuel_reads _) fun _ => scanEntries_reads _ _ _ _

theorem dirIsEmpty_reads (d : Ptr) : (dirIsEmpty d).Reads :=
  .bind (derefDir_reads d) fun _ => .bind (dirFuel_reads _) fun _ =>
    .bind (scanEntries_reads _ _ _ _) fun _ => .pure _

theorem fileGetInode_reads (f : Ptr) : (fileGetInode f).Reads :=
  .bind (derefFile_reads f) fun _ => .pure _
theorem fileLength_reads (f : Ptr) : (fileLength f).Reads :=
  .bind (derefFile_reads f) fun _ => inodeLength_reads _
theorem fileTell_reads (f : Ptr) : (fileTell f).Reads := .bind (derefFile_reads f) fun _ => .pure _
theorem getFileByFname_reads (fname : CString) : (getFileByFname fname).Reads :=
  .getState fun _ => .pure _

end reads

/-! ## What leaves the global directory alone -/

namespace Steady

variable {α γ : Type} {K : Option Watch}

theorem of {m : FsM α} (hm : m.Reads) : Steady K m := fun _ => hm _

theorem pure (a : α) : Steady K (Pure.pure a : FsM α) := of (.pure a)

theorem bind {m : FsM α} {f : α → FsM γ} (hm : Steady K m) (hf : ∀ a, Steady K (f a)) :
    Steady K (m >>= f) :=
  fun R => (hm R).bind fun a => hf a R

theorem ite {c : Prop} [Decidable c] {m m' : FsM α} (h : Steady K m) (h' : Steady K m') :
    Steady K (if c then m else m') :=
  fun R => .ite (fun _ => h R) fun _ => h' R

/-- The handles and the variables of other modules are changed. -/
theorem modifyState {g : FsState → FsState} (hinodes : ∀ st, (g st).openInodes = st.openInodes)
    (hcwd : ∀ st, (g st).cwd = st.cwd) (hdirs : ∀ st, (g st).dirs = st.dirs) :
    Steady K (Cmd.modifyState g : FsM Unit) :=
  fun _ => .modifyState fun st _ h => h.imp (by rw [hcwd, hdirs]; exact id) (hinodes st)

theorem modifyFile (p : Ptr) (f : File → File) : Steady K (Fs.modifyFile p f) :=
  modifyState (fun _ => rfl) (fun _ => rfl) fun _ => rfl

theorem withFreeMap (m : Option InodeDisk → Disk Bitmap α) : Steady none (Fs.withFreeMap m) := fun R =>
  (withFreeMap_ensures (A := fun _ => True) (P := fun st => ∀ v, Still none R st v)
    (fun _ _ _ _ _ _ _ _ => trivial)
    fun _ _ h v => (h v).imp id rfl).weaken (fun _ _ h _ => h.unwatch) fun _ _ v h => h.2 v

theorem inodeOpen (x : BlockSector) : Steady K (Fs.inodeOpen x) := fun R st v p st' v' h hexec => by
  rw [exec_inodeOpen] at hexec
  split at hexec
  · cases hexec
    exact h
  · cases hexec
    exact h.allocInode ⟨rfl, rfl⟩

theorem inodeClose (p : Option Ptr) : Steady K (Fs.inodeClose p) := by
  cases p with
  | none => exact pure _
  | some p =>
    intro R st v _ st' v' h hexec
    cases hp : st.openInodes.get p with
    | none => simp [Fs.inodeClose, exec_derefInode, hp] at hexec
    | some i =>
      obtain ⟨hcnt, hremoved⟩ := h.calm p i hp
      rw [exec_inodeClose_once hp hcnt hremoved] at hexec
      cases hexec
      exact h.freeInode p

/-- `inode_write_at` changes neither of the two. -/
theorem writeAt (file : Option InodeDisk) (i : Inode) (buffer : List UInt8) (offset : Int) :
    (i.writeAt file buffer offset).Ensures (fun _ _ => True) fun r _ _ => r.2.openCnt = i.openCnt ∧
    r.2.removed = i.removed := by
  have hany {β : Type} (m : Disk Bitmap β) {φ : Prop} (hφ : φ) :
      m.Ensures (fun _ _ => True) fun _ _ _ => φ :=
    fun _ _ _ _ _ _ _ => hφ
  have hextend : (i.extend file (offset + buffer.length)).Ensures (fun _ _ => True) fun r _ _ =>
      r.2.openCnt = i.openCnt ∧ r.2.removed = i.removed := by
    refine (hany _ trivial).bind fun x => .ite (fun _ => ?_) fun _ => .pure fun _ _ _ => ⟨rfl, rfl⟩
    refine (hany _ trivial).bind fun (success, data) =>
      .ite (fun _ => .pure fun _ _ _ => ⟨rfl, rfl⟩) fun _ => ?_
    exact (hany _ trivial).bind fun _ => .pure fun _ _ _ => ⟨rfl, rfl⟩
  refine .ite (fun _ => .pure fun _ _ _ => ⟨rfl, rfl⟩) fun _ => hextend.bind fun (success, j) => ?_
  refine .ite (fun _ => .pure fun _ _ hj => hj) fun _ => .assume (fun _ _ => id) fun hj => ?_
  exact .bind (Q := fun _ _ _ => True) (fun _ _ _ _ _ _ _ => trivial) fun n => .pure fun _ _ _ => hj

theorem inodeWriteAt (p : Ptr) (buffer : List UInt8) (offset : Int) :
    Steady none (Fs.inodeWriteAt p buffer offset) := by
  refine fun R => .bind (Q := fun i st _ => st.openInodes.get p = some i ∧ ∀ v, Still none R st v)
    (.getState fun st => ?_) fun i => ?_
  · exact .ofOption fun i hi _ _ h => ⟨by rw [h.1]; exact hi, fun _ => h.2.unwatch⟩
  · refine (withFreeMap_ensures (P := fun st => st.openInodes.get p = some i ∧ ∀ v, Still none R st v)
      (fun file => writeAt file i buffer offset) fun _ _ h =>
        ⟨h.1, fun v => (h.2 v).imp id rfl⟩).bind fun (n, j) => ?_
    refine .bind (Q := fun _ st v => Still none R st v) (.modifyState fun st v h => ?_) fun _ =>
      .pure fun _ _ => id
    obtain ⟨⟨hcnt, hremoved⟩, hp, hstill⟩ := h
    have hcalm := (hstill v).calm p i hp
    exact (hstill v).modifyInode fun _ _ =>
      ⟨hcnt.trans hcalm.1, hremoved.trans hcalm.2, fun hno => by cases hno⟩

theorem inodeCreate (x : BlockSector) (length : Int) (isDir : Bool) :
    Steady none (Fs.inodeCreate x length isDir) :=
  withFreeMap _

theorem dirLookup (d : Ptr) (name : CString) : Steady K (Fs.dirLookup d name) := by
  refine bind (of (derefDir_reads d)) fun dir => ite (pure _) (ite ?_ ?_)
  · exact bind (of (readEntry_reads _ _)) fun _ => bind (of (.ofOption _)) fun _ =>
      bind (inodeOpen _) fun _ => pure _
  · refine bind (of (lookup_reads d name)) fun r => ?_
    split
    · exact bind (inodeOpen _) fun _ => pure _
    · exact pure _

/-- `dir_add` of a file. -/
theorem dirAdd (d : Ptr) (name : CString) (x : BlockSector) :
    Steady none (Fs.dirAdd d name x false) := by
  refine ite (pure _) (bind (of (lookup_reads d name)) fun _ => ite (pure _)
    (bind (pure _) fun _ => ite (pure _) ?_))
  exact bind (of (dirGetInode_reads d)) fun p => bind (of (dirFuel_reads p)) fun fuel =>
    bind (of (scanEntries_reads p _ fuel 0)) fun r => bind (inodeWriteAt p _ _) fun _ => pure _

theorem fileOpen (p : Option Ptr) : Steady K (Fs.fileOpen p) := by
  cases p with
  | none => exact bind (inodeClose none) fun _ => pure _
  | some p =>
    intro R st v a st' v' h hexec
    cases hexec
    exact h.imp id rfl

theorem fileClose (file : Option Ptr) : Steady K (Fs.fileClose file) := by
  cases file with
  | none => exact pure _
  | some f =>
    have hfile := of (K := K) (derefFile_reads f)
    refine bind (bind hfile fun file => ?_) fun _ => bind hfile fun file =>
      bind (inodeClose _) fun _ => ?_
    · refine ite (bind (modifyFile f _) fun _ => bind (of (derefInode_reads _)) fun _ =>
        fun R => .modifyState fun st v h => ?_) (pure _)
      exact h.modifyInode fun i hi => ⟨(h.calm _ i hi).1, (h.calm _ i hi).2, fun _ => rfl⟩
    · exact modifyState (fun _ => rfl) (fun _ => rfl) fun _ => rfl

theorem fileRead (f : Ptr) (size : Int) : Steady K (Fs.fileRead f size) :=
  bind (of (derefFile_reads f)) fun _ => bind (of (inodeReadAt_reads _ _ _)) fun _ =>
    bind (modifyFile f _) fun _ => pure _

theorem fileWrite (f : Ptr) (buffer : List UInt8) : Steady none (Fs.fileWrite f buffer) :=
  ite (of .fault) (bind (of (derefFile_reads f)) fun _ => bind (inodeWriteAt _ _ _)
    fun _ => bind (modifyFile f _) fun _ => pure _)

theorem fileSeek (f : Ptr) (pos : Int) : Steady K (Fs.fileSeek f pos) :=
  bind (of (derefFile_reads f)) fun _ => modifyFile f _

theorem addToFileTable (f : Ptr) (fname : CString) : Steady K (Fs.addToFileTable f fname) :=
  bind (of (getFileByFname_reads fname)) fun _ =>
    ite (pure _) (modifyState (fun _ => rfl) (fun _ => rfl) fun _ => rfl)

theorem removeFromFileTable (fname : CString) : Steady K (Fs.removeFromFileTable fname) := by
  refine bind (of (getFileByFname_reads fname)) fun f => ?_
  cases f with
  | none => exact pure _
  | some f =>
    exact bind (fileClose _) fun _ => bind (modifyState (fun _ => rfl) (fun _ => rfl) fun _ => rfl)
      fun _ => pure _

end Steady

end MyShell.Fs

/-
`defragment` (fsutil2.c): the files of the root directory are saved in a list,
removed, and made again from the list.

`fsutil_rm` closes the inode through which the second loop reads the directory
(`defragment_keeps`), and a call that has come to its end would leave the list
with its nodes freed, in front of which the next call puts its own
(`defragment_repeats`).
-/
import MyShell.Fs.FileInfos
import MyShell.Fs.Recover
import MyShell.Fs.SamePath

namespace MyShell.Fs

open Storage Session

/-! ## From source -/

/-- A line that `defragment` prints. -/
inductive Complaint where
  | errorReading

def derefInfo (p : Ptr) : FsM FileInfo := do Cmd.ofOption ((← Cmd.getState).fileInfos.get p)

/-- A file's information becomes the head of the list. -/
def pushInfo (name : CString) (size : Nat) (content : List UInt8) : FsM Unit :=
  Cmd.modifyState fun s => { s with
    fileInfos := s.fileInfos.alloc { name, size, content, next := s.fileListHead }
    fileListHead := some s.fileInfos.next }

/-- The body of the first loop. -/
def saveFile (name : CString) : FsM (List Complaint) := do
  match ← filesysOpen name with
  | none => pure []
  | some file => do
    let fileSize ← inodeLength (← fileGetInode file)
    let buffer ← fileRead file fileSize
    if (buffer.length : Int) ≠ fileSize then do
      fileClose (some file)
      pure [.errorReading]
    else do
      pushInfo name fileSize.toNat buffer
      fileClose (some file)
      pure []

/-- The body of the second loop. -/
def removeFile (name : CString) : FsM (List Complaint) := do
  let _ ← fsutilRm name
  pure []

/-- A loop over the root directory; none if it cannot be opened. -/
def forEachFile (body : CString → FsM (List Complaint)) : FsM (Option (List Complaint)) := do
  match ← dirOpenRoot with
  | none => pure none
  | some dir => do
    let printed ← forEachName dir body
    dirClose (some dir)
    pure (some printed)

/-- The loop of `reverse_list`, over so many nodes at most. -/
def reverseLoop : Nat → Option Ptr → Option Ptr → FsM (Option Ptr)
  | _, prev, none => pure prev
  | 0, _, some _ => Cmd.fault
  | fuel + 1, prev, some current => do
    let info ← derefInfo current
    Cmd.modifyState fun s =>
      { s with fileInfos := s.fileInfos.modify current fun i => { i with next := prev } }
    reverseLoop fuel (some current) info.next

@[simp] theorem reverseLoop_none (fuel : Nat) (prev : Option Ptr) : reverseLoop fuel prev none =
    pure prev := by
  cases fuel <;> rfl

/-- `reverse_list` -/
def reverseList (head : Option Ptr) : FsM (Option Ptr) := do
  reverseLoop (← Cmd.getState).fileInfos.cells.length none head

/-- The last loop: each file is created and written, and its node freed. -/
def rebuildLoop : Nat → Option Ptr → FsM Unit
  | _, none => pure ()
  | 0, some _ => Cmd.fault
  | fuel + 1, some current => do
    let info ← derefInfo current
    let _ ← fsutilCreate info.name info.size
    let _ ← fsutilWrite info.name info.content
    Cmd.modifyState fun s => { s with fileInfos := s.fileInfos.free current }
    rebuildLoop fuel info.next

@[simp] theorem rebuildLoop_none (fuel : Nat) : rebuildLoop fuel none = pure () := by
  cases fuel <;> rfl

/-- The rest of `defragment`: the list is reversed, and its files are made again. -/
def rebuild : FsM Unit := do
  let fileListHead ← reverseList (← Cmd.getState).fileListHead
  Cmd.modifyState fun s => { s with fileListHead }
  rebuildLoop (← Cmd.getState).fileInfos.cells.length fileListHead

/-- `defragment`: what it answers, and what it prints. -/
def defragment : FsM (Error × List Complaint) := do
  match ← forEachFile saveFile with
  | none => pure (.fileDoesNotExist, [])
  | some printed => do
    match ← forEachFile removeFile with
    | none => pure (.fileDoesNotExist, printed)
    | some _ => do
      rebuild
      pure (.noError, printed)

/-! ## The head of the list -/

/-- The list is not empty. -/
abbrev Saved (st : FsState) : Prop := st.fileListHead.isSome

theorem KeepsList.saved {α : Type} {m : FsM α} (h : KeepsList m) : m.Preserves Saved :=
  KeepsList.list (I := fun l => l.1.isSome) h

theorem saveFile_saved (name : CString) : (saveFile name).Preserves Saved := by
  refine .bind (filesysOpen_list name).saved fun file => ?_
  split
  · exact .pure _
  · next f =>
    refine .bind (KeepsList.bind (derefFile_list f) fun _ => .pure _).saved fun p =>
      .bind (inodeLength_list p).saved fun n =>
      .bind (fileRead_list f n).saved fun buffer => ?_
    split
    · exact .bind (fileClose_list _).saved fun _ => .pure _
    · exact .bind (.modifyState fun _ _ => rfl) fun _ => .bind (fileClose_list _).saved fun _ => .pure _

theorem removeFile_saved (name : CString) : (removeFile name).Preserves Saved :=
  .bind (fsutilRm_list name).saved fun _ => .pure _

theorem forEachNamePass_saved {body : CString → FsM (List Complaint)}
    (hbody : ∀ name, (body name).Preserves Saved) (d : Ptr) (fuel : Nat) :
    (forEachNamePass d body fuel).Preserves Saved := by
  induction fuel with
  | zero => exact .pure _
  | succ fuel ih =>
    refine .bind (dirReaddir_list d).saved fun name => ?_
    split
    · exact .pure _
    · exact .bind (hbody _) fun _ => .bind ih fun _ => .pure _

theorem forEachFile_saved {body : CString → FsM (List Complaint)}
    (hbody : ∀ name, (body name).Preserves Saved) : (forEachFile body).Preserves Saved := by
  refine .bind dirOpenRoot_list.saved fun dir => ?_
  split
  · exact .pure _
  · next d =>
    exact .bind (.bind (derefDir_list d).saved fun _ => .bind (dirFuel_list _).saved
      fun _ => forEachNamePass_saved hbody d _)
      fun _ => .bind (dirClose_list _).saved fun _ => .pure _

theorem reverseLoop_isSome {fuel : Nat} {prev current r : Option Ptr} {st st' : FsState} {v v' : Image}
    (h : prev.isSome ∨ current.isSome) (hexec : (reverseLoop fuel prev current).exec st v =
      some (r, st', v')) : r.isSome := by
  induction fuel generalizing prev current st v with
  | zero =>
    cases current with
    | none =>
      cases hexec
      exact h.resolve_right Bool.false_ne_true
    | some p => cases hexec
  | succ fuel ih =>
    cases current with
    | none =>
      cases hexec
      exact h.resolve_right Bool.false_ne_true
    | some p =>
      rw [reverseLoop, Cmd.exec_bind] at hexec
      obtain ⟨⟨info, st₁, v₁⟩, -, hexec⟩ := Option.bind_eq_some_iff.1 hexec
      rw [Cmd.exec_bind] at hexec
      obtain ⟨⟨_, st₂, v₂⟩, -, hrest⟩ := Option.bind_eq_some_iff.1 hexec
      exact ih (.inl rfl) hrest

/-- Nodes are freed, and the head stays what it is. -/
theorem rebuildLoop_preserves {I : Option Ptr × Heap FileInfo → Prop}
    (hfree : ∀ o infos p, I (o, infos) → I (o, infos.free p)) (fuel : Nat) (current : Option Ptr) :
    (rebuildLoop fuel current).Preserves fun st => I (st.fileListHead, st.fileInfos) := by
  induction fuel generalizing current with
  | zero =>
    cases current with
    | none => exact .pure _
    | some p => exact .fault
  | succ fuel ih =>
    cases current with
    | none => exact .pure _
    | some p =>
      exact .bind (.getState fun _ _ => .ofOption _) fun info => .bind (fsutilCreate_list _ _).list
        fun _ =>
        .bind (fsutilWrite_list _ _).list fun _ => .bind (.modifyState fun s hs => hfree _ _ p hs)
          fun _ => ih _

/-- The head of the list is a node that has been freed. -/
def FsState.Stale (st : FsState) : Prop := ∃ p, st.fileListHead = some p ∧ st.fileInfos.get p = none

theorem rebuildLoop_stale {fuel : Nat} {p : Ptr} {st st' : FsState} {v v' : Image}
    (hhead : st.fileListHead = some p)
    (hexec : (rebuildLoop fuel (some p)).exec st v = some ((), st', v')) : st'.Stale := by
  cases fuel with
  | zero => cases hexec
  | succ fuel =>
    rw [rebuildLoop, Cmd.exec_bind] at hexec
    obtain ⟨⟨info, st₁, v₁⟩, hderef, hexec⟩ := Option.bind_eq_some_iff.1 hexec
    rw [Cmd.exec_bind] at hexec
    obtain ⟨⟨_, st₂, v₂⟩, hcreate, hexec⟩ := Option.bind_eq_some_iff.1 hexec
    rw [Cmd.exec_bind] at hexec
    obtain ⟨⟨_, st₃, v₃⟩, hwrite, hexec⟩ := Option.bind_eq_some_iff.1 hexec
    rw [Cmd.exec_bind, Cmd.exec_modifyState, Option.bind_some] at hexec
    have hhead₁ : st₁.fileListHead = some p :=
      Cmd.Preserves.getState (I := fun st => st.fileListHead = some p)
        (fun _ _ => .ofOption _) _ _ _ _ _ hhead hderef
    have hhead₂ :=
      KeepsList.list (I := fun l => l.1 = some p) (fsutilCreate_list _ _) _ _ _ _ _ hhead₁ hcreate
    have hhead₃ :=
      KeepsList.list (I := fun l => l.1 = some p) (fsutilWrite_list _ _) _ _ _ _ _ hhead₂ hwrite
    -- the first node is freed, and not made again
    have hloop := rebuildLoop_preserves (I := fun l => l.1 = some p ∧ l.2.get p = none)
      (fun o infos q h => ⟨h.1, by rw [Heap.get_free]; split <;> first | rfl | exact h.2⟩) fuel
      info.next
    have hgone : (st₃.fileInfos.free p).get p = none := by rw [Heap.get_free, if_pos rfl]
    exact ⟨p, hloop { st₃ with fileInfos := st₃.fileInfos.free p } _ _ _ _ ⟨hhead₃, hgone⟩ hexec⟩

theorem rebuild_stale {st st' : FsState} {v v' : Image} (hsaved : Saved st)
    (hexec : rebuild.exec st v = some ((), st', v')) : st'.Stale := by
  rw [rebuild, Cmd.exec_bind, Cmd.exec_getState, Option.bind_some, Cmd.exec_bind] at hexec
  obtain ⟨⟨head, st₁, v₁⟩, hreverse, hexec⟩ := Option.bind_eq_some_iff.1 hexec
  have hhead : head.isSome := by
    rw [reverseList, Cmd.exec_bind, Cmd.exec_getState, Option.bind_some] at hreverse
    exact reverseLoop_isSome (.inr hsaved) hreverse
  obtain ⟨p, rfl⟩ := Option.isSome_iff_exists.1 hhead
  rw [Cmd.exec_bind, Cmd.exec_modifyState, Option.bind_some, Cmd.exec_bind, Cmd.exec_getState,
    Option.bind_some] at hexec
  exact rebuildLoop_stale rfl hexec

/-! ## Saving a file -/

/-- A file that can be opened is saved, and its inode closed. -/
theorem saveFile_opened {s s₁ : Session} {a : BlockSector → Option Node} {name : CString}
    {f p : Ptr} {y : BlockSector} {n : Node} (hopen : s.Does (filesysOpen name) (some f) s₁)
    (h : Volume s₁ a) (hf : OpenFile s₁ f ⟨p, 0, false⟩ y) (ha : a y = some n) :
    ∃ s', s.Does (saveFile name) [] s' ∧ Saved s'.st ∧ Volume s' a ∧
      s'.st.fileTable = s₁.st.fileTable ∧
      s'.st.dirs = s₁.st.dirs ∧ s'.st.cwd = s₁.st.cwd ∧
      (∀ q x, s'.Holds q x ↔ s₁.Holds q x ∧ q ≠ p) ∧ s'.live = s₁.live := by
  have hinode : s₁.Does (fileGetInode f) p s₁ := hf.derefFile.bind (.pure _ _)
  have hlength : s₁.Does (inodeLength p) n.bytes.length s₁ := h.length_eq hf.holds hf.sector ha
  obtain ⟨s₂, hread, hm₂⟩ := hf.fileRead h (Int.le_refl 0) ha n.bytes.length
  have hall : ((n.bytes.read (n.bytes.length : Int).toNat (0 : Int).toNat).length : Int) =
      n.bytes.length := by
    simp
  generalize n.bytes.read _ _ = buffer at hread hall hm₂
  have hvol₂ := hf.volume_moves h hm₂
  -- the new node
  let s₃ : Session := ⟨{ s₂.st with
    fileInfos := s₂.st.fileInfos.alloc ⟨name, (n.bytes.length : Int).toNat, buffer, s₂.st.fileListHead⟩
    fileListHead := some s₂.st.fileInfos.next }, s₂.image, s₂.live, s₂.spare⟩
  have hvol₃ : Volume s₃ a := hvol₂.handles rfl rfl rfl rfl rfl rfl fun _ _ => rfl
  have hpush : s₂.Does (pushInfo name (n.bytes.length : Int).toNat buffer) () s₃ := rfl
  have hf₂ := hf.moves hm₂ rfl
  have hf₃ : OpenFile s₃ f _ y := ⟨hf₂.handle, hf₂.holds, hf₂.sector⟩
  obtain ⟨s₄, hclose, hvol₄, hstate₄, -, hholds₄, hlive₄⟩ := hf₃.fileClose hvol₃ rfl
  have hdoes : s.Does (saveFile name) [] s₄ := by
    refine hopen.bind (hinode.bind (hlength.bind (hread.bind ?_)))
    rw [if_neg (not_not_intro hall)]
    exact hpush.bind (hclose.bind (.pure _ _))
  have hsaved : Saved s₄.st :=
    (fileClose_list (some f)).saved s₃.st s₃.image () s₄.st s₄.image rfl hclose
  refine ⟨s₄, hdoes, hsaved, hvol₄, ?_, ?_, ?_, fun q x => ?_, ?_⟩
  · rw [hstate₄, show s₃.st.fileTable = s₂.st.fileTable from rfl, hm₂.state]
  · rw [hstate₄, show s₃.st.dirs = s₂.st.dirs from rfl, hm₂.state]
  · rw [hstate₄, show s₃.st.cwd = s₂.st.cwd from rfl, hm₂.state]
  · rw [hholds₄, show s₃.Holds q x ↔ s₂.Holds q x from Iff.rfl, hm₂.holds]
  · exact hlive₄.trans hm₂.live

/-- In the middle of a loop over the root directory, whose handle is the global one. -/
structure Looping (a : BlockSector → Option Node) (g : Growable UInt8) (T : Table) (d : Ptr)
    (s : Session) (dir : Dir) (names : List CString) : Prop where
  rooted : Rooted s a g T
  handle : OpenDir s a d dir rootDirSector rootDirSector g T
  cwd : s.st.cwd = some d
  count : 0 < dir.openCnt
  bound : ∀ name ∈ names, ∃ y, SlotMap.lookup T name = some y

namespace Looping

variable {s s' : Session} {a : BlockSector → Option Node} {g : Growable UInt8} {T : Table} {d : Ptr}
  {dir : Dir} {name : CString} {names : List CString} {k : Nat}

theorem cwdOk (h : Looping a g T d s dir names) : s.CwdOk := fun d' hd' => by
  obtain rfl : d = d' := Option.some.inj (h.cwd.symm.trans hd')
  exact ⟨dir, h.handle.handle, h.handle.holds, h.count⟩

theorem read {pos : Int} (h : Looping a g T d s dir names) (hstands : s.Stands s' d { dir with pos }) :
    Looping a g T d s' { dir with pos } names where
  rooted := h.rooted.next (hstands.volume h.rooted.vol) hstands.live
  handle := h.handle.stands hstands rfl
  cwd := by rw [hstands.state]; exact h.cwd
  count := h.count
  bound := h.bound

/-- The first loop's body saves the file. Under `.` and `..` it closes the directory's own inode. -/
theorem saveFile (h : Looping a g T d s dir (name :: names)) :
    ∃ s', s.Does (saveFile name) [] s' ∧ Saved s'.st ∧
      (¬ IsDots name → Looping a g T d s' dir names ∧ s'.st.fileTable = s.st.fileTable) ∧
      (IsDots name → (dirReaddir d).exec s'.st s'.image = none) := by
  obtain ⟨y, hy⟩ := h.bound name List.mem_cons_self
  obtain ⟨-, hy0, hyroot, b, hb⟩ := h.rooted.file_of_lookup hy
  obtain ⟨hne, -, hslash⟩ := h.rooted.names _ ((SlotMap.lookup_eq_some h.rooted.distinct).1 hy)
  have hpath := fileName_plain hne hslash
  by_cases hdots : IsDots name
  · obtain ⟨s₁, hopen, h₁, hd₁, hf₁, hcwd₁⟩ :=
      h.rooted.listed.filesysOpen_dots h.handle h.cwd h.count hpath hdots
    obtain ⟨s₂, hsave, hsaved, -, -, hdirs₂, -, hholds₂, -⟩ :=
      saveFile_opened hopen h₁.vol hf₁ h₁.node
    refine ⟨s₂, hsave, hsaved, fun hno => absurd hdots hno, fun _ => ?_⟩
    have hgone : s₂.st.openInodes.get dir.inode = none :=
      Session.get_of_not_holds fun x hx => ((hholds₂ _ _).1 hx).2 rfl
    have hdir : s₂.st.dirs.get d = some dir := by rw [hdirs₂]; exact hd₁.handle
    exact exec_dirReaddir_stale hdir hgone
  · obtain ⟨p, s₁, hopen, h₁, ho⟩ := h.rooted.filesysOpen h.cwdOk hpath hne (not_or.1 hdots) hy
    obtain ⟨s₂, hsave, hsaved, hvol₂, htable₂, hdirs₂, hcwd₂, hholds₂, hlive₂⟩ :=
      saveFile_opened hopen h₁.vol ho.file hb
    have h₂ : Rooted s₂ a g T := h₁.next hvol₂ hlive₂
    have hget : s₂.st.dirs.get d = some dir := by
      rw [hdirs₂, ho.dir.get d h.cwd]
      exact h.handle.handle
    -- the directory's inode is not the file's
    obtain ⟨dir', hget', hroot, -⟩ := ho.cwd d (ho.dir.cwd.trans h.cwd)
    obtain rfl : dir = dir' :=
      Option.some.inj (h.handle.handle.symm.trans ((ho.dir.get d h.cwd).symm.trans hget'))
    have hholds : s₂.Holds dir.inode rootDirSector := by
      refine (hholds₂ _ _).2 ⟨hroot, ?_⟩
      rintro rfl
      exact hyroot (ho.file.holds.unique hroot)
    refine ⟨s₂, hsave, hsaved, fun _ =>
      ⟨⟨h₂, h₂.openDir hget hholds, ?_, h.count, fun name' hname' =>
      h.bound name' (List.mem_cons_of_mem _ hname')⟩, htable₂.trans ho.table⟩, fun hyes =>
        absurd hyes hdots⟩
    rw [hcwd₂, ho.dir.cwd]
    exact h.cwd

theorem saves (h : Looping a g T d s dir (Table.names (T.drop k)))
    (hpos : dir.pos = (36 * (k + 1) : Nat)) (hk : k ≤ T.length) (hne : Table.names (T.drop k) ≠ [])
    {printed : List Complaint} {st : FsState} {v : Image}
    (hexec : (forEachName d Fs.saveFile).exec s.st s.image = some (printed, st, v)) : Saved st := by
  have hderef : (derefDir d).exec s.st s.image = some (dir, s.st, s.image) := h.handle.derefDir
  have hfuel : (dirFuel dir.inode).exec s.st s.image = some (T.length + 3, s.st, s.image) :=
    h.handle.fuel h.rooted.vol
  rw [forEachName, Cmd.exec_bind, hderef, Option.bind_some, Cmd.exec_bind, hfuel, Option.bind_some,
    forEachNamePass, Cmd.exec_bind] at hexec
  obtain ⟨s₁, hnext, hstands₁⟩ := h.handle.readdir h.rooted.vol hpos hk
  have h₁ := h.read hstands₁
  have hdrop := Table.nextName_drop hk
  generalize Table.nextName (T.drop k) k = r at *
  obtain ⟨name, m⟩ := r
  cases name with
  | none => exact absurd hdrop.1 hne
  | some name =>
    rw [hdrop.2.2] at h₁
    obtain ⟨s₂, hsave, hsaved, -⟩ := h₁.saveFile
    have hnext : (dirReaddir d).exec s.st s.image = some (some name, s₁.st, s₁.image) := hnext
    have hsave : (Fs.saveFile name).exec s₁.st s₁.image = some ([], s₂.st, s₂.image) := hsave
    rw [hnext, Option.bind_some] at hexec
    dsimp only at hexec
    rw [Cmd.exec_bind, hsave, Option.bind_some] at hexec
    have hrest : (do return [] ++ (← forEachNamePass d Fs.saveFile (T.length + 2)) :
        FsM (List Complaint)).Preserves Saved :=
      .bind (forEachNamePass_saved saveFile_saved d _) fun _ => .pure _
    exact hrest _ _ _ _ _ hsaved hexec

end Looping

theorem Rooted.enterLoop {s : Session} {a : BlockSector → Option Node} {g : Growable UInt8}
    {T : Table} {k : Nat} (h : Rooted s a g T) (hcwd : s.CwdOk) (hslot : s.FromSlot k) :
    ∃ d dir s', dirOpenRoot.exec s.st s.image = some (some d, s'.st, s'.image) ∧
      Looping a g T d s' dir (Table.names (T.drop k)) ∧ dir.pos = (36 * (k + 1) : Nat) ∧
      s.SameFiles s' ∧ s.Outside d dir := by
  obtain ⟨d, dir, s', henter, h', hd, hcnt, hcwd', haround, -, hout, hfirst⟩ := h.enter hcwd
  have hbound : ∀ name ∈ Table.names (T.drop k), ∃ y, SlotMap.lookup T name = some y :=
    fun name hname =>
    (Table.mem_names h.distinct).1 ((T.names_drop k).subset hname)
  exact ⟨d, dir, s', henter, ⟨h', hd, hcwd', hcnt, hbound⟩, hslot.pos hout hfirst, haround.files, hout⟩

/-! ## Nothing to do -/

/-- No file is listed any more. -/
structure Idle (a : BlockSector → Option Node) (g : Growable UInt8) (T : Table) (s : Session) :
    Prop where
  rooted : Rooted s a g T
  cwd : s.CwdOk
  head : s.st.fileListHead = none
  rest : ∃ k ≤ T.length, s.FromSlot k ∧ Table.names (T.drop k) = []

theorem OpenDir.forEachName_nil {s : Session} {a : BlockSector → Option Node} {d : Ptr} {dir : Dir}
    {x parent : BlockSector} {g : Growable UInt8} {T : Table} {k : Nat} {α : Type}
    (body : CString → FsM (List α)) (hd : OpenDir s a d dir x parent g T) (h : Volume s a)
    (hpos : dir.pos = (36 * (k + 1) : Nat)) (hk : k ≤ T.length)
    (hnil : Table.names (T.drop k) = []) :
    ∃ s', s.Does (Fs.forEachName d body) [] s' ∧
      s.Stands s' d { dir with pos := (36 * (T.length + 1) : Nat) } := by
  obtain ⟨s', hnext, hstands⟩ := hd.readdir h hpos hk
  have hdrop := Table.nextName_drop hk
  generalize Table.nextName (T.drop k) k = r at *
  obtain ⟨name, m⟩ := r
  cases name with
  | some name =>
    rw [hdrop.2.2] at hnil
    cases hnil
  | none =>
    obtain ⟨-, rfl⟩ := hdrop
    exact ⟨s', hd.derefDir.bind ((hd.fuel h).bind (hnext.bind (.pure _ _))), hstands⟩

namespace Idle

variable {s : Session} {a : BlockSector → Option Node} {g : Growable UInt8} {T : Table}

theorem forEachFile (h : Idle a g T s) (body : CString → FsM (List Complaint)) :
    ∃ s', s.Does (forEachFile body) (some []) s' ∧ Idle a g T s' := by
  obtain ⟨k, hk, hslot, hnil⟩ := h.rest
  obtain ⟨d, dir, s₁, henter, ⟨h₁, hd₁, hcwd₁, hcnt, -⟩, hpos, hfiles₁, hout₁⟩ :=
    h.rooted.enterLoop h.cwd hslot
  obtain ⟨s₂, hloop, hstands₂⟩ := hd₁.forEachName_nil body h₁.vol hpos hk hnil
  have h₂ := h₁.next (hstands₂.volume h₁.vol) hstands₂.live
  obtain ⟨s₃, hleave, h₃, hcwd₃, haround₃, -, hout₃⟩ := h₂.leave (hd₁.stands hstands₂ rfl)
    (by rw [hstands₂.state]; exact hcwd₁) hcnt
  refine ⟨s₃, Does.bind henter (hloop.bind (hleave.bind (.pure _ _))), h₃, hcwd₃, ?_, ?_⟩
  · rw [haround₃.files, hstands₂.state, hfiles₁]
    exact h.head
  · unfold Outside at hout₁ hout₃
    split at hout₃
    · next hone =>
      rw [if_pos hone] at hout₁
      rw [FromSlot, hout₁] at hslot
      obtain rfl : k = 0 := hslot
      exact ⟨0, Nat.zero_le _, by rw [FromSlot, hout₃], hnil⟩
    · refine ⟨T.length, Nat.le_refl _, ?_, by rw [List.drop_length]; rfl⟩
      rw [FromSlot, hout₃.1]
      exact ⟨_, hout₃.2, rfl⟩

theorem defragment (h : Idle a g T s) : ∃ s', s.Does defragment (.noError, []) s' ∧ Idle a g T s' := by
  obtain ⟨s₁, hsave, h₁⟩ := h.forEachFile saveFile
  obtain ⟨s₂, hremove, h₂⟩ := h₁.forEachFile removeFile
  have hrebuild : s₂.Does rebuild () s₂ := by
    have hstate : ({ s₂.st with fileListHead := none } : FsState) = s₂.st := by rw [← h₂.head]
    simp [Does, rebuild, reverseList, h₂.head, hstate]
  exact ⟨s₂, hsave.bind (hremove.bind (hrebuild.bind (.pure _ _))), h₂⟩

end Idle

/-! ## What a call leaves -/

namespace Looping

variable {s s' : Session} {a : BlockSector → Option Node} {g : Growable UInt8} {T : Table} {d : Ptr}
  {dir : Dir} {name : CString} {names : List CString}

/-- `fsutil_rm` opens the directory a second time, and closes the one inode behind both handles. -/
theorem removeFile (h : Looping a g T d s dir (name :: names)) (htable : s.st.fileTable = []) :
    ∃ s', s.Does (removeFile name) [] s' ∧ (dirReaddir d).exec s'.st s'.image = none := by
  obtain ⟨y, hy⟩ := h.bound name List.mem_cons_self
  obtain ⟨hne, -, hslash⟩ := h.rooted.names _ ((SlotMap.lookup_eq_some h.rooted.distinct).1 hy)
  have hclosed : s.Does (removeFromFileTable name) false s := by
    refine (s.getFileByFname name).bind ?_
    rw [openedAs, htable]
    exact .pure _ _
  -- `dir_open_path`
  obtain ⟨s₁, hopen, hstands₁⟩ := Volume.dirOpen (s := s) dir.inode
  have h₁ : Rooted s₁ a g T := h.rooted.next (hstands₁.volume h.rooted.vol) hstands₁.live
  have hget₁ : s₁.st.dirs.get s.st.dirs.next = some ⟨dir.inode, 36, 1⟩ := by
    rw [hstands₁.get, if_pos rfl]
  have hd₁ := h₁.openDir hget₁ ((hstands₁.holds _ _).2 h.handle.holds)
  have hpath : s.Does (dirOpenPath []) (some s.st.dirs.next) s₁ := by
    have hreopen : s.Does (dirReopen d) (some s.st.dirs.next) s₁ :=
      h.handle.derefDir.bind (Does.bind (.pure _ _) hopen)
    have hstart : s.Does (pathStart []) (some s.st.dirs.next) s₁ := by
      have hstate : s.Does Cmd.getState s.st s := rfl
      exact hstate.bind (by rw [h.cwd]; exact hreopen)
    exact hstart.bind (Does.bind (.pure _ _) (h₁.pathEnd hd₁))
  have hother : d ≠ s.st.dirs.next := by
    intro heq
    have hget := h.handle.handle
    rw [heq, Heap.get_next] at hget
    cases hget
  obtain ⟨s₂, ok, hremove, hb₂, -, -, hres₂⟩ := hd₁.remove h₁.vol fun z hz =>
    h₁.files z (Table.mem_sectors.2 ⟨name, List.reduceOption_mem_iff.2 hz⟩)
  obtain ⟨a₂, hvol₂, hroot₂⟩ : ∃ a₂, Volume s₂ a₂ ∧ s₂.Holds dir.inode rootDirSector := by
    rcases hres₂ with ⟨-, i, z, g', -, -, -, hvol₂, hd₂⟩ | ⟨-, -, rfl⟩
    · exact ⟨_, hvol₂, hd₂.holds⟩
    · exact ⟨a, h₁.vol, hd₁.holds⟩
  have hget₂ : s₂.st.dirs.get s.st.dirs.next = some ⟨dir.inode, 36, 1⟩ := by
    rw [hb₂.dirs]
    exact hget₁
  obtain ⟨s₃, hclose, -, hshuts⟩ := OpenDir.close_last hvol₂ hget₂ hroot₂ h.handle.sector rfl
  have hremoved : s.Does (filesysRemove name) ok s₃ := by
    rw [filesysRemove, splitPathFilename_plain hne hslash]
    exact hpath.bind (hremove.bind (hclose.bind (.pure _ _)))
  refine ⟨s₃, (hclosed.bind hremoved).bind (.pure _ _), ?_⟩
  have hgone : s₃.st.openInodes.get dir.inode = none :=
    Session.get_of_not_holds fun x hx => ((hshuts.holds _ _).1 hx).2 rfl
  have hdir : s₃.st.dirs.get d = some dir := by
    rw [hshuts.get, if_neg hother, hb₂.dirs, hstands₁.get, if_neg hother]
    exact h.handle.handle
  exact exec_dirReaddir_stale hdir hgone

end Looping

section keeps

variable {s : Session} {a : BlockSector → Option Node} {g : Growable UInt8} {T : Table}

theorem Rooted.enterFirst (h : Rooted s a g T) (hcwd : s.st.cwd = none) (htable : s.st.fileTable = []) :
    ∃ d dir s', dirOpenRoot.exec s.st s.image = some (some d, s'.st, s'.image) ∧
      Looping a g T d s' dir (Table.names (T.drop 0)) ∧ dir.pos = 36 ∧ dir.openCnt = 1 ∧
      s'.st.fileTable = [] := by
  have hok : s.CwdOk := fun d hd => by
    rw [hcwd] at hd
    cases hd
  obtain ⟨d, dir, s₁, henter, hlooping, hpos, hfiles, hout⟩ :=
    h.enterLoop hok (show s.FromSlot 0 by rw [FromSlot, hcwd])
  refine ⟨d, dir, s₁, henter, hlooping, hpos, ?_, ?_⟩
  · by_contra hmore
    rw [Outside, if_neg hmore, hcwd] at hout
    cases hout.1
  · rw [hfiles]
    exact htable

/-- The first loop, where nothing is open: a fault, or nothing is open after it either. -/
theorem Rooted.saveFiles (h : Rooted s a g T) (hcwd : s.st.cwd = none) (htable : s.st.fileTable = []) :
    (forEachFile saveFile).exec s.st s.image = none ∨
      ∃ printed s', s.Does (forEachFile saveFile) (some printed) s' ∧ Rooted s' a g T ∧
        s'.st.cwd = none ∧ s'.st.fileTable = [] := by
  obtain ⟨d, dir, s₁, henter, hlooping, hpos, hone, htable₁⟩ := h.enterFirst hcwd htable
  have hloop := OpenDir.forEachName saveFile (fun name => if IsDots name then none else some [])
    (fun s dir names => Looping a g T d s dir names ∧ dir.openCnt = 1 ∧ s.st.fileTable = [])
    (fun hI => ⟨hI.1.handle, hI.1.rooted.vol⟩)
    (fun hI hstands => ⟨hI.1.read hstands, hI.2.1, by rw [hstands.state]; exact hI.2.2⟩)
    (fun {s dir name names} hI => by
      obtain ⟨s', hsave, -, hplain, hdots⟩ := hI.1.saveFile
      by_cases hyes : IsDots name
      · exact .inr ⟨if_pos hyes, [], s', hsave, hdots hyes⟩
      · obtain ⟨h', htable'⟩ := hplain hyes
        rw [if_neg hyes]
        exact .inl ⟨s', hsave, h', hI.2.1, htable'.trans hI.2.2⟩)
    ⟨hlooping, hone, htable₁⟩ hpos (Nat.zero_le _)
  cases hmap : ((Table.names (T.drop 0)).mapM fun name => if IsDots name then none else some []).map
    List.flatten with
  | none =>
    left
    rw [hmap] at hloop
    have hloop : (forEachName d saveFile).exec s₁.st s₁.image = none := hloop
    rw [forEachFile, Cmd.exec_bind, henter, Option.bind_some]
    dsimp only
    rw [Cmd.exec_bind, hloop]
    rfl
  | some printed =>
    right
    rw [hmap] at hloop
    obtain ⟨s₂, hdoes, dir₂, h₂, hone₂, htable₂⟩ := hloop
    obtain ⟨s₃, hleave, h₃, -, haround₃, -, hout₃⟩ :=
      h₂.rooted.leave h₂.handle h₂.cwd h₂.count
    rw [Outside, if_pos hone₂] at hout₃
    refine ⟨printed, s₃, Does.bind henter (hdoes.bind (hleave.bind (.pure _ _))), h₃, hout₃, ?_⟩
    rw [haround₃.files]
    exact htable₂

/-- Where a file is listed, the second loop is a fault. -/
theorem Rooted.removeFiles (h : Rooted s a g T) (hcwd : s.st.cwd = none)
    (htable : s.st.fileTable = []) (hne : T.names ≠ []) :
    (forEachFile removeFile).exec s.st s.image = none := by
  obtain ⟨d, dir, s₁, henter, hlooping, hpos, hone, htable₁⟩ := h.enterFirst hcwd htable
  have hloop := OpenDir.forEachName removeFile (fun _ => none)
    (fun s dir names => Looping a g T d s dir names ∧ s.st.fileTable = [])
    (fun hI => ⟨hI.1.handle, hI.1.rooted.vol⟩)
    (fun hI hstands => ⟨hI.1.read hstands, by rw [hstands.state]; exact hI.2⟩)
    (fun hI => by
      obtain ⟨s', hremove, hfault⟩ := hI.1.removeFile hI.2
      exact .inr ⟨rfl, [], s', hremove, hfault⟩)
    ⟨hlooping, htable₁⟩ hpos (Nat.zero_le _)
  obtain ⟨name, names, hnames⟩ := List.exists_cons_of_ne_nil hne
  rw [List.drop_zero, hnames, mapM_cons_flatten] at hloop
  have hloop : (forEachName d removeFile).exec s₁.st s₁.image = none := hloop
  rw [forEachFile, Cmd.exec_bind, henter, Option.bind_some]
  dsimp only
  rw [Cmd.exec_bind, hloop]
  rfl

/-- No file and no directory is open, and no file is in the list. -/
structure FsState.Unopened (st : FsState) : Prop where
  cwd : st.cwd = none
  fileTable : st.fileTable = []
  fileListHead : st.fileListHead = none

/-- Where a file is listed, `defragment` is a fault. -/
theorem Rooted.exec_defragment (h : Rooted s a g T) (hopen : s.st.Unopened) (hne : T.names ≠ []) :
    defragment.exec s.st s.image = none := by
  rcases h.saveFiles hopen.cwd hopen.fileTable with
    hfault | ⟨printed, s₁, hsave, h₁, hcwd₁, htable₁⟩
  · rw [defragment, Cmd.exec_bind, hfault]
    rfl
  · have hsave : (forEachFile saveFile).exec s.st s.image =
        some (some printed, s₁.st, s₁.image) := hsave
    rw [defragment, Cmd.exec_bind, hsave, Option.bind_some]
    dsimp only
    rw [Cmd.exec_bind, h₁.removeFiles hcwd₁ htable₁ hne]
    rfl

/-- **`defragment`**, where nothing is open, leaves the names and the contents of all files,
exactly if there is none. -/
theorem defragment_keeps (h : Rooted s a g T) (hopen : s.st.Unopened) :
    (∃ printed s' a' g' T', s.Does defragment (.noError, printed) s' ∧ Rooted s' a' g' T' ∧
      ∀ name, (SlotMap.lookup T' name).map a' = (SlotMap.lookup T name).map a) ↔ T.names = [] := by
  constructor
  · rintro ⟨printed, s', -, -, -, hdoes, -⟩
    by_contra hne
    rw [Does, h.exec_defragment hopen hne] at hdoes
    cases hdoes
  · intro hnil
    have hidle : Idle a g T s := by
      refine ⟨h, fun d hd => ?_, hopen.fileListHead, 0,
        Nat.zero_le _, by rw [FromSlot, hopen.cwd], hnil⟩
      rw [hopen.cwd] at hd
      cases hd
    obtain ⟨s', hdoes, h'⟩ := hidle.defragment
    exact ⟨[], s', a, g, T, hdoes, h'.rooted, fun _ => rfl⟩

end keeps

/-- A device of 200 sectors after formatting, and after `create a 0`. -/
theorem exists_unopened : ∃ st v a g T s a' g' T',
    (filesysInit 200 true).exec initialState (fun _ => Sector.zeros) = some (true, st, v) ∧
    Rooted ⟨st, v, [rootDirSector], []⟩ a g T ∧ st.Unopened ∧ T.names = [] ∧
    (fsutilCreate [97] 0).exec st v = some (true, s.st, s.image) ∧ Rooted s a' g' T' ∧
    s.st.Unopened ∧ T'.names = [[97]] := by
  obtain ⟨st, v, -, -, -, hformat, -, -, -, -, hfree, -, -⟩ := exists_rooted
  obtain ⟨a, g, T, h, hempty, hslot, hcwd, htable⟩ := Stocked.format (n := 200) hformat
  have hhead : st.fileListHead = none := by
    obtain ⟨q, fm, -, hf⟩ := Session.Inv.format (n := 200) hformat
    rw [hf.state]
    rfl
  have hno : SlotMap.lookup T [97] = none := by
    rw [SlotMap.lookup, hempty]
    rfl
  have hname : ([97] : CString) ≠ [] ∧ 0 ∉ ([97] : CString) ∧ slash ∉ ([97] : CString) := by decide
  have hroom : Session.FileRoom ⟨st, v, [rootDirSector], []⟩ 0 :=
    ⟨Int.le_refl 0, by decide, by rw [hfree]; decide⟩
  obtain ⟨s, y, g', hcreate, hkeep, -, -, h'⟩ :=
    h.rooted.exists_fsutilCreate h.cwd hname (by decide) hno hslot (by decide) hroom
  have hnames : Table.names (SlotMap.put T ([97], y)) = [[97]] := by
    have hperm := (SlotMap.put_perm (l := T) (x := (([97] : CString), y))).map Prod.fst
    rw [hempty, List.map_cons, List.map_nil] at hperm
    exact List.perm_singleton.1 hperm
  refine ⟨st, v, a, g, T, s, _, g', _, hformat, h.rooted,
    ⟨hcwd, htable, hhead⟩, by rw [Table.names, hempty]; rfl, hcreate, h', ⟨?_, ?_, ?_⟩, hnames⟩
  · rw [hkeep.dir.cwd]
    exact hcwd
  · rw [hkeep.files]
    exact htable
  · rw [hkeep.files]
    exact hhead

/-- A new file system stays as it is. -/
theorem defragment_keeps_new : ∃ st v,
    (filesysInit 200 true).exec initialState (fun _ => Sector.zeros) = some (true, st, v) ∧
    ∃ printed st' v', defragment.exec st v = some ((.noError, printed), st', v') := by
  obtain ⟨st, v, a, g, T, -, -, -, -, hformat, h, hopen, hnil, -⟩ := exists_unopened
  obtain ⟨printed, s', -, -, -, hdoes, -⟩ := (defragment_keeps h hopen).2 hnil
  exact ⟨st, v, hformat, printed, s'.st, s'.image, hdoes⟩

/-- The empty file `a` is not rebuilt: once it is removed, the loop reads the directory through an
inode that is gone. -/
theorem defragment_faults : ∃ st v st' v',
    (filesysInit 200 true).exec initialState (fun _ => Sector.zeros) = some (true, st, v) ∧
    (fsutilCreate [97] 0).exec st v = some (true, st', v') ∧ st'.Unopened ∧
    defragment.exec st' v' = none := by
  obtain ⟨st, v, -, -, -, s, a', g', T', hformat, -, -, -, hcreate, h', hopen', hnames⟩ :=
    exists_unopened
  have hne : T'.names ≠ [] := by
    rw [hnames]
    exact List.cons_ne_nil _ _
  exact ⟨st, v, s.st, s.image, hformat, hcreate, hopen', h'.exec_defragment hopen' hne⟩

/-! ## Calls in a row -/

/-- `n` calls in a row, of which each finds the list empty and comes to its end. -/
def Session.Repeats : Nat → Session → Prop
  | 0, _ => True
  | n + 1, s =>
    s.st.fileListHead = none ∧ ∃ printed s', s.Does defragment (.noError, printed) s' ∧ s'.Repeats n

theorem Idle.repeats {s : Session} {a : BlockSector → Option Node} {g : Growable UInt8} {T : Table}
    (h : Idle a g T s) (n : Nat) : s.Repeats n := by
  induction n generalizing s with
  | zero => trivial
  | succ n ih =>
    obtain ⟨s', hdoes, h'⟩ := h.defragment
    exact ⟨h.head, _, s', hdoes, ih h'⟩

section repeats

variable {s : Session} {a : BlockSector → Option Node} {g : Growable UInt8} {T : Table} {k : Nat}

/-- Where a file is listed, a call that returns leaves a node that it has freed at the head
of the list. -/
theorem Rooted.defragment_stale (h : Rooted s a g T) (hcwd : s.CwdOk) (hslot : s.FromSlot k)
    (hk : k ≤ T.length) (hne : Table.names (T.drop k) ≠ []) {printed : List Complaint}
    {st : FsState} {v : Image}
    (hexec : defragment.exec s.st s.image = some ((.noError, printed), st, v)) : st.Stale := by
  obtain ⟨d, dir, s₁, henter, hlooping, hpos, -⟩ := h.enterLoop hcwd hslot
  rw [defragment, Cmd.exec_bind] at hexec
  obtain ⟨⟨first, st₂, v₂⟩, hfirst, hexec⟩ := Option.bind_eq_some_iff.1 hexec
  rw [Fs.forEachFile, Cmd.exec_bind, henter, Option.bind_some] at hfirst
  dsimp only at hfirst
  rw [Cmd.exec_bind] at hfirst
  obtain ⟨⟨printed, st₃, v₃⟩, hloop, hfirst⟩ := Option.bind_eq_some_iff.1 hfirst
  have hclose : (do Fs.dirClose (some d); pure (some printed) :
      FsM (Option (List Complaint))).Preserves Saved :=
    .bind (dirClose_list _).saved fun _ => .pure _
  have hsaved₂ := hclose _ _ _ _ _ (hlooping.saves hpos hk hne hloop) hfirst
  cases first with
  | none => cases hexec
  | some printed =>
    dsimp only at hexec
    rw [Cmd.exec_bind] at hexec
    obtain ⟨⟨second, st₄, v₄⟩, hsecond, hexec⟩ := Option.bind_eq_some_iff.1 hexec
    have hsaved₄ := forEachFile_saved removeFile_saved _ _ _ _ _ hsaved₂ hsecond
    cases second with
    | none => cases hexec
    | some removed =>
      dsimp only at hexec
      rw [Cmd.exec_bind] at hexec
      obtain ⟨⟨_, st₅, v₅⟩, hrebuild, hexec⟩ := Option.bind_eq_some_iff.1 hexec
      cases hexec
      exact rebuild_stale hsaved₄ hrebuild

/-- **Calls in a row** find nothing left over, exactly if there is no file to rebuild: otherwise a
call that comes to its end leaves a freed node at the head of the list. -/
theorem defragment_repeats (h : Rooted s a g T) (hcwd : s.CwdOk) (hslot : s.FromSlot k)
    (hk : k ≤ T.length) (hhead : s.st.fileListHead = none) :
    ((∀ n ≥ 1, s.Repeats n) ↔ Table.names (T.drop k) = []) ∧
      (Table.names (T.drop k) ≠ [] → ∀ printed s', s.Does defragment (.noError, printed) s' →
        s'.st.Stale) := by
  refine ⟨⟨fun hall => ?_, fun hnil n _ => ?_⟩,
    fun hne printed s' hdoes => h.defragment_stale hcwd hslot hk hne hdoes⟩
  · by_contra hne
    obtain ⟨-, printed, s', hdoes, hhead', -⟩ := hall 2 (by decide)
    obtain ⟨p, hp, -⟩ := h.defragment_stale hcwd hslot hk hne hdoes
    rw [hhead'] at hp
    cases hp
  · exact Idle.repeats ⟨h, hcwd, hhead, k, hk, hslot, hnil⟩ n

end repeats

/-- On a new file system any number of calls. -/
theorem defragment_repeats_new : ∃ st v,
    (filesysInit 200 true).exec initialState (fun _ => Sector.zeros) = some (true, st, v) ∧
    ∀ n ≥ 1, Session.Repeats n ⟨st, v, [rootDirSector], []⟩ := by
  obtain ⟨st, v, a, g, T, -, -, -, -, hformat, h, hopen, hnil, -⟩ := exists_unopened
  have hcwd : Session.CwdOk ⟨st, v, [rootDirSector], []⟩ := fun d hd => by
    rw [hopen.cwd] at hd
    cases hd
  have hslot : Session.FromSlot ⟨st, v, [rootDirSector], []⟩ 0 := by rw [FromSlot, hopen.cwd]
  exact ⟨st, v, hformat, (defragment_repeats h hcwd hslot (Nat.zero_le _) hopen.fileListHead).1.2 hnil⟩

/-- With the empty file `a` there are no two calls. -/
theorem defragment_not_repeated : ∃ st v s,
    (filesysInit 200 true).exec initialState (fun _ => Sector.zeros) = some (true, st, v) ∧
    (fsutilCreate [97] 0).exec st v = some (true, s.st, s.image) ∧ s.st.Unopened ∧
    ¬ Session.Repeats 2 s := by
  obtain ⟨st, v, -, -, -, s, a', g', T', hformat, -, -, -, hcreate, h', hopen', hnames⟩ :=
    exists_unopened
  have hne : T'.names ≠ [] := by
    rw [hnames]
    exact List.cons_ne_nil _ _
  refine ⟨st, v, s, hformat, hcreate, hopen', ?_⟩
  rintro ⟨-, printed, s', hdoes, -⟩
  rw [Does, h'.exec_defragment hopen' hne] at hdoes
  cases hdoes

end MyShell.Fs

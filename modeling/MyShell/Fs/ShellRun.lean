/-
Any sequence of the shell's file commands, and the listing after it. Each
command closes the root directory as often as it opens it, but for a path of
slashes only, and for `recover (0)` where it finds an inode to recover. After
one of these the global directory stays open, and its position at the end.
-/
import MyShell.Fs.Listing

namespace MyShell.Fs

open Storage

/-! ## Commands -/

/-- No free sector holds an inode, in memory or on the disk. -/
def FsState.NoFreeInode (st : FsState) (v : Image) : Prop :=
  ∀ x < bitmapSize st.freeMap, bitmapTest st.freeMap x = false →
    (∀ p i, st.openInodes.get p = some i → i.sector = .ofNat x → i.data.magic ≠ inodeMagic) ∧
      (InodeDisk.ofSector (v (.ofNat x))).magic ≠ inodeMagic

/-- The command is given a file and no directory, and so is each name that it
reads in the root directory; and it finds nothing to enter there. -/
def ShellCommand.OnFiles (st : FsState) (v : Image) : ShellCommand → Prop
  | .cat path | .size path | .read path _ => ¬ Slashes path
  | .write path args => args ≠ [] → ¬ Slashes path
  | .findFile _ | .fragmentationDegree => ∀ e ∈ st.entriesInUse v, ¬ Slashes e.cname
  | .recover flag =>
    (flag = 0 → st.NoFreeInode v) ∧ (flag = 2 → ∀ e ∈ st.entriesInUse v, ¬ Slashes e.cname)
  | .ls | .create _ _ | .rm _ => True

/-- Commands one after the other, from `filesys_init` on, each where `ok` holds. -/
inductive ShellRun (writable : CString → Bool) (ok : FsState → Image → ShellCommand → Prop) :
    List ShellCommand → FsState → Image → Prop
  | boot {n : BlockSector} {format : Bool} {v₀ st v}
      (h : (filesysInit n.toNat format).exec initialState v₀ = some (true, st, v)) :
      ShellRun writable ok [] st v
  | step {cs st v c st' v'} (hr : ShellRun writable ok cs st v) (hok : ok st v c)
      (h : (c.run writable).exec st v = some ((), st', v')) : ShellRun writable ok (cs ++ [c]) st' v'

/-! ## `recover (0)` -/

section recover

variable {st st' : FsState} {v v' : Image} {writable : CString → Bool}

theorem FsState.NoFreeInode.inodes (h : st.NoFreeInode v) {m : Heap Inode}
    (hm : ∀ p i, m.get p = some i → st.openInodes.get p = some i ∨ i.data.magic ≠ inodeMagic) :
    (st.setInodes m).NoFreeInode v := by
  refine fun x hx hfree => ⟨fun p i hi hsector => ?_, (h x hx hfree).2⟩
  rcases hm p i hi with hold | hnew
  · exact (h x hx hfree).1 p i hold hsector
  · exact hnew

theorem FsState.NoFreeInode.inodeData (h : st.NoFreeInode v) {x : Nat} (hx : x < bitmapSize st.freeMap)
    (hfree : bitmapTest st.freeMap x = false) : (st.inodeData v (.ofNat x)).magic ≠ inodeMagic := by
  unfold FsState.inodeData
  cases hfind : st.openInodes.cells.find? fun c => c.2.sector = .ofNat x with
  | none => exact (h x hx hfree).2
  | some c =>
    have hsector : c.2.sector = .ofNat x := by simpa using List.find?_some hfind
    exact (h x hx hfree).1 c.1 c.2 (Heap.get_of_mem (List.mem_of_find?_eq_some hfind)) hsector

/-- In the middle of a search that finds nothing. -/
structure Searched (b : Bitmap) (st : FsState) (v : Image) : Prop where
  still : Still none (Level none) st v
  none : st.NoFreeInode v
  map : st.freeMap = b

/-- A sector that holds no inode is opened and closed. -/
theorem recoverSector_ensures {b : Bitmap} {x : Nat} (hx : x < bitmapSize b)
    (hfree : bitmapTest b x = false) :
    (recoverSector (.ofNat x)).Ensures (Searched b) fun _ => Searched b := by
  rintro st v a st' v' ⟨h, hno, rfl⟩ hexec
  obtain ⟨p, m, i, hopen, hi, -, -, hdata, hold⟩ := exec_inodeOpen_found (.ofNat x) st v
  have hmagic : i.data.magic ≠ inodeMagic := by
    rw [hdata]
    exact hno.inodeData hx hfree
  have hstill₁ := Steady.inodeOpen _ _ _ _ _ _ _ h hopen
  have hno₁ : (st.setInodes m).NoFreeInode v :=
    hno.inodes fun q j hj => (hold q j hj).imp_right fun hq => by
    subst hq
    obtain rfl : i = j := Option.some.inj (hi.symm.trans hj)
    exact hmagic
  have hderef : (derefInode p).exec (st.setInodes m) v = some (i, st.setInodes m, v) := by
    rw [exec_derefInode, FsState.setInodes_openInodes, hi]
    rfl
  rw [recoverSector, Cmd.exec_bind, hopen, Option.bind_some, Cmd.exec_bind, hderef,
    Option.bind_some, Cmd.exec_bind, Option.bind_eq_some_iff] at hexec
  obtain ⟨⟨sectors, st₁, v₁⟩, hsectors, hexec⟩ := hexec
  obtain ⟨rfl, rfl⟩ := (getInodeDataSectors_reads i.data).exec hsectors
  obtain ⟨hcnt, hremoved⟩ := hstill₁.calm p i hi
  rw [Cmd.exec_bind, hderef, Option.bind_some, if_neg hmagic, Cmd.exec_bind,
    exec_inodeClose_once hi hcnt hremoved] at hexec
  cases hexec
  refine ⟨hstill₁.freeInode p, hno₁.inodes fun q j hj => .inl ?_, rfl⟩
  rw [Heap.get_free] at hj
  split at hj
  · cases hj
  · exact hj

theorem recover0_ensures :
    recover0.Ensures (fun st v => Still none (Level none) st v ∧ st.NoFreeInode v)
    fun _ => Still none (Level none) := by
  have hloop (b : Bitmap) (l : List Nat) (hl : ∀ x ∈ l, x < bitmapSize b) :
      (recover0Loop l).Ensures (Searched b) fun _ => Searched b := by
    induction l with
    | nil => exact .pure fun _ _ => id
    | cons x l ih =>
      refine .getState fun st₀ => .bind (Q := fun _ => Searched b) ?_ fun failed => ?_
      · refine .assume (φ := st₀.freeMap = b) (fun st v h => h.1 ▸ h.2.map) fun hmap => ?_
        rw [hmap]
        split
        · exact .pure fun _ _ h => h.2
        · next hfree =>
          exact (recoverSector_ensures (hl x List.mem_cons_self) (by simpa using hfree)).pre
            fun _ _ h => h.2
      · exact (ih fun y hy => hl y (List.mem_cons_of_mem _ hy)).bind fun rest => .pure fun _ _ => id
  refine .getState fun st₀ => ((hloop st₀.freeMap _ fun x hx => List.mem_range.1 hx).weaken ?_
    fun _ _ _ h => h.still)
  rintro st v ⟨rfl, h, hno⟩
  exact ⟨h, hno, rfl⟩

theorem recover1_reads (writable : CString → Bool) : (recover1 writable).Reads := by
  refine .getState fun st => ?_
  dsimp only
  generalize (List.range (bitmapSize st.freeMap)).drop startSector = l
  induction l with
  | nil => exact .pure _
  | cons x l ih => exact .bind (.read _) fun _ => .bind ih fun _ => .pure _

end recover

/-! ## One command -/

namespace FsState.Settled

variable {st st' : FsState} {v v' : Image} {writable : CString → Bool}

/-- **One command.** -/
theorem run (h : st.Settled) {c : ShellCommand} (hc : c.OnFiles st v)
    (hexec : (c.run writable).exec st v = some ((), st', v')) : st'.Settled := by
  have hdone {α : Type} {m : FsM α} (hexec : (do let _ ← m; pure () : FsM Unit).exec st v =
    some ((), st', v')) :
      ∃ a, m.exec st v = some (a, st', v') := by
    obtain ⟨⟨a, st₁, v₁⟩, hm, hpure⟩ :=
      Option.bind_eq_some_iff.1 ((Cmd.exec_bind _ _ _ _).symm.trans hexec)
    cases hpure
    exact ⟨a, hm⟩
  have hrun {α : Type} {m : FsM α} (hm : m.Ensures (Still none (Level none)) fun _ => Still none
    (Level none))
      (hexec : (do let _ ← m; pure () : FsM Unit).exec st v = some ((), st', v')) : st'.Settled := by
    obtain ⟨a, hexec⟩ := hdone hexec
    exact (hm st v a st' v' (h.still v) hexec).settled
  have hpass {α : Type} {body : CString → FsM α} {visited : List (CString × α)}
    (hc : ∀ e ∈ st.entriesInUse v, ¬ Slashes e.cname)
      (hbody : ∀ K o path, Leaves K (Level o) (filesysOpen path) → Leaves K (Level o) (body path))
      (hexec : (Fs.fullPass body).exec st v = some (visited, st', v')) : st'.Settled :=
    ((h.fullPass (N := (· = 1)) rfl fun e he w d => .once fun o => hbody _ _ _
      (.filesysOpen (hc e he))).2 _ _ _ hexec).2 fun _ => id
  cases c with
  | ls =>
    obtain ⟨st₁, hls, h₁⟩ := h.fsutilLs v
    obtain ⟨names, hexec⟩ := hdone hexec
    cases hexec.symm.trans hls
    exact h₁
  | cat path => exact hrun (Leaves.fsutilCat (.filesysOpen hc)) hexec
  | size path => exact hrun (Leaves.fsutilSize (.filesysOpen hc)) hexec
  | read path bytes => exact hrun (Leaves.readCommand (.filesysOpen hc) bytes) hexec
  | write path args =>
    cases args with
    | nil => exact hrun (Steady.pure _ _) hexec
    | cons arg args => exact hrun (Leaves.writeCommand (hc (List.cons_ne_nil _ _)) _) hexec
  | create path isize =>
    exact hrun (.ite (fun _ => Steady.pure _ _) fun _ => Leaves.filesysCreate path isize) hexec
  | rm path => exact hrun (fsutilRm_ensures path) hexec
  | findFile pattern =>
    obtain ⟨printed, hexec⟩ := hdone hexec
    obtain ⟨visited, hexec, -⟩ := exec_fullPass hexec h.cwd
    exact hpass hc (fun K o path hopen => Leaves.findInFile hopen pattern) hexec
  | fragmentationDegree =>
    obtain ⟨counts, hexec⟩ := hdone hexec
    obtain ⟨visited, hexec, -⟩ := exec_fullPass hexec h.cwd
    exact hpass hc (fun K o path hopen => Leaves.countFile hopen) hexec
  | recover flag =>
    rw [ShellCommand.run] at hexec
    split at hexec
    · next hflag =>
      obtain ⟨failed, hexec⟩ := hdone hexec
      exact (recover0_ensures _ _ _ _ _ ⟨h.still v, hc.1 hflag⟩ hexec).settled
    · split at hexec
      · exact hrun (recover1_reads writable _) hexec
      · split at hexec
        · next hflag =>
          obtain ⟨recovered, hexec⟩ := hdone hexec
          obtain ⟨visited, hexec, -⟩ := exec_fullPass hexec h.cwd
          exact hpass (hc.2 hflag) (fun K o path hopen => Leaves.recoverFile hopen writable) hexec
        · cases hexec
          exact h

/-- It is so after `filesys_init`, with or without formatting. -/
theorem boot {n : Nat} {format : Bool} {ok : Bool} {v₀ : Image}
    (hexec : (filesysInit n format).exec initialState v₀ = some (ok, st, v)) : st.Settled := by
  have hcreate : (dirCreate rootDirSector maxFilesInDirectory).Ensures (Still none (Level none))
      fun _ => Still none (Level none) := by
    refine (Steady.inodeCreate _ _ _ _).bind fun created => .ite (fun _ => .pure fun _ _ => id)
      fun _ => ?_
    refine (Steady.inodeOpen _ _).bind fun p => .bind (Q := fun d => Still none (Held d)) ?_ fun d => ?_
    · intro st v d st' v' h hexec
      rw [exec_dirOpen] at hexec
      cases hexec
      exact h.imp (fun hcwd => ⟨.inl hcwd, _, (Heap.get_alloc _ _ _).trans (if_pos rfl), rfl⟩) rfl
    · refine (Cmd.Reads.ofOption _ _).bind fun d => (dirGetInode_reads d _).bind fun p =>
        (Steady.inodeWriteAt p _ _ _).bind fun n => ?_
      exact dirClose_held.bind fun _ => .pure fun _ _ => id
  have hmapFile (f : Option Ptr) : Steady none
      (Cmd.modifyState fun s => { s with freeMapFile := f } : FsM Unit) :=
    .modifyState (fun _ => rfl) (fun _ => rfl) fun _ => rfl
  have htable : Steady none initFileTable := .modifyState (fun _ => rfl) (fun _ => rfl) fun _ => rfl
  have hmap : Steady none freeMapCreate :=
    fun R => .getState fun s => (Steady.bind (.inodeCreate _ _ _) fun created =>
    .bind (.inodeOpen _) fun p => .bind (.fileOpen _) fun f => .bind (hmapFile f) fun _ =>
      .bind (.withFreeMap _) fun written => .pure (created && written)) R |>.pre fun _ _ h => h.2
  have hformat : doFormat.Ensures (Still none (Level none)) fun _ => Still none (Level none) := by
    refine (hmap _).bind fun mapCreated => hcreate.bind fun rootCreated =>
      .bind (Q := fun _ => Still none (Level none)) ?_ fun _ => ?_
    · exact .getState fun s => (Steady.fileClose _ _).pre fun _ _ h => h.2
    · exact .pure fun _ _ => id
  have hopen : Steady none freeMapOpen :=
    .bind (.inodeOpen _) fun p => .bind (.fileOpen _) fun f => .bind (hmapFile f) fun _ =>
    .withFreeMap _
  have hinit : (filesysInit n format).Ensures (fun st _ => st = initialState) fun _ =>
    Still none (Level none) := by
    refine .bind (Q := fun _ => Still none (Level none)) (.modifyState ?_) fun _ => ?_
    · rintro _ v rfl
      refine ⟨fun p i hp => ?_, rfl, fun w hw => ?_⟩
      · cases (Heap.get_empty p).symm.trans hp
      · cases hw
    · refine .bind (Q := fun _ => Still none (Level none)) (.ite (fun _ => hformat) fun _ => .pure
        fun _ _ => id) fun formatted => ?_
      exact (hopen _).bind fun opened => (htable _).bind fun _ => .pure fun _ _ => id
  exact (hinit _ _ _ _ _ rfl hexec).settled

end FsState.Settled

/-! ## After any run -/

/-- The global directory is closed after such a run. -/
theorem ShellRun.settled {writable : CString → Bool} {cs : List ShellCommand} {st : FsState} {v : Image}
    (h : ShellRun writable (fun st v c => c.OnFiles st v) cs st v) : st.Settled := by
  induction h with
  | boot hinit => exact .boot hinit
  | step hr hok hexec ih => exact ih.run hok hexec

/-- The names of the entries in use, in a root directory of files. -/
theorem Rooted.entriesInUse {s : Session} {a : BlockSector → Option Node} {g : Growable UInt8}
    {T : Table} (h : Rooted s a g T) (hst : s.st.Settled) :
    (s.st.entriesInUse s.image).map DirEntry.cname = T.names := by
  obtain ⟨p, s₁, hopen, h₁, hd, -⟩ := h.listed.openRoot hst.cwd
  obtain ⟨s₂, hread, -⟩ := hd.readdirAll h₁.vol rfl
  obtain ⟨st', hls, -⟩ := hst.fsutilLs s.image
  have hopen : dirOpenRoot.exec s.st s.image = some (some s.st.dirs.next, s₁.st, s₁.image) := hopen
  have hread : (readdirAll s.st.dirs.next).exec s₁.st s₁.image =
      some (T.names, s₂.st, s₂.image) := hread
  rw [fsutilLs, Cmd.exec_bind, hopen, Option.bind_some] at hls
  simp only [Cmd.exec_bind, hread, Option.bind_some, Option.bind_eq_some_iff] at hls
  obtain ⟨r, -, hls⟩ := hls
  exact (Option.some.inj (Prod.ext_iff.1 (Option.some.inj hls)).1).symm

section left

variable {st st' : FsState} {v : Image}

end left

theorem ShellRun.imp {writable : CString → Bool} {ok ok' : FsState → Image → ShellCommand → Prop}
    {cs : List ShellCommand} {st : FsState} {v : Image} (himp : ∀ st v c, ok st v c → ok' st v c)
    (h : ShellRun writable ok cs st v) : ShellRun writable ok' cs st v := by
  induction h with
  | boot hinit => exact .boot hinit
  | step _ hok hexec ih => exact ih.step (himp _ _ _ hok) hexec

end MyShell.Fs

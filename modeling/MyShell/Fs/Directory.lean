/-
Directories (directory.c): files of 36-byte entries, the first of which is
the parent directory's.
-/
import MyShell.Fs.File

namespace MyShell.Fs

open Storage

/-- `NAME_MAX` -/
abbrev nameMax : Nat := 30

/-- The characters `.` and `/`. -/
def dot : UInt8 := 46

def slash : UInt8 := 47

/-- `struct dir_entry` -/
structure DirEntry where
  inodeSector : BlockSector
  name : List UInt8
  inUse : Bool

/-- `sizeof (struct dir_entry)` -/
abbrev dirEntrySize : Nat := 36

namespace DirEntry

def toBytes (e : DirEntry) : List UInt8 :=
  (List.range 4).map (byteOf e.inodeSector) ++
    (List.range (nameMax + 1)).map (fun i => e.name.getD i 0) ++ [if e.inUse then 1 else 0]

def ofBytes (bs : List UInt8) : DirEntry where
  inodeSector := le32 (bs.getD 0 0) (bs.getD 1 0) (bs.getD 2 0) (bs.getD 3 0)
  name := (bs.drop 4).take (nameMax + 1)
  inUse := bs.getD 35 0 != 0

@[simp] theorem length_toBytes (e : DirEntry) : e.toBytes.length = 36 := by simp [toBytes, nameMax]

/-- The name up to its NUL. -/
def cname (e : DirEntry) : CString := e.name.takeWhile (· ≠ 0)

end DirEntry

/-! ## Paths -/

/-- The tokens of `strtok_r (s, "/")`. -/
def tokens (path : CString) : List CString := (path.splitOn slash).filter (· ≠ [])

/-- `split_path_filename`: the directory and the file name. -/
def splitPathFilename (path : CString) : CString × CString :=
  let toks := tokens path
  ((if path.head? = some slash then [slash] else []) ++ toks.dropLast.flatMap (· ++ [slash]),
    toks.getLastD [])

/-! ## Opening and closing -/

/-- `dir_open`; there is always memory. -/
def dirOpen (inode : Option Ptr) : FsM (Option Ptr) := do
  match inode with
  | some inode =>
    let s ← Cmd.getState
    Cmd.setState { s with dirs := s.dirs.alloc { inode, pos := dirEntrySize, openCnt := 1 } }
    pure (some s.dirs.next)
  | none =>
    inodeClose none
    pure none

def dirClose (dir : Option Ptr) : FsM Unit := do
  match dir with
  | none => pure ()
  | some p =>
    let d ← derefDir p
    let openCnt := d.openCnt - 1
    modifyDir p fun d => { d with openCnt }
    if openCnt = 0 then do
      inodeClose (some d.inode)
      Cmd.modifyState fun s => { s with dirs := s.dirs.free p, cwd := none }
    else pure ()

/-- `ROOT_DIR_SECTOR` -/
def rootDirSector : BlockSector := 1

def dirOpenRoot : FsM (Option Ptr) := do
  match (← Cmd.getState).cwd with
  | none =>
    let dir ← dirOpen (some (← inodeOpen rootDirSector))
    Cmd.modifyState fun s => { s with cwd := dir }
    pure dir
  | some p =>
    let _ ← derefDir p
    modifyDir p fun d => { d with openCnt := d.openCnt + 1 }
    pure (some p)

def dirReopen (dir : Ptr) : FsM (Option Ptr) := do dirOpen (some (← inodeReopen (← derefDir dir).inode))

def dirGetInode (dir : Ptr) : FsM Ptr := do return (← derefDir dir).inode

/-! ## Entries -/

/-- More entries than the directory has. -/
def dirFuel (inode : Ptr) : FsM Nat := do return (← inodeLength inode).toNat / dirEntrySize + 2

/-- `inode_read_at` of a `struct dir_entry`: the entry, unless the read is short. -/
def readEntry (inode : Ptr) (ofs : Int) : FsM (Option DirEntry) := do
  let bytes ← inodeReadAt inode dirEntrySize ofs
  pure (if bytes.length = dirEntrySize then some (.ofBytes bytes) else none)

/-- The loops over a directory: the first entry from `ofs` on that is `want`ed,
if there is one, and the offset where the loop ends. -/
def scanEntries (inode : Ptr) (want : DirEntry → Bool) : Nat → Int → FsM (Option DirEntry × Int)
  | 0, ofs => pure (none, ofs)
  | fuel + 1, ofs => do
    match ← readEntry inode ofs with
    | none => pure (none, ofs)
    | some e => if want e then pure (some e, ofs) else scanEntries inode want fuel (ofs + dirEntrySize)

/-- `lookup`: the entry and its offset. -/
def lookup (dir : Ptr) (name : CString) : FsM (Option DirEntry × Int) := do
  let d ← derefDir dir
  scanEntries d.inode (fun e => e.inUse && e.cname = name) (← dirFuel d.inode) dirEntrySize

def dirIsEmpty (dir : Ptr) : FsM Bool := do
  let d ← derefDir dir
  return (← scanEntries d.inode DirEntry.inUse (← dirFuel d.inode) dirEntrySize).1.isNone

/-- A name that stands for a directory, not looked up among the entries. -/
def IsDots (name : CString) : Prop := name = [dot] ∨ name = [dot, dot]

instance (name : CString) : Decidable (IsDots name) := inferInstanceAs (Decidable (_ ∨ _))

/-- `dir_lookup`: the inode of the file with the name. -/
def dirLookup (dir : Ptr) (name : CString) : FsM (Option Ptr) := do
  let d ← derefDir dir
  if name = [dot] then return some (← inodeReopen d.inode)
  else if name = [dot, dot] then do
    -- after a short read the entry is not set
    let e ← Cmd.ofOption (← readEntry d.inode 0)
    return some (← inodeOpen e.inodeSector)
  else do
    match (← lookup dir name).1 with
    | some e => return some (← inodeOpen e.inodeSector)
    | none => return none

/-- The loop of `dir_open_path`. -/
def openPath (curr : Option Ptr) : List CString → FsM (Option Ptr)
  | [] => pure curr
  | token :: rest => do
    let p ← Cmd.ofOption curr
    match ← dirLookup p token with
    | none => do
      dirClose curr
      pure none
    | some inode => do
      let next ← dirOpen (some inode)
      dirClose curr
      openPath next rest

def dirOpenPath (path : CString) : FsM (Option Ptr) := do
  let curr ← (if path.head? = some slash then dirOpenRoot
    else do
      match (← Cmd.getState).cwd with
      | none => dirOpenRoot
      | some cwd => dirReopen cwd)
  match ← openPath curr (tokens path) with
  | none => pure none
  | some p => do
    if ← inodeIsRemoved (← dirGetInode p) then do
      dirClose (some p)
      pure none
    else pure (some p)

/-- `dir_create` -/
def dirCreate (sector : BlockSector) (entryCnt : Nat) : FsM Bool := do
  if !(← inodeCreate sector (entryCnt * dirEntrySize : Nat) true) then pure false
  else do
    let dir ← dirOpen (some (← inodeOpen sector))
    let p ← Cmd.ofOption dir
    let e : DirEntry := { inodeSector := sector, name := [], inUse := true }
    let n ← inodeWriteAt (← dirGetInode p) e.toBytes 0
    dirClose dir
    pure (n = dirEntrySize)

/-- The part of `dir_add` for a directory: its parent entry. The name in it
is never set. -/
def dirAddParent (dir : Ptr) (inodeSector : BlockSector) : FsM Bool := do
  let childDir ← dirOpen (some (← inodeOpen inodeSector))
  let child ← Cmd.ofOption childDir
  let e : DirEntry :=
    { inodeSector := ← inodeGetInumber (← dirGetInode dir), name := [], inUse := true }
  let n ← inodeWriteAt (← dirGetInode child) e.toBytes 0
  dirClose childDir
  pure (n = dirEntrySize)

def dirAdd (dir : Ptr) (name : CString) (inodeSector : BlockSector) (isDir : Bool) : FsM Bool := do
  if name = [] ∨ nameMax < name.length then pure false
  else if (← lookup dir name).1.isSome then pure false
  else if !(← (if isDir then dirAddParent dir inodeSector else pure true)) then pure false
  else do
    let inode ← dirGetInode dir
    -- a free slot, or else the end of the last entry
    let (_, ofs) ← scanEntries inode (fun e => !e.inUse) (← dirFuel inode) 0
    let e : DirEntry := { inodeSector, name, inUse := true }
    let n ← inodeWriteAt inode e.toBytes ofs
    pure (n = dirEntrySize)

/-- `dir_remove` -/
def dirRemove (dir : Ptr) (name : CString) : FsM Bool := do
  match ← lookup dir name with
  | (none, _) => pure false
  | (some e, ofs) => do
    let inode ← inodeOpen e.inodeSector
    let deletable ← (if ← inodeIsDirectory inode then do
        let target ← dirOpen (some inode)
        let isEmpty ← dirIsEmpty (← Cmd.ofOption target)
        dirClose target
        pure isEmpty
      else pure true)
    let success ← (if !deletable then pure false
      else do
        let n ← inodeWriteAt (← dirGetInode dir) { e with inUse := false }.toBytes ofs
        if n ≠ dirEntrySize then pure false
        else do
          inodeRemove inode
          pure true)
    inodeClose (some inode)
    pure success

/-- The loop of `dir_readdir`. -/
def readdirLoop (dir : Ptr) : Nat → FsM (Option CString)
  | 0 => pure none
  | fuel + 1 => do
    let d ← derefDir dir
    match ← readEntry d.inode d.pos with
    | none => pure none
    | some e => do
      modifyDir dir fun d => { d with pos := d.pos + dirEntrySize }
      if e.inUse then pure (some e.cname) else readdirLoop dir fuel

/-- `dir_readdir`: the name of the next file. -/
def dirReaddir (dir : Ptr) : FsM (Option CString) := do
  readdirLoop dir (← dirFuel (← derefDir dir).inode)

/-! ## Handles on a mounted file system -/

section handles

variable {st : FsState} {v : Image} {q p : Ptr} {fm : InodeDisk} {L : List Owner}

theorem exec_dirOpen : (dirOpen (some p)).exec st v =
    some (some st.dirs.next, st.setDirs (st.dirs.alloc ⟨p, dirEntrySize, 1⟩), v) := rfl

theorem exec_dirClose_more {d : Dir} (hd : st.dirs.get p = some d) (hcnt : d.openCnt ≠ 1) :
    (dirClose (some p)).exec st v =
      some ((), st.setDirs (st.dirs.modify p fun d' => { d' with openCnt := d.openCnt - 1 }), v) := by
  have : ¬ d.openCnt - 1 = 0 := by omega
  simp [dirClose, derefDir, hd, modifyDir, this, FsState.setDirs]

theorem exec_dirClose_last {d : Dir} (hd : st.dirs.get p = some d) (hcnt : d.openCnt = 1) :
    (dirClose (some p)).exec st v =
      ((inodeClose (some d.inode)).exec (st.setDirs
        (st.dirs.modify p fun d' => { d' with openCnt := 0 })) v).map
        fun r => ((), (r.2.1.setDirs (r.2.1.dirs.free p)).setCwd none, r.2.2) := by
  simp only [dirClose, derefDir, hd, modifyDir, hcnt, Cmd.exec_bind, Cmd.exec_getState,
    Cmd.exec_ofOption,
    Option.map_some, Option.bind_some, Cmd.exec_modifyState, Int.sub_self, if_true]
  rw [Option.map_eq_bind]
  rfl

/-- A directory whose inode is gone cannot be read. -/
theorem exec_dirReaddir_stale {d : Dir} (hd : st.dirs.get p = some d)
    (hstale : st.openInodes.get d.inode = none) : (dirReaddir p).exec st v = none := by
  simp [dirReaddir, exec_derefDir, hd, dirFuel, inodeLength, exec_derefInode, hstale]

end handles

end MyShell.Fs

/-
Open files and the table of them (file.c).
-/
import MyShell.Fs.Mounted

namespace MyShell.Fs

open Storage

/-! ## Open files -/

/-- `file_open`; there is always memory. -/
def fileOpen (inode : Option Ptr) : FsM (Option Ptr) := do
  match inode with
  | some inode =>
    let s ← Cmd.getState
    Cmd.setState { s with files := s.files.alloc { inode, pos := 0, denyWrite := false } }
    pure (some s.files.next)
  | none =>
    inodeClose none
    pure none

def inodeAllowWrite (inode : Ptr) : FsM Unit := do
  let _ ← derefInode inode
  modifyInode inode fun i => { i with denyWriteCnt := i.denyWriteCnt - 1 }

def fileAllowWrite (file : Ptr) : FsM Unit := do
  let f ← derefFile file
  if f.denyWrite then do
    modifyFile file fun f => { f with denyWrite := false }
    inodeAllowWrite f.inode
  else pure ()

def fileClose (file : Option Ptr) : FsM Unit := do
  match file with
  | none => pure ()
  | some p =>
    fileAllowWrite p
    inodeClose (some (← derefFile p).inode)
    Cmd.modifyState fun s => { s with files := s.files.free p }

def fileGetInode (file : Ptr) : FsM Ptr := do return (← derefFile file).inode

/-- `file_read`: the bytes read. -/
def fileRead (file : Ptr) (size : Int) : FsM (List UInt8) := do
  let f ← derefFile file
  let bytes ← inodeReadAt f.inode size f.pos
  modifyFile file fun f => { f with pos := f.pos + bytes.length }
  pure bytes

/-- `file_write` of a whole buffer, whose last byte it sets to 0 first. An
empty buffer has no last byte. -/
def fileWrite (file : Ptr) (buffer : List UInt8) : FsM Int := do
  if buffer = [] then Cmd.fault
  else do
    let f ← derefFile file
    let bytesWritten ← inodeWriteAt f.inode (buffer.dropLast ++ [0]) f.pos
    modifyFile file fun f => { f with pos := f.pos + (bytesWritten - 2) }
    pure bytesWritten

def fileLength (file : Ptr) : FsM Int := do inodeLength (← derefFile file).inode

def fileSeek (file : Ptr) (newPos : Int) : FsM Unit := do
  let _ ← derefFile file
  modifyFile file fun f => { f with pos := newPos }

def fileTell (file : Ptr) : FsM Int := do return (← derefFile file).pos

/-! ## The file table -/

def initFileTable : FsM Unit := Cmd.modifyState fun s => { s with fileTable := [] }

def getFileByFname (fname : CString) : FsM (Option Ptr) := do
  let s ← Cmd.getState
  pure ((s.fileTable.find? fun e => e.fname = fname).map FileTableEntry.f)

def addToFileTable (file : Ptr) (fname : CString) : FsM Unit := do
  if (← getFileByFname fname).isSome then pure ()
  else Cmd.modifyState fun s => { s with fileTable := s.fileTable ++ [⟨fname, file⟩] }

/-- `remove_from_file_table`. The file is closed before its entry is taken
out. -/
def removeFromFileTable (fname : CString) : FsM Bool := do
  match ← getFileByFname fname with
  | none => pure false
  | some f =>
    fileClose (some f)
    Cmd.modifyState fun s => { s with fileTable := s.fileTable.eraseP fun e => e.fname = fname }
    pure true

end MyShell.Fs

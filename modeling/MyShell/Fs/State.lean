/-
The variables of the file system: the free map, the objects that inode.c,
file.c, directory.c and fsutil2.c allocate, and the globals that point to
them. A pointer to a freed object points to nothing, and following it is a
fault.
-/
import MyShell.Fs.Bitmap
import MyShell.Lib.Command
import MyShell.Lib.Heap

namespace MyShell.Fs

open Storage

/-- The bytes of a string, without the NUL at its end. -/
abbrev CString := List UInt8

/-- `struct inode`. It is in `open_inodes` as long as it is allocated. -/
structure Inode where
  sector : BlockSector
  openCnt : Int
  removed : Bool
  denyWriteCnt : Int
  data : InodeDisk

/-- `struct file` -/
structure File where
  inode : Ptr
  pos : Int
  denyWrite : Bool

/-- `struct dir` -/
structure Dir where
  inode : Ptr
  pos : Int
  openCnt : Int

/-- `struct file_table_entry` -/
structure FileTableEntry where
  fname : CString
  f : Ptr

/-- `struct FileInfo` -/
structure FileInfo where
  name : CString
  size : Nat
  content : List UInt8
  next : Option Ptr

/-- The file system's variables. `freeMap` is filled by `free_map_init`;
`openInodes` is front first. -/
structure FsState where
  freeMap : Bitmap
  freeMapFile : Option Ptr
  openInodes : Heap Inode
  files : Heap File
  dirs : Heap Dir
  cwd : Option Ptr
  fileTable : List FileTableEntry
  fileInfos : Heap FileInfo
  fileListHead : Option Ptr

namespace FsState

@[simps] def setFreeMap (s : FsState) (b : Bitmap) : FsState := { s with freeMap := b }

@[simps] def setFreeMapFile (s : FsState) (p : Option Ptr) : FsState := { s with freeMapFile := p }

@[simps] def setInodes (s : FsState) (h : Heap Inode) : FsState := { s with openInodes := h }

@[simps] def setFiles (s : FsState) (h : Heap File) : FsState := { s with files := h }

@[simps] def setDirs (s : FsState) (h : Heap Dir) : FsState := { s with dirs := h }

@[simps] def setCwd (s : FsState) (p : Option Ptr) : FsState := { s with cwd := p }

@[simps] def setFileTable (s : FsState) (l : List FileTableEntry) : FsState := { s with fileTable := l }

end FsState

/-- Code over the buffer cache with variables `S` of its own. -/
abbrev Disk (S α : Type) := Cmd BlockSector Sector S α

/-- The contents of all sectors. -/
abbrev Image := BlockSector → Sector

/-- Code of the file system. -/
abbrev FsM (α : Type) := Disk FsState α

/-! ## Following pointers -/

def derefInode (p : Ptr) : FsM Inode := do Cmd.ofOption ((← Cmd.getState).openInodes.get p)

def derefFile (p : Ptr) : FsM File := do Cmd.ofOption ((← Cmd.getState).files.get p)

def derefDir (p : Ptr) : FsM Dir := do Cmd.ofOption ((← Cmd.getState).dirs.get p)

def modifyInode (p : Ptr) (f : Inode → Inode) : FsM Unit :=
  Cmd.modifyState fun s => { s with openInodes := s.openInodes.modify p f }

def modifyFile (p : Ptr) (f : File → File) : FsM Unit :=
  Cmd.modifyState fun s => { s with files := s.files.modify p f }

def modifyDir (p : Ptr) (f : Dir → Dir) : FsM Unit :=
  Cmd.modifyState fun s => { s with dirs := s.dirs.modify p f }

/-- The data of the inode behind `free_map_file`. -/
def freeMapData : FsM (Option InodeDisk) := do
  match (← Cmd.getState).freeMapFile with
  | none => pure none
  | some p => do
    let inode ← derefInode (← derefFile p).inode
    pure (some inode.data)

/-- Code of free-map.c and inode.c that changes the free map and finds its
file through `free_map_file`. -/
def withFreeMap {α : Type} (m : Option InodeDisk → Disk Bitmap α) : FsM α := do
  let file ← freeMapData
  Cmd.zoom FsState.freeMap (fun b s => { s with freeMap := b }) (m file)

section exec

variable {st : FsState} {v : Image} {p : Ptr}

theorem exec_derefInode : (derefInode p).exec st v = (st.openInodes.get p).map fun i => (i, st, v) := by
  simp [derefInode]

theorem exec_derefFile : (derefFile p).exec st v = (st.files.get p).map fun f => (f, st, v) := by
  simp [derefFile]

theorem exec_derefDir : (derefDir p).exec st v = (st.dirs.get p).map fun d => (d, st, v) := by
  simp [derefDir]

theorem exec_modifyInode (f : Inode → Inode) :
    (modifyInode p f).exec st v = some ((), st.setInodes (st.openInodes.modify p f), v) := rfl

theorem exec_modifyDir (f : Dir → Dir) :
    (modifyDir p f).exec st v = some ((), st.setDirs (st.dirs.modify p f), v) := rfl

/-- The free map is kept in a file, whose inode has the data `fm` and is
open under the pointer `q`. -/
structure MapFile (st : FsState) (q : Ptr) (fm : InodeDisk) : Prop where
  file : ∃ p f, st.freeMapFile = some p ∧ st.files.get p = some f ∧ f.inode = q
  inode : ∃ i, st.openInodes.get q = some i ∧ i.data = fm ∧ i.sector = 0

theorem exec_withFreeMap {α : Type} {m : Option InodeDisk → Disk Bitmap α} {q : Ptr} {fm : InodeDisk}
    (h : MapFile st q fm) :
    (withFreeMap m).exec st v =
      ((m (some fm)).exec st.freeMap v).map fun r => (r.1, st.setFreeMap r.2.1, r.2.2) := by
  obtain ⟨p, f, hp, hf, rfl⟩ := h.file
  obtain ⟨i, hi, rfl, -⟩ := h.inode
  simp [withFreeMap, freeMapData, hp, derefFile, hf, derefInode, hi, FsState.setFreeMap]

theorem exec_withFreeMap_none {α : Type} {m : Option InodeDisk → Disk Bitmap α}
    (h : st.freeMapFile = none) : (withFreeMap m).exec st v =
      ((m none).exec st.freeMap v).map fun r => (r.1, st.setFreeMap r.2.1, r.2.2) := by
  simp [withFreeMap, freeMapData, h, FsState.setFreeMap]

end exec

end MyShell.Fs

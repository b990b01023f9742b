/-
The file system's calls (filesys.c), with the part of free-map.c that needs
files. A PANIC prints and goes on; the calls that make one answer whether
there was none.
-/
import MyShell.Fs.Directory

namespace MyShell.Fs

open Storage

/-- `FREE_MAP_SECTOR` -/
def freeMapSector : BlockSector := 0

/-- `MAX_FILES_IN_DIRECTORY` -/
abbrev maxFilesInDirectory : Nat := 1000

/-! ## The free map and its file -/

/-- `free_map_init`, for a device of `blockSize` sectors. -/
def freeMapInit (blockSize : Nat) : Bitmap :=
  bitmapMark (bitmapMark (bitmapCreate (blockSize - 1)) freeMapSector.toNat) rootDirSector.toNat

def numFreeSectors : FsM Nat := do
  let s ← Cmd.getState
  pure (bitmapCount s.freeMap 0 (bitmapSize s.freeMap) false)

/-- `free_map_create` -/
def freeMapCreate : FsM Bool := do
  let s ← Cmd.getState
  let created ← inodeCreate freeMapSector (bitmapFileSize s.freeMap) false
  let freeMapFile ← fileOpen (some (← inodeOpen freeMapSector))
  Cmd.modifyState fun s => { s with freeMapFile }
  let written ← withFreeMap fun file => do bitmapWrite (← Cmd.getState) (← Cmd.ofOption file)
  pure (created && written)

/-- `free_map_open` -/
def freeMapOpen : FsM Bool := do
  let freeMapFile ← fileOpen (some (← inodeOpen freeMapSector))
  Cmd.modifyState fun s => { s with freeMapFile }
  withFreeMap fun file => do
    match ← bitmapRead (← Cmd.getState) (← Cmd.ofOption file) with
    | none => pure false
    | some b => do
      Cmd.setState b
      pure true

def freeMapClose : FsM Unit := do fileClose (← Cmd.getState).freeMapFile

/-! ## The file system -/

def doFormat : FsM Bool := do
  let mapCreated ← freeMapCreate
  let rootCreated ← dirCreate rootDirSector maxFilesInDirectory
  freeMapClose
  pure (mapCreated && rootCreated)

/-- The variables before `filesys_init`. -/
def initialState : FsState where
  freeMap := []
  freeMapFile := none
  openInodes := .empty
  files := .empty
  dirs := .empty
  cwd := none
  fileTable := []
  fileInfos := .empty
  fileListHead := none

/-- `filesys_init`, but for `buffer_cache_init`. -/
def filesysInit (blockSize : Nat) (format : Bool) : FsM Bool := do
  Cmd.modifyState fun s => { s with openInodes := .empty, freeMap := freeMapInit blockSize }
  let formatted ← (if format then doFormat else pure true)
  let opened ← freeMapOpen
  initFileTable
  pure (formatted && opened)

def filesysCreate (path : CString) (initialSize : Int) (isDir : Bool) : FsM Bool := do
  let (_, fileName) := splitPathFilename path
  let dir ← dirOpenRoot
  let (success, inodeSector) ← (match dir with
    | none => pure (false, 0)
    | some dir => do
      match ← withFreeMap fun file => freeMapAllocate file 1 with
      | none => pure (false, (0 : BlockSector))
      | some inodeSector =>
        if ← inodeCreate inodeSector initialSize isDir then do
          let added ← dirAdd dir fileName inodeSector isDir
          pure (added, inodeSector)
        else pure (false, inodeSector))
  if !success && inodeSector != 0 then withFreeMap fun file => freeMapRelease file inodeSector 1
  else pure ()
  dirClose dir
  pure success

def filesysOpen (name : CString) : FsM (Option Ptr) := do
  if name = [] then pure none
  else do
    let (_, fileName) := splitPathFilename name
    match ← dirOpenRoot with
    | none => pure none
    | some dir => do
      let inode ← (if fileName ≠ [] then do
          let inode ← dirLookup dir fileName
          dirClose (some dir)
          pure inode
        else return some (← dirGetInode dir))
      match inode with
      | none => pure none
      | some inode => if ← inodeIsRemoved inode then pure none else fileOpen (some inode)

def filesysRemove (name : CString) : FsM Bool := do
  let (directory, fileName) := splitPathFilename name
  let dir ← dirOpenPath directory
  let success ← (match dir with
    | none => pure false
    | some dir => dirRemove dir fileName)
  dirClose dir
  pure success

end MyShell.Fs

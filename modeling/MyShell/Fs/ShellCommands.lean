/-
The shell's file commands (interpreter.c), with those of fsutil.c and
fsutil2.c that no other module needs: `ls`, `cat`, `fragmentation_degree` and
the rest of `recover`.
-/
import MyShell.Fs.Recover

namespace MyShell.Fs

open Storage

/-! ## From source -/

/-- `fsutil_ls`: the names printed; none where it answers 1. -/
def fsutilLs : FsM (Option (List CString)) := do
  match ← dirOpenRoot with
  | none => pure none
  | some dir => do
    let names ← readdirAll dir
    dirClose (some dir)
    pure (some names)

/-- The loop of `fsutil_cat`: what it dumps, each time with the position before
it. A round reads a byte at least. -/
def catLoop (file : Ptr) (fileSize : Int) : Nat → FsM (List (Int × List UInt8))
  | 0 => pure []
  | fuel + 1 => do
    let pos ← fileTell file
    let bytes ← fileRead file fileSize
    if bytes = [] then pure []
    else return (pos, bytes) :: (← catLoop file fileSize fuel)

def fsutilCat (fileName : CString) : FsM (Option (List (Int × List UInt8))) := do
  let opened := (← getFileByFname fileName).isNone
  match ← openFname fileName with
  | none => pure none
  | some file => do
    let curOffset ← fileTell file
    fileSeek file 0
    let fileSize ← fileLength file
    let dumped ← catLoop file fileSize (fileSize.toNat + 1)
    fileSeek file curOffset
    if opened then do
      let _ ← removeFromFileTable fileName
    else pure ()
    pure (some dumped)

/-- The loop of `fragmented_file`, over the pairs that are left. Entries that
were never filled have no value to compare. -/
def fragmentedLoop : Nat → List BlockSector → FsM Bool
  | 0, _ => pure false
  | rounds + 1, sector :: next :: sectors =>
    if next - sector > 3 then pure true else fragmentedLoop rounds (next :: sectors)
  | _ + 1, _ => Cmd.fault

def fragmentedFile (inode : Ptr) : FsM Bool := do
  let length ← inodeLength inode
  let numSectors := bytesToSectors length.toNat
  -- a length below -1022 is a large `size_t` of sectors
  if -1023 < length ∧ numSectors ≤ 1 then pure false
  else do
    let sectors ← Cmd.ofOption (← getInodeDataSectors (← derefInode inode).data)
    fragmentedLoop (numSectors - 1) sectors

/-- The body of the loop of `fragmentation_degree`: whether the file is fragmented, if it is counted. -/
def countFile (name : CString) : FsM (List Bool) := do
  match ← filesysOpen name with
  | none => pure []
  | some file => do
    let fragmented ← fragmentedFile (← fileGetInode file)
    fileClose (some file)
    pure [fragmented]

def fragmentationDegree : FsM (Option (Nat × Nat)) := do
  match ← dirOpenRoot with
  | none => pure none
  | some dir => do
    let files ← forEachName dir countFile
    dirClose (some dir)
    pure (some (files.length, files.count true))

def decimal (n : Nat) : CString := (Nat.toDigits 10 n).map fun c => .ofNat c.toNat

def recovered0Name (sector : BlockSector) : CString :=
  [114, 101, 99, 111, 118, 101, 114, 101, 100, 48, 45] ++ decimal sector.toNat

def recovered1Name (sector : BlockSector) : CString :=
  [114, 101, 99, 111, 118, 101, 114, 101, 100, 49, 45] ++ decimal sector.toNat ++ [46, 116, 120, 116]

/-- `bitmap_flip` of `free_map`; there are no bits behind its last word. -/
def freeMapFlip (sector : BlockSector) : FsM Unit := do
  if sector.toNat < 8 * bitmapFileSize (← Cmd.getState).freeMap then
    Cmd.modifyState fun s => s.setFreeMap (bitmapFlip s.freeMap sector.toNat)
  else Cmd.fault

/-- The loop over the direct blocks. There are as many sectors as the file has,
and nothing can be read behind them. -/
def flipSectors (directSectors : List BlockSector) : List Nat → FsM Unit
  | [] => pure ()
  | j :: rest => do
    let sector ← Cmd.ofOption directSectors[j]?
    if sector ≠ 0 then freeMapFlip sector else pure ()
    flipSectors directSectors rest

/-- The body of the loop of `recover (0)` for a free sector: the name, if it
could not be entered. The name's buffer is of 14 bytes. -/
def recoverSector (sector : BlockSector) : FsM (List CString) := do
  let inode ← inodeOpen sector
  let directSectors ← getInodeDataSectors (← derefInode inode).data
  if (← derefInode inode).data.magic = inodeMagic then do
    flipSectors (← Cmd.ofOption directSectors) (List.range directBlocksCount)
    freeMapFlip sector
    if 14 ≤ (recovered0Name sector).length then Cmd.fault
    else do
      let dir ← Cmd.ofOption (← dirOpenRoot)
      let added ← dirAdd dir (recovered0Name sector) sector (← derefInode inode).data.isDir
      inodeClose (some inode)
      pure (if added then [] else [recovered0Name sector])
  else do
    inodeClose (some inode)
    pure []

def recover0Loop : List Nat → FsM (List CString)
  | [] => pure []
  | i :: rest => do
    let failed ← (if bitmapTest (← Cmd.getState).freeMap i then pure [] else recoverSector (.ofNat i))
    return failed ++ (← recover0Loop rest)

/-- `recover (0)`: the names that it could not add. -/
def recover0 : FsM (List CString) := do recover0Loop (List.range (bitmapSize (← Cmd.getState).freeMap))

abbrev startSector : Nat := 4

def recover1Loop (writable : CString → Bool) : List Nat → FsM (List Recovered)
  | [] => pure []
  | i :: rest => do
    let sector := UInt32.ofNat i
    let buffer ← Cmd.read sector
    let bytes := buffer.slice 0 blockSectorSize
    let recovered :=
      if bytes.any (· ≠ 0) then
        if writable (recovered1Name sector) then
          [.file (recovered1Name sector) (bytes.takeWhile (· ≠ 0))]
        else [.failed (recovered1Name sector)]
      else []
    return recovered ++ (← recover1Loop writable rest)

def recover1 (writable : CString → Bool) : FsM (List Recovered) := do
  let size := bitmapSize (← Cmd.getState).freeMap
  recover1Loop writable ((List.range size).drop startSector)

/-- The commands that list the files or work on them. -/
inductive ShellCommand where
  | ls
  | cat (fileName : CString)
  | size (fileName : CString)
  | read (fileName : CString) (bytes : Int)
  | write (fileName : CString) (args : List CString)
  | create (fileName : CString) (isize : Int)
  | rm (fileName : CString)
  | findFile (pattern : CString)
  | fragmentationDegree
  | recover (flag : Int)

/-- The command is run, for what it leaves. The host lets some files be written. -/
def ShellCommand.run (writable : CString → Bool) : ShellCommand → FsM Unit
  | .ls => do let _ ← fsutilLs
  | .cat fileName => do let _ ← fsutilCat fileName
  | .size fileName => do let _ ← fsutilSize fileName
  | .read fileName bytes => do let _ ← readCommand fileName bytes
  | .write fileName args => do let _ ← writeCommand (fileName :: args)
  | .create fileName isize => do let _ ← fsutilCreate fileName isize
  | .rm fileName => do let _ ← fsutilRm fileName
  | .findFile pattern => do let _ ← Fs.findFile pattern
  | .fragmentationDegree => do let _ ← Fs.fragmentationDegree
  | .recover flag =>
    if flag = 0 then do let _ ← recover0
    else if flag = 1 then do let _ ← recover1 writable
    else if flag = 2 then do let _ ← recover2 writable
    else pure ()

end MyShell.Fs

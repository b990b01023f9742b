/-
The free map (free-map.c): a bitmap with a bit for every sector, written back
to its file after every change.

The file's inode is a parameter, absent while the file is being created. Its
length is the bitmap's size, so a write-back stays in the sectors it has:
`FileOk` says so, and allocation (`exec_freeMapAllocate`) and release
(`exec_freeMapRelease`) then touch the data sectors of the file only.
-/
import MyShell.Fs.Bitmap
import MyShell.Fs.InodeData

namespace MyShell.Fs

open Storage BlockTree

variable {S : Type}

/-! ## From source -/

/-- `bitmap_write`. A free-map file too short for the bitmap would grow, and
allocate while it allocates: a fault here. -/
def bitmapWrite (b : Bitmap) (file : InodeDisk) : Disk S Bool := do
  let size := bitmapFileSize b
  if (← byteToSector file (size - 1)) = noSector then Cmd.fault
  else do
    let written ← writeLoop file size (bitmapBytes b) 0
    pure (written = size)

/-- `bitmap_read`: the bitmap read, or `none` on failure. -/
def bitmapRead (b : Bitmap) (file : InodeDisk) : Disk S (Option Bitmap) := do
  let size := bitmapFileSize b
  let bytes ← readAt file size 0
  pure (if bytes.length = size then some (bitmapOfBytes b.length bytes) else none)

def freeMapAllocate (freeMapFile : Option InodeDisk) (cnt : Nat) :
    Disk Bitmap (Option BlockSector) := do
  let freeMap ← Cmd.getState
  match bitmapScanAndFlip freeMap 0 cnt false with
  | none => pure none
  | some (sector, freeMap) =>
    Cmd.setState freeMap
    match freeMapFile with
    | none => pure (some (.ofNat sector))
    | some file =>
      if ← bitmapWrite freeMap file then pure (some (.ofNat sector))
      else do
        Cmd.setState (bitmapSetMultiple freeMap sector cnt false)
        pure none

/-- `free_map_release`. Sectors past the bitmap are outside its memory. -/
def freeMapRelease (freeMapFile : Option InodeDisk) (sector : BlockSector) (cnt : Nat) :
    Disk Bitmap Unit := do
  let freeMap ← Cmd.getState
  if sector.toNat + cnt ≤ freeMap.length then
    let freeMap := bitmapSetMultiple freeMap sector.toNat cnt false
    Cmd.setState freeMap
    let file ← Cmd.ofOption freeMapFile
    let _ ← bitmapWrite freeMap file
    pure ()
  else Cmd.fault

/-! ## The free-map file -/

/-- The file can take a bitmap of `n` bits in place, in the data sectors `F`,
found through the index sectors `P`. -/
structure FileOk (file : Option InodeDisk) (n : Nat) (F P : BlockSector → Prop) (v : Image) : Prop where
  direct : ∀ f ∈ file, f.directBlocks.length = 123
  distinct : ∀ f ∈ file, f.Distinct v
  covers : ∀ f ∈ file, f.Covers v f.length.toNat
  size : ∀ f ∈ file, byteCnt n ≤ f.length
  data : ∀ f ∈ file, ∀ i, 512 * i < f.length.toNat → F (f.sector v i)
  index : ∀ f ∈ file, ∀ s, f.IsIndex v s → P s
  disjoint : ∀ s, F s → ¬ P s
  ne_none : ∀ s, F s → s ≠ noSector
  pos : 0 < n

/-- The file's bytes are those of the bitmap. -/
def Holds (file : Option InodeDisk) (b : Bitmap) (v : Image) : Prop :=
  ∀ f ∈ file, ∀ pos < bitmapFileSize b, f.byte v pos = (bitmapBytes b).getD pos 0

variable {file : Option InodeDisk} {n : Nat} {F P : BlockSector → Prop} {v v' : Image} {b : Bitmap}

theorem FileOk.congr (h : FileOk file n F P v) (hv : ∀ s, P s → v' s = v s) : FileOk file n F P v' := by
  have hidx : ∀ f ∈ file, ∀ s, f.IsIndex v s → v' s = v s := fun f hf s hs => hv s (h.index f hf s hs)
  refine { h with distinct := ?_, covers := ?_, data := ?_, index := ?_ }
  · intro f hf s; rw [InodeDisk.occ_congr (hidx f hf)]; exact h.distinct f hf s
  · intro f hf i hi; rw [InodeDisk.sector_congr (hidx f hf)]; exact h.covers f hf i hi
  · intro f hf i hi; rw [InodeDisk.sector_congr (hidx f hf)]; exact h.data f hf i hi
  · intro f hf s hs; exact h.index f hf s ((InodeDisk.index_congr (hidx f hf) s).1 hs)

theorem Holds.congr (h : FileOk file b.length F P v) (hb : Holds file b v)
    (hv : ∀ s, P s ∨ F s → v' s = v s) : Holds file b v' := by
  intro f hf pos hpos
  have hidx : ∀ s, f.IsIndex v s → v' s = v s := fun s hs => hv s (.inl (h.index f hf s hs))
  rw [← hb f hf pos hpos, InodeDisk.byte, InodeDisk.byte, InodeDisk.sector_congr hidx, hv]
  have := h.size f hf
  simp only [bitmapFileSize] at hpos
  exact .inr (h.data f hf _ (by omega))

theorem byteCnt_pos (h : 0 < n) : 0 < byteCnt n := by simp only [byteCnt, divRoundUp]; omega

theorem exec_bitmapWrite (h : FileOk file b.length F P v) {f : InodeDisk} (hf : f ∈ file) (s : S) :
    ∃ v', (bitmapWrite b f).exec s v = some (true, s, v') ∧ (∀ t, ¬ F t → v' t = v t) ∧
      Holds file b v' := by
  have hsize := h.size f hf
  have hpos := byteCnt_pos h.pos
  obtain ⟨v', hexec, hframe, hbytes⟩ := exec_writeLoop (h.direct f hf) (h.distinct f hf)
    (h.covers f hf) s
    (bitmapFileSize b) (bitmapBytes b) 0 (by simp) (by simp [bitmapFileSize]; omega)
  have hF : ∀ i, 512 * i < f.length.toNat → F (f.sector v i) := h.data f hf
  have hlast : (if 0 ≤ (bitmapFileSize b : Int) - 1 ∧ (bitmapFileSize b : Int) - 1 < f.length then
      sectorAt v f (((bitmapFileSize b : Int) - 1).toNat / 512) else noSector) ≠ noSector := by
    have hi : 512 * (((bitmapFileSize b : Int) - 1).toNat / 512) < f.length.toNat := by
      simp only [bitmapFileSize]; omega
    rw [if_pos (by simp only [bitmapFileSize]; omega), sectorAt_eq (h.direct f hf) (h.covers f hf _ hi)]
    exact h.ne_none _ (hF _ hi)
  refine ⟨v', ?_, fun t ht => hframe t fun i h₁ h₂ => ?_, ?_⟩
  · rw [bitmapWrite]
    simp only [Cmd.exec_bind, exec_byteToSector_some, Option.bind_some]
    rw [if_neg hlast]
    simp only [Cmd.exec_bind]
    rw [show ((0 : Nat) : Int) = 0 from rfl] at hexec
    rw [hexec]
    simp [bitmapFileSize]
  · rintro rfl
    refine ht (hF i ?_)
    simp only [length_bitmapBytes, bitmapFileSize] at h₂
    omega
  · intro g hg pos hpos
    obtain rfl : f = g := by rw [Option.mem_def] at hf hg; rw [hf] at hg; exact Option.some.inj hg
    have hc := h.covers f hf (pos / 512) (by simp only [bitmapFileSize] at hpos; omega)
    rw [hbytes pos hc, if_pos (by simp only [length_bitmapBytes]; omega)]
    rfl

/-- **Allocation.** `free_map_allocate` of one sector fails exactly when no
bit is clear, and else takes the lowest clear bit; it writes to the free-map
file's data only. -/
theorem exec_freeMapAllocate (h : FileOk file b.length F P v) (hb : b.length < 2 ^ 32) :
    (freeCount b = 0 ∧ (freeMapAllocate file 1).exec b v = some (none, b, v)) ∨
    ∃ s b' v', (freeMapAllocate file 1).exec b v = some (some s, b', v') ∧ Takes b b' [s] ∧
      (∀ t, ¬ F t → v' t = v t) ∧ Holds file b' v' := by
  rcases bitmapScanAndFlip_one b with ⟨hscan, hfree⟩ | ⟨i, hscan, hi, hclear, -⟩
  · refine .inl ⟨hfree, ?_⟩
    simp [freeMapAllocate, hscan]
  · refine .inr ?_
    have htakes := Takes.one (by omega) hi hclear
    cases file with
    | none =>
      refine ⟨_, _, v, ?_, htakes, fun _ _ => rfl, by simp [Holds]⟩
      simp [freeMapAllocate, hscan]
    | some f =>
      have h' : FileOk (some f) (b.set i true).length F P v := by rw [List.length_set]; exact h
      obtain ⟨v', hexec, hframe, hholds⟩ := exec_bitmapWrite h' (Option.mem_some_self f) (b.set i true)
      refine ⟨_, _, v', ?_, htakes, hframe, hholds⟩
      simp [freeMapAllocate, hscan, hexec]

/-- **Release.** `free_map_release` clears the sector's bit; it writes to the
free-map file's data only. -/
theorem exec_freeMapRelease (h : FileOk file b.length F P v) {f : InodeDisk} (hf : f ∈ file)
    {s : BlockSector} (hs : s.toNat < b.length) :
    ∃ v', (freeMapRelease file s 1).exec b v = some ((), b.set s.toNat false, v') ∧
      (∀ t, ¬ F t → v' t = v t) ∧ Holds file (b.set s.toNat false) v' := by
  have h' : FileOk file (b.set s.toNat false).length F P v := by rw [List.length_set]; exact h
  obtain ⟨v', hexec, hframe, hholds⟩ := exec_bitmapWrite h' hf (b.set s.toNat false)
  refine ⟨v', ?_, hframe, hholds⟩
  rw [Option.mem_def] at hf
  subst hf
  simp only [freeMapRelease, Cmd.exec_bind, Cmd.exec_getState, Option.bind_some]
  rw [if_pos (Nat.succ_le_of_lt hs)]
  simp [hexec]

end MyShell.Fs

/-
The bytes of an inode (inode.c): which sector holds a byte, and the loops
that read and write a range of bytes.

An inode's sectors are a forest (`InodeDisk.roots`): 123 data sectors and two
trees. Where no sector occurs in it twice, a write changes the bytes of its
range and nothing else (`exec_writeLoop`), and a read returns the bytes of its
range (`exec_readLoop`).
-/
import MyShell.Fs.State
import MyShell.Lib.BlockTree

namespace MyShell.Fs

open Storage BlockTree

/-- Index sectors: 0 is "not allocated". -/
def layout : Layout BlockSector Sector where
  null := 0
  width := indirectBlocksPerSector
  width_pos := by decide
  children := Sector.blocks
  length_children := Sector.length_blocks

@[simp] theorem layout_null : layout.null = 0 := rfl

@[simp] theorem layout_width : layout.width = 128 := rfl

@[simp] theorem layout_children : layout.children = Sector.blocks := rfl

/-- `block_sector_t` of no sector. -/
def noSector : BlockSector := 0xFFFFFFFF

theorem noSector_toNat : noSector.toNat = 2 ^ 32 - 1 := rfl

variable {S : Type}

/-! ## From source -/

/-- `bytes_to_sectors` -/
def bytesToSectors (size : Nat) : Nat := divRoundUp size blockSectorSize

def indexToSector (idisk : InodeDisk) (index : Nat) : Disk S BlockSector :=
  if index < directBlocksCount then pure (idisk.directBlocks.getD index 0)
  else if index < directBlocksCount + indirectBlocksPerSector then do
    let indirectIdisk ← Cmd.read idisk.indirectBlock
    pure (indirectIdisk.word (index - directBlocksCount))
  else if index < directBlocksCount + indirectBlocksPerSector +
      indirectBlocksPerSector * indirectBlocksPerSector then do
    let indexBase := directBlocksCount + indirectBlocksPerSector
    let first ← Cmd.read idisk.doublyIndirectBlock
    let second ← Cmd.read (first.word ((index - indexBase) / indirectBlocksPerSector))
    pure (second.word ((index - indexBase) % indirectBlocksPerSector))
  else pure noSector

def byteToSector (data : InodeDisk) (pos : Int) : Disk S BlockSector :=
  if 0 ≤ pos ∧ pos < data.length then indexToSector data (pos.toNat / blockSectorSize)
  else pure noSector

/-- The loop of `inode_read_at`, for at most `fuel` sectors: the bytes it
puts in the buffer. A full sector is read past the bounce buffer, which makes
no difference; a negative offset is a copy from before the bounce buffer. -/
def readLoop (data : InodeDisk) : Nat → Int → Int → Disk S (List UInt8)
  | 0, _, _ => pure []
  | fuel + 1, size, offset =>
    if size ≤ 0 then pure []
    else do
      let sectorIdx ← byteToSector data offset
      let sectorOfs := offset.tmod blockSectorSize
      let minLeft := min (data.length - offset) (blockSectorSize - sectorOfs)
      let chunkSize := min size minLeft
      if chunkSize ≤ 0 then pure []
      else if offset < 0 then Cmd.fault
      else do
        let bounce ← Cmd.read sectorIdx
        let rest ← readLoop data fuel (size - chunkSize) (offset + chunkSize)
        pure (bounce.slice sectorOfs.toNat chunkSize.toNat ++ rest)

/-- `inode_read_at`: the bytes read; their number is what it returns. -/
def readAt (data : InodeDisk) (size offset : Int) : Disk S (List UInt8) :=
  readLoop data size.toNat size offset

/-- The sector written in one round of the loop of `inode_write_at`. -/
def writeChunk (sectorIdx : BlockSector) (sectorOfs : Int) (chunk : List UInt8) : Disk S Unit :=
  if sectorOfs = 0 ∧ (chunk.length : Int) = blockSectorSize then
    Cmd.write sectorIdx (Sector.zeros.splice 0 chunk)
  else do
    let sectorLeft := blockSectorSize - sectorOfs
    let bounce ← (if sectorOfs > 0 ∨ (chunk.length : Int) < sectorLeft then Cmd.read sectorIdx
      else pure Sector.zeros)
    Cmd.write sectorIdx (bounce.splice sectorOfs.toNat chunk)

/-- The loop of `inode_write_at`, for at most `fuel` sectors: the number of
bytes written. -/
def writeLoop (data : InodeDisk) : Nat → List UInt8 → Int → Disk S Int
  | 0, _, _ => pure 0
  | fuel + 1, buffer, offset =>
    if (buffer.length : Int) ≤ 0 then pure 0
    else do
      let sectorIdx ← byteToSector data offset
      let sectorOfs := offset.tmod blockSectorSize
      let sectorLeft := blockSectorSize - sectorOfs
      let minLeft := min (data.length - offset) sectorLeft
      let chunkSize := min (buffer.length : Int) minLeft
      if chunkSize ≤ 0 then pure 0
      else if offset < 0 then Cmd.fault
      else do
        writeChunk sectorIdx sectorOfs (buffer.take chunkSize.toNat)
        let rest ← writeLoop data fuel (buffer.drop chunkSize.toNat) (offset + chunkSize)
        pure (chunkSize + rest)

/-! ## The sectors of an inode -/

namespace InodeDisk

/-- The inode's sectors: data sectors, and the trees under its index sectors. -/
def roots (d : InodeDisk) : Forest BlockSector :=
  level 0 d.directBlocks ++ [(1, d.indirectBlock), (2, d.doublyIndirectBlock)]

/-- The sector of the inode's bytes from `512 * i` on; 0 where there is none. -/
def sector (v : Image) (d : InodeDisk) (i : Nat) : BlockSector := dataF layout v d.roots i

/-- Byte `pos` of the inode. -/
def byte (v : Image) (d : InodeDisk) (pos : Nat) : UInt8 :=
  (v (d.sector v (pos / 512))).byte (pos % 512)

/-- How often a sector is one of the inode's. -/
def occ (v : Image) (d : InodeDisk) (s : BlockSector) : Nat := occF layout v d.roots s

/-- The inode's sectors. -/
def blocks (v : Image) (d : InodeDisk) : List BlockSector := blocksF layout v d.roots

/-- The inode's index sectors. -/
def IsIndex (v : Image) (d : InodeDisk) (s : BlockSector) : Prop := IsIndexF layout v d.roots s

/-- The number of sectors an inode can have data in. -/
abbrev maxSectors : Nat := 123 + 128 + 128 * 128

theorem capacity_roots {d : InodeDisk} (h : d.directBlocks.length = 123) :
    capacity layout d.roots = maxSectors := by
  simp [roots, h]

theorem sector_of_le {v : Image} {d : InodeDisk} (h : d.directBlocks.length = 123) {i : Nat}
    (hi : maxSectors ≤ i) : d.sector v i = 0 := dataF_of_le (by rw [capacity_roots h]; exact hi)

end InodeDisk

/-- The sector `index_to_sector` returns. -/
def sectorAt (v : Image) (idisk : InodeDisk) (index : Nat) : BlockSector :=
  if index < 123 then idisk.directBlocks.getD index 0
  else if index < 251 then (v idisk.indirectBlock).word (index - 123)
  else if index < InodeDisk.maxSectors then
    (v ((v idisk.doublyIndirectBlock).word ((index - 251) / 128))).word ((index - 251) % 128)
  else noSector

@[simp] theorem exec_indexToSector (d : InodeDisk) (i : Nat) (s : S) (v : Image) :
    (indexToSector d i).exec s v = some (sectorAt v d i, s, v) := by
  have h₂' : i < 251 ↔ i < directBlocksCount + indirectBlocksPerSector := .rfl
  simp only [indexToSector, sectorAt, h₂']
  split
  · rfl
  · split
    · simp
    · rename_i h₁ h₂
      by_cases h₃ : i < InodeDisk.maxSectors
      · rw [if_pos h₃, if_pos h₃]; simp; rfl
      · rw [if_neg h₃, if_neg h₃]; rfl

theorem exec_byteToSector_none {d : InodeDisk} {pos : Int} (h : ¬ (0 ≤ pos ∧ pos < d.length))
    (s : S) (v : Image) : (byteToSector d pos).exec s v = some (noSector, s, v) := by
  simp [byteToSector, h]

theorem exec_byteToSector_some (d : InodeDisk) (pos : Int) (s : S) (v : Image) :
    (byteToSector d pos).exec s v =
      some (if 0 ≤ pos ∧ pos < d.length then sectorAt v d (pos.toNat / 512) else noSector, s, v) := by
  simp only [byteToSector, Cmd.exec_ite, exec_indexToSector, Cmd.exec_pure]
  split <;> rfl

theorem dataF_leaves {v : Image} (qs : List BlockSector) (i : Nat) :
    dataF layout v (level 0 qs) i = qs.getD i 0 := by
  induction qs generalizing i with
  | nil => simp [dataF]
  | cons q qs ih =>
    simp only [level_cons, dataF, ih, Nat.pow_zero, data]
    cases i with
    | zero => simp
    | succ i => simp

theorem dataF_level {v : Image} (l : Nat) (qs : List BlockSector) (i : Nat) :
    dataF layout v (level l qs) i = data layout v l (qs.getD (i / 128 ^ l) 0) (i % 128 ^ l) := by
  induction qs generalizing i with
  | nil =>
    simp only [level_nil, dataF, List.getD_nil]
    exact data_null.symm
  | cons q qs ih =>
    simp only [level_cons, dataF, ih, layout_width]
    have hpos : 0 < 128 ^ l := Nat.pow_pos (by decide)
    split
    · rename_i hi
      rw [Nat.div_eq_of_lt hi, Nat.mod_eq_of_lt hi]; rfl
    · rename_i hi
      obtain ⟨k, rfl⟩ := Nat.exists_eq_add_of_le (Nat.le_of_not_lt hi)
      rw [Nat.add_sub_cancel_left, Nat.add_mod_left, Nat.add_div_left _ hpos]
      rfl

theorem getD_blocks (s : Sector) {k : Nat} (hk : k < 128) : s.blocks.getD k 0 = s.word k := by
  rw [List.getD_eq_getElem?_getD, List.getElem?_eq_getElem (by simpa using hk), Option.getD_some]
  simp [Sector.blocks]

/-- Where the inode has a sector, `index_to_sector` finds it. -/
theorem sectorAt_eq {v : Image} {d : InodeDisk} (hd : d.directBlocks.length = 123) {i : Nat}
    (h : d.sector v i ≠ 0) : sectorAt v d i = d.sector v i := by
  have hi : i < InodeDisk.maxSectors := by
    by_contra hi
    exact h (InodeDisk.sector_of_le hd (Nat.le_of_not_lt hi))
  simp only [InodeDisk.sector, InodeDisk.roots, dataF_append, capacity_level, hd, layout_width,
    Nat.pow_zero, Nat.mul_one, dataF_leaves] at h ⊢
  rw [sectorAt]
  split
  · rfl
  rename_i h123
  simp only [dataF, layout_width, Nat.pow_one, h123, if_false] at h ⊢
  by_cases h251 : i < 251
  · rw [if_pos h251, if_pos (by omega)]
    rw [if_pos (by omega)] at h
    have hp : d.indirectBlock ≠ layout.null := by intro hp; rw [hp] at h; exact h data_null
    rw [data_succ hp, layout_children, dataF_leaves, getD_blocks _ (by omega)]
  · have hlt : i - 123 - 128 < 128 ^ 2 := by simp only [InodeDisk.maxSectors] at hi; omega
    rw [if_neg h251, if_neg (by omega), if_pos hlt]
    rw [if_neg (by omega), if_pos hlt] at h
    have hp : d.doublyIndirectBlock ≠ layout.null := by intro hp; rw [hp] at h; exact h data_null
    rw [data_succ hp, layout_children, dataF_level, Nat.pow_one, getD_blocks _ (by omega)] at h ⊢
    rw [show i - 251 = i - 123 - 128 by omega]
    generalize hq : (v d.doublyIndirectBlock).word ((i - 123 - 128) / 128) = q at h ⊢
    have hq' : q ≠ layout.null := by rintro rfl; exact h data_null
    rw [data_succ hq', layout_children, dataF_leaves, getD_blocks _ (Nat.mod_lt _ (by decide))]

/-! ## Reading -/

theorem lt_bytesToSectors {i n : Nat} : i < bytesToSectors n ↔ 512 * i < n := by
  simp only [bytesToSectors, divRoundUp, blockSectorSize]; omega

/-- The inode has a sector for each of its first `n` bytes. -/
def InodeDisk.Covers (v : Image) (d : InodeDisk) (n : Nat) : Prop := ∀ i, 512 * i < n → d.sector v i ≠ 0

theorem tmod_sector (ofs : Nat) : (ofs : Int).tmod 512 = (ofs % 512 : Nat) := by
  rw [Int.natCast_mod, Int.tmod_eq_emod_of_nonneg (by omega)]; rfl

/-- The byte that `inode_read_at` finds, whether or not there is a sector for it. -/
def InodeDisk.found (v : Image) (d : InodeDisk) (pos : Nat) : UInt8 :=
  (v (sectorAt v d (pos / 512))).byte (pos % 512)

theorem exec_readLoop_found (d : InodeDisk) (v : Image) (s : S) (fuel : Nat) (size : Int)
    (ofs : Nat) (hf : size.toNat ≤ fuel) : (readLoop d fuel size ofs).exec s v =
      some ((List.range (min size (d.length - ofs)).toNat).map fun j => d.found v (ofs + j), s, v) := by
  induction fuel generalizing size ofs with
  | zero =>
    rw [show (min size (d.length - ofs)).toNat = 0 by omega]
    rfl
  | succ fuel ih =>
    rw [readLoop]
    by_cases hs : size ≤ 0
    · rw [if_pos hs, show (min size (d.length - ofs)).toNat = 0 by omega]
      rfl
    rw [if_neg hs]
    simp only [blockSectorSize, Int.cast_ofNat_Int, Cmd.exec_bind, exec_byteToSector_some,
      Option.bind_some, tmod_sector]
    by_cases hlen : d.length ≤ ofs
    · rw [if_pos (by omega), show (min size (d.length - ofs)).toNat = 0 by omega]
      rfl
    rw [if_neg (by omega), if_neg (by omega), if_pos (by omega)]
    -- one sector, then the rest of the range
    obtain ⟨c, hcs⟩ : ∃ c : Nat, min size (min (d.length - ofs) (512 - (ofs % 512 : Nat))) = c :=
      ⟨_, (Int.toNat_of_nonneg (by omega)).symm⟩
    simp only [hcs, Cmd.exec_bind, Cmd.exec_read, Option.bind_some, Int.toNat_natCast]
    rw [← Int.natCast_add, ih (size - c) (ofs + c) (by omega)]
    simp only [Option.bind_some, Cmd.exec_pure]
    have hsplit : (min size (d.length - ofs)).toNat =
        c + (min (size - c) (d.length - (ofs + c : Nat))).toNat := by
      omega
    rw [hsplit, List.range_add, List.map_append, List.map_map]
    congr 3
    · simp only [Sector.slice]
      apply List.map_congr_left
      intro j hj
      rw [List.mem_range] at hj
      rw [InodeDisk.found, show (ofs + j) / 512 =
        ofs / 512 by omega, show (ofs + j) % 512 = ofs % 512 + j by omega]
    · apply List.map_congr_left
      intro j _
      simp only [Function.comp_apply, Nat.add_assoc]

theorem exec_readLoop {d : InodeDisk} {v : Image} (hd : d.directBlocks.length = 123)
    (hc : d.Covers v d.length.toNat) (s : S) (fuel : Nat) (size : Int) (ofs : Nat)
    (hf : size.toNat ≤ fuel) : (readLoop d fuel size ofs).exec s v =
      some ((List.range (min size (d.length - ofs)).toNat).map fun j => d.byte v (ofs + j), s, v) := by
  rw [exec_readLoop_found d v s fuel size ofs hf]
  congr 2
  refine List.map_congr_left fun j hj => ?_
  have hj := List.mem_range.1 hj
  rw [InodeDisk.found, sectorAt_eq hd (hc _ (by omega)), InodeDisk.byte]

theorem exec_readAt {d : InodeDisk} {v : Image} (hd : d.directBlocks.length = 123)
    (hc : d.Covers v d.length.toNat) (s : S) (size : Int) (ofs : Nat) :
    (readAt d size ofs).exec s v =
      some ((List.range (min size (d.length - ofs)).toNat).map fun j => d.byte v (ofs + j), s, v) :=
  exec_readLoop hd hc s _ size ofs (Nat.le_refl _)

/-! ## Writing in place -/

/-- No sector is in the inode twice. -/
def InodeDisk.Distinct (v : Image) (d : InodeDisk) : Prop := ∀ s, d.occ v s ≤ 1

section inPlace

variable {d : InodeDisk} {v : Image}

theorem InodeDisk.Distinct.inj (h : d.Distinct v) {i j : Nat} (hi : d.sector v i ≠ 0)
    (he : d.sector v i = d.sector v j) : i = j := dataF_inj h hi he

theorem InodeDisk.Distinct.not_index (h : d.Distinct v) {i : Nat} (hi : d.sector v i ≠ 0) :
    ¬ d.IsIndex v (d.sector v i) := not_indexF_dataF h hi

/-- Contents that agree on an inode's index sectors give it the same sectors. -/
theorem InodeDisk.sector_congr {v' : Image} (h : ∀ s, d.IsIndex v s → v' s = v s) (i : Nat) :
    d.sector v' i = d.sector v i := dataF_congr h i

theorem InodeDisk.occ_congr {v' : Image} (h : ∀ s, d.IsIndex v s → v' s = v s) (s : BlockSector) :
    d.occ v' s = d.occ v s := occF_congr h s

theorem InodeDisk.blocks_congr {v' : Image} (h : ∀ s, d.IsIndex v s → v' s = v s) :
    d.blocks v' = d.blocks v :=
  blocksF_congr h

theorem InodeDisk.mem_blocks {s : BlockSector} : s ∈ d.blocks v ↔ 1 ≤ d.occ v s := mem_blocksF

theorem InodeDisk.index_congr {v' : Image} (h : ∀ s, d.IsIndex v s → v' s = v s) (s : BlockSector) :
    d.IsIndex v' s ↔ d.IsIndex v s := indexF_congr h s

/-- A data sector's contents do not move the inode's sectors. -/
theorem InodeDisk.update_data (h : d.Distinct v) {i : Nat} (hi : d.sector v i ≠ 0) (b : Sector) :
    ∀ s, d.IsIndex v s → Function.update v (d.sector v i) b s = v s := by
  intro s hs
  refine Function.update_of_ne ?_ _ _
  rintro rfl
  exact h.not_index hi hs

/-- Either way of writing a sector puts the chunk over its old contents. -/
theorem exec_writeChunk (t : BlockSector) {ofs : Nat} {chunk : List UInt8} (hofs : ofs < 512)
    (hlen : ofs + chunk.length ≤ 512) (s : S) :
    (writeChunk t ofs chunk).exec s v = some ((), s, Function.update v t ((v t).splice ofs chunk)) := by
  simp only [writeChunk, blockSectorSize, Int.cast_ofNat_Int]
  split
  · rename_i hfull
    rw [Cmd.exec_write]
    congr 4
    ext j hj
    rw [Sector.byte_splice hj, Sector.byte_splice hj, if_pos (by omega), if_pos (by omega),
      show ofs = 0 by omega]
  · rw [if_pos (by omega)]
    simp

/-- **Writing in place.** Within the inode's length a write takes all of the
buffer, changes the bytes it covers and no other byte of the inode, and
touches only the data sectors of its range. -/
theorem exec_writeLoop (hd : d.directBlocks.length = 123) (hdist : d.Distinct v)
    (hc : d.Covers v d.length.toNat) (s : S) (fuel : Nat) (buffer : List UInt8) (ofs : Nat)
    (hf : buffer.length ≤ fuel) (hlen : ofs + buffer.length ≤ d.length.toNat) :
    ∃ v', (writeLoop d fuel buffer ofs).exec s v = some ((buffer.length : Int), s, v') ∧
      (∀ t, (∀ i, ofs < 512 * (i + 1) → 512 * i < ofs + buffer.length → t ≠ d.sector v i) →
        v' t = v t) ∧
      ∀ pos, d.sector v (pos / 512) ≠ 0 → d.byte v' pos =
        if ofs ≤ pos ∧ pos < ofs + buffer.length then buffer.getD (pos - ofs) 0 else d.byte v pos := by
  induction fuel generalizing v buffer ofs with
  | zero =>
    obtain rfl : buffer = [] := List.eq_nil_of_length_eq_zero (by omega)
    refine ⟨v, rfl, fun _ _ => rfl, fun pos _ => ?_⟩
    rw [if_neg (by simp)]
  | succ fuel ih =>
    rw [writeLoop]
    by_cases hs : (buffer.length : Int) ≤ 0
    · obtain rfl : buffer = [] := List.eq_nil_of_length_eq_zero (by omega)
      refine ⟨v, by simp, fun _ _ => rfl, fun pos _ => ?_⟩
      rw [if_neg (by simp)]
    rw [if_neg hs]
    simp only [blockSectorSize, Int.cast_ofNat_Int, Cmd.exec_bind, exec_byteToSector_some,
      Option.bind_some, tmod_sector]
    rw [if_neg (by omega), if_neg (by omega), if_pos (by omega)]
    obtain ⟨c, hcs⟩ : ∃ c : Nat,
        min (buffer.length : Int) (min (d.length - ofs) (512 - (ofs % 512 : Nat))) = c :=
      ⟨_, (Int.toNat_of_nonneg (by omega)).symm⟩
    have hc1 : 1 ≤ c := by omega
    have hcb : c ≤ buffer.length := by omega
    have hc512 : ofs % 512 + c ≤ 512 := by omega
    simp only [hcs, Int.toNat_natCast]
    have hsec := hc (ofs / 512) (by omega)
    rw [sectorAt_eq hd hsec]
    have hchunk : (buffer.take c).length = c := by rw [List.length_take]; omega
    -- the sector's new contents
    let v₁ := Function.update v (d.sector v (ofs / 512))
      ((v (d.sector v (ofs / 512))).splice (ofs % 512) (buffer.take c))
    have hidx : ∀ s, d.IsIndex v s → v₁ s = v s := InodeDisk.update_data hdist hsec _
    have hsame : ∀ i, d.sector v₁ i = d.sector v i := InodeDisk.sector_congr hidx
    have hv₁ : ∀ pos, d.sector v (pos / 512) ≠ 0 → d.byte v₁ pos =
        if ofs ≤ pos ∧ pos < ofs + c then buffer.getD (pos - ofs) 0 else d.byte v pos := by
      intro pos hpos
      rw [InodeDisk.byte, hsame, InodeDisk.byte]
      by_cases hi : pos / 512 = ofs / 512
      · simp only [v₁, hi, Function.update_self]
        rw [Sector.byte_splice (Nat.mod_lt _ (by decide)), hchunk]
        by_cases hr : ofs ≤ pos ∧ pos < ofs + c
        · rw [if_pos (by omega), if_pos hr, show pos % 512 - ofs % 512 = pos - ofs by omega]
          simp only [List.getD_eq_getElem?_getD]
          rw [List.getElem?_take_of_lt (by omega)]
        · rw [if_neg (by omega), if_neg hr]
      · rw [if_neg (by omega)]
        simp only [v₁, Function.update_of_ne fun he => hi (hdist.inj hpos he)]
    obtain ⟨v', hexec, hframe, hbytes⟩ := ih (v := v₁)
      (fun s => by rw [InodeDisk.occ_congr hidx]; exact hdist s)
      (fun i hi => by rw [hsame]; exact hc i hi)
      (buffer.drop c) (ofs + c) (by rw [List.length_drop]; omega) (by rw [List.length_drop]; omega)
    rw [List.length_drop] at hexec hframe hbytes
    refine ⟨v', ?_, fun t ht => ?_, fun pos hpos => ?_⟩
    · simp only [Cmd.exec_bind]
      rw [exec_writeChunk _ (Nat.mod_lt _ (by decide)) (by omega), Option.bind_some,
        ← Int.natCast_add, hexec]
      simp only [Option.bind_some, Cmd.exec_pure]
      congr 2
      omega
    · rw [hframe t fun i h₁ h₂ => by rw [hsame]; exact ht i (by omega) (by omega)]
      exact Function.update_of_ne (ht (ofs / 512) (by omega) (by omega)) _ _
    · rw [hbytes pos (by rw [hsame]; exact hpos), hv₁ pos hpos]
      by_cases h₁ : ofs + c ≤ pos ∧ pos < ofs + c + (buffer.length - c)
      · rw [if_pos h₁, if_pos (by omega)]
        simp only [List.getD_eq_getElem?_getD, List.getElem?_drop]
        rw [show c + (pos - (ofs + c)) = pos - ofs by omega]
      · rw [if_neg h₁]
        by_cases h₂ : ofs ≤ pos ∧ pos < ofs + c
        · rw [if_pos h₂, if_pos (by omega)]
        · rw [if_neg h₂, if_neg (by omega)]

end inPlace

end MyShell.Fs

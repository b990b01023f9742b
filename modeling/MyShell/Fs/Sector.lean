/-
Sectors of the block device, and the two layouts inode.c gives them: an
index block of 128 sector numbers (`struct inode_indirect_block_sector`) and
an on-disk inode (`struct inode_disk`). Numbers are stored least significant
byte first. Each layout decodes what it encodes (`Sector.blocks_ofBlocks`,
`InodeDisk.ofSector_toSector`).
-/
import Mathlib.Data.List.OfFn
import Mathlib.Data.UInt
import Mathlib.Logic.Function.Basic

namespace MyShell.Fs

/-- `BLOCK_SECTOR_SIZE` -/
abbrev blockSectorSize : Nat := 512

/-- `DIRECT_BLOCKS_COUNT` -/
abbrev directBlocksCount : Nat := 123

/-- `INDIRECT_BLOCKS_PER_SECTOR` -/
abbrev indirectBlocksPerSector : Nat := 128

/-- `block_sector_t` -/
abbrev BlockSector := UInt32

/-- `INODE_MAGIC` -/
def inodeMagic : UInt32 := 0x494e4f44

/-- `DIV_ROUND_UP` -/
def divRoundUp (x step : Nat) : Nat := (x + step - 1) / step

/-- The contents of one sector. -/
def Sector := Fin blockSectorSize → UInt8

instance : Inhabited Sector := ⟨fun _ => 0⟩

namespace Sector

def ofFn (f : Nat → UInt8) : Sector := fun i => f i

/-- Byte `i`; 0 past the end of the sector. -/
def byte (s : Sector) (i : Nat) : UInt8 := if h : i < blockSectorSize then s ⟨i, h⟩ else 0

/-- `static char zeros[BLOCK_SECTOR_SIZE]` -/
def zeros : Sector := ofFn fun _ => 0

theorem byte_ofFn {f : Nat → UInt8} {i : Nat} (h : i < 512) : (ofFn f).byte i = f i := by
  simp [byte, ofFn, h]

@[simp] theorem byte_zeros (i : Nat) : zeros.byte i = 0 := by
  simp only [byte, zeros, ofFn]
  split <;> rfl

@[ext] theorem ext {s t : Sector} (h : ∀ i < 512, s.byte i = t.byte i) : s = t := by
  funext ⟨i, hi⟩
  have := h i hi
  simpa [byte, show i < 512 from hi] using this

/-- `memcpy` of `bs` into the sector at `ofs`. -/
def splice (s : Sector) (ofs : Nat) (bs : List UInt8) : Sector :=
  ofFn fun i => if ofs ≤ i ∧ i < ofs + bs.length then bs.getD (i - ofs) 0 else s.byte i

theorem byte_splice {s : Sector} {ofs : Nat} {bs : List UInt8} {i : Nat} (h : i < 512) :
    (s.splice ofs bs).byte i =
      if ofs ≤ i ∧ i < ofs + bs.length then bs.getD (i - ofs) 0 else s.byte i := byte_ofFn h

/-- The `len` bytes of the sector from `ofs`. -/
def slice (s : Sector) (ofs len : Nat) : List UInt8 := (List.range len).map fun i => s.byte (ofs + i)

@[simp] theorem length_slice (s : Sector) (ofs len : Nat) : (s.slice ofs len).length = len := by
  simp [slice]

end Sector

/-! ## Numbers in bytes -/

/-- Byte `j` of a 32-bit number. -/
def byteOf (w : UInt32) (j : Nat) : UInt8 := UInt8.ofNat (w.toNat / 256 ^ j % 256)

/-- The 32-bit number with these bytes, the least significant first. -/
def le32 (b₀ b₁ b₂ b₃ : UInt8) : UInt32 :=
  UInt32.ofNat (b₀.toNat + 256 * b₁.toNat + 65536 * b₂.toNat + 16777216 * b₃.toNat)

theorem toNat_byteOf (w : UInt32) (j : Nat) : (byteOf w j).toNat = w.toNat / 256 ^ j % 256 := by
  rw [byteOf, UInt8.toNat_ofNat']
  exact Nat.mod_eq_of_lt (Nat.mod_lt _ (by decide))

@[simp] theorem le32_byteOf (w : UInt32) :
    le32 (byteOf w 0) (byteOf w 1) (byteOf w 2) (byteOf w 3) = w := by
  have hw : w.toNat < 2 ^ 32 := w.toNat_lt
  apply UInt32.toNat_inj.1
  rw [le32, UInt32.toNat_ofNat', toNat_byteOf, toNat_byteOf, toNat_byteOf, toNat_byteOf]
  simp only [Nat.pow_zero, Nat.div_one, Nat.pow_one, Nat.reducePow]
  omega

theorem toNat_le32 (b₀ b₁ b₂ b₃ : UInt8) : (le32 b₀ b₁ b₂ b₃).toNat =
    b₀.toNat + 256 * b₁.toNat + 65536 * b₂.toNat + 16777216 * b₃.toNat := by
  have h₀ := b₀.toNat_lt
  have h₁ := b₁.toNat_lt
  have h₂ := b₂.toNat_lt
  have h₃ := b₃.toNat_lt
  rw [le32, UInt32.toNat_ofNat']
  exact Nat.mod_eq_of_lt (by omega)

theorem byteOf_le32 (f : Nat → UInt8) {j : Nat} (hj : j < 4) :
    byteOf (le32 (f 0) (f 1) (f 2) (f 3)) j = f j := by
  have h₀ := (f 0).toNat_lt
  have h₁ := (f 1).toNat_lt
  have h₂ := (f 2).toNat_lt
  have h₃ := (f 3).toNat_lt
  apply UInt8.toNat_inj.1
  rw [toNat_byteOf, toNat_le32]
  rcases j with _ | _ | _ | _ | j
  · simp only [Nat.pow_zero, Nat.div_one]; omega
  · simp only [Nat.zero_add, Nat.pow_one]; omega
  · simp only [Nat.zero_add, Nat.reduceAdd, Nat.reducePow]; omega
  · simp only [Nat.zero_add, Nat.reduceAdd, Nat.reducePow]; omega
  · omega

@[simp] theorem byteOf_zero (j : Nat) : byteOf 0 j = 0 := by simp [byteOf]

/-- `offset_t`, a signed 32-bit number, as stored. -/
def offsetWord (n : Int) : UInt32 := UInt32.ofNat (n % 2 ^ 32).toNat

def wordOffset (w : UInt32) : Int := if w.toNat < 2 ^ 31 then w.toNat else w.toNat - 2 ^ 32

theorem wordOffset_offsetWord {n : Int} (h₁ : -2 ^ 31 ≤ n) (h₂ : n < 2 ^ 31) :
    wordOffset (offsetWord n) = n := by
  simp only [wordOffset, offsetWord, UInt32.toNat_ofNat']
  split <;> omega

@[simp] theorem offsetWord_zero : offsetWord 0 = 0 := rfl

/-! ## Sectors of words -/

namespace Sector

/-- The 32-bit number at position `k`. -/
def word (s : Sector) (k : Nat) : UInt32 :=
  le32 (s.byte (4 * k)) (s.byte (4 * k + 1)) (s.byte (4 * k + 2)) (s.byte (4 * k + 3))

def ofWords (f : Nat → UInt32) : Sector := ofFn fun i => byteOf (f (i / 4)) (i % 4)

theorem byte_ofWords {f : Nat → UInt32} {k j : Nat} (hk : k < 128) (hj : j < 4) :
    (ofWords f).byte (4 * k + j) = byteOf (f k) j := by
  rw [ofWords, byte_ofFn (by omega)]
  congr 2 <;> omega

theorem word_ofWords {f : Nat → UInt32} {k : Nat} (hk : k < 128) : (ofWords f).word k = f k := by
  have h₀ := byte_ofWords (f := f) hk (show 0 < 4 by omega)
  simp only [word, Nat.add_zero] at h₀ ⊢
  rw [h₀, byte_ofWords hk (by omega), byte_ofWords hk (by omega), byte_ofWords hk (by omega),
    le32_byteOf]

@[simp] theorem word_zeros (k : Nat) : zeros.word k = 0 := by simp [word, le32]

/-- `struct inode_indirect_block_sector`: the sector's `blocks`. -/
def blocks (s : Sector) : List BlockSector := (List.range indirectBlocksPerSector).map s.word

def ofBlocks (bs : List BlockSector) : Sector := ofWords fun k => bs.getD k 0

@[simp] theorem length_blocks (s : Sector) : s.blocks.length = 128 := by simp [blocks]

theorem blocks_ofBlocks {bs : List BlockSector} (h : bs.length = 128) : (ofBlocks bs).blocks = bs := by
  apply List.ext_getElem (by simp [h])
  intro k hk _
  have hk' : k < 128 := by simpa using hk
  simp [blocks, ofBlocks, word_ofWords hk', show k < bs.length by omega]

theorem ofBlocks_blocks (s : Sector) : ofBlocks s.blocks = s := by
  refine Sector.ext fun i hi => ?_
  have hbyte := byte_ofWords (f := fun k => s.blocks.getD k 0) (k := i / 4) (j := i % 4) (by omega)
    (by omega)
  have hword : s.blocks.getD (i / 4) 0 = s.word (i / 4) := by simp [blocks, show i / 4 < 128 by omega]
  have hsame : byteOf (s.word (i / 4)) (i % 4) = s.byte (4 * (i / 4) + i % 4) :=
    byteOf_le32 (fun j => s.byte (4 * (i / 4) + j)) (by omega)
  rw [Nat.div_add_mod] at hbyte hsame
  rw [ofBlocks, hbyte, hword, hsame]

@[simp] theorem blocks_zeros : zeros.blocks = List.replicate 128 0 := by
  simp only [blocks]
  rw [List.eq_replicate_iff]
  simp

end Sector

/-! ## On-disk inodes -/

/-- `struct inode_disk` -/
structure InodeDisk where
  directBlocks : List BlockSector
  indirectBlock : BlockSector
  doublyIndirectBlock : BlockSector
  isDir : Bool
  length : Int
  magic : UInt32
  deriving DecidableEq

namespace InodeDisk

/-- The words of the inode's sector. -/
def words (d : InodeDisk) (k : Nat) : UInt32 :=
  if k < directBlocksCount then d.directBlocks.getD k 0
  else if k = 123 then d.indirectBlock
  else if k = 124 then d.doublyIndirectBlock
  else if k = 125 then (if d.isDir then 1 else 0)
  else if k = 126 then offsetWord d.length
  else d.magic

def toSector (d : InodeDisk) : Sector := .ofWords d.words

def ofSector (s : Sector) : InodeDisk where
  directBlocks := (List.range directBlocksCount).map s.word
  indirectBlock := s.word 123
  doublyIndirectBlock := s.word 124
  isDir := s.byte 500 != 0
  length := wordOffset (s.word 126)
  magic := s.word 127

/-- An inode that its sector holds faithfully. -/
structure Storable (d : InodeDisk) : Prop where
  direct : d.directBlocks.length = 123
  low : -2 ^ 31 ≤ d.length
  high : d.length < 2 ^ 31

theorem ofSector_toSector {d : InodeDisk} (h : d.Storable) : ofSector d.toSector = d := by
  have hw : ∀ k < 128, d.toSector.word k = d.words k := fun k hk => Sector.word_ofWords hk
  have hdir : d.toSector.byte 500 = byteOf (if d.isDir then 1 else 0) 0 :=
    Sector.byte_ofWords (f := d.words) (k := 125) (j := 0) (by omega) (by omega)
  have hblocks : (List.range 123).map d.toSector.word = d.directBlocks := by
    apply List.ext_getElem (by simp [h.direct])
    intro k hk _
    have hk' : k < 123 := by simpa using hk
    simp [hw k (by omega), words, hk', show k < d.directBlocks.length by have := h.direct; omega]
  have hisDir : (d.toSector.byte 500 != 0) = d.isDir := by
    rw [hdir]; cases d.isDir <;> decide
  simp only [ofSector, hblocks, hisDir]
  rw [hw 123 (by omega), hw 124 (by omega), hw 126 (by omega), hw 127 (by omega)]
  simp [words, directBlocksCount, wordOffset_offsetWord h.low h.high]

@[simp] theorem length_directBlocks_ofSector (s : Sector) :
    (ofSector s).directBlocks.length = 123 := by simp [ofSector]

end InodeDisk

end MyShell.Fs

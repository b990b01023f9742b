/-
The device (ide.c): sectors in an image file. The offset of a sector is
computed in 32 bits, so that sectors 2^23 apart share their bytes. A device of
at most 2^23 sectors keeps its sectors apart, and a larger one does not
(`sectors_separate`). `check_sector` of block.c only prints.
-/
import MyShell.Fs.Sector
import Mathlib.Order.CompletePartialOrder
import Mathlib.Order.Interval.Set.Disjoint

namespace MyShell.Fs

/-- The bytes of the image file. -/
abbrev ImageFile := List UInt8

/-! ## From source -/

/-- The number of sectors that `identify_ata_device` registers the device with. -/
def identifyCapacity (f : ImageFile) : UInt32 := UInt32.ofNat (f.length / blockSectorSize)

/-- `sec_no * BLOCK_SECTOR_SIZE`, which `lseek` is given. -/
def byteOffset (secNo : BlockSector) : UInt32 := secNo * 512

/-- `ide_read`: where the file ends, the buffer keeps what it has. -/
def ideRead (f : ImageFile) (secNo : BlockSector) (buffer : Sector) : Sector :=
  .ofFn fun i => (f[(byteOffset secNo).toNat + i]?).getD (buffer.byte i)

/-- `ide_write`: a file that ends before the offset is filled up with zeros. -/
def ideWrite (f : ImageFile) (secNo : BlockSector) (buffer : Sector) : ImageFile :=
  let offset := (byteOffset secNo).toNat
  f.take offset ++ List.replicate (offset - f.length) 0 ++ buffer.slice 0 blockSectorSize ++
    f.drop (offset + blockSectorSize)

/-! ## The bytes of a sector -/

variable {f : ImageFile} {s t : BlockSector} {data buffer : Sector}

/-- The offsets of the bytes of a sector. -/
def sectorBytes (secNo : BlockSector) : Set Nat :=
  Set.Ico (byteOffset secNo).toNat ((byteOffset secNo).toNat + blockSectorSize)

theorem toNat_byteOffset (s : BlockSector) : (byteOffset s).toNat = 512 * s.toNat % 2 ^ 32 := by
  rw [byteOffset, UInt32.toNat_mul, Nat.mul_comm]
  rfl

/-- The sectors of the device are in the file. -/
theorem sectorBytes_inside (hs : s < identifyCapacity f) : (byteOffset s).toNat + 512 ≤ f.length := by
  have hlt : s.toNat < f.length / 512 % 2 ^ 32 := by
    simpa [identifyCapacity, UInt32.lt_iff_toNat_lt] using hs
  rw [toNat_byteOffset]
  omega

/-- A write changes the bytes of its sector and no others. -/
theorem getElem?_ideWrite (h : (byteOffset s).toNat + 512 ≤ f.length) (i : Nat) :
    (ideWrite f s data)[i]? =
    if (byteOffset s).toNat ≤ i ∧ i < (byteOffset s).toNat + 512 then some
    (data.byte (i - (byteOffset s).toNat))
    else f[i]? := by
  have hfill : (byteOffset s).toNat - f.length = 0 := by omega
  have htake : (f.take (byteOffset s).toNat).length = (byteOffset s).toNat := by
    rw [List.length_take]
    omega
  simp only [ideWrite, hfill, List.replicate_zero, List.append_nil, blockSectorSize]
  split
  · next hi =>
    rw [List.append_assoc, List.getElem?_append_right (by omega), htake,
      List.getElem?_append_left (by rw [Sector.length_slice]; omega), Sector.slice, List.getElem?_map,
      List.getElem?_range (by omega), Option.map_some, Nat.zero_add]
  · next hi =>
    by_cases hlt : i < (byteOffset s).toNat
    · rw [List.append_assoc, List.getElem?_append_left (by omega), List.getElem?_take_of_lt hlt]
    · have hlength : (f.take (byteOffset s).toNat ++ data.slice 0 512).length =
          (byteOffset s).toNat + 512 := by
        rw [List.length_append, htake, Sector.length_slice]
      rw [List.getElem?_append_right (by omega), hlength, List.getElem?_drop,
        show (byteOffset s).toNat + 512 + (i - ((byteOffset s).toNat + 512)) = i by omega]

theorem ideRead_ideWrite (h : (byteOffset s).toNat + 512 ≤ f.length) :
    ideRead (ideWrite f s data) s buffer = data := by
  ext i hi
  rw [ideRead, Sector.byte_ofFn hi, getElem?_ideWrite h, if_pos (by omega), Option.getD_some,
    Nat.add_sub_cancel_left]

theorem ideRead_ideWrite_other (h : (byteOffset s).toNat + 512 ≤ f.length)
    (hdisjoint : Disjoint (sectorBytes s) (sectorBytes t)) :
    ideRead (ideWrite f s data) t buffer = ideRead f t buffer := by
  ext i hi
  have hnot : ¬ ((byteOffset s).toNat ≤ (byteOffset t).toNat + i ∧
      (byteOffset t).toNat + i < (byteOffset s).toNat + 512) :=
    fun hmem => Set.disjoint_left.1 hdisjoint hmem ⟨by omega, by simp only [blockSectorSize]; omega⟩
  rw [ideRead, ideRead, Sector.byte_ofFn hi, Sector.byte_ofFn hi, getElem?_ideWrite h, if_neg hnot]

/-! ## Capacity -/

/-- The sectors of the device do not meet: neither their bytes nor what is read and written. -/
structure Separate (f : ImageFile) : Prop where
  inside : ∀ s < identifyCapacity f, ∀ i ∈ sectorBytes s, i < f.length
  disjoint : ∀ s < identifyCapacity f, ∀ t < identifyCapacity f, s ≠ t →
    Disjoint (sectorBytes s) (sectorBytes t)
  same : ∀ s < identifyCapacity f, ∀ data buffer, ideRead (ideWrite f s data) s buffer = data
  other : ∀ s < identifyCapacity f, ∀ t < identifyCapacity f, s ≠ t → ∀ data buffer,
    ideRead (ideWrite f s data) t buffer = ideRead f t buffer

/-- Below 2^23 the offset does not wrap around. -/
theorem disjoint_sectorBytes (hs : s.toNat < 2 ^ 23) (ht : t.toNat < 2 ^ 23) (hne : s ≠ t) :
    Disjoint (sectorBytes s) (sectorBytes t) := by
  have hne : s.toNat ≠ t.toNat := fun h => hne (UInt32.toNat_inj.1 h)
  have hoffset : (byteOffset s).toNat = 512 * s.toNat := by
    rw [toNat_byteOffset]
    exact Nat.mod_eq_of_lt (by omega)
  have hoffset' : (byteOffset t).toNat = 512 * t.toNat := by
    rw [toNat_byteOffset]
    exact Nat.mod_eq_of_lt (by omega)
  rw [Set.disjoint_left]
  intro i ⟨h, h'⟩ ⟨h₂, h₂'⟩
  simp only [hoffset, hoffset', blockSectorSize] at *
  omega

/-- **Sectors keep apart** on devices of at most 2^23 sectors, and on no others. -/
theorem sectors_separate (f : ImageFile) : Separate f ↔ identifyCapacity f ≤ 8388608 := by
  constructor
  · intro h
    by_contra hlarge
    have hcap : 8388608 < identifyCapacity f := by
      rw [UInt32.lt_iff_toNat_lt]
      rw [UInt32.le_iff_toNat_le] at hlarge
      omega
    have hzero : 0 < identifyCapacity f := UInt32.lt_trans (by decide) hcap
    -- sectors 0 and 2^23 are at the same offset
    have hdisjoint := h.disjoint 0 hzero 8388608 hcap (by decide)
    have hfirst : 0 ∈ sectorBytes 0 := ⟨by decide, by decide⟩
    have hlast : 0 ∈ sectorBytes 8388608 := ⟨by decide, by decide⟩
    exact Set.disjoint_left.1 hdisjoint hfirst hlast
  · intro hcap
    have hlow (s : BlockSector) (hs : s < identifyCapacity f) : s.toNat < 2 ^ 23 := by
      rw [UInt32.lt_iff_toNat_lt] at hs
      rw [UInt32.le_iff_toNat_le] at hcap
      exact Nat.lt_of_lt_of_le hs hcap
    refine ⟨fun s hs i hi => ?_, fun s hs t ht => disjoint_sectorBytes (hlow s hs) (hlow t ht),
      fun s hs _ _ =>
      ideRead_ideWrite (sectorBytes_inside hs), fun s hs t ht hne _ _ => ?_⟩
    · exact Nat.lt_of_lt_of_le hi.2 (sectorBytes_inside hs)
    · exact ideRead_ideWrite_other (sectorBytes_inside hs)
        (disjoint_sectorBytes (hlow s hs) (hlow t ht) hne)

/-- An image of 4 GiB and one sector, all zeros. -/
def zeroImage : ImageFile := List.replicate (2 ^ 32 + 512) 0

/-- Writing sector 0 of it changes the last sector. -/
theorem sectors_alias : identifyCapacity zeroImage = 8388609 ∧
    ∃ data buffer,
      ideRead (ideWrite zeroImage 0 data) 8388608 buffer ≠ ideRead zeroImage 8388608 buffer := by
  have hcap : identifyCapacity zeroImage = 8388609 := by
    rw [identifyCapacity, zeroImage, List.length_replicate]
    rfl
  refine ⟨hcap, Sector.ofFn fun _ => 1, Sector.zeros, fun heq => ?_⟩
  have hinside := sectorBytes_inside (s := 0) (f := zeroImage) (by rw [hcap]; decide)
  have hsame : ideRead (ideWrite zeroImage 0 (Sector.ofFn fun _ => 1)) 8388608 Sector.zeros =
      Sector.ofFn fun _ => 1 :=
    ideRead_ideWrite (s := 0) hinside
  have hbyte := congrArg (fun s => Sector.byte s 0) (hsame.symm.trans heq)
  have hzero : zeroImage[(byteOffset 8388608).toNat + 0]? = some 0 := by
    rw [show (byteOffset 8388608).toNat = 0 by decide, zeroImage, List.getElem?_replicate]
    rfl
  rw [ideRead, Sector.byte_ofFn (by decide), Sector.byte_ofFn (by decide), hzero] at hbyte
  exact absurd hbyte (by decide)

end MyShell.Fs

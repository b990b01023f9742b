/-
Partitions of the device (partition.c). `read_partition_table` reads sector 0
whatever table it is asked for, so an extended partition leads to the same
table again; it is followed until an offset lies past the end of the device,
or for ever (`partition_scan_returns`). The sectors of a partition are shifted
by one more than its start, and the free map has one bit less than it has
sectors, so that they stay inside (`partition_sectors_inside`).
-/
import MyShell.Fs.Filesys
import MyShell.Fs.Ide

namespace MyShell.Fs

open Storage

/-! ## From source -/

/-- `struct partition_table_entry`; its other fields are not looked at. -/
structure PartitionTableEntry where
  type : UInt8
  offset : UInt32
  size : UInt32

namespace Sector

/-- Entry `i` of the sector as a `struct partition_table`. -/
def partition (pt : Sector) (i : Nat) : PartitionTableEntry where
  type := pt.byte (446 + 16 * i + 4)
  offset := le32 (pt.byte (446 + 16 * i + 8)) (pt.byte (446 + 16 * i + 9)) (pt.byte (446 + 16 * i + 10))
    (pt.byte (446 + 16 * i + 11))
  size := le32 (pt.byte (446 + 16 * i + 12)) (pt.byte (446 + 16 * i + 13)) (pt.byte (446 + 16 * i + 14))
    (pt.byte (446 + 16 * i + 15))

def partitions (pt : Sector) : List PartitionTableEntry := (List.range 4).map pt.partition

def signature (pt : Sector) : Nat := (pt.byte 510).toNat + 256 * (pt.byte 511).toNat

end Sector

namespace PartitionTableEntry

def isEmpty (e : PartitionTableEntry) : Prop := e.size = 0 ∨ e.type = 0

def isExtended (e : PartitionTableEntry) : Prop :=
  e.type = 0x05 ∨ e.type = 0x0f ∨ e.type = 0x85 ∨ e.type = 0xc5

instance (e : PartitionTableEntry) : Decidable e.isEmpty := inferInstanceAs (Decidable (_ ∨ _))

instance (e : PartitionTableEntry) : Decidable e.isExtended :=
  inferInstanceAs (Decidable (_ ∨ _ ∨ _ ∨ _))

end PartitionTableEntry

/-- `struct partition`, with the size its block is registered with. -/
structure Partition where
  start : BlockSector
  size : BlockSector
deriving DecidableEq

/-- What a scan has found. -/
structure Scan where
  partNr : Nat
  registered : List Partition

/-- `found_partition`, on a device of so many sectors. -/
def foundPartition (deviceSize start size : BlockSector) (found : Scan) : Scan :=
  if deviceSize ≤ start then found
  else if start + size < start ∨ deviceSize < start + size then found
  else { found with registered := found.registered ++ [⟨start, size⟩] }

/-- `read_partition_table` to the depth `n`, where `pt` is in sector 0 of the device. -/
def readPartitionTable (deviceSize : BlockSector) (pt : Sector) :
    Nat → BlockSector → BlockSector → Scan → Option Scan
  | 0, _, _, _ => none
  | n + 1, sector, primaryExtendedSector, found =>
    if deviceSize ≤ sector then some found
    else if pt.signature ≠ 0xaa55 then some found
    else pt.partitions.foldlM (fun found e =>
      if e.isEmpty then some found
      else if e.isExtended then
        if sector = 0 then readPartitionTable deviceSize pt n e.offset e.offset found
        else readPartitionTable deviceSize pt n (e.offset + primaryExtendedSector)
          primaryExtendedSector found
      else some (foundPartition deviceSize (e.offset + sector) e.size
        { found with partNr := found.partNr + 1 })) found

/-- `partition_scan`, with recursion to the depth `n`. -/
def partitionScan (deviceSize : BlockSector) (pt : Sector) (n : Nat) : Option Scan :=
  readPartitionTable deviceSize pt n 0 0 ⟨0, []⟩

/-- The sector of the device that `partition_read` and `partition_write` use. -/
def Partition.physical (p : Partition) (sector : BlockSector) : BlockSector := p.start + sector + 1

def partitionRead (f : ImageFile) (p : Partition) (sector : BlockSector) (buffer : Sector) : Sector :=
  ideRead f (p.physical sector) buffer

def partitionWrite (f : ImageFile) (p : Partition) (sector : BlockSector) (buffer : Sector) :
    ImageFile :=
  ideWrite f (p.physical sector) buffer

/-! ## The recursion -/

section scan

variable {deviceSize sector primary o o' : BlockSector} {pt : Sector} {n : Nat} {found : Scan}

/-- The offsets of the extended partitions in a table. -/
def Sector.extendedOffsets (pt : Sector) : List BlockSector :=
  (pt.partitions.filter fun e => ¬ e.isEmpty ∧ e.isExtended).map PartitionTableEntry.offset

theorem mem_extendedOffsets :
    o ∈ pt.extendedOffsets ↔ ∃ e ∈ pt.partitions, ¬ e.isEmpty ∧ e.isExtended ∧ e.offset = o := by
  simp only [Sector.extendedOffsets, List.mem_map, List.mem_filter, decide_eq_true_eq, and_assoc]

/-- The next table is always looked for past the end of the device. -/
def Bounded (deviceSize : BlockSector) (pt : Sector) : Prop :=
  ∀ o ∈ pt.extendedOffsets, o < deviceSize → ∀ o' ∈ pt.extendedOffsets, deviceSize ≤ o + o'

theorem foldlM_isSome {α β : Type} {f : β → α → Option β} {l : List α}
    (h : ∀ a ∈ l, ∀ b, (f b a).isSome) (b : β) : (l.foldlM f b).isSome := by
  induction l generalizing b with
  | nil => rfl
  | cons a l ih =>
    obtain ⟨c, hc⟩ := Option.isSome_iff_exists.1 (h a List.mem_cons_self b)
    rw [List.foldlM_cons, hc]
    exact ih (fun a ha => h a (List.mem_cons_of_mem _ ha)) c

theorem foldlM_eq_none {α β : Type} {f : β → α → Option β} {l : List α} {a : α}
    (ha : a ∈ l) (h : ∀ b, f b a = none) (b : β) : l.foldlM f b = none := by
  induction l generalizing b with
  | nil => cases ha
  | cons a' l ih =>
    rw [List.foldlM_cons]
    obtain rfl | ha := List.mem_cons.1 ha
    · rw [h]
      rfl
    · cases hfirst : f b a' with
      | none => rfl
      | some c => exact ih ha c

/-- A call returns if the calls for the extended partitions do. -/
theorem readPartitionTable_isSome (h : sector < deviceSize → ∀ o ∈ pt.extendedOffsets, ∀ found,
      (if sector = 0 then readPartitionTable deviceSize pt n o o found
        else readPartitionTable deviceSize pt n (o + primary) primary found).isSome) :
    (readPartitionTable deviceSize pt (n + 1) sector primary found).isSome := by
  rw [readPartitionTable]
  split
  · rfl
  next hsector =>
  split
  · rfl
  refine foldlM_isSome (fun e he found => ?_) found
  split
  · rfl
  next hempty =>
  split
  · next hext => exact h (UInt32.not_le.1 hsector) e.offset (mem_extendedOffsets.2 ⟨e, he, hempty,
      hext, rfl⟩) found
  · rfl

/-- A call does not return if one of those calls does not. -/
theorem readPartitionTable_eq_none (hsector : sector < deviceSize)
    (hsignature : pt.signature = 0xaa55) (ho : o ∈ pt.extendedOffsets)
    (h : ∀ found, (if sector = 0 then readPartitionTable deviceSize pt n o o found
      else readPartitionTable deviceSize pt n (o + primary) primary found) = none) :
    readPartitionTable deviceSize pt (n + 1) sector primary found = none := by
  obtain ⟨e, he, hempty, hext, rfl⟩ := mem_extendedOffsets.1 ho
  rw [readPartitionTable, if_neg (UInt32.not_le.2 hsector), if_neg (not_not.2 hsignature)]
  refine foldlM_eq_none he (fun found => ?_) found
  rw [if_neg hempty, if_pos hext]
  exact h found

/-- Three levels are enough: the last one is past the end of the device. -/
theorem partitionScan_isSome (h : pt.signature = 0xaa55 → Bounded deviceSize pt) :
    (partitionScan deviceSize pt 3).isSome := by
  by_cases hsignature : pt.signature = 0xaa55
  · have hbounded := h hsignature
    refine readPartitionTable_isSome fun _ o ho found => ?_
    rw [if_pos rfl]
    refine readPartitionTable_isSome fun hlt o' ho' found => ?_
    have hpast := hbounded o ho hlt
    -- offset 0 would lead to sector 0 again
    have hne : o ≠ 0 := fun hzero => by
      have hself := hpast o ho
      rw [hzero, UInt32.add_zero] at hself
      exact UInt32.not_le.2 (hzero ▸ hlt) hself
    rw [if_neg hne]
    refine readPartitionTable_isSome fun hlt' => ?_
    rw [UInt32.add_comm] at hlt'
    exact absurd (hpast o' ho') (UInt32.not_le.2 hlt')
  · rw [partitionScan, readPartitionTable, if_pos hsignature, ite_self]
    rfl

/-- Where two extended partitions lead back into the device, the calls go on for ever. -/
theorem readPartitionTable_diverges (hsignature : pt.signature = 0xaa55)
    (ho : o ∈ pt.extendedOffsets) (hlt : o < deviceSize) (ho' : o' ∈ pt.extendedOffsets)
    (hlt' : o + o' < deviceSize) (hsector : sector < deviceSize)
    (hprimary : sector = 0 ∨ primary = o) :
    readPartitionTable deviceSize pt n sector primary found = none := by
  induction n generalizing sector primary found with
  | zero => rfl
  | succ n ih =>
    by_cases hzero : sector = 0
    · refine readPartitionTable_eq_none hsector hsignature ho fun found => ?_
      rw [if_pos hzero]
      exact ih hlt (.inr rfl)
    · obtain rfl := hprimary.resolve_left hzero
      refine readPartitionTable_eq_none hsector hsignature ho' fun found => ?_
      rw [if_neg hzero, UInt32.add_comm]
      exact ih hlt' (.inr rfl)

/-- **`partition_scan` returns** on a table without a valid signature, and where from every
extended partition inside the device every further one lies past its end. -/
theorem partition_scan_returns (deviceSize : BlockSector) (pt : Sector) :
    (∃ n, (partitionScan deviceSize pt n).isSome) ↔
    (pt.signature = 0xaa55 → Bounded deviceSize pt) := by
  constructor
  · intro ⟨n, hn⟩ hsignature o ho hlt o' ho'
    by_contra hpast
    have hpositive : 0 < deviceSize := UInt32.lt_of_le_of_lt UInt32.zero_le hlt
    have hnone : readPartitionTable deviceSize pt n 0 0 ⟨0, []⟩ = none :=
      readPartitionTable_diverges hsignature ho hlt ho' (UInt32.not_le.1 hpast) hpositive (.inl rfl)
    rw [partitionScan, hnone] at hn
    cases hn
  · exact fun h => ⟨3, partitionScan_isSome h⟩

/-- A device of 1000 sectors, with an extended partition of 100 sectors from sector 63 on. -/
def extendedTable : Sector :=
  (Sector.zeros.splice 446 [0, 0, 0, 0, 0x05, 0, 0, 0, 63, 0, 0, 0, 100, 0, 0, 0]).splice 510
    [0x55, 0xaa]

/-- Sector 63 is taken to hold the table of sector 0, which leads to sector 126, and so on for ever. -/
theorem partition_scan_diverges : ¬ ∃ n, (partitionScan 1000 extendedTable n).isSome := by
  have hmem : 63 ∈ extendedTable.extendedOffsets := by decide +kernel
  have hnext : (63 : BlockSector) + 63 < 1000 := by decide
  intro ⟨n, hn⟩
  have hnone : partitionScan 1000 extendedTable n = none :=
    readPartitionTable_diverges (by decide +kernel) hmem (by decide) hmem hnext (by decide) (.inl rfl)
  rw [hnone] at hn
  cases hn

end scan

/-! ## The length of the free map -/

section freeMap

variable {S : Type} {b b' : Bitmap} {file : Option InodeDisk} {d : InodeDisk} {cnt i : Nat}
  {v v' : Image} {r : Option BlockSector}

theorem byteToSector_keeps (d : InodeDisk) (pos : Int) :
    (byteToSector d pos : Disk S BlockSector).Keeps := by
  intro s v a s' v' h
  unfold byteToSector at h
  split at h
  · rw [exec_indexToSector] at h
    cases h
    rfl
  · cases h
    rfl

theorem writeChunk_keeps (sectorIdx : BlockSector) (sectorOfs : Int) (chunk : List UInt8) :
    (writeChunk sectorIdx sectorOfs chunk : Disk S Unit).Keeps := by
  unfold writeChunk
  exact .ite (.write _ _) (.bind (.ite (.read _) (.pure _)) fun _ => .write _ _)

theorem writeLoop_keeps (d : InodeDisk) (n : Nat) (buffer : List UInt8) (offset : Int) :
    (writeLoop d n buffer offset : Disk S Int).Keeps := by
  induction n generalizing buffer offset with
  | zero => exact .pure _
  | succ n ih =>
    unfold writeLoop
    refine .ite (.pure _) (.bind (byteToSector_keeps d offset) fun _ => .ite (.pure _) (.ite .fault ?_))
    exact .bind (writeChunk_keeps _ _ _) fun _ => .bind (ih _ _) fun _ => .pure _

theorem bitmapWrite_keeps (b : Bitmap) (d : InodeDisk) : (bitmapWrite b d : Disk S Bool).Keeps := by
  unfold bitmapWrite
  exact .bind (byteToSector_keeps d _) fun _ =>
    .ite .fault (.bind (writeLoop_keeps d _ _ _) fun _ => .pure _)

@[simp] theorem length_bitmapSetMultiple (b : Bitmap) (start cnt : Nat) (value : Bool) :
    (bitmapSetMultiple b start cnt value).length = b.length := by
  have hset (b : Bitmap) (i : Nat) : (bitmapSet b i value).length = b.length := by
    cases value <;> simp [bitmapSet, bitmapMark, bitmapReset]
  unfold bitmapSetMultiple
  generalize List.range cnt = l
  induction l generalizing b with
  | nil => rfl
  | cons i l ih => rw [List.foldl_cons, ih, hset]

/-- The states of the free map of a file system on so many sectors. -/
inductive FreeMapReached (size : Nat) : Bitmap → Prop
  | init : FreeMapReached size (freeMapInit size)
  | opened {b b' : Bitmap} {d : InodeDisk} {v v' : Image} : FreeMapReached size b →
      (bitmapRead b d : Disk Bitmap _).exec b v = some (some b', b, v') → FreeMapReached size b'
  | allocate {b b' : Bitmap} {file : Option InodeDisk} {cnt : Nat} {v v' : Image}
      {r : Option BlockSector} :
      FreeMapReached size b → (freeMapAllocate file cnt).exec b v = some (r, b', v') →
      FreeMapReached size b'
  | release {b b' : Bitmap} {file : Option InodeDisk} {s : BlockSector} {cnt : Nat} {v v' : Image} :
      FreeMapReached size b → (freeMapRelease file s cnt).exec b v = some ((), b', v') →
      FreeMapReached size b'
  /-- `recover` marks the sectors of what it brings back. -/
  | flip {b : Bitmap} (i : Nat) : FreeMapReached size b → FreeMapReached size (bitmapFlip b i)

/-- What an allocation returns, and the map it leaves. -/
theorem freeMapAllocate_spec (h : (freeMapAllocate file cnt).exec b v = some (r, b', v')) :
    b'.length = b.length ∧ ∀ s ∈ r, ∃ i, bitmapScan b 0 cnt false = some i ∧ s = .ofNat i := by
  simp only [freeMapAllocate, Cmd.exec_bind, Cmd.exec_getState, Option.bind_some] at h
  cases hscan : bitmapScan b 0 cnt false with
  | none =>
    rw [bitmapScanAndFlip, hscan] at h
    cases h
    exact ⟨rfl, by simp⟩
  | some i =>
    rw [bitmapScanAndFlip, hscan] at h
    simp only [Option.map_some, Cmd.exec_bind, Cmd.exec_setState, Option.bind_some] at h
    cases file with
    | none =>
      cases h
      exact ⟨length_bitmapSetMultiple .., fun s hs => ⟨i, rfl, (Option.mem_some_iff.1 hs).symm⟩⟩
    | some d =>
      simp only [Cmd.exec_bind, Option.bind_eq_some_iff] at h
      obtain ⟨⟨written, b₁, v₁⟩, hwrite, h⟩ := h
      have hb₁ := bitmapWrite_keeps _ d _ _ _ _ _ hwrite
      dsimp only at h
      split at h
      · cases h
        exact ⟨by rw [hb₁, length_bitmapSetMultiple],
          fun s hs => ⟨i, rfl, (Option.mem_some_iff.1 hs).symm⟩⟩
      · simp only [Cmd.exec_bind, Cmd.exec_setState, Option.bind_some, Cmd.exec_pure] at h
        cases h
        exact ⟨by simp, by simp⟩

theorem freeMapRelease_length {s : BlockSector}
    (h : (freeMapRelease file s cnt).exec b v = some ((), b', v')) : b'.length = b.length := by
  simp only [freeMapRelease, Cmd.exec_bind, Cmd.exec_getState, Option.bind_some, Cmd.exec_ite] at h
  split at h
  · simp only [Cmd.exec_setState, Option.bind_some, Cmd.exec_ofOption, Option.bind_eq_some_iff,
      Option.map_eq_some_iff] at h
    obtain ⟨_, ⟨d, rfl, rfl⟩, ⟨written, b₁, v₁⟩, hwrite, h⟩ := h
    have hb₁ := bitmapWrite_keeps _ d _ _ _ _ _ hwrite
    cases h
    rw [hb₁, length_bitmapSetMultiple]
  · cases h

theorem FreeMapReached.length_eq {size : Nat} (h : FreeMapReached size b) : b.length = size - 1 := by
  induction h with
  | init => simp [freeMapInit, bitmapMark, bitmapCreate]
  | opened _ hread ih =>
    simp only [bitmapRead, Cmd.exec_bind, Option.bind_eq_some_iff, Cmd.exec_pure, Option.some.injEq,
      Prod.mk.injEq] at hread
    obtain ⟨r, -, hr, -⟩ := hread
    split at hr
    · cases hr
      rw [← ih]
      simp [bitmapOfBytes]
    · cases hr
  | allocate _ hallocate ih => rw [(freeMapAllocate_spec hallocate).1, ih]
  | release _ hrelease ih => rw [freeMapRelease_length hrelease, ih]
  | flip i _ ih => rw [← ih, bitmapFlip, List.length_modify]

theorem bitmapScan_lt (h : bitmapScan b 0 cnt false = some i) : i = 0 ∨ i < b.length := by
  simp only [bitmapScan] at h
  split at h
  · cases cnt with
    | zero => exact .inl (by simpa [bitmapContains, List.range'_succ] using h.symm)
    | succ cnt =>
      have hmem := List.mem_of_find?_eq_some h
      rw [List.mem_range'_1] at hmem
      omega
  · cases h

end freeMap

/-! ## The sectors of a partition -/

/-- The sectors that a file system on so many of them can use: those of the free map and of
the root directory, and what an allocation returns. -/
def Usable (size : BlockSector) (s : BlockSector) : Prop :=
  s = freeMapSector ∨ s = rootDirSector ∨
    ∃ (b b' : Bitmap) (file : Option InodeDisk) (cnt : Nat) (v v' : Image),
    FreeMapReached size.toNat b ∧ (freeMapAllocate file cnt).exec b v = some (some s, b', v')

variable {deviceSize start size s t : BlockSector} {found : Scan}

theorem Usable.lt (h : Usable size s) (hsize : 3 ≤ size.toNat) : s.toNat + 1 < size.toNat := by
  obtain rfl | rfl | ⟨b, b', file, cnt, v, v', hreached, hallocate⟩ := h
  · exact hsize.trans' (by decide)
  · exact hsize.trans' (by decide)
  · obtain ⟨i, hscan, rfl⟩ := (freeMapAllocate_spec hallocate).2 s rfl
    have hlength := hreached.length_eq
    have hbound := size.toNat_lt
    obtain rfl | hi := bitmapScan_lt hscan
    · exact hsize.trans' (by decide)
    · rw [UInt32.toNat_ofNat', Nat.mod_eq_of_lt (by omega)]
      omega

theorem foundPartition_accepts
    (h : ⟨start, size⟩ ∈ (foundPartition deviceSize start size ⟨0, []⟩).registered) :
    start.toNat + size.toNat ≤ deviceSize.toNat := by
  unfold foundPartition at h
  split at h
  · cases h
  split at h
  · cases h
  next hrange =>
  simp only [not_or, UInt32.not_lt, UInt32.le_iff_toNat_le, UInt32.toNat_add] at hrange
  have := start.toNat_lt
  have := size.toNat_lt
  omega

/-- **The sectors of a file system** lie in its partition, each in a place of its own. -/
theorem partition_sectors_inside (hsize : 3 ≤ size)
    (hfound : ⟨start, size⟩ ∈ (foundPartition deviceSize start size ⟨0, []⟩).registered) :
    (∀ s, Usable size s → ((⟨start, size⟩ : Partition).physical s).toNat = start.toNat + s.toNat + 1 ∧
      start ≤ (⟨start, size⟩ : Partition).physical s ∧
      ((⟨start, size⟩ : Partition).physical s).toNat < start.toNat + size.toNat ∧
      start.toNat + size.toNat ≤ deviceSize.toNat) ∧
    ∀ s t, Usable size s → Usable size t → s ≠ t →
      (⟨start, size⟩ : Partition).physical s ≠ (⟨start, size⟩ : Partition).physical t := by
  have hinside := foundPartition_accepts hfound
  have hphysical (s : BlockSector) (hs : Usable size s) :
      ((⟨start, size⟩ : Partition).physical s).toNat = start.toNat + s.toNat + 1 ∧
      s.toNat + 1 < size.toNat := by
    have hlt := hs.lt hsize
    have := deviceSize.toNat_lt
    refine ⟨?_, hlt⟩
    change (start + s + 1).toNat = _
    rw [UInt32.toNat_add, UInt32.toNat_add, UInt32.toNat_one]
    omega
  refine ⟨fun s hs => ?_, fun s t hs ht hne heq => hne ?_⟩
  · obtain ⟨heq, hlt⟩ := hphysical s hs
    exact ⟨heq, UInt32.le_iff_toNat_le.2 (by omega), by omega, hinside⟩
  · have hs := (hphysical s hs).1
    have ht := (hphysical t ht).1
    rw [heq] at hs
    exact UInt32.toNat_inj.1 (by omega)

/-- A partition of four sectors that ends with the device. -/
theorem partition_sectors_inside_last : ((⟨4, 4⟩ : Partition).physical 1).toNat < 8 := by
  obtain ⟨-, -, hlt, -⟩ :=
    (@partition_sectors_inside 8 4 4 (by decide) (by decide)).1 1 (.inr (.inl rfl))
  exact hlt

end MyShell.Fs

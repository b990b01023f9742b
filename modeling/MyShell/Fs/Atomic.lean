/-
Writes that fail. The file's bytes and its inode on the disk stay as they are,
but `inode_reserve` gives no sector back: whatever it took before it ran out
is lost to the free map, or has become part of the inode in memory.
-/
import MyShell.Fs.Footprint
import MyShell.Fs.Space

namespace MyShell.Fs

open Storage BlockTree

/-- The inode has all data sectors that an inode can have. -/
def InodeDisk.Full (v : Image) (d : InodeDisk) : Prop := ∀ k < InodeDisk.maxSectors, d.sector v k ≠ 0

/-- The free map in memory and on the device (its inode's sector and its file's
bytes), the inode under `p`, its copy on sector `x` and the file's bytes are as
they were. -/
structure Session.Unchanged (s s' : Session) (p : Ptr) (x : BlockSector) : Prop where
  freeMap : s'.st.freeMap = s.st.freeMap
  mapInode : s'.image freeMapSector = s.image freeMapSector
  mapBytes : ∀ pos < bitmapFileSize s.st.freeMap,
    (s'.data freeMapSector).byte s'.image pos = (s.data freeMapSector).byte s.image pos
  inode : s'.st.openInodes.get p = s.st.openInodes.get p
  disk : s'.image x = s.image x
  bytes : ∀ pos : Nat, (s'.data x).content s'.image pos = (s.data x).content s.image pos

section failing

variable {fm d : InodeDisk} {v v' : Image} {b b' : Bitmap} {L : List Owner} {s : BlockSector}
  {i i' : Inode}

/-- No sector is lacking where the data sectors are there. -/
theorem World.lacking_eq_nil (h : World fm v b (⟨s, d⟩ :: L)) (end_ : Nat) : d.lacking v end_ = [] ↔
    ∀ k < bytesToSectors end_, k < InodeDisk.maxSectors → d.sector v k ≠ 0 := by
  have hsound : d.Sound v := h.sound ⟨s, d⟩ (by simp)
  have hcap := InodeDisk.capacity_roots hsound.direct
  constructor
  · intro hnil k hk hkmax
    -- the walk for these bytes takes no sector, and leaves none out
    obtain ⟨ok, d', v₁, b₁, new, -, -, hr⟩ := exec_inodeReserve (end_ : Int) h.ready hsound.direct
      (h.owned_roots (x := ⟨s, d⟩) (by simp)) (by omega)
    rw [Int.toNat_natCast] at hr
    have hmiss : (missingF layout v d.roots (bytesToSectors end_)).length = 0 :=
      congrArg List.length hnil
    have hok : ok = true := hr.ok_iff.2 (by omega)
    have hnew : new = [] :=
      List.eq_nil_of_length_eq_zero (by have h₁ := hr.left; have h₂ := hr.takes.count; omega)
    have hdata := hr.full hok k hk (by omega)
    intro hnull
    have hfresh := (hr.fresh k hnull hdata).1
    rw [hnew] at hfresh
    cases hfresh
  · intro hdata
    have hlen := length_missingF (L := layout) (A := d.roots) (Nat.le_refl (bytesToSectors end_))
      fun k hk hkcap =>
      hdata k hk (by omega)
    exact List.eq_nil_of_length_eq_zero (by rw [InodeDisk.lacking]; omega)

/-- A write that fails takes no sector only if there is none to take, or none
left to supply. -/
theorem Written.unchanged_iff {buffer : List UInt8} {ofs : Nat} {n : Int}
    (hw : Written fm v b L i buffer ofs n i' v' b') (h : World fm v b (⟨i.sector, i.data⟩ :: L))
    (hfail : ¬ (i.data.Within (ofs + buffer.length) ∨ i.data.Fits v b (ofs + buffer.length))) :
    b' = b ∧ i' = i ↔ freeCount b = 0 ∨ i.data.Full v := by
  have hleft := hw.left
  rw [if_neg fun hn => hfail (.inl hn)] at hleft
  have hlacking := h.lacking_eq_nil (ofs + buffer.length)
  constructor
  · rintro ⟨rfl, -⟩
    rcases Nat.eq_zero_or_pos (freeCount b') with h0 | hpos
    · exact .inl h0
    · have hnil : i.data.lacking v (ofs + buffer.length) = [] :=
        List.eq_nil_of_length_eq_zero (by omega)
      -- so the file would be too long
      have hmax : ¬ bytesToSectors (ofs + buffer.length) ≤ InodeDisk.maxSectors := fun hmax =>
        hfail (.inr ⟨by rw [hnil]; exact Nat.zero_le _, hmax⟩)
      exact .inr fun k hk => hlacking.1 hnil k (by omega) hk
  · intro hidle
    obtain ⟨hi, hb⟩ := (hw.idle hfail).2 (by
      rcases hidle with h0 | hfull
      · omega
      · rw [hleft, hlacking.2 fun k _ hk => hfull k hk]
        rfl)
    exact ⟨hb, hi⟩

end failing

/-- The free map on the device is that in memory. -/
theorem Session.Inv.mapByte {s : Session} {q : Ptr} {fm : InodeDisk} {C : List BlockSector}
    (h : s.Inv q fm C) {pos : Nat} (hpos : pos < bitmapFileSize s.st.freeMap) :
    (s.data freeMapSector).byte s.image pos = (bitmapBytes s.st.freeMap).getD pos 0 := by
  obtain ⟨j, hj, hdata, hsector⟩ := h.mounted.map.inode
  have hmap : s.data freeMapSector = fm := by
    rw [show freeMapSector = j.sector from hsector.symm, h.data_open hj, hdata]
  rw [hmap]
  exact h.mounted.world.holds fm rfl pos hpos

/-- **Failed writes.** A write of at least one byte that answers 0 leaves the
free map, the inode and the file as they were exactly if no sector was free
or the file had all data sectors that a file can have, and besides it did not
lack an index sector first, which is taken to be sector 0 then and cleared. -/
theorem failed_write {cs : List Call} {s : Session} {p : Ptr} {x : BlockSector} (hr : Run cs s)
    (hp : s.Holds p x) (hx : x ≠ freeMapSector) {buffer : List UInt8} {ofs : Nat}
    (hne : buffer ≠ []) {st : FsState} {v : Image}
    (h : (inodeWriteAt p buffer ofs).exec s.st s.image = some (0, st, v)) :
    s.Unchanged ⟨st, v, s.live, s.spare⟩ p x ↔
    (freeCount s.st.freeMap = 0 ∨ (s.data x).Full s.image) ∧
      (¬ (s.data x).Slips s.image s.st.freeMap (ofs + buffer.length) ∨
        s.image freeMapSector = Sector.zeros) := by
  obtain ⟨q, fm, C, hinv⟩ := hr.inv
  obtain ⟨i, hi, rfl⟩ := hp
  have hq := hinv.holds_ne hi hx
  obtain ⟨n, i', b', v', hexec, hw, hm⟩ := hinv.mounted.inodeWriteAt hi hq buffer ofs
  rw [h] at hexec
  obtain ⟨rfl, rfl, rfl⟩ :
      0 = n ∧ st = (s.st.setFreeMap b').setInodes (s.st.openInodes.modify p fun _ => i') ∧ v = v' := by
    simpa using hexec
  have hworld := hinv.mounted.head hi hq
  have hpos : 0 < buffer.length := List.length_pos_iff.2 hne
  have hfail : ¬ (i.data.Within (ofs + buffer.length) ∨
      i.data.Fits s.image s.st.freeMap (ofs + buffer.length)) :=
    fun hroom => by
      have := (hw.done hroom).1
      omega
  have hget : (s.st.openInodes.modify p fun _ => i').get p = some i' := by
    rw [Heap.get_modify, if_pos rfl, hi]
    rfl
  have hsec : i'.sector = i.sector := by rw [hw.inode]
  have hdata : Session.data ⟨(s.st.setFreeMap b').setInodes (s.st.openInodes.modify p fun _ => i'),
    v, s.live, s.spare⟩
      i.sector = i'.data := by
    have hfind := hm.find_open (p := p) (i := i') hget
    rw [hsec] at hfind
    rw [Session.data, hfind]
  have hzero : v freeMapSector = s.image freeMapSector ↔
      ¬ i.data.Slips s.image s.st.freeMap (ofs + buffer.length) ∨
      s.image freeMapSector = Sector.zeros := by
    have hslips := zeros_iff hw.zero
    rwa [and_iff_right fun hwithin => hfail (.inl hwithin)] at hslips
  have hinv' := (hinv.inodeWriteAt hi hx h).1
  rw [hinv.data_open hi, ← hw.unchanged_iff hworld hfail, ← hzero]
  constructor
  · intro hsame
    have hinode : (s.st.openInodes.modify p fun _ => i').get p = s.st.openInodes.get p := hsame.inode
    rw [hget, hi] at hinode
    exact ⟨⟨hsame.freeMap, Option.some.inj hinode⟩, hsame.mapInode⟩
  · rintro ⟨⟨rfl, hii⟩, hmap⟩
    refine ⟨rfl, hmap, fun pos hpos => ?_, ?_, (hw.idle hfail).1, fun pos => ?_⟩
    · rw [hinv'.mapByte hpos, hinv.mapByte hpos]
      rfl
    · change (s.st.openInodes.modify p fun _ => i').get p = _
      rw [hget, hi, hii]
    · rw [hdata, hinv.data_open hi]
      exact (hw.failed hfail).2.2 pos

/-- A byte written beyond the largest size of a file, to a new file on a
device of 200 sectors: all free sectors are taken. -/
theorem exists_failed_write :
    ∃ s x p st v, Run [.freeMapAllocate (some x), .inodeCreate x 0 false true, .inodeOpen x] s ∧
    s.Holds p x ∧ x ≠ freeMapSector ∧
    (inodeWriteAt p [7] (8517120 : Nat)).exec s.st s.image = some (0, st, v) ∧
    freeCount st.freeMap < freeCount s.st.freeMap := by
  obtain ⟨s, x, p, hr, hp, hx, -, hfree⟩ := exists_file (n := 200) (by decide) (by decide)
  have hfree : freeCount s.st.freeMap = 124 := by
    have hcost : sectorCost (bytesToSectors (byteCnt ((200 : BlockSector).toNat - 1))) = 1 := by decide
    have hsize : (200 : BlockSector).toNat = 200 := rfl
    omega
  have hhistory : history x [.freeMapAllocate (some x), .inodeCreate x 0 false true, .inodeOpen x] =
      ⟨.zeros 0, []⟩ := by
    simp [history, Call.record]
  have hlen := (hr.shows (.inr ⟨p, hp⟩) hx (by simp [hhistory])).length
  have hsectors := hr.sectors_le (.inr ⟨p, hp⟩) hx (by simp [hhistory])
  rw [hhistory] at hlen
  obtain ⟨q, fm, C, hinv⟩ := hr.inv
  obtain ⟨i, hi, rfl⟩ := hp
  have hq := hinv.holds_ne hi hx
  have hdata := hinv.data_open hi
  have hlen₀ : i.data.length = 0 := by rw [← hdata, hlen]; rfl
  have hbytes : bytesToSectors (8517120 + [(7 : UInt8)].length) = 16636 := by decide
  have hfail : ¬ (i.data.Within (8517120 + [(7 : UInt8)].length) ∨
      i.data.Fits s.image s.st.freeMap (8517120 + [(7 : UInt8)].length)) := by
    rintro (⟨-, hwithin⟩ | ⟨-, hmax⟩)
    · rw [hlen₀] at hwithin
      exact absurd hwithin (by decide)
    · rw [hbytes] at hmax
      exact absurd hmax (by decide)
  obtain ⟨n, i', b', v', hexec, hw, -⟩ := hinv.mounted.inodeWriteAt hi hq [7] 8517120
  obtain rfl := (hw.failed hfail).1
  refine ⟨s, i.sector, p, _, v', hr, ⟨i, hi, rfl⟩, hx, hexec, ?_⟩
  -- the file has no first sector, so one was taken
  have hlacking : i.data.lacking s.image (8517120 + [(7 : UInt8)].length) ≠ [] := by
    intro hnil
    have hsector :=
      ((hinv.mounted.head hi hq).lacking_eq_nil _).1 hnil 0 (by rw [hbytes]; decide) (by decide)
    have hmem : i.data.sector s.image 0 ∈ s.sectors i.sector := by
      rw [Session.sectors, hdata]
      exact InodeDisk.mem_blocks.2 (InodeDisk.sector_occ hsector)
    have hcost : sectorCost (bytesToSectors (s.data i.sector).length.toNat) = 0 := by rw [hlen]; decide
    have := List.length_pos_of_mem hmem
    omega
  have hpos := List.length_pos_iff.2 hlacking
  have hleft := hw.left
  rw [if_neg fun hn => hfail (.inl hn)] at hleft
  change freeCount b' < _
  omega

theorem failed_write_run :
    ∃ s x p st v, Run [.freeMapAllocate (some x), .inodeCreate x 0 false true, .inodeOpen x] s ∧
    (inodeWriteAt p [7] (8517120 : Nat)).exec s.st s.image = some (0, st, v) ∧
    (s.Unchanged ⟨st, v, s.live, s.spare⟩ p x ↔
      (freeCount s.st.freeMap = 0 ∨ (s.data x).Full s.image) ∧
      (¬ (s.data x).Slips s.image s.st.freeMap (8517120 + 1) ∨
        s.image freeMapSector = Sector.zeros)) := by
  obtain ⟨s, x, p, st, v, hr, hp, hx, hexec, -⟩ := exists_failed_write
  exact ⟨s, x, p, st, v, hr, hexec, failed_write hr hp hx (by simp) hexec⟩

theorem failed_write_takes :
    ∃ s x p st v, Run [.freeMapAllocate (some x), .inodeCreate x 0 false true, .inodeOpen x] s ∧
    (inodeWriteAt p [7] (8517120 : Nat)).exec s.st s.image = some (0, st, v) ∧
    ¬ s.Unchanged ⟨st, v, s.live, s.spare⟩ p x := by
  obtain ⟨s, x, p, st, v, hr, -, -, hexec, hlt⟩ := exists_failed_write
  refine ⟨s, x, p, st, v, hr, hexec, fun hsame => ?_⟩
  have hmap : st.freeMap = s.st.freeMap := hsame.freeMap
  rw [hmap] at hlt
  exact Nat.lt_irrefl _ hlt

end MyShell.Fs

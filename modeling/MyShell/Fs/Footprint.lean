/-
Which sectors a write or a creation changes. They are the sectors the call
took from the free map, the file's own, and the data sectors of the free-map
file, with one exception: where the free sectors run out just when an index
sector is needed, `inode_reserve_indirect` goes on with sector 0, and zeros
land on the inode of the free map.
-/
import MyShell.Fs.Session

namespace MyShell.Fs

open Storage BlockTree

/-- The sectors that change are taken by the call, its own, or data sectors of
the free-map file `fm`. -/
def Footprint (fm : InodeDisk) (st st' : FsState) (v v' : Image) (own : BlockSector → Prop) : Prop :=
  ∀ t, v' t ≠ v t → (¬ InUse st.freeMap t ∧ InUse st'.freeMap t) ∨ own t ∨ mapData fm v t

/-- The sectors of the inode `i`. -/
def Inode.Own (v : Image) (i : Inode) (t : BlockSector) : Prop := t = i.sector ∨ 1 ≤ i.data.occ v t

section footprint

variable {st st' : FsState} {v v' : Image} {q p : Ptr} {fm : InodeDisk} {L L' : List Owner} {i : Inode}
  {s : BlockSector} {own : BlockSector → Prop}

/-- A call that changes nothing but its footprint and sector 0 keeps to its
footprint where sector 0 does not change. -/
theorem footprint_iff (hzero : InUse st.freeMap 0) (hown : ¬ own 0)
    (hframe : ∀ t, v' t ≠ v t → (¬ InUse st.freeMap t ∧ InUse st'.freeMap t) ∨ own t ∨
      mapData fm v t ∨ t = 0) :
    Footprint fm st st' v v' own ↔ v' 0 = v 0 := by
  constructor
  · intro h
    by_contra hne
    rcases h 0 hne with ⟨hn, -⟩ | h₁ | h₁
    · exact hn hzero
    · exact hown h₁
    · exact h₁.1 rfl
  · intro h t ht
    rcases hframe t ht with h₁ | h₁ | h₁ | rfl
    · exact .inl h₁
    · exact .inr (.inl h₁)
    · exact .inr (.inr h₁)
    · exact absurd h ht

/-- Zeros are written to sector 0, or nothing is. -/
theorem zeros_iff {c : Prop} [Decidable c] (h : v' 0 = if c then Sector.zeros else v 0) :
    v' 0 = v 0 ↔ ¬ c ∨ v 0 = Sector.zeros := by
  rw [h]
  split
  · rename_i hc
    simp [hc, eq_comm]
  · rename_i hc
    simp [hc]

theorem Mounted.write_footprint (h : Mounted st v q fm L) (hp : st.openInodes.get p = some i)
    (hq : p ≠ q) {buffer : List UInt8} {ofs : Nat} {n : Int}
    (hexec : (Fs.inodeWriteAt p buffer ofs).exec st v = some (n, st', v')) :
    Footprint fm st st' v v' (i.Own v) ↔
      i.data.Within (ofs + buffer.length) ∨ ¬ i.data.Slips v st.freeMap (ofs + buffer.length) ∨
      v 0 = Sector.zeros := by
  obtain ⟨n', i', b', v₁, hok, hw, -⟩ := h.inodeWriteAt hp hq buffer ofs
  rw [hexec] at hok
  obtain ⟨-, rfl, rfl⟩ : n = n' ∧ st' =
      (st.setFreeMap b').setInodes (st.openInodes.modify p fun _ => i') ∧ v' = v₁ := by
    simpa using hok
  have hown : ¬ i.Own v 0 := by
    rintro (h0 | h0)
    · exact h.sector_ne_zero hp hq h0.symm
    · rw [InodeDisk.occ_zero] at h0
      omega
  have hframe : ∀ t, v' t ≠ v t → (¬ InUse st.freeMap t ∧ InUse b' t) ∨ i.Own v t ∨
    mapData fm v t ∨
      t = 0 := by
    intro t ht
    rcases hw.frame t ht with h₁ | h₁ | h₁ | h₁
    · exact .inl h₁
    · exact .inr (.inl (.inl h₁))
    · exact .inr (.inl (.inr h₁))
    · exact .inr (.inr h₁)
  rw [footprint_iff h.world.zero hown hframe, zeros_iff hw.zero, not_and_or, not_not, or_assoc]

theorem Mounted.create_footprint {isDir : Bool} {length : Int} {ok : Bool}
    (h : Mounted st v q fm (⟨s, newInodeDisk 0 isDir⟩ :: L)) (hmax : length < 2 ^ 31)
    (hexec : (Fs.inodeCreate s length isDir).exec st v = some (ok, st', v')) :
    Footprint fm st st' v v' (· = s) ↔
      length < 0 ∨ ¬ (newInodeDisk 0 isDir).Slips v st.freeMap length.toNat ∨ v 0 = Sector.zeros := by
  obtain ⟨ok', b', v₁, d, hok, hc, -⟩ := h.inodeCreate hmax
  rw [hexec] at hok
  obtain ⟨-, rfl, rfl⟩ : ok = ok' ∧ st' = st.setFreeMap b' ∧ v' = v₁ := by simpa using hok
  have hown : ¬ (0 : BlockSector) = s := by
    intro h0
    have := (h.world.owned (x := ⟨s, newInodeDisk 0 isDir⟩) (by simp) (occ_sector v _)).2.1
    exact this h0.symm
  rw [footprint_iff h.world.zero hown hc.frame, zeros_iff hc.zero, not_and_or, or_assoc, Int.not_le]

/-- **The write footprint.** A write to an open inode, and the creation of an
inode on a sector taken for it, keep to their footprint exactly where they do
not run out of free sectors just when they need an index sector, or sector 0
holds zeros already. -/
theorem footprint_exact (h : Mounted st v q fm L) :
    (∀ p i buffer ofs n st' v', st.openInodes.get p = some i → p ≠ q → ofs + buffer.length < 2 ^ 31 →
      (inodeWriteAt p buffer (ofs : Nat)).exec st v = some (n, st', v') →
      (Footprint fm st st' v v' (i.Own v) ↔ i.data.Within (ofs + buffer.length) ∨
        ¬ i.data.Slips v st.freeMap (ofs + buffer.length) ∨ v 0 = Sector.zeros)) ∧
    ∀ s length isDir ok st' v' L', L.Perm (⟨s, newInodeDisk 0 isDir⟩ :: L') → length < 2 ^ 31 →
      (inodeCreate s length isDir).exec st v = some (ok, st', v') →
      (Footprint fm st st' v v' (· = s) ↔
        length < 0 ∨ ¬ (newInodeDisk 0 isDir).Slips v st.freeMap length.toNat ∨ v 0 = Sector.zeros) :=
  ⟨fun _ _ _ _ _ _ _ hp hq _ hexec => h.write_footprint hp hq hexec,
    fun _ _ _ _ _ _ _ hL hmax hexec => (h.perm hL).create_footprint hmax hexec⟩

end footprint

/-- A byte written to a new file on a device of 200 sectors. -/
theorem footprint_exact_run : ∃ st v q fm L, Mounted st v q fm L ∧ ∃ p i n st' v',
    st.openInodes.get p = some i ∧ (inodeWriteAt p [7] (0 : Nat)).exec st v = some (n, st', v') ∧
    (Footprint fm st st' v v' (i.Own v) ↔
      i.data.Within 1 ∨ ¬ i.data.Slips v st.freeMap 1 ∨ v 0 = Sector.zeros) := by
  obtain ⟨s, x, p, hr, ⟨i, hp, hi⟩, hx0, -⟩ := exists_file (n := 200) (by decide) (by decide)
  obtain ⟨q, fm, C, h⟩ := hr.inv
  have hq := h.holds_ne hp (by rw [hi]; exact hx0)
  obtain ⟨n, i', b', v', hexec, -⟩ := h.mounted.inodeWriteAt hp hq [7] 0
  exact ⟨s.st, s.image, q, fm, _, h.mounted, p, i, n, _, v', hp, hexec,
    (footprint_exact h.mounted).1 p i [7] 0 n _ v' hp hq (by simp) hexec⟩

/-- The creation of a file of 124 sectors that finds 123 free ones. -/
theorem newInodeDisk_slips {v : Image} {b : Bitmap} (h : freeCount b = 123) :
    (newInodeDisk 0 false).Slips v b (124 * 512) := by
  have hn : bytesToSectors (124 * 512) = 124 := by decide
  rw [InodeDisk.Slips, h, newInodeDisk_lacking, hn]
  rfl

/-- On a freshly formatted device of 199 sectors, a creation that fails clears
the free map's inode. -/
theorem footprint_violated : ∃ s x s', Run [.freeMapAllocate (some x)] s ∧
    Step s (.inodeCreate x (124 * 512) false false) s' ∧
    s.image freeMapSector ≠ Sector.zeros ∧ s'.image freeMapSector = Sector.zeros ∧
    ∀ fm, ¬ Footprint fm s.st s'.st s.image s'.image (· = x) := by
  obtain ⟨s₀, hr₀, -, hne, hfree₀⟩ := exists_format (n := 199) (by decide) fun _ => Sector.zeros
  have hfree₀ : freeCount s₀.st.freeMap = 124 := by
    have hcost : sectorCost (bytesToSectors (byteCnt ((199 : BlockSector).toNat - 1))) = 1 := by decide
    have hsize : (199 : BlockSector).toNat = 199 := rfl
    omega
  obtain ⟨q, fm, C, h₀⟩ := hr₀.inv
  obtain ⟨x, s, hs, hspare, hfree, himage⟩ := h₀.exists_allocate (by omega)
  have hx : x ∈ s.spare := hspare ▸ List.mem_cons_self
  have hr := hr₀.step hs
  obtain ⟨q, fm, C, h⟩ := hr.inv
  have hm := h.mounted.perm (Session.spare_perm hx _)
  have hslips := newInodeDisk_slips (v := s.image) (b := s.st.freeMap) (by omega)
  have hlt : (124 * 512 : Int) < 2 ^ 31 := by omega
  obtain ⟨ok, b', v', d, hexec, hc, -⟩ := hm.inodeCreate hlt
  obtain rfl : ok = false := by
    refine Bool.eq_false_iff.2 fun hok => ?_
    exact (hc.ok_iff.1 hok).2.not_slips hslips
  have hzero : v' freeMapSector = Sector.zeros := by
    rw [show freeMapSector = 0 from rfl, hc.zero, if_pos ⟨by omega, hslips⟩]
  have hne : s.image freeMapSector ≠ Sector.zeros := by rw [himage]; exact hne
  refine ⟨s, x, _, hr, .inodeCreate hx hlt hexec, hne, hzero, fun fm' hf => ?_⟩
  rcases hf freeMapSector (fun he => hne (he.symm.trans hzero)) with ⟨hu, -⟩ | hx0 | hmap
  · exact hu h.mounted.world.zero
  · have := (hm.world.owned (x := ⟨x, newInodeDisk 0 false⟩) (by simp) (occ_sector s.image _)).2.1
    exact this hx0.symm
  · exact hmap.1 rfl

end MyShell.Fs

/-
Where files lie on the device. `filesys_create` puts a file where the free
sectors begin and moves no other, so that files that were only created are not
fragmented.
-/
import MyShell.Fs.FirstFit
import MyShell.Fs.Defragment
import MyShell.Fs.Steady

namespace MyShell.Fs

open Storage BlockTree Session

/-! ## Inodes that stay -/

/-- Inode `y` stays as it is, with its index sectors. -/
structure Session.Stays (s s' : Session) (y : BlockSector) : Prop where
  data : s'.data y = s.data y
  index : ∀ t, (s.data y).IsIndex s.image t → s'.image t = s.image t

/-- The data sectors of inode `y` are in order on the device, with gaps of two
sectors at most. -/
def Session.Dense (s : Session) (y : BlockSector) : Prop :=
  ∀ i, i + 1 < bytesToSectors (s.data y).length.toNat →
    ((s.data y).sector s.image i).toNat < ((s.data y).sector s.image (i + 1)).toNat ∧
      ((s.data y).sector s.image (i + 1)).toNat ≤ ((s.data y).sector s.image i).toNat + 3

/-- The inode of the free map is as it was, in memory and on the disk, and the map as long. -/
structure Session.KeepsMap (s s' : Session) : Prop where
  image : s'.image freeMapSector = s.image freeMapSector
  data : s'.data freeMapSector = s.data freeMapSector
  size : s'.st.freeMap.length = s.st.freeMap.length

namespace Session

variable {s s' s'' : Session} {y : BlockSector}

theorem KeepsMap.of_eq (hdata : s'.data freeMapSector = s.data freeMapSector)
    (himage : s'.image = s.image) (hmap : s'.st.freeMap = s.st.freeMap) : s.KeepsMap s' :=
  ⟨by rw [himage], hdata, by rw [hmap]⟩

theorem KeepsMap.trans (h : s.KeepsMap s') (h' : s'.KeepsMap s'') : s.KeepsMap s'' :=
  ⟨h'.image.trans h.image, h'.data.trans h.data, h'.size.trans h.size⟩

/-- It says nothing of what is live. -/
theorem KeepsMap.live {st : FsState} {v : Image} {live live' spare spare' : List BlockSector}
    (h : s.KeepsMap ⟨st, v, live, spare⟩) : s.KeepsMap ⟨st, v, live', spare'⟩ :=
  ⟨h.image, h.data, h.size⟩

theorem Inv.keepsMap {q : Ptr} {fm : InodeDisk} {C C' : List BlockSector} (h : s.Inv q fm C)
    (h' : s'.Inv q fm C') (hzero : s'.image freeMapSector = s.image freeMapSector)
    (hsize : s'.st.freeMap.length = s.st.freeMap.length) : s.KeepsMap s' := by
  obtain ⟨i, hi, hdata, hsector⟩ := h.mounted.map.inode
  obtain ⟨i', hi', hdata', hsector'⟩ := h'.mounted.map.inode
  have hmap := h.data_open hi
  have hmap' := h'.data_open hi'
  rw [hsector, hdata] at hmap
  rw [hsector', hdata'] at hmap'
  exact ⟨hzero, hmap'.trans hmap.symm, hsize⟩

theorem Stays.of_eq (hdata : s'.data y = s.data y) (himage : s'.image = s.image) : s.Stays s' y :=
  ⟨hdata, fun _ _ => by rw [himage]⟩

theorem Stays.trans (h : s.Stays s' y) (h' : s'.Stays s'' y) : s.Stays s'' y := by
  refine ⟨h'.data.trans h.data, fun t ht => ?_⟩
  have ht' : (s'.data y).IsIndex s'.image t := by rwa [h.data, InodeDisk.index_congr h.index]
  rw [h'.index t ht', h.index t ht]

theorem Stays.dense (h : s.Stays s' y) (hd : s.Dense y) : s'.Dense y := by
  intro i hi
  rw [h.data] at hi ⊢
  rw [InodeDisk.sector_congr h.index, InodeDisk.sector_congr h.index]
  exact hd i hi

/-! The calls of inode.c and free-map.c on other inodes. -/

section calls

variable {q p : Ptr} {fm : InodeDisk} {C C' : List BlockSector} {a : BlockSector → Option Node}
  {x : BlockSector}

/-- A call that does not change the inodes in memory. -/
theorem Inv.stays (h : s.Inv q fm C) (hst : s'.st.openInodes = s.st.openInodes)
    (hu : Untouched s.image s'.image (openOwners s.st.openInodes q ++ diskOwners s.image C))
    (hy : s.Present y) (hy0 : y ≠ freeMapSector) : s.Stays s' y := by
  have hmem := h.owner_mem hy hy0
  refine ⟨?_, hu.index hmem⟩
  rcases h.cases_present hy hy0 with ⟨p, i, hp, hq, rfl⟩ | ⟨hopen, -⟩
  · rw [h.data_open hp, data, hst, h.mounted.find_open hp]
  · have hclosed : ∀ p, ¬ s'.Holds p y := by
      intro p hp
      obtain ⟨i, hp, hi⟩ := hp
      rw [hst] at hp
      exact hopen p ⟨i, hp, hi⟩
    rw [data_closed hopen, data_closed hclosed]
    exact congrArg _ (hu.inode hmem)

/-- A call on the inode on sector `x`. -/
theorem Inv.stays_other (h : s.Inv q fm C) (h' : s'.Inv q fm C')
    (hget : ∀ p i, i.sector ≠ x → (s'.st.openInodes.get p = some i ↔
      s.st.openInodes.get p = some i))
    (hu : Untouched s.image s'.image [⟨y, s.data y⟩]) (hy : s.Present y) (hy0 : y ≠ freeMapSector)
    (hne : y ≠ x) : s.Stays s' y := by
  refine ⟨?_, hu.index (x := ⟨y, s.data y⟩) (by simp)⟩
  rcases h.cases_present hy hy0 with ⟨p, i, hp, -, rfl⟩ | ⟨hopen, -⟩
  · rw [h.data_open hp, h'.data_open ((hget p i hne).2 hp)]
  · have hclosed : ∀ p, ¬ s'.Holds p y := by
      intro p hp
      obtain ⟨i, hp, hi⟩ := hp
      exact hopen p ⟨i, (hget p i (by rw [hi]; exact hne)).1 hp, hi⟩
    rw [data_closed hopen, data_closed hclosed]
    exact congrArg _ (hu.inode (x := ⟨y, s.data y⟩) (by simp))

end calls

end Session

/-! Growing an inode takes sectors only. -/

theorem withFreeMap_preserves {α : Type} {I : Bitmap → Prop} {m : Option InodeDisk → Disk Bitmap α}
    (hm : ∀ file, (m file).Preserves I) : (withFreeMap m).Preserves fun st => I st.freeMap := by
  have hdata : freeMapData.Preserves fun st => I st.freeMap := by
    refine .getState fun st hst => ?_
    split
    · exact .pure _
    · exact .bind (.getState fun _ _ => .ofOption _) fun f =>
        .bind (.getState fun _ _ => .ofOption _) fun i => .pure _
  refine hdata.bind fun file st v r st' v' hst hexec => ?_
  rw [Cmd.exec_zoom, Option.map_eq_some_iff] at hexec
  obtain ⟨⟨r', b, v''⟩, hexec, heq⟩ := hexec
  cases heq
  exact hm file _ _ _ _ _ hst hexec

theorem inodeWriteAt_preserves (p : Ptr) (buffer : List UInt8) (offset : Int) :
    (inodeWriteAt p buffer offset).Preserves fun st => Compact st.freeMap := by
  refine .bind (.getState fun _ _ => .ofOption _) fun i =>
    (withFreeMap_preserves fun file => inodeWriteAt_compact i buffer offset).bind fun _ => ?_
  exact .bind (.modifyState fun _ hst => hst) fun _ => .pure _

namespace Volume

variable {s s' : Session} {a : BlockSector → Option Node} {x y : BlockSector} {d : Ptr} {dir : Dir}
  {parent : BlockSector} {g : Growable UInt8} {T : Table} {name : CString} {length : Int}

/-- A call that needs the free map only, as free-map.c sees it. -/
theorem withFreeMap {α : Type} {m : Option InodeDisk → Disk Bitmap α} {r : α} (h : Volume s a)
    (hdoes : s.Does (Fs.withFreeMap m) r s') :
    ∃ file, (m file).exec s.st.freeMap s.image = some (r, s'.st.freeMap, s'.image) := by
  obtain ⟨q, fm, C, hinv⟩ := h.inv
  rw [Does, exec_withFreeMap hinv.mounted.map, Option.map_eq_some_iff] at hdoes
  obtain ⟨⟨r', b, v⟩, hexec, heq⟩ := hdoes
  simp only [Prod.mk.injEq] at heq
  obtain ⟨rfl, hst, rfl⟩ := heq
  exact ⟨some fm, by rw [hexec, ← hst]; rfl⟩

theorem allocate_stays (h : Volume s a) {r : Option BlockSector}
    (hdoes : s.Does (Fs.withFreeMap fun file => freeMapAllocate file 1) r s') (hy : s.Present y)
    (hy0 : y ≠ freeMapSector) : s.Stays s' y := by
  obtain ⟨q, fm, C, hinv⟩ := h.inv
  rcases hinv.mounted.freeMapAllocate with ⟨-, hexec⟩ | ⟨x, b, v, hexec, -, -, hu, -⟩
  · rw [Does, hexec] at hdoes
    simp only [Option.some.injEq, Prod.mk.injEq] at hdoes
    obtain ⟨-, hst, himage⟩ := hdoes
    exact hinv.stays (by rw [← hst]) (fun _ _ _ _ => by rw [← himage]) hy hy0
  · rw [Does, hexec] at hdoes
    simp only [Option.some.injEq, Prod.mk.injEq] at hdoes
    obtain ⟨-, hst, rfl⟩ := hdoes
    rw [← List.append_assoc] at hu
    exact hinv.stays (by rw [← hst]; rfl) (hu.mono (List.subset_append_left _ _)) hy hy0

theorem release_stays (h : Volume s a) (hx : x ∈ s.spare)
    (hdoes : s.Does (Fs.withFreeMap fun file => freeMapRelease file x 1) () s') (hy : s.Present y)
    (hy0 : y ≠ freeMapSector) : s.Stays s' y := by
  obtain ⟨q, fm, C, hinv⟩ := h.inv
  obtain ⟨b, v, hexec, -, hu, -⟩ := (hinv.mounted.perm (spare_perm hx _)).releaseSector
  rw [Does, hexec] at hdoes
  simp only [Option.some.injEq, Prod.mk.injEq, true_and] at hdoes
  obtain ⟨hst, rfl⟩ := hdoes
  rw [← List.append_assoc] at hu
  exact hinv.stays (by rw [← hst]; rfl) (hu.mono (List.subset_append_left _ _)) hy hy0

/-- `inode_create` on a sector taken for it, for the inodes there are. -/
theorem create_stays (h : Volume s a) (hx : x ∈ s.spare) (hlen : length < 2 ^ 31) {isDir ok : Bool}
    (hdoes : s.Does (inodeCreate x length isDir) ok s') (hy : s.Present y)
    (hy0 : y ≠ freeMapSector) : s.Stays s' y := by
  obtain ⟨q, fm, C, hinv⟩ := h.inv
  have hm : Mounted s.st s.image q fm
      (⟨x, newInodeDisk 0 isDir⟩ :: (diskOwners s.image C ++ (s.spare.erase x).map
        fun x => ⟨x, newInodeDisk 0 false⟩)) :=
    (hinv.mounted.perm (spare_perm hx _)).shrink (.refl _) (newInodeDisk_sound _)
  obtain ⟨ok', b, v, d, hexec, hc, -⟩ := hm.inodeCreate hlen
  rw [Does, hexec] at hdoes
  simp only [Option.some.injEq, Prod.mk.injEq] at hdoes
  obtain ⟨-, hst, rfl⟩ := hdoes
  have hu := hc.untouched
  rw [← List.append_assoc] at hu
  exact hinv.stays (by rw [← hst]; rfl) (hu.mono (List.subset_append_left _ _)) hy hy0

/-- `inode_write_at`, for the other inodes. -/
theorem writeAt_stays {p : Ptr} (h : Volume s a) (hp : s.Holds p x) (hx : x ≠ freeMapSector)
    {buffer : List UInt8} {ofs : Nat} {k : Int}
    (hdoes : s.Does (inodeWriteAt p buffer (ofs : Nat)) k s') (hy : s.Present y)
    (hy0 : y ≠ freeMapSector) (hne : y ≠ x) : s.Stays s' y := by
  obtain ⟨q, fm, C, i, hinv, hi, rfl, -⟩ := h.held hp
  have hq := hinv.holds_ne hi hx
  obtain ⟨k', i', b, v, hexec, hw, -⟩ := hinv.mounted.inodeWriteAt hi hq buffer ofs
  obtain ⟨hinv', -⟩ := hinv.inodeWriteAt hi hx hexec
  rw [Does, hexec] at hdoes
  simp only [Option.some.injEq, Prod.mk.injEq] at hdoes
  obtain ⟨-, hst, rfl⟩ := hdoes
  have hsec : i'.sector = i.sector := by rw [hw.inode]
  have hmem := hinv.owner_mem_free hi hq hy hy0 hne
  have hother := hinv.stays_other hinv' (fun p' j hj => get_modify_other hi hsec hj)
    (hw.untouched.mono fun o ho => by rw [List.mem_singleton.1 ho]; exact hmem) hy hy0 hne
  refine ⟨?_, hother.index⟩
  rw [← hother.data, Session.data, Session.data, ← hst]

/-! The inode of the free map. Where sectors run out, zeros may land on it. -/

theorem allocate_keepsMap (h : Volume s a) {r : Option BlockSector}
    (hdoes : s.Does (Fs.withFreeMap fun file => freeMapAllocate file 1) r s') : s.KeepsMap s' := by
  obtain ⟨q, fm, C, hinv⟩ := h.inv
  obtain ⟨st, v, live, spare⟩ := s'
  rw [Does] at hdoes
  have hkeeps := hinv.keepsMap (hinv.freeMapAllocate hdoes).1
  rcases hinv.mounted.freeMapAllocate with ⟨-, hexec'⟩ | ⟨x, b, v', hexec', ht, hv, -⟩
  · rw [hdoes] at hexec'
    obtain ⟨-, rfl, rfl⟩ : r = none ∧ st = s.st ∧ v = s.image := by simpa using hexec'
    exact (hkeeps rfl rfl).live
  · rw [hdoes] at hexec'
    obtain ⟨-, rfl, rfl⟩ : r = some x ∧ st = s.st.setFreeMap b ∧ v = v' := by simpa using hexec'
    exact (hkeeps (hv _ fun hmap => hmap.1 rfl) ht.length).live

theorem create_keepsMap (h : Volume s a) (hx : x ∈ s.spare) (hlen : length < 2 ^ 31) {isDir : Bool}
    (hdoes : s.Does (inodeCreate x length isDir) true s') : s.KeepsMap s' := by
  obtain ⟨q, fm, C, hinv⟩ := h.inv
  obtain ⟨st, v, live, spare⟩ := s'
  rw [Does] at hdoes
  have hkeeps := hinv.keepsMap (hinv.inodeCreate hx hlen hdoes).1
  have hm : Mounted s.st s.image q fm
      (⟨x, newInodeDisk 0 isDir⟩ :: (diskOwners s.image C ++ (s.spare.erase x).map
        fun x => ⟨x, newInodeDisk 0 false⟩)) :=
    (hinv.mounted.perm (spare_perm hx _)).shrink (.refl _) (newInodeDisk_sound _)
  obtain ⟨ok, b, v', d, hexec', hc, -⟩ := hm.inodeCreate hlen
  rw [hdoes] at hexec'
  obtain ⟨rfl, rfl, rfl⟩ : true = ok ∧ st = s.st.setFreeMap b ∧ v = v' := by simpa using hexec'
  have hzero : v 0 = s.image 0 := by
    rw [hc.zero, if_neg fun hslips => (hc.ok_iff.1 rfl).2.not_slips hslips.2]
  exact (hkeeps hzero hc.size).live

/-- A write that is not cut short. -/
theorem writeAt_keepsMap {p : Ptr} (h : Volume s a) (hp : s.Holds p x) (hx : x ≠ freeMapSector)
    {buffer : List UInt8} {ofs : Nat}
    (hdoes : s.Does (inodeWriteAt p buffer (ofs : Nat)) buffer.length s') (hne : buffer ≠ []) :
    s.KeepsMap s' := by
  obtain ⟨q, fm, C, i, hinv, hi, rfl, -⟩ := h.held hp
  have hq := hinv.holds_ne hi hx
  obtain ⟨st, v, live, spare⟩ := s'
  rw [Does] at hdoes
  have hkeeps := hinv.keepsMap (hinv.inodeWriteAt hi hx hdoes).1
  obtain ⟨k, i', b, v', hexec', hw, -⟩ := hinv.mounted.inodeWriteAt hi hq buffer ofs
  rw [hdoes] at hexec'
  obtain ⟨rfl, rfl, rfl⟩ : (buffer.length : Int) = k ∧
    st = (s.st.setFreeMap b).setInodes (s.st.openInodes.modify p fun _ => i') ∧
    v = v' := by simpa using hexec'
  have hroom : i.data.Within (ofs + buffer.length) ∨
      i.data.Fits s.image s.st.freeMap (ofs + buffer.length) := by
    by_contra hno
    have hpos := List.length_pos_iff.2 hne
    have hnone := (hw.failed hno).1
    omega
  have hzero : v 0 = s.image 0 := by
    rw [hw.zero, if_neg fun hslips => ?_]
    exact (hroom.resolve_left hslips.1).not_slips hslips.2
  exact (hkeeps hzero hw.size).live

/-! ## A new file -/

/-- **A new inode** lies where the free sectors begin. -/
theorem create_dense (h : Volume s a) (hx : x ∈ s.spare) (hlen : length < 2 ^ 31) {isDir : Bool}
    (hmap : Compact s.st.freeMap) (hdoes : s.Does (inodeCreate x length isDir) true s') :
    s'.Dense x := by
  obtain ⟨q, fm, C, hinv⟩ := h.inv
  obtain ⟨-, -, hxopen, hxuse⟩ := h.spare_fresh hx
  obtain ⟨-, n, hpacked⟩ := hmap
  rw [inodeCreate, Does, exec_withFreeMap hinv.mounted.map, Option.map_eq_some_iff] at hdoes
  obtain ⟨⟨ok, b, v⟩, hexec, heq⟩ := hdoes
  simp only [Prod.mk.injEq] at heq
  obtain ⟨rfl, hst, rfl⟩ := heq
  obtain ⟨d, n', hdisk, hstorable, hdlen, hmax, -, hlaid⟩ :=
    exec_inodeCreate_packed hinv.mounted.world.ready hpacked hxuse hlen hexec
  have hclosed : ∀ p, ¬ s'.Holds p x := by
    intro p hp
    obtain ⟨i, hi, hix⟩ := hp
    rw [← hst] at hi
    exact hxopen p ⟨i, hi, hix⟩
  have hdata : s'.data x = d := by
    rw [data_closed hclosed, hdisk, InodeDisk.ofSector_toSector hstorable]
  intro i hi
  rw [hdata] at hi ⊢
  rw [hdlen] at hi
  have hlevel : ∀ r ∈ d.roots, r.1 ≤ 2 := fun r hr => by
    rcases List.mem_append.1 hr with hr | hr
    · obtain ⟨t, -, rfl⟩ := List.mem_map.1 hr
      exact Nat.zero_le _
    · rcases List.mem_pair.1 hr with rfl | rfl
      · exact Nat.le_succ 1
      · exact Nat.le_refl 2
  have hspaced := hlaid.spaced hlevel (by omega)
    (by rw [InodeDisk.capacity_roots hstorable.direct]; exact hmax)
  exact hspaced.step i hi

/-- `dir_add` writes to the directory only. -/
theorem dirAdd_stays (h : Volume s a) (hd : OpenDir s a d dir x parent g T) {ok : Bool}
    {z : BlockSector} (hdoes : s.Does (dirAdd d name z false) ok s') :
    (Compact s.st.freeMap → Compact s'.st.freeMap) ∧
      ∀ y, s.Present y → y ≠ freeMapSector → y ≠ x → s.Stays s' y := by
  have hsame : s.Does (dirAdd d name z false) false s →
      (Compact s.st.freeMap → Compact s'.st.freeMap) ∧ ∀ y, s.Present y → y ≠ freeMapSector →
      y ≠ x → s.Stays s' y := fun hno => by
    rw [Does, hno] at hdoes
    simp only [Option.some.injEq, Prod.mk.injEq] at hdoes
    obtain ⟨-, hst, himage⟩ := hdoes
    exact ⟨fun hmap => hst ▸ hmap, fun y _ _ _ => .of_eq
      (by rw [Session.data, Session.data, hst, himage]) himage.symm⟩
  by_cases hlen : name = [] ∨ nameMax < name.length
  · refine hsame ?_
    rw [dirAdd, if_pos hlen]
    exact .pure _ _
  rw [not_or, not_lt] at hlen
  by_cases hname : SlotMap.lookup T name = none
  · obtain ⟨s₁, k, -, -, -, -, hwrite, -⟩ :=
      h.write_step hd.holds hd.sector (DirEntry.toBytes ⟨z, name, true⟩) (36 * (T.freeSlot + 1))
    have hadd := hd.dirAdd_write h hlen hname hwrite
    rw [Does, hadd] at hdoes
    simp only [Option.some.injEq, Prod.mk.injEq] at hdoes
    obtain ⟨-, hst, himage⟩ := hdoes
    refine ⟨fun hmap => hst ▸ inodeWriteAt_preserves _ _ _ _ _ _ _ _ hmap hwrite,
      fun y hy hy0 hyx => ?_⟩
    have hstays := h.writeAt_stays hd.holds hd.sector hwrite hy hy0 hyx
    exact ⟨by rw [← hstays.data, Session.data, Session.data, hst, himage],
      fun t ht => by rw [← himage, hstays.index t ht]⟩
  · exact hsame (hd.dirAdd_bound h hlen hname)

theorem dirAdd_keepsMap (h : Volume s a) (hd : OpenDir s a d dir x parent g T) {z : BlockSector}
    (hdoes : s.Does (dirAdd d name z false) true s') : s.KeepsMap s' := by
  by_cases hlen : name = [] ∨ nameMax < name.length
  · rw [dirAdd, if_pos hlen] at hdoes
    cases hdoes
  rw [not_or, not_lt] at hlen
  by_cases hname : SlotMap.lookup T name = none
  · obtain ⟨s₁, k, -, -, -, -, hwrite, -⟩ :=
      h.write_step hd.holds hd.sector (DirEntry.toBytes ⟨z, name, true⟩) (36 * (T.freeSlot + 1))
    have hadd := hd.dirAdd_write h hlen hname hwrite
    rw [Does, hadd] at hdoes
    simp only [Option.some.injEq, Prod.mk.injEq] at hdoes
    obtain ⟨hk, hst, himage⟩ := hdoes
    have hbytes : (DirEntry.toBytes ⟨z, name, true⟩).length = dirEntrySize := DirEntry.length_toBytes _
    obtain rfl : k = (DirEntry.toBytes ⟨z, name, true⟩).length := by
      rw [hbytes]; exact of_decide_eq_true hk
    have hne : DirEntry.toBytes ⟨z, name, true⟩ ≠ [] := by
      intro hnil
      rw [hnil] at hbytes
      cases hbytes
    obtain ⟨himage', hdata', hsize'⟩ := h.writeAt_keepsMap hd.holds hd.sector hwrite hne
    exact ⟨by rw [← himage, himage'], by rw [← hdata', Session.data, Session.data, hst, himage],
      by rw [← hst, hsize']⟩
  · have hno : s.Does (dirAdd d name z false) false s := hd.dirAdd_bound h hlen hname
    rw [Does, hno] at hdoes
    cases hdoes

theorem removeInode_keepsMap {p : Ptr} (h : Volume s a) (hp : s.Holds p x) (hx : x ≠ freeMapSector)
    (hdoes : s.Does (inodeRemove p) () s') : s.KeepsMap s' := by
  obtain ⟨q, fm, C, i, hinv, hi, rfl, -⟩ := h.held hp
  obtain ⟨st, v, live, spare⟩ := s'
  rw [Does] at hdoes
  obtain ⟨st', hst, hexec, -⟩ := hinv.mounted.inodeRemove hi (hinv.holds_ne hi hx)
  have hkeeps := hinv.keepsMap (hinv.inodeRemove hi hx hdoes).1
  rw [hdoes] at hexec
  obtain ⟨rfl, rfl⟩ : st = st' ∧ v = s.image := by simpa using hexec
  exact (hkeeps rfl (by rw [hst]; rfl)).live

theorem closeInode_keepsMap {p : Ptr} (h : Volume s a) (hp : s.Holds p x) (hx : x ≠ freeMapSector)
    (hdoes : s.Does (inodeClose (some p)) () s') : s.KeepsMap s' := by
  obtain ⟨q, fm, C, i, hinv, hi, rfl, -⟩ := h.held hp
  have hq := hinv.holds_ne hi hx
  obtain ⟨st, v, live, spare⟩ := s'
  rw [Does] at hdoes
  have hkeeps := hinv.keepsMap (hinv.inodeClose hi hx hdoes).1
  cases hremoved : i.removed with
  | false =>
    obtain ⟨st', hst, hexec, -⟩ := hinv.mounted.inodeClose_last hi hq (hinv.once p i hi) hremoved
    rw [hdoes] at hexec
    obtain ⟨rfl, rfl⟩ : st = st' ∧ v = s.image := by simpa using hexec
    exact (hkeeps rfl (by rw [hst]; rfl)).live
  | true =>
    obtain ⟨b, v', hexec, hreleased, -⟩ :=
      hinv.mounted.inodeClose_removed hi hq (hinv.once p i hi) hremoved
    rw [hdoes] at hexec
    obtain ⟨rfl, rfl⟩ : st = (s.st.setFreeMap b).setInodes (s.st.openInodes.free p) ∧ v = v' := by
      simpa using hexec
    exact (hkeeps (hreleased.frame _ fun hmap => hmap.1 rfl) hreleased.gives.length).live

end Volume

/-! ## Creating a file -/

theorem Session.Around.stays {s s' : Session} {y : BlockSector} (h : s.Around s')
    (hy : y ≠ rootDirSector) : s.Stays s' y :=
  .of_eq (h.data y hy) h.image

theorem Session.Around.keepsMap {s s' : Session} (h : s.Around s') : s.KeepsMap s' :=
  .of_eq (h.data _ (by decide)) h.image h.freeMap

/-- **`filesys_create`** moves no file. The file it makes lies where the free sectors begin,
and the inode of the free map is still there. -/
theorem Rooted.filesysCreate_layout {s : Session} {a : BlockSector → Option Node}
    {g : Growable UInt8} {T : Table} (h : Rooted s a g T) (hcwd : s.CwdOk) {path name : CString}
    (hpath : fileName path = name) (hchars : 0 ∉ name ∧ slash ∉ name) {length : Int}
    (hlen : length < 2 ^ 31) : ∃ s' ok, s.Does (Fs.filesysCreate path length false) ok s' ∧
      (AlmostCompact s.st.freeMap → AlmostCompact s'.st.freeMap) ∧
      (∀ y ∈ s.live, y ≠ freeMapSector → y ≠ rootDirSector → s.Stays s' y) ∧
      (ok = true ∧ s.KeepsMap s' ∧ (∃ y a' g', (AlmostCompact s.st.freeMap → s'.Dense y) ∧
          Rooted s' a' g' (SlotMap.put T (name, y))) ∨
        ok = false ∧ Rooted s' a g T) := by
  obtain ⟨d, dir, s₁, henter, h₁, hd₁, hcnt, hcwd₁, haround₁, -⟩ := h.enter hcwd
  obtain ⟨directory, hsplit⟩ : ∃ directory, splitPathFilename path = (directory, name) :=
    ⟨_, Prod.ext rfl hpath⟩
  have hmap₁ (hmap : AlmostCompact s.st.freeMap) : AlmostCompact s₁.st.freeMap :=
    haround₁.freeMap.symm ▸ hmap
  have hlive₁ : ∀ y ∈ s.live, s₁.Present y := fun y hy => .inl (haround₁.live.symm ▸ hy)
  rcases h₁.vol.allocate with
    ⟨-, hnone⟩ | ⟨x, s₂, hsome, hvol₂, hb₂, hholds₂, hlive₂, hspare₂, -⟩
  · -- no sector is free
    obtain ⟨s₂, hleave, h₂, -, haround₂, -⟩ := h₁.leave hd₁ hcwd₁ hcnt
    refine ⟨s₂, false, ?_, fun hmap => haround₂.freeMap.symm ▸ hmap₁ hmap,
      fun y _ _ hy => (haround₁.stays hy).trans (haround₂.stays hy), .inr ⟨rfl, h₂⟩⟩
    unfold Fs.filesysCreate
    rw [hsplit]
    exact henter.bind (Does.bind (hnone.bind (.pure _ _)) (hleave.bind (.pure _ _)))
  have hxspare : x ∈ s₂.spare := by rw [hspare₂]; exact List.mem_cons_self
  obtain ⟨hx0, hxlive, hxopen, -⟩ := hvol₂.spare_fresh hxspare
  obtain ⟨h₂, hd₂⟩ := h₁.beside hvol₂ hlive₂ hd₁ hb₂ hholds₂
  have hxroot : x ≠ rootDirSector := by
    rintro rfl
    exact hxlive h₂.root
  have hne : (x != 0) = true := bne_iff_ne.2 hx0
  -- the sector of the inode closes the gap
  obtain ⟨file, halloc⟩ := h₁.vol.withFreeMap hsome
  have hmap₂ (hmap : AlmostCompact s.st.freeMap) : Compact s₂.st.freeMap := (hmap₁ hmap).take halloc
  have hstays₂ : ∀ y ∈ s.live, y ≠ freeMapSector → y ≠ rootDirSector → s.Stays s₂ y :=
    fun y hy hy0 hyroot =>
    (haround₁.stays hyroot).trans (h₁.vol.allocate_stays hsome (hlive₁ y hy) hy0)
  have hpresent₂ : ∀ y ∈ s.live, s₂.Present y := fun y hy => .inl (by rwa [hlive₂, haround₁.live])
  obtain ⟨s₃, hb₃, hholds₃, ⟨-, hcreate, hvol₃, hlive₃, hspare₃, -⟩ | ⟨-, hcreate, hvol₃,
    hlive₃,
      hspare₃⟩⟩ :=
    hvol₂.create hxspare length hlen false
  · have hstays₃ : ∀ y ∈ s.live, y ≠ freeMapSector → y ≠ rootDirSector → s.Stays s₃ y :=
      fun y hy hy0 hyroot =>
      (hstays₂ y hy hy0 hyroot).trans (hvol₂.create_stays hxspare hlen hcreate (hpresent₂ y hy) hy0)
    have hdense₃ (hmap : AlmostCompact s.st.freeMap) :=
      hvol₂.create_dense hxspare hlen (hmap₂ hmap) hcreate
    obtain ⟨file, hcreated⟩ := hvol₂.withFreeMap hcreate
    have hmap₃ (hmap : AlmostCompact s.st.freeMap) : Compact s₃.st.freeMap :=
      inodeCreate_compact _ _ _ _ _ _ _ _ (hmap₂ hmap) hcreated
    have h₃ := h₂.fresh hxlive hvol₃ hlive₃
    have hd₃ := h₃.openDir (hb₃.dirs ▸ hd₂.handle) ((hholds₃ _ _).2 hd₂.holds)
    have hnew : x ∉ T.sectors := fun hmem => hxlive (h₂.files x hmem).1
    have hpresent₃ : ∀ y ∈ s.live, s₃.Present y := fun y hy =>
      .inl (by rw [hlive₃, hlive₂, haround₁.live]; exact List.mem_cons_of_mem _ hy)
    obtain ⟨s₄, ok, hadd, hb₄, hholds₄, hlive₄, hspare₄, -,
        ⟨haddable, rfl, g', hvol₄, hd₄⟩ | ⟨-, rfl, hvol₄, hd₄⟩⟩ :=
      hd₃.add h₃.vol (y := x) hchars.1
    · -- the name is entered
      have hne' : name ≠ [] := List.length_pos_iff.1 haddable.1
      have h₄ := h₃.bind (by rw [hlive₃]; exact List.mem_cons_self) hx0 hxroot hnew hvol₄ hlive₄
        hd₄.folder ⟨hne', hchars⟩ haddable.2.2.1
      obtain ⟨hmap₄, hstays₄⟩ := h₃.vol.dirAdd_stays hd₃ hadd
      obtain ⟨s₅, hleave, h₅, -, haround₅, -⟩ :=
        h₄.leave hd₄ (by rw [hb₄.cwd, hb₃.cwd, hb₂.cwd]; exact hcwd₁) hcnt
      have hkeeps := ((haround₁.keepsMap.trans (h₁.vol.allocate_keepsMap hsome)).trans
        (hvol₂.create_keepsMap hxspare hlen hcreate)).trans
        ((h₃.vol.dirAdd_keepsMap hd₃ hadd).trans haround₅.keepsMap)
      refine ⟨s₅, true, ?_, fun hmap => ?_, fun y hy hy0 hyroot => ?_,
        .inl ⟨rfl, hkeeps, x, _, g', fun hmap => ?_, h₅⟩⟩
      · unfold Fs.filesysCreate
        rw [hsplit]
        exact henter.bind (Does.bind (hsome.bind (hcreate.bind (hadd.bind (.pure _ _))))
          (hleave.bind (.pure _ _)))
      · rw [haround₅.freeMap]
        exact (hmap₄ (hmap₃ hmap)).almost
      · exact ((hstays₃ y hy hy0 hyroot).trans (hstays₄ y (hpresent₃ y hy) hy0 hyroot)).trans
          (haround₅.stays hyroot)
      · have hx₃ : s₃.Present x := .inl (by rw [hlive₃]; exact List.mem_cons_self)
        exact ((hstays₄ x hx₃ hx0 hxroot).trans (haround₅.stays hxroot)).dense (hdense₃ hmap)
    · -- the sector of the inode is given back, its other sectors are lost
      obtain ⟨hmap₄, hstays₄⟩ := h₃.vol.dirAdd_stays hd₃ hadd
      have hclosed : ∀ p, ¬ s₄.Holds p x := fun p hp => hxopen p ((hholds₃ _ _).1 ((hholds₄ _ _).1 hp))
      have hlive : s₄.live.erase x = s₂.live := by rw [hlive₄, hlive₃, List.erase_cons_head]
      have hdiscard := hvol₄.discard (by rw [hlive₄, hlive₃]; exact List.mem_cons_self) hclosed
      rw [hlive] at hdiscard
      have hvol := hdiscard.forget (fun hpresent => hpresent.elim hxlive fun ⟨p, hp⟩ => hclosed p hp)
      obtain ⟨h₅, hd₅⟩ :=
        h₂.beside hvol rfl hd₂ (hb₃.trans ⟨hb₄.state, hb₄.size⟩) fun p y =>
          (hholds₄ p y).trans (hholds₃ p y)
      obtain ⟨s₆, hrelease, hvol₆, hb₆, hholds₆, hlive₆, -, hgive₆⟩ :=
        hvol.release List.mem_cons_self
      have hstays₆ : ∀ y ∈ s.live, y ≠ freeMapSector → s₄.Stays s₆ y := fun y hy hy0 => by
        have hlive₂ : y ∈ s₂.live := by rwa [hlive₂, haround₁.live]
        obtain ⟨hdata, hindex⟩ := hvol.release_stays List.mem_cons_self hrelease (.inl hlive₂) hy0
        exact ⟨hdata, hindex⟩
      obtain ⟨h₆, hd₆⟩ := h₅.beside hvol₆ hlive₆ hd₅ hb₆ hholds₆
      obtain ⟨s₇, hleave, h₇, -, haround₇, -⟩ :=
        h₆.leave hd₆ (by rw [hb₆.cwd, hb₄.cwd, hb₃.cwd, hb₂.cwd]; exact hcwd₁) hcnt
      have hrelease : s₄.Does (withFreeMap fun file => freeMapRelease file x 1) () s₆ := hrelease
      refine ⟨s₇, false, ?_, fun hmap => ?_, fun y hy hy0 hyroot => ?_, .inr ⟨rfl, h₇⟩⟩
      · unfold Fs.filesysCreate
        rw [hsplit]
        refine henter.bind (Does.bind (hsome.bind (hcreate.bind (hadd.bind (.pure _ _)))) ?_)
        simp only [Bool.not_false, Bool.true_and, hne, if_true]
        exact hrelease.bind (hleave.bind (.pure _ _))
      · rw [haround₇.freeMap]
        exact (hmap₄ (hmap₃ hmap)).give hb₆.size hgive₆
      · exact (((hstays₃ y hy hy0 hyroot).trans (hstays₄ y (hpresent₃ y hy) hy0 hyroot)).trans
          (hstays₆ y hy hy0)).trans (haround₇.stays hyroot)
  · -- there are not the sectors
    obtain ⟨file, hcreated⟩ := hvol₂.withFreeMap hcreate
    have hmap₃ (hmap : AlmostCompact s.st.freeMap) : Compact s₃.st.freeMap :=
      inodeCreate_compact _ _ _ _ _ _ _ _ (hmap₂ hmap) hcreated
    obtain ⟨h₃, hd₃⟩ := h₂.beside hvol₃ hlive₃ hd₂ hb₃ hholds₃
    have hxspare₃ : x ∈ s₃.spare := by rw [hspare₃]; exact hxspare
    obtain ⟨s₄, hrelease, hvol₄, hb₄, hholds₄, hlive₄, -, hgive₄⟩ := hvol₃.release hxspare₃
    obtain ⟨h₄, hd₄⟩ := h₃.beside hvol₄ hlive₄ hd₃ hb₄ hholds₄
    obtain ⟨s₅, hleave, h₅, -, haround₅, -⟩ :=
      h₄.leave hd₄ (by rw [hb₄.cwd, hb₃.cwd, hb₂.cwd]; exact hcwd₁) hcnt
    refine ⟨s₅, false, ?_, fun hmap => ?_, fun y hy hy0 hyroot => ?_, .inr ⟨rfl, h₅⟩⟩
    · unfold Fs.filesysCreate
      rw [hsplit]
      refine henter.bind (Does.bind (hsome.bind (hcreate.bind (.pure _ _))) ?_)
      simp only [Bool.not_false, Bool.true_and, hne, if_true]
      exact hrelease.bind (hleave.bind (.pure _ _))
    · rw [haround₅.freeMap]
      exact (hmap₃ hmap).give hb₄.size hgive₄
    · have hpresent₃ : s₃.Present y := .inl (by rw [hlive₃, hlive₂, haround₁.live]; exact hy)
      exact (((hstays₂ y hy hy0 hyroot).trans
        (hvol₂.create_stays hxspare hlen hcreate (hpresent₂ y hy) hy0)).trans
        (hvol₃.release_stays hxspare₃ hrelease hpresent₃ hy0)).trans (haround₅.stays hyroot)

/-! ## Removing a file -/

theorem Session.Does.same {α : Type} {m : FsM α} {r r' : α} {s s' s'' : Session} (h : s.Does m r s')
    (h' : s.Does m r' s'') : r = r' ∧ s'.st = s''.st ∧ s'.image = s''.image := by
  rw [Does, h] at h'
  simpa using h'

theorem Session.KeepsMap.of_does {α : Type} {m : FsM α} {r : α} {s s' s'' : Session}
    (h : s.KeepsMap s') (hdoes : s.Does m r s') (hdoes' : s.Does m r s'') : s.KeepsMap s'' := by
  obtain ⟨-, hst, himage⟩ := hdoes.same hdoes'
  exact ⟨by rw [← himage, h.image], by rw [← h.data, Session.data, Session.data, hst, himage],
    by rw [← hst, h.size]⟩

theorem OpenDir.remove_keepsMap {s s' : Session} {a : BlockSector → Option Node} {d : Ptr}
    {dir : Dir} {x parent : BlockSector} {g : Growable UInt8} {T : Table} {name : CString}
    (hd : OpenDir s a d dir x parent g T) (h : Volume s a)
    (hfiles : ∀ y, some (name, y) ∈ T → y ∈ s.live ∧ y ≠ freeMapSector ∧ y ≠ x ∧
      ∃ f, a y = some ⟨f, false⟩)
    (hdoes : s.Does (dirRemove d name) true s') : s.KeepsMap s' := by
  by_cases hname : SlotMap.lookup T name = none
  · have hno : s.Does (dirRemove d name) false s := (hd.lookup_none h hname).bind (.pure _ _)
    rw [Does, hdoes] at hno
    cases hno
  obtain ⟨i, e, y, -, hi, he, hlook⟩ := hd.lookup_some h hname
  obtain ⟨hy, hy0, -, f, hf⟩ := hfiles y (List.mem_of_getElem? hi)
  have hiT := (List.getElem?_eq_some_iff.1 hi).1
  obtain rfl : e.inodeSector = y := by
    unfold DirEntry.slot at he
    split at he
    · exact congrArg Prod.snd (Option.some.inj he)
    · cases he
  obtain ⟨p, s₁, hopen, hvol₁, hb₁, hp₁, hkeep₁, -, -, -, hmap₁, himage₁, hdata₁⟩ :=
    h.openAny hy
  have hd₁ : OpenDir s₁ a d dir x parent g T := hd.beside hb₁ (hkeep₁ _ _ hd.holds) hd.node hd.folder
  have hisdir := hvol₁.isDirectory hp₁ hy0 hf
  -- the entry is in the directory, so that no sector is taken for it
  have hbytes := DirEntry.length_toBytes { e with inUse := false }
  have hne : DirEntry.toBytes { e with inUse := false } ≠ [] := by
    intro hnil
    rw [hnil] at hbytes
    cases hbytes
  have hglen := hd.folder.length
  have hpos := h.length_le hd.sector (.inr ⟨_, hd.holds⟩) hd.node
  simp only [InodeDisk.maxSectors] at hpos
  have hroom₁ : s₁.Room x (36 * (i + 1) + 36) :=
    hvol₁.room_of_le hd.sector (.inr ⟨_, hd₁.holds⟩) hd.node (by omega) (by simp only; omega)
  obtain ⟨s₂, k, hwrite, -, hholds₂, -, -, -, hres⟩ := hvol₁.writeAt hd₁.holds hd.sector hd.node
    { e with inUse := false }.toBytes (36 * (i + 1)) hne
  rw [hbytes] at hres
  obtain ⟨-, rfl, hvol₂⟩ := hres.resolve_right fun hno => hno.1 hroom₁
  have hp₂ := (hholds₂ _ _).2 hp₁
  obtain ⟨s₃, hremove, hvol₃, -, hholds₃, -⟩ := hvol₂.removeInode hp₂ hy0
  have hp₃ := (hholds₃ _ _).2 hp₂
  obtain ⟨s₄, hclose, -⟩ := hvol₃.closeInode hp₃ hy0
  have hkeeps₂ : s₁.KeepsMap s₂ :=
    hvol₁.writeAt_keepsMap hd₁.holds hd.sector (by rw [hbytes]; exact hwrite) hne
  have hkeeps := ((Session.KeepsMap.of_eq (hdata₁ _) himage₁ hmap₁).trans hkeeps₂).trans
    ((hvol₂.removeInode_keepsMap hp₂ hy0 hremove).trans (hvol₃.closeInode_keepsMap hp₃ hy0 hclose))
  refine hkeeps.of_does (hlook.bind (hopen.bind (hisdir.bind ?_))) hdoes
  simp only [Bool.false_eq_true, if_false]
  refine (Does.pure s₁ true).bind (Does.bind (?_ : s₁.Does _ true s₃) (hclose.bind (.pure _ _)))
  simp only [Bool.not_true, Bool.false_eq_true, if_false]
  refine hd₁.getInode.bind (hwrite.bind ?_)
  rw [if_neg (by decide)]
  exact hremove.bind (.pure _ _)

theorem Rooted.filesysRemove_keepsMap {s s' : Session} {a : BlockSector → Option Node}
    {g : Growable UInt8} {T : Table} (h : Rooted s a g T) (hcwd : s.CwdOk) {name : CString}
    (hname : name ≠ [] ∧ slash ∉ name) (hdoes : s.Does (Fs.filesysRemove (slash :: name)) true s') :
    s.KeepsMap s' := by
  obtain ⟨d, dir, s₁, henter, h₁, hd₁, hcnt, hcwd₁, haround₁, -⟩ := h.enter hcwd
  have hpath : s.Does (dirOpenPath [slash]) (some d) s₁ := by
    refine Does.bind henter (Does.bind (Does.pure s₁ (some d)) ?_)
    refine hd₁.getInode.bind ?_
    have hremoved := h₁.vol.isRemoved hd₁.holds hd₁.sector
    rw [decide_eq_false (not_not_intro h₁.root)] at hremoved
    exact hremoved.bind (.pure _ _)
  have hfiles : ∀ y, some (name, y) ∈ T → y ∈ s₁.live ∧ y ≠ freeMapSector ∧
    y ≠ rootDirSector ∧
      ∃ f, a y = some ⟨f, false⟩ :=
    fun y hy => h₁.files y (Table.mem_sectors.2 ⟨name, List.reduceOption_mem_iff.2 hy⟩)
  have hexec {s₂ s₃ : Session} {ok : Bool} (hremove : s₁.Does (dirRemove d name) ok s₂)
    (hclose : s₂.Does (Fs.dirClose (some d)) () s₃) :
      s.Does (Fs.filesysRemove (slash :: name)) ok s₃ := by
    unfold Fs.filesysRemove
    rw [splitPathFilename_rooted hname.1 hname.2]
    exact hpath.bind (hremove.bind (hclose.bind (.pure _ _)))
  obtain ⟨s₂, ok, hremove, hb₂, -, -, ⟨rfl, i, y, g', hi, hlive₂, -, hvol₂, hd₂⟩ | ⟨-, rfl,
      rfl⟩⟩ :=
    hd₁.remove h₁.vol hfiles
  · have h₂ := h₁.unbind hi hlive₂ hvol₂ hd₂.folder
    obtain ⟨s₃, hleave, -, -, haround₃, -⟩ := h₂.leave hd₂ (by rw [hb₂.cwd]; exact hcwd₁) hcnt
    have hkeeps :=
      (haround₁.keepsMap.trans (hd₁.remove_keepsMap h₁.vol hfiles hremove)).trans haround₃.keepsMap
    exact hkeeps.of_does (hexec hremove hleave) hdoes
  · obtain ⟨s₃, hleave, -⟩ := h₁.leave hd₁ hcwd₁ hcnt
    have hno := hexec hremove hleave
    rw [Does, hdoes] at hno
    cases hno

/-! ## A new device -/

/-- Sectors are only taken, and no inode is removed. -/
def KeepsCompact {α : Type} (m : FsM α) : Prop := m.Preserves fun st => Compact st.freeMap ∧ st.Calm

namespace KeepsCompact

variable {α : Type}

theorem of {m : FsM α} (hmap : m.Preserves fun st => Compact st.freeMap) (hcalm : Steady none m) :
    KeepsCompact m :=
  fun st v a st' v' h hexec => ⟨hmap st v a st' v' h.1 hexec,
    (hcalm (fun _ _ => True) st v a st' v' ⟨h.2, trivial, fun _ hw => by cases hw⟩ hexec).calm⟩

theorem inodeCreate (x : BlockSector) (length : Int) (isDir : Bool) :
    KeepsCompact (Fs.inodeCreate x length isDir) :=
  of (withFreeMap_preserves fun _ => inodeCreate_compact x length isDir) (.inodeCreate x length isDir)

theorem inodeOpen (x : BlockSector) : KeepsCompact (Fs.inodeOpen x) := by
  refine of (fun st v p st' v' h hexec => ?_) (.inodeOpen x)
  rw [exec_inodeOpen] at hexec
  split at hexec
  · cases hexec
    exact h
  · cases hexec
    exact h

theorem inodeWriteAt (p : Ptr) (buffer : List UInt8) (offset : Int) :
    KeepsCompact (Fs.inodeWriteAt p buffer offset) :=
  of (inodeWriteAt_preserves p buffer offset) (.inodeWriteAt p buffer offset)

/-- No inode that is closed has been removed. -/
theorem inodeClose (p : Option Ptr) : KeepsCompact (Fs.inodeClose p) := by
  cases p with
  | none => exact .pure _
  | some p =>
    intro st v _ st' v' h hexec
    cases hp : st.openInodes.get p with
    | none => simp [Fs.inodeClose, exec_derefInode, hp] at hexec
    | some i =>
      have hcalm :=
        (Steady.inodeClose (K := none) (some p) (fun _ _ => True) st v _ st' v' ⟨h.2, trivial,
          fun _ hw => by cases hw⟩
        hexec).calm
      obtain ⟨hcnt, hremoved⟩ := h.2 p i hp
      rw [exec_inodeClose_once hp hcnt hremoved] at hexec
      cases hexec
      exact ⟨h.1, hcalm⟩

theorem derefDir (d : Ptr) : KeepsCompact (Fs.derefDir d) := .getState fun _ _ => .ofOption _

theorem derefFile (f : Ptr) : KeepsCompact (Fs.derefFile f) := .getState fun _ _ => .ofOption _

theorem dirGetInode (d : Ptr) : KeepsCompact (Fs.dirGetInode d) := (derefDir d).bind fun _ => .pure _

theorem dirOpen (p : Option Ptr) : KeepsCompact (Fs.dirOpen p) := by
  cases p with
  | none => exact (inodeClose none).bind fun _ => .pure _
  | some p => exact .getState fun st hst => .bind (.setState hst) fun _ => .pure _

theorem dirClose (d : Option Ptr) : KeepsCompact (Fs.dirClose d) := by
  cases d with
  | none => exact .pure _
  | some d =>
    refine (derefDir d).bind fun dir => .bind (.modifyState fun _ hst => hst) fun _ => ?_
    split
    · exact (inodeClose _).bind fun _ => .modifyState fun _ hst => hst
    · exact .pure _

theorem fileOpen (p : Option Ptr) : KeepsCompact (Fs.fileOpen p) := by
  cases p with
  | none => exact (inodeClose none).bind fun _ => .pure _
  | some p => exact .getState fun st hst => .bind (.setState hst) fun _ => .pure _

theorem fileAllowWrite (f : Ptr) : KeepsCompact (Fs.fileAllowWrite f) := by
  refine (derefFile f).bind fun file => ?_
  split
  · refine .bind (.modifyState fun _ hst => hst) fun _ => .bind (.getState fun _ _ => .ofOption _)
      fun _ => ?_
    refine .modifyState fun st hst => ⟨hst.1, fun p i hp => ?_⟩
    rw [Heap.get_modify] at hp
    split at hp
    · obtain ⟨j, hj, rfl⟩ := Option.map_eq_some_iff.1 hp
      exact hst.2 _ j hj
    · exact hst.2 p i hp
  · exact .pure _

theorem fileClose (f : Option Ptr) : KeepsCompact (Fs.fileClose f) := by
  cases f with
  | none => exact .pure _
  | some f =>
    exact (fileAllowWrite f).bind fun _ => (derefFile f).bind fun _ => (inodeClose _).bind fun _ =>
      .modifyState fun _ hst => hst

theorem dirCreate (x : BlockSector) (entryCnt : Nat) : KeepsCompact (Fs.dirCreate x entryCnt) := by
  refine (inodeCreate x _ true).bind fun ok => ?_
  split
  · exact .pure _
  · exact (inodeOpen x).bind fun _ => (dirOpen _).bind fun dir => .bind (.ofOption dir) fun p =>
      (dirGetInode p).bind fun _ => (inodeWriteAt _ _ 0).bind fun _ => (dirClose dir).bind fun _ =>
        .pure _

theorem freeMapCreate : KeepsCompact Fs.freeMapCreate := by
  refine .getState fun st _ => (inodeCreate _ _ false).bind fun _ => (inodeOpen _).bind fun _ =>
    (fileOpen _).bind fun f => ?_
  refine .bind (.modifyState fun _ hst => hst) fun _ =>
    .bind (of (withFreeMap_preserves fun file => ?_) (.withFreeMap _)) fun _ =>
    .pure _
  refine .getState fun b _ => .bind (.ofOption file) fun fm => Cmd.Preserves.keeps ?_
  exact (byteToSector_keeps _ _).bind fun _ =>
    .ite .fault ((writeLoop_keeps _ _ _ _).bind fun _ => .pure _)

theorem doFormat : KeepsCompact Fs.doFormat :=
  freeMapCreate.bind fun _ => (dirCreate _ _).bind fun _ => .bind (.getState fun _ _ => fileClose _)
    fun _ => .pure _

end KeepsCompact

theorem freeMapInit_compact {n : Nat} (h3 : 3 ≤ n) (hn : n ≤ 2 ^ 32) : Compact (freeMapInit n) := by
  refine ⟨by rw [length_freeMapInit]; omega, 2, by rw [length_freeMapInit]; omega, fun s => ?_⟩
  rw [freeMapInit_inUse]
  constructor
  · rintro ⟨-, rfl | rfl⟩
    · decide
    · decide
  · intro hs
    have : s.toNat = 0 ∨ s.toNat = 1 := by omega
    exact ⟨by omega, this.imp (fun h => UInt32.toNat_inj.1 h) fun h => UInt32.toNat_inj.1 h⟩

/-- Formatting uses the first sectors. -/
theorem filesysInit_compact {n : Nat} {v v' : Image} {st : FsState} (hn : n ≤ 2 ^ 32)
    (hexec : (filesysInit n true).exec initialState v = some (true, st, v')) : Compact st.freeMap := by
  rcases exec_filesysInit (v := v) hn with ⟨-, hno⟩ | ⟨hyes, -⟩
  · cases hno _ hexec
  · have hthree := hyes.1
    rcases exec_doFormat (v := v) (by omega) hn with ⟨hno, -⟩ | ⟨-, st₁, v₁, fm, hformat, hb⟩
    · exact absurd hyes hno
    · obtain ⟨hmap, -⟩ :=
        KeepsCompact.doFormat _ _ _ _ _ ⟨freeMapInit_compact hthree hn,
          fun _ _ hp => by cases hp⟩ hformat
      obtain ⟨st₂, hopen, hst₂, -⟩ := exec_freeMapOpen hb.world hb.disk hb.opened rfl
      have hstart : (Cmd.modifyState fun s => { s with
          openInodes := .empty
          freeMap := freeMapInit n } : FsM Unit).exec initialState v =
            some ((), initialState.setFreeMap (freeMapInit n), v) := rfl
      simp only [filesysInit, if_true, Cmd.exec_bind, hstart, Option.bind_some, hformat, hopen,
        initFileTable, Cmd.exec_modifyState, Cmd.exec_pure] at hexec
      cases hexec
      rw [hst₂]
      exact hmap

end MyShell.Fs

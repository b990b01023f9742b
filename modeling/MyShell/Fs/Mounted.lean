/-
A mounted file system: the free map is in its file, and the inodes in memory
together with those that are on disk only are a `World`. Each theorem below
is one call of inode.c through a pointer: what it answers, and that the file
system stays mounted.
-/
import MyShell.Fs.Inode

namespace MyShell.Fs

open Storage BlockTree

/-- The inodes in memory, but for the one under `q`. -/
def openOwners (h : Heap Inode) (q : Ptr) : List Owner :=
  (h.free q).cells.map fun c => ⟨c.2.sector, c.2.data⟩

/-- The inodes on these sectors. -/
def diskOwners (v : Image) (l : List BlockSector) : List Owner := l.map fun x => ⟨x, .ofSector (v x)⟩

/-- A file system whose free map is in the file `fm`, open under `q`, and
whose inodes are those in memory and `L`. -/
structure Mounted (st : FsState) (v : Image) (q : Ptr) (fm : InodeDisk) (L : List Owner) : Prop where
  map : MapFile st q fm
  world : World fm v st.freeMap (openOwners st.openInodes q ++ L)
  shadow : ∀ p i, st.openInodes.get p = some i → p ≠ q → Shadow v i.sector i.data
  deny : ∀ p i, st.openInodes.get p = some i → i.denyWriteCnt = 0

section mounted

variable {st st' : FsState} {v v' : Image} {q p : Ptr} {fm d : InodeDisk} {L L' : List Owner}
  {i : Inode} {s : BlockSector} {m : Heap Inode}

theorem openOwners_perm (hp : m.get p = some i) (hq : p ≠ q) :
    (openOwners m q).Perm (⟨i.sector, i.data⟩ :: openOwners (m.free p) q) := by
  have hg : (m.free q).get p = some i := by rw [Heap.get_free, if_neg hq, hp]
  rw [openOwners, openOwners, Heap.free_free]
  exact (Heap.cells_perm hg).map _

theorem openOwners_alloc (hq : q ≠ m.next) :
    openOwners (m.alloc i) q = ⟨i.sector, i.data⟩ :: openOwners m q := by
  rw [openOwners, Heap.cells_free_alloc m i hq, List.map_cons]
  rfl

theorem mem_openOwners {x : Owner} :
    x ∈ openOwners m q ↔ ∃ p i, m.get p = some i ∧ p ≠ q ∧ x = ⟨i.sector, i.data⟩ := by
  simp only [openOwners, List.mem_map, Prod.exists, Heap.mem_cells, Heap.get_free]
  constructor
  · rintro ⟨p, i, hp, rfl⟩
    by_cases hq : p = q
    · rw [if_pos hq] at hp; cases hp
    · rw [if_neg hq] at hp; exact ⟨p, i, hp, hq, rfl⟩
  · rintro ⟨p, i, hp, hq, rfl⟩
    exact ⟨p, i, by rw [if_neg hq, hp], rfl⟩

theorem Untouched.diskOwners {l : List BlockSector} (h : Untouched v v' (diskOwners v l)) :
    Fs.diskOwners v' l = Fs.diskOwners v l := by
  refine List.map_congr_left fun x hx => ?_
  rw [h.inode (x := ⟨x, .ofSector (v x)⟩) (List.mem_map.2 ⟨x, hx, rfl⟩)]

theorem MapFile.congr (hm : MapFile st q fm) (h₁ : st'.freeMapFile = st.freeMapFile)
    (h₂ : st'.files = st.files) (h₃ : st'.openInodes.get q = st.openInodes.get q) :
    MapFile st' q fm where
  file := by rw [h₁, h₂]; exact hm.file
  inode := by rw [h₃]; exact hm.inode

namespace Mounted

/-- A file system with another free map and other inodes in memory. -/
theorem intro {b : Bitmap} {m : Heap Inode} (hmap : MapFile st q fm)
    (hq : m.get q = st.openInodes.get q) (hw : World fm v b (openOwners m q ++ L))
    (hs : ∀ p i, m.get p = some i → p ≠ q → Shadow v i.sector i.data)
    (hd : ∀ p i, m.get p = some i → i.denyWriteCnt = 0) :
    Mounted ((st.setFreeMap b).setInodes m) v q fm L :=
  ⟨hmap.congr rfl rfl hq, hw, hs, hd⟩

variable (h : Mounted st v q fm L)
include h

theorem perm (hp : L.Perm L') : Mounted st v q fm L' where
  map := h.map
  world := h.world.perm (hp.append_left _)
  shadow := h.shadow
  deny := h.deny

omit h in
theorem congr (h : Mounted st v q fm L) (h₁ : st'.freeMap = st.freeMap)
    (h₂ : st'.freeMapFile = st.freeMapFile) (h₃ : st'.openInodes = st.openInodes)
    (h₄ : st'.files = st.files) : Mounted st' v q fm L where
  map := h.map.congr h₂ h₄ (by rw [h₃])
  world := by rw [h₁, h₃]; exact h.world
  shadow := by rw [h₃]; exact h.shadow
  deny := by rw [h₃]; exact h.deny

omit h in
/-- An inode that is on disk only can be taken to be any version with fewer
sectors. -/
theorem shrink {d' : InodeDisk} (h : Mounted st v q fm (⟨s, d⟩ :: L))
    (hle : Le layout d'.roots d.roots) (hs : d'.Sound v) : Mounted st v q fm (⟨s, d'⟩ :: L) where
  map := h.map
  world := ((h.world.perm List.perm_middle).shrink hle hs).perm List.perm_middle.symm
  shadow := h.shadow
  deny := h.deny

theorem head (hp : st.openInodes.get p = some i) (hq : p ≠ q) :
    World fm v st.freeMap (⟨i.sector, i.data⟩ :: (openOwners (st.openInodes.free p) q ++ L)) :=
  h.world.perm ((openOwners_perm hp hq).append_right L)

theorem sector_ne_zero (hp : st.openInodes.get p = some i) (hq : p ≠ q) : i.sector ≠ 0 :=
  ((h.head hp hq).owned (x := ⟨i.sector, i.data⟩) (by simp) (occ_sector v _)).2.1

theorem sound (hp : st.openInodes.get p = some i) (hq : p ≠ q) : i.data.Sound v :=
  (h.head hp hq).sound ⟨i.sector, i.data⟩ (by simp)

theorem sector_inj {p' : Ptr} {i' : Inode} (hp : st.openInodes.get p = some i)
    (hp' : st.openInodes.get p' = some i') (hs : i.sector = i'.sector) : p = p' := by
  obtain ⟨j, hj, -, hj0⟩ := h.map.inode
  by_cases hq : p = q
  · by_cases hq' : p' = q
    · rw [hq, hq']
    · rw [hq, hj] at hp
      cases hp
      exact absurd (hs ▸ hj0) (h.sector_ne_zero hp' hq')
  · by_cases hq' : p' = q
    · rw [hq', hj] at hp'
      cases hp'
      exact absurd (hs.trans hj0) (h.sector_ne_zero hp hq)
    · by_contra hne
      have hmem : (⟨i'.sector, i'.data⟩ : Owner) ∈ openOwners (st.openInodes.free p) q ++ L := by
        refine List.mem_append_left _ (mem_openOwners.2 ⟨p', i', ?_, hq', rfl⟩)
        rw [Heap.get_free, if_neg (Ne.symm hne), hp']
      exact ((h.head hp hq).other_zero hmem (occ_sector v _)).2 hs

theorem find_open (hp : st.openInodes.get p = some i) :
    st.openInodes.cells.find? (fun x => x.2.sector = i.sector) = some (p, i) := by
  cases hf : st.openInodes.cells.find? (fun x => x.2.sector = i.sector) with
  | none =>
    have := List.find?_eq_none.1 hf (p, i) (Heap.mem_of_get hp)
    simp at this
  | some x =>
    obtain ⟨p', i'⟩ := x
    have hs : i'.sector = i.sector := by simpa using List.find?_some hf
    have hp' := Heap.get_of_mem (List.mem_of_find?_eq_some hf)
    obtain rfl := h.sector_inj hp' hp hs
    rw [hp] at hp'
    cases hp'
    rfl

/-- An inode that is on disk only is not in memory. -/
theorem not_open (hs : ⟨s, d⟩ ∈ L) : ∀ p i, st.openInodes.get p = some i → i.sector ≠ s := by
  intro p i hp he
  by_cases hq : p = q
  · obtain ⟨j, hj, -, hj0⟩ := h.map.inode
    rw [hq, hj] at hp
    cases hp
    have h₁ := (h.world.owned (x := ⟨s, d⟩) (List.mem_append_right _ hs) (occ_sector v _)).2.1
    exact h₁ (he ▸ hj0)
  · exact ((h.head hp hq).other_zero (List.mem_append_right _ hs) (occ_sector v _)).2 he

/-! ## Opening -/

theorem exec_inodeOpen_hit (hp : st.openInodes.get p = some i) :
    (inodeOpen i.sector).exec st v = some (p, st, v) := by
  simp [inodeOpen, inodeReopen, h.find_open hp]

/-- `inode_open` of an inode that is not open yet. -/
theorem inodeOpen (hL : L.Perm (⟨s, .ofSector (v s)⟩ :: L')) :
    ∃ st', st' = st.setInodes (st.openInodes.alloc ⟨s, 1, false, 0, .ofSector (v s)⟩) ∧
      (Fs.inodeOpen s).exec st v = some (st.openInodes.next, st', v) ∧ Mounted st' v q fm L' := by
  have h := h.perm hL
  have hnone : st.openInodes.cells.find? (fun x => x.2.sector = s) = none := by
    refine List.find?_eq_none.2 fun x hx => ?_
    have := h.not_open (s := s) (d := .ofSector (v s)) (by simp) x.1 x.2 (Heap.get_of_mem hx)
    simpa using this
  obtain ⟨j, hj, hjd⟩ := h.map.inode
  have hq : q ≠ st.openInodes.next := by
    rintro rfl
    rw [Heap.get_next] at hj
    cases hj
  refine ⟨_, rfl, by simp [Fs.inodeOpen, hnone, FsState.setInodes], ?_⟩
  refine intro h.map (by rw [Heap.get_alloc, if_neg hq]) ?world ?shadow ?deny
  case world =>
    rw [openOwners_alloc hq]
    exact h.world.perm List.perm_middle
  case shadow =>
    intro p i hp hpq
    rw [Heap.get_alloc] at hp
    split at hp
    · cases hp
      have hsound := h.world.sound ⟨s, .ofSector (v s)⟩ (by simp)
      exact ⟨.refl _, rfl, rfl, rfl, hsound⟩
    · exact h.shadow p i hp hpq
  case deny =>
    intro p i hp
    rw [Heap.get_alloc] at hp
    split at hp
    · cases hp; rfl
    · exact h.deny p i hp

/-! ## Reading -/

theorem exec_inodeReadAt (hp : st.openInodes.get p = some i) (hq : p ≠ q) (size ofs : Nat) :
    (inodeReadAt p size ofs).exec st v =
    some ((List.range (min size (i.data.length.toNat - ofs))).map fun k =>
      i.data.content v (ofs + k), st, v) := by
  have hsound := h.sound hp hq
  have hread := exec_readAt hsound.direct hsound.covers st size ofs
  simp only [inodeReadAt, derefInode, Cmd.exec_bind, Cmd.exec_getState, Cmd.exec_ofOption, hp,
    Option.map_some, Option.bind_some, hread]
  have hcnt : (min (size : Int) (i.data.length - ofs)).toNat =
      min size (i.data.length.toNat - ofs) := by omega
  rw [hcnt]
  congr 2
  refine List.map_congr_left fun k hk => ?_
  rw [InodeDisk.content_eq]
  refine hsound.covers _ ?_
  have := List.mem_range.1 hk
  omega

/-! ## Changing one inode -/

/-- The inode under `p` is another now, with a world and a copy of its own;
the others are as they were. -/
theorem modify {i' : Inode} {b' : Bitmap} {f : Inode → Inode} (hp : st.openInodes.get p = some i)
    (hq : p ≠ q) (hf : f i = i')
    (hw : World fm v' b' (⟨i'.sector, i'.data⟩ :: (openOwners (st.openInodes.free p) q ++ L)))
    (hL : Untouched v v' (openOwners (st.openInodes.free p) q ++ L))
    (hs : Shadow v' i'.sector i'.data) (hdeny : i'.denyWriteCnt = 0) :
    Mounted ((st.setFreeMap b').setInodes (st.openInodes.modify p f)) v' q fm L := by
  have hget : (st.openInodes.modify p f).get p = some i' := by
    rw [Heap.get_modify, if_pos rfl, hp, Option.map_some, hf]
  have hperm := openOwners_perm hget hq
  rw [Heap.free_modify] at hperm
  refine intro h.map (by rw [Heap.get_modify, if_neg (Ne.symm hq)]) ?world ?shadow ?deny
  case world => exact hw.perm (hperm.append_right L).symm
  case shadow =>
    intro p' j hj hq'
    by_cases hpp : p' = p
    · subst hpp
      rw [hget] at hj
      cases hj
      exact hs
    · rw [Heap.get_modify, if_neg hpp] at hj
      refine hL.shadow (x := ⟨j.sector, j.data⟩) (List.mem_append_left _ ?_) (h.shadow p' j hj hq')
      exact mem_openOwners.2 ⟨p', j, by rw [Heap.get_free, if_neg hpp, hj], hq', rfl⟩
  case deny =>
    intro p' j hj
    by_cases hpp : p' = p
    · subst hpp
      rw [hget] at hj
      cases hj
      exact hdeny
    · rw [Heap.get_modify, if_neg hpp] at hj
      exact h.deny p' j hj

/-- A field of the inode changes that says nothing about its sectors. -/
theorem mark {f : Inode → Inode} (hp : st.openInodes.get p = some i) (hq : p ≠ q)
    (hf : (f i).sector = i.sector) (hd : (f i).data = i.data) (hdeny : (f i).denyWriteCnt = 0) :
    Mounted (st.setInodes (st.openInodes.modify p f)) v q fm L := by
  have hw := h.head hp hq
  have hs := h.shadow p i hp hq
  rw [← hf, ← hd] at hw hs
  exact h.modify hp hq rfl hw (fun _ _ _ _ => rfl) hs hdeny

theorem inodeRemove (hp : st.openInodes.get p = some i) (hq : p ≠ q) :
    ∃ st', st' = st.setInodes (st.openInodes.modify p fun i => { i with removed := true }) ∧
      (Fs.inodeRemove p).exec st v = some ((), st', v) ∧ Mounted st' v q fm L :=
  ⟨_, rfl, by simp [Fs.inodeRemove, modifyInode, derefInode, hp, FsState.setInodes],
    h.mark hp hq rfl rfl (h.deny p i hp)⟩

theorem inodeWriteAt (hp : st.openInodes.get p = some i) (hq : p ≠ q) (buffer : List UInt8)
    (ofs : Nat) : ∃ n i' b' v', (Fs.inodeWriteAt p buffer ofs).exec st v = some (n,
        (st.setFreeMap b').setInodes (st.openInodes.modify p fun _ => i'), v') ∧
      Written fm v st.freeMap (openOwners (st.openInodes.free p) q ++ L) i buffer ofs n i' v' b' ∧
      Mounted ((st.setFreeMap b').setInodes (st.openInodes.modify p fun _ => i')) v' q fm L := by
  obtain ⟨n, i', b', v', hexec, hw⟩ := (h.head hp hq).write (h.deny p i hp) buffer ofs
  have hsec : i'.sector = i.sector := by rw [hw.inode]
  have hdeny : i'.denyWriteCnt = i.denyWriteCnt := by rw [hw.inode]
  refine ⟨n, i', b', v', ?_, hw, ?_⟩
  · simp [Fs.inodeWriteAt, derefInode, hp, exec_withFreeMap h.map, hexec, modifyInode,
      FsState.setInodes, FsState.setFreeMap]
  · refine h.modify hp hq rfl (by rw [hsec]; exact hw.world) hw.untouched ?_
      (by rw [hdeny]; exact h.deny p i hp)
    rw [hsec]
    exact hw.shadow (h.shadow p i hp hq)

/-! ## Closing -/

theorem free {b' : Bitmap} {M : List Owner} (hq : p ≠ q)
    (hw : World fm v' b' (openOwners (st.openInodes.free p) q ++ M))
    (hL : Untouched v v' (openOwners (st.openInodes.free p) q)) :
    Mounted ((st.setFreeMap b').setInodes (st.openInodes.free p)) v' q fm M := by
  refine intro h.map (by rw [Heap.get_free, if_neg (Ne.symm hq)]) ?world ?shadow ?deny
  case world => exact hw
  case shadow =>
    intro p' j hj hq'
    have hj' := hj
    rw [Heap.get_free] at hj
    split at hj
    · cases hj
    · exact hL.shadow (x := ⟨j.sector, j.data⟩) (mem_openOwners.2 ⟨p', j, hj', hq', rfl⟩)
        (h.shadow p' j hj hq')
  case deny =>
    intro p' j hj
    rw [Heap.get_free] at hj
    split at hj
    · cases hj
    · exact h.deny p' j hj

/-- The last `inode_close`: the inode is on disk only. -/
theorem inodeClose_last (hp : st.openInodes.get p = some i) (hq : p ≠ q) (hcnt : i.openCnt = 1)
    (hrem : i.removed = false) :
    ∃ st', st' = st.setInodes (st.openInodes.free p) ∧
      (inodeClose (some p)).exec st v = some ((), st', v) ∧
      Mounted st' v q fm (⟨i.sector, .ofSector (v i.sector)⟩ :: L) := by
  refine ⟨_, rfl, ?_, ?_⟩
  · simp [inodeClose, derefInode, hp, modifyInode, hcnt, hrem, Heap.free_modify, FsState.setInodes]
  · have hshadow := h.shadow p i hp hq
    have hw := (h.head hp hq).shrink hshadow.roots hshadow.sound
    have hw := hw.perm List.perm_middle.symm
    exact h.free hq hw fun _ _ _ _ => rfl

/-- The last `inode_close` of a removed inode: its sectors are given back. -/
theorem inodeClose_removed (hp : st.openInodes.get p = some i) (hq : p ≠ q) (hcnt : i.openCnt = 1)
    (hrem : i.removed = true) :
    ∃ b' v', (inodeClose (some p)).exec st v =
        some ((), (st.setFreeMap b').setInodes (st.openInodes.free p), v') ∧
      Released (some fm) (mapData fm v) v st.freeMap v' b'
        (i.sector :: visitedF layout v i.data.roots (bytesToSectors i.data.length.toNat)) ∧
      Untouched v v' (openOwners (st.openInodes.free p) q ++ L) ∧
      Mounted ((st.setFreeMap b').setInodes (st.openInodes.free p)) v' q fm L := by
  obtain ⟨b₁, v₁, b', v', hexec₁, hexec₂, hr, hw, hL⟩ := (h.head hp hq).releaseInode
  refine ⟨b', v', ?_, hr, hL, h.free hq hw (hL.mono (List.subset_append_left _ _))⟩
  obtain ⟨st₁, hst₁⟩ : ∃ st₁, st₁ = st.setInodes
      (st.openInodes.modify p fun j => { j with openCnt := i.openCnt - 1 }) :=
    ⟨_, rfl⟩
  have hmap₁ : MapFile st₁ q fm := by
    rw [hst₁]; exact h.map.congr rfl rfl (Heap.get_modify _ _ _ _ |>.trans (if_neg (Ne.symm hq)))
  have hmap₂ : MapFile (st₁.setFreeMap b₁) q fm := hmap₁.congr rfl rfl rfl
  have hfree₁ : st₁.freeMap = st.freeMap := by rw [hst₁]; rfl
  rw [← hfree₁] at hexec₁
  simp only [inodeClose, exec_derefInode, exec_modifyInode, Cmd.exec_bind, hp, Option.map_some,
    Option.bind_some,
    Cmd.exec_modifyState, Cmd.exec_ite, ← hst₁, exec_withFreeMap hmap₁, hexec₁,
    exec_withFreeMap hmap₂,
    FsState.setFreeMap_freeMap, hexec₂, hrem, if_true, Cmd.exec_pure]
  rw [if_pos (by omega), hst₁]
  simp only [FsState.setFreeMap_openInodes, FsState.setInodes_openInodes, Heap.free_modify]
  rfl

/-! ## Creating -/

theorem freeMapAllocate :
    (freeCount st.freeMap = 0 ∧ (withFreeMap fun file => Fs.freeMapAllocate file 1).exec st v =
      some (none, st, v)) ∨
    ∃ s b' v', (withFreeMap fun file => Fs.freeMapAllocate file 1).exec st v =
        some (some s, st.setFreeMap b', v') ∧
      Takes st.freeMap b' [s] ∧ (∀ t, ¬ mapData fm v t → v' t = v t) ∧
      Untouched v v' (openOwners st.openInodes q ++ L) ∧
      ∀ isDir, Mounted (st.setFreeMap b') v' q fm (⟨s, newInodeDisk 0 isDir⟩ :: L) := by
  rcases exec_freeMapAllocate h.world.ready.fileOk h.world.size with ⟨hfree, hexec⟩ |
    ⟨s, b', v', hexec, ht, hv, hb⟩
  · exact .inl ⟨hfree, by simp [exec_withFreeMap h.map, hexec, FsState.setFreeMap]⟩
  · have hadd : ∀ isDir, _ := fun isDir =>
      h.world.add ht hv hb (fun t => newInodeDisk_occ 0 isDir t) (newInodeDisk_sound isDir)
    refine .inr ⟨s, b', v', by simp [exec_withFreeMap h.map, hexec], ht, hv, (hadd true).2,
      fun isDir => ?_⟩
    obtain ⟨hw, hL⟩ := hadd isDir
    refine intro (m := st.openInodes) h.map rfl ?world ?shadow ?deny
    case world => exact hw.perm List.perm_middle.symm
    case shadow =>
      exact fun p i hp hq => hL.shadow (x := ⟨i.sector, i.data⟩)
        (List.mem_append_left _ (mem_openOwners.2 ⟨p, i, hp, hq, rfl⟩)) (h.shadow p i hp hq)
    case deny => exact h.deny

end Mounted

theorem Mounted.inodeCreate {isDir : Bool} {length : Int}
    (h : Mounted st v q fm (⟨s, newInodeDisk 0 isDir⟩ :: L)) (hmax : length < 2 ^ 31) :
    ∃ ok b' v' d, (Fs.inodeCreate s length isDir).exec st v = some (ok, st.setFreeMap b', v') ∧
      Created fm v st.freeMap (openOwners st.openInodes q ++ L) s length isDir ok v' b' ∧
      Mounted (st.setFreeMap b') v' q fm (⟨s, d⟩ :: L) ∧
      (d.blocks v').length + freeCount b' ≤ freeCount st.freeMap ∧
      (ok = true → v' s = d.toSector ∧ d.length = length ∧ d.isDir = isDir ∧ d.magic = inodeMagic ∧
        ∀ pos, d.content v' pos = 0) := by
  obtain ⟨ok, b', v', hexec, hc⟩ := (h.world.perm List.perm_middle).create hmax
  obtain ⟨d, hw, hgrown, hd⟩ := hc.world
  refine ⟨ok, b', v', d, by simp [Fs.inodeCreate, exec_withFreeMap h.map, hexec], hc, ?_, hgrown, hd⟩
  refine .intro (m := st.openInodes) h.map rfl ?world ?shadow ?deny
  case world => exact hw.perm List.perm_middle.symm
  case shadow =>
    exact fun p i hp hq => hc.untouched.shadow (x := ⟨i.sector, i.data⟩)
      (List.mem_append_left _ (mem_openOwners.2 ⟨p, i, hp, hq, rfl⟩)) (h.shadow p i hp hq)
  case deny => exact h.deny

/-- `free_map_release` of the sector of an inode that no memory knows of. -/
theorem Mounted.releaseSector (h : Mounted st v q fm (⟨s, d⟩ :: L)) :
    ∃ b' v', (withFreeMap fun file => freeMapRelease file s 1).exec st v =
      some ((), st.setFreeMap b', v') ∧
      Released (some fm) (mapData fm v) v st.freeMap v' b' [s] ∧
      Untouched v v' (openOwners st.openInodes q ++ L) ∧
      Mounted (st.setFreeMap b') v' q fm L := by
  obtain ⟨b', v', hexec, hr, hw, hL⟩ := (h.world.perm List.perm_middle).releaseSector
  refine ⟨b', v', by simp [exec_withFreeMap h.map, hexec], hr, hL, ?_⟩
  refine .intro (m := st.openInodes) h.map rfl ?world ?shadow ?deny
  case world => exact hw
  case shadow =>
    exact fun p i hp hq => hL.shadow (x := ⟨i.sector, i.data⟩)
      (List.mem_append_left _ (mem_openOwners.2 ⟨p, i, hp, hq, rfl⟩)) (h.shadow p i hp hq)
  case deny => exact h.deny

end mounted

end MyShell.Fs

/-
Formatting (`filesys_init` with `format`). A device is formatted without a
PANIC exactly when it has sectors enough for the free-map file and the root
directory (`Formattable`); the file system is then mounted, with the root
directory as its one inode.
-/
import MyShell.Fs.Filesys

namespace MyShell.Fs

open Storage BlockTree

theorem freeMapInit_inUse {n : Nat} {s : BlockSector} :
    InUse (freeMapInit n) s ↔ s.toNat < n - 1 ∧ (s = 0 ∨ s = 1) := by
  have hlen : (freeMapInit n).length = n - 1 := by simp [freeMapInit, bitmapMark, bitmapCreate]
  by_cases hs : s.toNat < n - 1
  · have hget : bitmapTest (freeMapInit n) s.toNat = true ↔ s.toNat = 0 ∨ s.toNat = 1 := by
      rw [bitmapTest, List.getD_eq_getElem _ _ (by omega)]
      simp only [freeMapInit, bitmapMark, bitmapCreate, freeMapSector, rootDirSector, List.getElem_set,
        List.getElem_replicate, show UInt32.toNat 0 = 0 from rfl, show UInt32.toNat 1 = 1 from rfl]
      split
      · simp; omega
      · split <;> simp <;> omega
    rw [InUse, hget, ← UInt32.toNat_inj, ← UInt32.toNat_inj]
    simp [hs]
  · refine ⟨fun h => absurd (lt_of_bitmapTest h) (by omega), fun h => absurd h.1 hs⟩

theorem length_freeMapInit (n : Nat) : (freeMapInit n).length = n - 1 := by
  simp [freeMapInit, bitmapMark, bitmapCreate]

section format

variable {st : FsState} {v : Image}

/-- The free-map file, as its inode is created. -/
theorem exec_createMap {b : Bitmap} (hpos : 0 < b.length) (hsize : b.length < 2 ^ 32)
    (hused : ∀ s, InUse b s ↔ s.toNat < b.length ∧ (s = 0 ∨ s = 1)) :
    (¬ (newInodeDisk 0 false).Fits v b (bitmapFileSize b) ∧
      ∃ b' v', (Inode.create none 0 (bitmapFileSize b) false).exec b v = some (false, b', v')) ∨
    (newInodeDisk 0 false).Fits v b (bitmapFileSize b) ∧
      ∃ (fm : InodeDisk) (b' : Bitmap) (v' : Image),
        (Inode.create none 0 (bitmapFileSize b) false).exec b v = some (true, b', v') ∧
        v' 0 = fm.toSector ∧ fm.Sound v' ∧ fm.length = bitmapFileSize b ∧ b'.length = b.length ∧
        (∀ s, (if 0 = s then 1 else 0) + fm.occ v' s + (if 1 = s then 1 else 0) ≤
          if InUse b' s then 1 else 0) ∧
        freeCount b' = freeCount b - ((newInodeDisk 0 false).lacking v (bitmapFileSize b)).length ∧
        ∀ t, ¬ InUse b' t → v' t = v t := by
  have h0 : InUse b 0 := (hused 0).2 ⟨hpos, .inl rfl⟩
  have hready : Ready none (fun _ => False) (fun _ => False) v b := by
    constructor
    case fileOk => exact ⟨by simp, by simp, by simp, by simp, by simp, by simp, by simp, by simp, hpos⟩
    case size => exact hsize
    case inUse => simp
    case zero => exact h0
  have hown : Owned (fun _ => False) (fun _ => False) v b
      (newInodeDisk (bitmapFileSize b) false).roots := by
    have hocc := newInodeDisk_occ (v := v) (bitmapFileSize b) false
    rw [show (newInodeDisk (bitmapFileSize b) false).occ v = occF layout v
      (newInodeDisk (bitmapFileSize b) false).roots from rfl] at hocc
    exact ⟨fun s => by rw [hocc]; omega, fun s hs => by rw [hocc] at hs; omega⟩
  obtain ⟨ok, d', v₁, b₁, new, hexec, ⟨hdirect, hdir, hlen, hmagic⟩, hr⟩ :=
    exec_inodeReserve (bitmapFileSize b : Int) hready (newInodeDisk_direct _ false) hown (by omega)
  have hfits : (newInodeDisk 0 false).Fits v b (bitmapFileSize b) ↔
      ok = true ∧ bytesToSectors (bitmapFileSize b) ≤ InodeDisk.maxSectors := by rw [hr.ok_iff]; rfl
  rw [Int.toNat_natCast] at hexec hr
  by_cases hok : ok = true ∧ bytesToSectors (bitmapFileSize b) ≤ InodeDisk.maxSectors
  · have hk₀ : 0 < bytesToSectors (bitmapFileSize b) := lt_bytesToSectors.2 (byteCnt_pos hpos)
    have hsec₀ : d'.sector v₁ 0 ≠ 0 :=
      hr.full hok.1 0 hk₀ (by rw [InodeDisk.capacity_roots (newInodeDisk_direct _ _)]; decide)
    -- a sector was taken, so there is one more than sector 0
    have h1 : InUse b 1 := by
      have hnew : d'.sector v₁ 0 ∈ new := (hr.fresh 0 (newInodeDisk_sector _ false 0) hsec₀).1
      have hlt : (d'.sector v₁ 0).toNat < b.length := by
        rw [← hr.takes.length]
        exact lt_of_bitmapTest ((hr.takes.inUse _).2 (.inr hnew))
      have hne : (d'.sector v₁ 0).toNat ≠ 0 := fun h => hsec₀ (UInt32.toNat_inj.1 h)
      exact (hused 1).2 ⟨show 1 < b.length by omega, .inr rfl⟩
    refine .inr ⟨hfits.2 hok, d', b₁, Function.update v₁ 0 d'.toSector, ?_,
      Function.update_self _ _ _, ?_, hlen, hr.takes.length, ?_, hr.left, ?_⟩
    · simp [Inode.create, hexec, hok.1, hok.2]
    · have hsmall : bitmapFileSize b < 2 ^ 31 := by
        simp only [bitmapFileSize, byteCnt, divRoundUp]; omega
      refine InodeDisk.Sound.congr (v :=
        v₁) ⟨hdirect, by rw [hlen]; simp [newInodeDisk], ?_, fun k hk => ?_⟩ ?_
      · rw [hlen]; simp only [newInodeDisk]; omega
      · rw [hlen] at hk
        have hk' : k < bytesToSectors (bitmapFileSize b) :=
          lt_bytesToSectors.2 (by simpa [newInodeDisk] using hk)
        exact hr.full hok.1 k hk' (by rw [InodeDisk.capacity_roots (newInodeDisk_direct _ _)]; omega)
      · intro s hs
        refine Function.update_of_ne ?_ _ _
        rintro rfl
        have := InodeDisk.index_occ hs
        rw [InodeDisk.occ_zero] at this; omega
    · intro s
      have hocc : d'.occ (Function.update v₁ 0 d'.toSector) s = d'.occ v₁ s := by
        refine InodeDisk.occ_congr (fun t ht => Function.update_of_ne ?_ _ _) s
        rintro rfl
        have := InodeDisk.index_occ ht
        rw [InodeDisk.occ_zero] at this; omega
      have h₁ : d'.occ v₁ s ≤ (newInodeDisk (bitmapFileSize b) false).occ v s + if s ∈ new then
          1 else 0 := hr.occ s
      rw [hocc]
      rw [newInodeDisk_occ] at h₁
      by_cases hnew : s ∈ new
      · have hclear := hr.takes.clear s hnew
        have hne : 0 ≠ s ∧ 1 ≠ s := ⟨fun he => hclear (he ▸ h0), fun he => hclear (he ▸ h1)⟩
        rw [if_pos hnew] at h₁
        rw [if_neg hne.1, if_neg hne.2, if_pos ((hr.takes.inUse s).2 (.inr hnew))]
        omega
      · rw [if_neg hnew] at h₁
        by_cases hs0 : 0 = s
        · subst hs0
          rw [if_pos rfl, if_neg (by decide), if_pos ((hr.takes.inUse 0).2 (.inl h0))]
          omega
        · by_cases hs1 : 1 = s
          · subst hs1
            rw [if_neg (by decide), if_pos rfl, if_pos ((hr.takes.inUse 1).2 (.inl h1))]
            omega
          · rw [if_neg hs0, if_neg hs1]
            omega
    · intro t ht
      have ht0 : t ≠ 0 := by rintro rfl; exact ht ((hr.takes.inUse 0).2 (.inl h0))
      rw [Function.update_of_ne ht0]
      refine hr.frame t (fun hs => ht ((hr.takes.inUse t).2 (.inr hs))) id (fun hi => ?_) ht0
      have h₁ : 1 ≤ (newInodeDisk (bitmapFileSize b) false).occ v t := InodeDisk.index_occ hi
      rw [newInodeDisk_occ] at h₁
      omega
  · refine .inl ⟨fun hf => hok (hfits.1 hf), b₁, v₁, ?_⟩
    have hf : (ok && decide (bytesToSectors (bitmapFileSize b) ≤ InodeDisk.maxSectors)) = false := by
      simpa [and_comm] using hok
    simp [Inode.create, hexec, hf]

theorem freeCount_freeMapInit {n : Nat} (h : 3 ≤ n) : freeCount (freeMapInit n) = n - 3 := by
  have hlen : (bitmapCreate (n - 1)).length = n - 1 := by simp [bitmapCreate]
  have hget : ∀ i, bitmapTest (bitmapCreate (n - 1)) i = false := fun i => by
    rw [bitmapTest, bitmapCreate, List.getD_eq_getElem?_getD, List.getElem?_replicate]
    split <;> rfl
  have h₁ := freeCount_set (i := 0) (b := bitmapCreate (n - 1)) (by omega) (hget 0)
  have h₂ := freeCount_set (i := 1) (b := (bitmapCreate (n - 1)).set 0 true)
    (by rw [List.length_set]; omega) (by simpa [bitmapTest] using hget 1)
  have h₃ : freeCount (bitmapCreate (n - 1)) = n - 1 := by simp [freeCount, bitmapCreate]
  have h₄ : freeMapInit n = ((bitmapCreate (n - 1)).set 0 true).set 1 true := rfl
  rw [h₄]
  omega

/-- What `free_map_create` leaves behind. -/
structure MapCreated (n : Nat) (v : Image) (fm : InodeDisk) (st : FsState) (v' : Image) : Prop where
  mounted : Mounted st v' 0 fm [⟨rootDirSector, newInodeDisk 0 true⟩]
  state : st = { initialState with
    freeMap := st.freeMap
    freeMapFile := some 0
    files := Heap.alloc .empty ⟨0, 0, false⟩
    openInodes := Heap.alloc .empty ⟨freeMapSector, 1, false, 0, fm⟩ }
  disk : v' 0 = fm.toSector
  size : st.freeMap.length = n - 1
  free : freeCount st.freeMap =
    freeCount (freeMapInit n) - sectorCost (bytesToSectors (byteCnt (n - 1)))
  frame : ∀ t, ¬ InUse st.freeMap t → v' t = v t

theorem exec_freeMapCreate {n : Nat} (hpos : 1 < n) (hsize : n ≤ 2 ^ 32) :
    (¬ (newInodeDisk 0 false).Fits v (freeMapInit n) (byteCnt (n - 1)) ∧
      ∀ r, freeMapCreate.exec { initialState with freeMap := freeMapInit n } v = some r → r.1 = false) ∨
    (newInodeDisk 0 false).Fits v (freeMapInit n) (byteCnt (n - 1)) ∧
      ∃ fm st v', freeMapCreate.exec { initialState with freeMap := freeMapInit n } v =
      some (true, st, v') ∧
        MapCreated n v fm st v' := by
  have hlen := length_freeMapInit n
  have hfileSize : bitmapFileSize (freeMapInit n) = byteCnt (n - 1) := by rw [bitmapFileSize, hlen]
  have hcreate := exec_createMap (v := v) (b := freeMapInit n) (by omega) (by omega) fun s => by
    rw [freeMapInit_inUse, hlen]
  rw [hfileSize] at hcreate
  have hnone : ∀ m : Option InodeDisk → Disk Bitmap Bool,
      (withFreeMap m).exec { initialState with freeMap := freeMapInit n } v =
        ((m none).exec (freeMapInit n) v).map fun r => (r.1, { initialState with freeMap := r.2.1 },
          r.2.2) :=
    fun m => exec_withFreeMap_none rfl
  rcases hcreate with
    ⟨hfits, b₁, v₁, hexec⟩ | ⟨hfits, fm, b₁, v₁, hexec, hdisk, hsound, hfmlen, hlen₁,
      honce, hleft, hframe⟩
  · refine .inl ⟨hfits, fun r hr => ?_⟩
    simp only [freeMapCreate, inodeCreate, Cmd.exec_bind, Cmd.exec_getState, Option.bind_some,
      hfileSize, freeMapSector,
      hnone, hexec, Option.map_some, Bool.false_and, Option.bind_eq_some_iff, Cmd.exec_pure,
      Option.some.injEq] at hr
    obtain ⟨_, _, _, _, _, _, _, _, rfl⟩ := hr
    rfl
  · have hkeep : InodeDisk.ofSector (v₁ 0) = fm := by
      rw [hdisk]; exact InodeDisk.ofSector_toSector hsound.storable
    -- the free map goes to its file
    have hok : FileOk (some fm) b₁.length (mapData fm v₁) (mapIndex fm v₁) v₁ := by
      refine mapFile_ok hsound (by rw [hlen₁, hlen, hfmlen]) (by omega) (by omega) fun s => ?_
      have := honce s
      omega
    obtain ⟨v', hwrite, hframe', hholds⟩ := exec_bitmapWrite hok (Option.mem_some_self fm) b₁
    have hindex : ∀ t, fm.IsIndex v₁ t → v' t = v₁ t :=
      fun t ht => hframe' t fun hF => hok.disjoint t hF ht
    obtain ⟨st, hst⟩ : ∃ st : FsState, st = { initialState with
      freeMap := b₁
      freeMapFile := some 0
      files := Heap.alloc .empty ⟨0, 0, false⟩
      openInodes := Heap.alloc .empty ⟨freeMapSector, 1, false, 0, fm⟩ } := ⟨_, rfl⟩
    have hmap : MapFile st 0 fm := by
      rw [hst]
      exact ⟨⟨0, _, rfl, by rw [Heap.get_alloc]; rfl, rfl⟩,
        ⟨_, by rw [Heap.get_alloc]; rfl, rfl, rfl⟩⟩
    have hwrite' :
        (withFreeMap fun file => do bitmapWrite (← Cmd.getState) (← Cmd.ofOption file)).exec st v₁ =
        some (true, st, v') := by
      have hb : st.freeMap = b₁ := by rw [hst]
      rw [exec_withFreeMap hmap]
      simp only [Cmd.exec_bind, Cmd.exec_getState, Cmd.exec_ofOption, Option.map_some,
        Option.bind_some, hb, hwrite]
      rw [← hb]
      rfl
    refine .inr ⟨hfits, fm, st, v', ?_, ?_⟩
    · simp only [freeMapCreate, inodeCreate, Cmd.exec_bind, Cmd.exec_getState, Option.bind_some,
        hfileSize, freeMapSector, hnone, hexec, Option.map_some]
      simp only [inodeOpen, initialState, Heap.empty, List.find?_nil, Cmd.exec_bind,
        Cmd.exec_getState, Cmd.exec_read,
        Cmd.exec_setState, Cmd.exec_pure, Option.bind_some, fileOpen, Cmd.exec_modifyState, hkeep]
      have hst' := hst
      simp only [initialState, Heap.empty, freeMapSector] at hst'
      rw [← hst', hwrite']
      rfl
    · have hone : ∀ s, (mapOwner fm).occ v' s + total v' [⟨1, newInodeDisk 0 true⟩] s ≤
          if InUse b₁ s then 1 else 0 := by
        intro s
        have := honce s
        rw [total_cons, total_nil, Owner.occ, Owner.occ, newInodeDisk_occ, mapOwner,
          InodeDisk.occ_congr hindex]
        omega
      have hb : st.freeMap = b₁ := by rw [hst]
      have hopen : openOwners st.openInodes 0 = [] := by rw [hst]; rfl
      constructor
      case mounted =>
        constructor
        case map => exact hmap
        case world =>
          rw [hopen, hb, List.nil_append]
          refine ⟨by omega, by omega, by rw [hlen₁, hlen, hfmlen], hsound.congr hindex, ?_, ?_, hholds⟩
          · intro x hx
            obtain rfl : x = ⟨rootDirSector, newInodeDisk 0 true⟩ := by simpa using hx
            exact newInodeDisk_sound true
          · intro s
            rw [total_cons]
            exact hone s
        case shadow =>
          intro p i hp hq
          rw [hst, Heap.get_alloc] at hp
          split at hp
          · rename_i h; exact absurd h hq
          · cases hp
        case deny =>
          intro p i hp
          rw [hst, Heap.get_alloc] at hp
          split at hp
          · cases hp; rfl
          · cases hp
      case state => rw [hb]; exact hst
      case disk =>
        rw [hframe' 0 ?_, hdisk]
        rintro ⟨h, -⟩
        exact h rfl
      case size => rw [hb, hlen₁, hlen]
      case free => rw [hb, hleft, length_newInodeDisk_lacking _ _ (newInodeDisk_fits.1 hfits).1]
      case frame =>
        intro t ht
        rw [hb] at ht
        rw [hframe' t ?_, hframe t ht]
        intro hF
        have h₁ := honce t
        have h₂ := mapData_occ hF
        rw [if_neg ht] at h₁
        omega

/-! ## The root directory -/

/-- What `dir_create` on sector `s` does to a mounted file system. -/
structure DirCreated (q : Ptr) (fm : InodeDisk) (L : List Owner) (s : BlockSector) (cnt : Nat)
    (st : FsState) (v : Image) (st' : FsState) (v' : Image) : Prop where
  mounted : Mounted st' v' q fm (⟨s, .ofSector (v' s)⟩ :: L)
  state : st' = (((st.setFreeMap st'.freeMap).setInodes st'.openInodes).setDirs st'.dirs).setCwd none
  opened : st'.openInodes.cells = st.openInodes.cells
  dirs : st'.dirs.cells = st.dirs.cells
  size : st'.freeMap.length = st.freeMap.length
  free : freeCount st'.freeMap = freeCount st.freeMap - sectorCost (bytesToSectors (cnt * 36))
  mono : ∀ t, InUse st.freeMap t → InUse st'.freeMap t
  frame : ∀ t, ¬ InUse st'.freeMap t → v' t = v t
  zero : v' 0 = v 0
  length : (InodeDisk.ofSector (v' s)).length = (cnt * 36 : Nat)
  isDir : (InodeDisk.ofSector (v' s)).isDir = true
  content : ∀ pos, (InodeDisk.ofSector (v' s)).content v' pos =
    (DirEntry.toBytes ⟨s, [], true⟩).getD pos 0
  sectors : ((InodeDisk.ofSector (v' s)).blocks v').length ≤ sectorCost (bytesToSectors (cnt * 36))

theorem exec_dirCreate {q : Ptr} {fm : InodeDisk} {L : List Owner} {s : BlockSector} {cnt : Nat}
    (h : Mounted st v q fm (⟨s, newInodeDisk 0 true⟩ :: L)) (hcnt : 0 < cnt)
    (hmax : cnt * 36 < 2 ^ 31) : (¬ (newInodeDisk 0 true).Fits v st.freeMap (cnt * 36) ∧
      ∃ st' v', (dirCreate s cnt).exec st v = some (false, st', v')) ∨
    (newInodeDisk 0 true).Fits v st.freeMap (cnt * 36) ∧
      ∃ st' v', (dirCreate s cnt).exec st v = some (true, st', v') ∧
        DirCreated q fm L s cnt st v st' v' := by
  have hlt : ((cnt * 36 : Nat) : Int) < 2 ^ 31 := by omega
  obtain ⟨ok, b₁, v₁, d, hexec₁, hc, hm₁, hgrown, hd⟩ := h.inodeCreate hlt
  have hfits : ok = true ↔ (newInodeDisk 0 true).Fits v st.freeMap (cnt * 36) := by
    rw [hc.ok_iff, Int.toNat_natCast]
    exact ⟨fun hf => hf.2, fun hf => ⟨by omega, hf⟩⟩
  have hs0 : s ≠ 0 := (h.world.owned (x := ⟨s, newInodeDisk 0 true⟩) (by simp) (occ_sector v _)).2.1
  have hsused : InUse st.freeMap s :=
    (h.world.owned (x := ⟨s, newInodeDisk 0 true⟩) (by simp) (occ_sector v _)).1
  cases ok with
  | false =>
    refine .inl ⟨fun hf => absurd (hfits.2 hf) (by decide), st.setFreeMap b₁, v₁, ?_⟩
    rw [dirCreate, Cmd.exec_bind, hexec₁]
    rfl
  | true =>
  refine .inr ⟨hfits.1 rfl, ?_⟩
  obtain ⟨hdisk, hlen, hdir, -, hzeros⟩ := hd rfl
  have hsound : d.Sound v₁ := hm₁.world.sound ⟨s, d⟩ (by simp)
  have hkeep : InodeDisk.ofSector (v₁ s) = d := by
    rw [hdisk]; exact InodeDisk.ofSector_toSector hsound.storable
  -- the new inode is opened
  obtain ⟨st₂, hst₂, hexec₂, hm₂⟩ := hm₁.inodeOpen (s := s) (by rw [hkeep])
  obtain ⟨p, hp⟩ : ∃ p, p = st.openInodes.next := ⟨_, rfl⟩
  obtain ⟨i, hi⟩ : ∃ i : Inode, i = ⟨s, 1, false, 0, d⟩ := ⟨_, rfl⟩
  rw [hkeep, ← hi] at hst₂
  rw [FsState.setFreeMap_openInodes, ← hp] at hexec₂
  have hq : p ≠ q := by
    intro he
    obtain ⟨j, hj, -⟩ := h.map.inode
    rw [← he, hp, Heap.get_next] at hj
    cases hj
  -- its parent entry is written in place
  obtain ⟨pd, hpd⟩ : ∃ pd, pd = st₂.dirs.next := ⟨_, rfl⟩
  obtain ⟨st₃, hst₃⟩ : ∃ st₃, st₃ = st₂.setDirs (st₂.dirs.alloc ⟨p, dirEntrySize, 1⟩) :=
    ⟨_, rfl⟩
  have hexec₃ : (dirOpen (some p)).exec st₂ v₁ = some (some pd, st₃, v₁) := by
    rw [exec_dirOpen, hst₃, hpd]
  have hm₃ : Mounted st₃ v₁ q fm L := by rw [hst₃]; exact hm₂.congr rfl rfl rfl rfl
  have hget₃ : st₃.openInodes.get p = some i := by
    rw [hst₃, hst₂, hp]
    simp [Heap.get_alloc]
  have hdir₃ : st₃.dirs.get pd = some ⟨p, dirEntrySize, 1⟩ := by rw [hst₃, hpd]; simp [Heap.get_alloc]
  obtain ⟨n, i', b₄, v₄, hexec₄, hw, hm₄⟩ :=
    hm₃.inodeWriteAt hget₃ hq (DirEntry.toBytes ⟨s, [], true⟩) 0
  have hwithin : i.data.Within (0 + (DirEntry.toBytes ⟨s, [], true⟩).length) := by
    rw [hi, DirEntry.length_toBytes]
    exact ⟨by omega, by rw [hlen]; omega⟩
  obtain ⟨hi', hb₄, hs₄⟩ := hw.place hwithin
  obtain ⟨hn, -, hbytes⟩ := hw.done (.inl hwithin)
  rw [DirEntry.length_toBytes] at hn
  subst hi' hn
  -- the directory is closed again
  obtain ⟨st₄, hst₄⟩ : ∃ st₄, st₄ = (st₃.setFreeMap b₄).setInodes
      (st₃.openInodes.modify p fun _ => i') := ⟨_, rfl⟩
  rw [← hst₄] at hexec₄ hm₄
  have hget₄ : st₄.openInodes.get p = some i' := by rw [hst₄]; simp [Heap.get_modify, hget₃]
  have hdir₄ : st₄.dirs.get pd = some ⟨p, dirEntrySize, 1⟩ := by rw [hst₄]; exact hdir₃
  have hm₄' : Mounted (st₄.setDirs (st₄.dirs.modify pd fun d' => { d' with openCnt := 0 })) v₄ q fm L :=
    hm₄.congr rfl rfl rfl rfl
  obtain ⟨st₅, hst₅, hexec₅, hm₅⟩ := hm₄'.inodeClose_last hget₄ hq (by rw [hi]) (by rw [hi])
  obtain ⟨st₆, hst₆⟩ : ∃ st₆, st₆ = (st₅.setDirs (st₅.dirs.free pd)).setCwd none :=
    ⟨_, rfl⟩
  have hexec₆ : (dirClose (some pd)).exec st₄ v₄ = some ((), st₆, v₄) := by
    rw [exec_dirClose_last hdir₄ rfl, hexec₅, hst₆]
    rfl
  refine ⟨st₆, v₄, ?_, ?_⟩
  · rw [dirCreate]
    simp only [Cmd.exec_bind, hexec₁, Option.bind_some, hexec₂, hexec₃, dirGetInode,
      exec_derefDir, hdir₃,
      Option.map_some, Cmd.exec_pure, Bool.not_true, Bool.false_eq_true, if_false, Cmd.exec_ofOption]
    rw [show ((0 : Nat) : Int) = 0 from rfl] at hexec₄
    simp only [hexec₄, Option.bind_some, hexec₆]
    rfl
  have hfree₃ : st₃.freeMap = b₁ := by rw [hst₃, hst₂]; rfl
  have hfree₆ : st₆.freeMap = b₁ := by rw [← hfree₃, ← hb₄, hst₆, hst₅, hst₄]; rfl
  have hinodes₆ : st₆.openInodes = (st.openInodes.alloc i').free p := by
    rw [hst₆, hst₅, hst₄, hst₃, hst₂]
    exact Heap.free_modify _ _ _
  have hdirs₆ : st₆.dirs = (st.dirs.alloc ⟨p, dirEntrySize, 1⟩).free pd := by
    rw [hst₆, hst₅, hst₄, hst₃, hst₂]
    exact Heap.free_modify _ _ _
  have hsame : InodeDisk.ofSector (v₄ s) = d := by
    rw [hi] at hs₄
    rw [show v₄ s = v₁ s from hs₄, hkeep]
  constructor
  case mounted =>
    rw [hi] at hm₅
    rw [hst₆]
    exact hm₅.congr rfl rfl rfl rfl
  case state => rw [hst₆, hst₅, hst₄, hst₃, hst₂]; rfl
  case opened => rw [hinodes₆, hp, Heap.cells_alloc_free]
  case dirs =>
    rw [hdirs₆, hpd, hst₂]
    exact Heap.cells_alloc_free _ _
  case size => rw [hfree₆, hc.size]
  case free =>
    have hf := hfits.1 rfl
    rw [hfree₆, hc.left, if_pos (by omega), Int.toNat_natCast,
      length_newInodeDisk_lacking _ _ (newInodeDisk_fits.1 hf).1]
  case mono => rw [hfree₆]; exact hc.mono
  case frame =>
    intro t ht
    rw [hfree₆] at ht
    rw [hw.unused (hm₃.head hget₃ hq) (by rw [hb₄, hfree₃]; exact ht)]
    exact hc.unused (h.world.perm List.perm_middle) ht
  case zero =>
    rw [hw.zero, if_neg fun hn => hn.1 hwithin, hc.zero, Int.toNat_natCast,
      if_neg fun hn => (hfits.1 rfl).not_slips hn.2]
  case length => rw [hsame, hlen]
  case isDir => rw [hsame, hdir]
  case content =>
    intro pos
    have hd' : i'.data = d := by rw [hi]
    have := hbytes pos
    rw [hd', hzeros, DirEntry.length_toBytes] at this
    rw [hsame, this]
    split
    · rfl
    · rw [List.getD_eq_default]
      rw [DirEntry.length_toBytes]
      omega
  case sectors =>
    have hf := newInodeDisk_fits.1 (hfits.1 rfl)
    have hleft := hc.left
    rw [if_pos (by omega), Int.toNat_natCast, length_newInodeDisk_lacking _ _ hf.1] at hleft
    have hwgrown := hw.grown
    rw [hb₄, hi, hfree₃] at hwgrown
    rw [hsame]
    have hwgrown : (d.blocks v₄).length + freeCount b₁ ≤ (d.blocks v₁).length + freeCount b₁ :=
      hwgrown
    omega

/-! ## The device -/

/-- A device has room for its free-map file and the root directory. -/
def Formattable (n : Nat) : Prop :=
  3 ≤ n ∧ bytesToSectors (byteCnt (n - 1)) ≤ InodeDisk.maxSectors ∧
    sectorCost (bytesToSectors (byteCnt (n - 1))) + 71 ≤ n - 3

instance (n : Nat) : Decidable (Formattable n) := inferInstanceAs (Decidable (_ ∧ _))

/-- The file system on a freshly formatted device of `n` sectors, which held
`v` before. -/
structure Formatted (n : Nat) (v : Image) (st : FsState) (v' : Image) (q : Ptr) (fm : InodeDisk) :
    Prop where
  mounted : Mounted st v' q fm (diskOwners v' [rootDirSector])
  disk : v' freeMapSector = fm.toSector
  map : st.openInodes.get q = some ⟨freeMapSector, 1, false, 0, fm⟩
  alone : (st.openInodes.free q).cells = []
  state : st = ((((initialState.setFreeMap st.freeMap).setFreeMapFile st.freeMapFile).setInodes
    st.openInodes).setFiles st.files).setDirs st.dirs
  dirs : st.dirs.cells = []
  size : st.freeMap.length = n - 1
  free : freeCount st.freeMap + sectorCost (bytesToSectors (byteCnt (n - 1))) + 71 = n - 3
  frame : ∀ t, ¬ InUse st.freeMap t → v' t = v t
  length : (InodeDisk.ofSector (v' rootDirSector)).length = 36000
  isDir : (InodeDisk.ofSector (v' rootDirSector)).isDir = true
  content : ∀ pos, (InodeDisk.ofSector (v' rootDirSector)).content v' pos =
    (DirEntry.toBytes ⟨rootDirSector, [], true⟩).getD pos 0
  sectors : ((InodeDisk.ofSector (v' rootDirSector)).blocks v').length ≤ 71

theorem exec_fileClose {p : Ptr} {f : File} (hf : st.files.get p = some f)
    (hdeny : f.denyWrite = false) : (fileClose (some p)).exec st v =
      ((inodeClose (some f.inode)).exec st v).map fun r =>
        ((), r.2.1.setFiles (r.2.1.files.free p), r.2.2) := by
  simp only [fileClose, fileAllowWrite, exec_derefFile, hf, hdeny, Cmd.exec_bind, Option.map_some,
    Option.bind_some, Cmd.exec_modifyState, Bool.false_eq_true, if_false, Cmd.exec_pure]
  rw [Option.map_eq_bind]
  rfl

/-- A bitmap without bits has no place in a file to be written to. -/
theorem exec_bitmapWrite_nil {S : Type} (f : InodeDisk) (s : S) :
    (bitmapWrite [] f).exec s v = none := by
  have h : ¬ (0 ≤ ((bitmapFileSize [] : Nat) : Int) - 1) := by decide
  simp only [bitmapWrite, Cmd.exec_bind, exec_byteToSector_some, Option.bind_some, h, false_and,
    if_false, if_true, Cmd.exec_fault]

theorem exec_freeMapCreate_nil : freeMapCreate.exec (initialState.setFreeMap []) v = none := by
  have hcreate : (Inode.create none 0 ((bitmapFileSize [] : Nat) : Int) false).exec [] v =
      some (true, [], Function.update v 0 (newInodeDisk 0 false).toSector) := by
    simp [Inode.create, inodeReserve, bytesToSectors, divRoundUp, blockSectorSize, reserveBlocks,
      bitmapFileSize, byteCnt, newInodeDisk]
  have hnone : ∀ m : Option InodeDisk → Disk Bitmap Bool, (withFreeMap m).exec
    (initialState.setFreeMap []) v =
      ((m none).exec [] v).map fun r => (r.1, (initialState.setFreeMap []).setFreeMap r.2.1, r.2.2) :=
    fun m => exec_withFreeMap_none rfl
  simp only [freeMapCreate, inodeCreate, Cmd.exec_bind, Cmd.exec_getState, Option.bind_some,
    freeMapSector, FsState.setFreeMap_freeMap, hnone, hcreate, Option.map_some]
  simp only [inodeOpen, initialState, FsState.setFreeMap, Heap.empty, List.find?_nil, Cmd.exec_bind,
    Cmd.exec_getState,
    Cmd.exec_read, Cmd.exec_setState, Cmd.exec_pure, Option.bind_some, fileOpen, Cmd.exec_modifyState]
  simp [withFreeMap, freeMapData, exec_derefFile, exec_derefInode, Heap.get_alloc, exec_bitmapWrite_nil]

/-- `free_map_close`, with no other file or inode open. -/
theorem exec_freeMapClose {p q : Ptr} {i : Inode} (hfile : st.freeMapFile = some p)
    (hf : st.files.get p = some ⟨q, 0, false⟩) (hi : st.openInodes.get q = some i)
    (hcnt : i.openCnt = 1) (hrem : i.removed = false) : freeMapClose.exec st v =
      some ((), (st.setInodes (st.openInodes.free q)).setFiles (st.files.free p), v) := by
  simp only [freeMapClose, Cmd.exec_bind, Cmd.exec_getState, Option.bind_some, hfile]
  rw [exec_fileClose hf rfl]
  simp [inodeClose, exec_derefInode, hi, exec_modifyInode, hcnt, hrem, Heap.free_modify,
    FsState.setInodes, FsState.setFiles]

theorem exec_bitmapRead {S : Type} {s : S} {fm : InodeDisk} {b b₀ : Bitmap} {L : List Owner}
    (h : World fm v b L) (hlen : b₀.length = b.length) :
    (bitmapRead b₀ fm).exec s v = some (some b, s, v) := by
  have hread := exec_readAt h.map.direct h.map.covers s (bitmapFileSize b) 0
  have hbits := h.bits
  have hcnt : (min ((bitmapFileSize b : Nat) : Int) (fm.length - (0 : Nat))).toNat =
      bitmapFileSize b := by
    simp only [bitmapFileSize] at hbits ⊢
    omega
  have hbytes : ((List.range (bitmapFileSize b)).map fun j => fm.byte v (0 + j)) = bitmapBytes b := by
    refine List.ext_getElem (by simp) fun j hj hj' => ?_
    rw [List.getElem_map, List.getElem_range, Nat.zero_add,
      h.holds fm (Option.mem_some_self fm) j (by simpa using hj), List.getD_eq_getElem _ _ hj']
  rw [hcnt, hbytes] at hread
  have hsize : bitmapFileSize b₀ = bitmapFileSize b := by rw [bitmapFileSize, hlen, bitmapFileSize]
  rw [bitmapRead]
  simp only [Cmd.exec_bind, hsize]
  rw [show ((0 : Nat) : Int) = 0 from rfl] at hread
  simp [hread, hlen, bitmapOfBytes_bitmapBytes]

/-- `free_map_open`, with no inode open: the free map on the disk is the free
map again. -/
theorem exec_freeMapOpen {fm : InodeDisk} {b : Bitmap} {L : List Owner} (h : World fm v b L)
    (hdisk : v 0 = fm.toSector) (hopen : st.openInodes.cells = [])
    (hlen : st.freeMap.length = b.length) : ∃ st', freeMapOpen.exec st v = some (true, st', v) ∧
      st' = (((st.setFreeMap b).setFreeMapFile (some st.files.next)).setInodes
        (st.openInodes.alloc ⟨freeMapSector, 1, false, 0, fm⟩)).setFiles
        (st.files.alloc ⟨st.openInodes.next, 0, false⟩) ∧
      Mounted st' v st.openInodes.next fm L := by
  have hkeep : InodeDisk.ofSector (v 0) = fm := by
    rw [hdisk]; exact InodeDisk.ofSector_toSector h.map.storable
  obtain ⟨st₁, hst₁⟩ : ∃ st₁, st₁ = ((st.setFreeMapFile (some st.files.next)).setInodes
    (st.openInodes.alloc ⟨freeMapSector, 1, false, 0, fm⟩)).setFiles
    (st.files.alloc ⟨st.openInodes.next, 0, false⟩) :=
    ⟨_, rfl⟩
  have hmap₁ : MapFile st₁ st.openInodes.next fm := by
    rw [hst₁]
    exact ⟨⟨_, _, rfl, by simp [Heap.get_alloc]; rfl, rfl⟩,
      ⟨_, by simp [Heap.get_alloc]; rfl, rfl, rfl⟩⟩
  have hlen₁ : st₁.freeMap.length = b.length := by rw [hst₁]; exact hlen
  refine ⟨st₁.setFreeMap b, ?_, by rw [hst₁]; rfl, ?_⟩
  · simp only [freeMapOpen, inodeOpen, hopen, List.find?_nil, fileOpen, Cmd.exec_bind,
      Cmd.exec_getState, Cmd.exec_read,
      Cmd.exec_setState, Cmd.exec_pure, Option.bind_some, Cmd.exec_modifyState, freeMapSector, hkeep]
    refine Eq.trans (congrArg (fun st => Cmd.exec _ st v) (?_ : _ = st₁)) ?_
    · rw [hst₁]
      rfl
    · rw [exec_withFreeMap hmap₁]
      simp [exec_bitmapRead h hlen₁]
  · have hcells : openOwners (st₁.setFreeMap b).openInodes st.openInodes.next = [] := by
      rw [openOwners, hst₁]
      simp only [FsState.setFreeMap_openInodes, FsState.setFiles_openInodes,
        FsState.setInodes_openInodes, Heap.cells_alloc_free, hopen, List.map_nil]
    have hnone : ∀ p i, (st₁.setFreeMap b).openInodes.get p = some i →
        p = st.openInodes.next ∧ i = ⟨freeMapSector, 1, false, 0, fm⟩ := by
      intro p i hp
      rw [hst₁] at hp
      simp only [FsState.setFreeMap_openInodes, FsState.setFiles_openInodes,
        FsState.setInodes_openInodes, Heap.get_alloc] at hp
      split at hp
      · rename_i hp'
        exact ⟨hp', (Option.some.inj hp).symm⟩
      · have := Heap.mem_of_get hp
        rw [hopen] at this
        cases this
    constructor
    case map => exact hmap₁.congr rfl rfl rfl
    case world => rw [hcells]; exact h
    case shadow => exact fun p i hp hq => absurd (hnone p i hp).1 hq
    case deny => exact fun p i hp => by rw [(hnone p i hp).2]

/-- What `do_format` leaves on the disk and in memory. -/
structure Blank (n : Nat) (v : Image) (st : FsState) (v' : Image) (fm : InodeDisk) : Prop where
  world : World fm v' st.freeMap (diskOwners v' [rootDirSector])
  disk : v' 0 = fm.toSector
  state : st = ((((initialState.setFreeMap st.freeMap).setFreeMapFile (some 0)).setInodes
    st.openInodes).setFiles st.files).setDirs st.dirs
  opened : st.openInodes.cells = []
  files : st.files.cells = []
  dirs : st.dirs.cells = []
  size : st.freeMap.length = n - 1
  free : freeCount st.freeMap + sectorCost (bytesToSectors (byteCnt (n - 1))) + 71 = n - 3
  frame : ∀ t, ¬ InUse st.freeMap t → v' t = v t
  length : (InodeDisk.ofSector (v' rootDirSector)).length = 36000
  isDir : (InodeDisk.ofSector (v' rootDirSector)).isDir = true
  content : ∀ pos, (InodeDisk.ofSector (v' rootDirSector)).content v' pos =
    (DirEntry.toBytes ⟨rootDirSector, [], true⟩).getD pos 0
  sectors : ((InodeDisk.ofSector (v' rootDirSector)).blocks v').length ≤ 71

theorem formattable_iff {n : Nat} (hn : 1 < n) : Formattable n ↔
    bytesToSectors (byteCnt (n - 1)) ≤ InodeDisk.maxSectors ∧
      sectorCost (bytesToSectors (byteCnt (n - 1))) + 71 ≤ freeCount (freeMapInit n) := by
  rw [Formattable]
  by_cases h3 : 3 ≤ n
  · rw [freeCount_freeMapInit h3]
    exact ⟨fun h => h.2, fun h => ⟨h3, h⟩⟩
  · obtain rfl : n = 2 := by omega
    have : freeCount (freeMapInit 2) = 0 := by decide
    rw [this]
    exact ⟨fun h => absurd h.1 h3, fun h => absurd h.2 (by omega)⟩

theorem exec_doFormat {n : Nat} (hpos : 1 < n) (hn : n ≤ 2 ^ 32) :
    (¬ Formattable n ∧ ∀ r, doFormat.exec (initialState.setFreeMap (freeMapInit n)) v = some r →
      r.1 = false) ∨
    Formattable n ∧ ∃ st v' fm, doFormat.exec (initialState.setFreeMap (freeMapInit n)) v =
    some (true, st, v') ∧
      Blank n v st v' fm := by
  rw [formattable_iff hpos]
  rcases exec_freeMapCreate (v := v) hpos hn with
    ⟨hfits, hexec⟩ | ⟨hfits, fm, st₁, v₁, hexec₁, hmap⟩
  · rw [newInodeDisk_fits] at hfits
    refine .inl ⟨fun h => hfits ⟨h.1, by omega⟩, fun r hr => ?_⟩
    simp only [doFormat, Cmd.exec_bind, Option.bind_eq_some_iff, Cmd.exec_pure, Option.some.injEq] at hr
    obtain ⟨a, ha, _, _, _, _, rfl⟩ := hr
    rw [hexec a ha]
    rfl
  have hexec₁ : freeMapCreate.exec (initialState.setFreeMap (freeMapInit n)) v =
      some (true, st₁, v₁) := hexec₁
  rw [newInodeDisk_fits] at hfits
  have h71 : bytesToSectors 36000 = 71 := by decide
  have hcost : sectorCost 71 = 71 := by decide
  rcases exec_dirCreate hmap.mounted (show 0 < 1000 by omega) (by omega) with
    ⟨hroot, st₂, v₂, hexec₂⟩ | ⟨hroot, st₂, v₂, hexec₂, hdir⟩
  · rw [newInodeDisk_fits, hmap.free, h71, hcost] at hroot
    refine .inl ⟨fun h => hroot ⟨by decide, by omega⟩, fun r hr => ?_⟩
    simp only [doFormat, Cmd.exec_bind, hexec₁, Option.bind_some, hexec₂, Option.bind_eq_some_iff,
      Cmd.exec_pure, Option.some.injEq] at hr
    obtain ⟨_, _, rfl⟩ := hr
    rfl
  · rw [newInodeDisk_fits, hmap.free, h71, hcost] at hroot
    refine .inr ⟨⟨hfits.1, by omega⟩, ?_⟩
    -- the free-map file is the one that is open
    have hcells : st₁.openInodes.cells = [(0, ⟨freeMapSector, 1, false, 0, fm⟩)] := by
      rw [hmap.state]; rfl
    have hcells₂ := hdir.opened.trans hcells
    have hget₂ : st₂.openInodes.get 0 = some ⟨freeMapSector, 1, false, 0, fm⟩ := by
      rw [Heap.get, hcells₂]
      rfl
    have hfree₂ : (st₂.openInodes.free 0).cells = [] := by
      rw [Heap.cells_free, hcells₂]
      rfl
    have hfiles : st₂.files = Heap.alloc .empty ⟨0, 0, false⟩ := by rw [hdir.state, hmap.state]; rfl
    have hfileMap : st₂.freeMapFile = some 0 := by rw [hdir.state, hmap.state]; rfl
    have hclose :=
      exec_freeMapClose (v := v₂) hfileMap (by rw [hfiles, Heap.get_alloc]; rfl) hget₂ rfl rfl
    have hdirs₁ : st₁.dirs.cells = [] := by rw [hmap.state]; rfl
    refine ⟨(st₂.setInodes (st₂.openInodes.free 0)).setFiles (st₂.files.free 0), v₂, fm, ?_, ?_⟩
    · simp only [doFormat, Cmd.exec_bind, hexec₁, Option.bind_some, hexec₂, hclose, Cmd.exec_pure]
      rfl
    · have hworld := hdir.mounted.world
      rw [openOwners, hfree₂] at hworld
      constructor
      case world => exact hworld
      case disk => rw [hdir.zero, hmap.disk]
      case state =>
        rw [hdir.state, hmap.state]
        rfl
      case opened => exact hfree₂
      case files =>
        simp only [FsState.setFiles_files, hfiles]
        rfl
      case dirs => exact hdir.dirs.trans hdirs₁
      case size => exact hdir.size.trans hmap.size
      case free =>
        have hf : freeCount ((st₂.setInodes (st₂.openInodes.free 0)).setFiles
          (st₂.files.free 0)).freeMap = freeCount st₂.freeMap := rfl
        have h₁ := hdir.free
        have h₂ := hmap.free
        have h₃ : freeCount (freeMapInit n) = n - 3 := by
          refine freeCount_freeMapInit ?_
          by_contra h3
          obtain rfl : n = 2 := by omega
          have : freeCount (freeMapInit 2) = 0 := by decide
          omega
        rw [h71, hcost] at h₁
        omega
      case frame =>
        intro t ht
        rw [hdir.frame t ht, hmap.frame t fun hu => ht (hdir.mono t hu)]
      case length => exact hdir.length
      case isDir => exact hdir.isDir
      case content => exact hdir.content
      case sectors =>
        have hsec := hdir.sectors
        rw [h71, hcost] at hsec
        exact hsec

/-- **Formatting** succeeds exactly when the device has the room. -/
theorem exec_filesysInit {n : Nat} (hn : n ≤ 2 ^ 32) :
    (¬ Formattable n ∧ ∀ r, (filesysInit n true).exec initialState v = some r → r.1 = false) ∨
    Formattable n ∧ ∃ st v' q fm, (filesysInit n true).exec initialState v = some (true, st, v') ∧
      Formatted n v st v' q fm := by
  have hstart : (Cmd.modifyState fun s => { s with
      openInodes := .empty
      freeMap := freeMapInit n } : FsM Unit).exec initialState v =
        some ((), initialState.setFreeMap (freeMapInit n), v) := rfl
  by_cases hpos : 1 < n
  · rcases exec_doFormat (v := v) hpos hn with ⟨hno, hexec⟩ | ⟨hyes, st₁, v', fm, hexec, hb⟩
    · refine .inl ⟨hno, fun r hr => ?_⟩
      simp only [filesysInit, if_true, Cmd.exec_bind, hstart, Option.bind_some,
        Option.bind_eq_some_iff, Cmd.exec_pure, Option.some.injEq] at hr
      obtain ⟨a, ha, _, _, _, _, rfl⟩ := hr
      rw [hexec a ha]
      rfl
    · refine .inr ⟨hyes, ?_⟩
      obtain ⟨st, hopen, hst, hm⟩ := exec_freeMapOpen hb.world hb.disk hb.opened rfl
      have hfree : st.freeMap = st₁.freeMap := by rw [hst]; rfl
      have hfileTable : st.fileTable = [] := by rw [hst, hb.state]; rfl
      have htable : st.setFileTable [] = st := by rw [← hfileTable]; rfl
      refine ⟨st, v', st₁.openInodes.next, fm, ?_, ?_⟩
      · simp only [filesysInit, if_true, Cmd.exec_bind, hstart, Option.bind_some, hexec, hopen,
          initFileTable, Cmd.exec_modifyState, Cmd.exec_pure]
        rw [show ({ st with fileTable := [] } : FsState) = st from htable]
        rfl
      · constructor
        case mounted => exact hm
        case disk => exact hb.disk
        case map => rw [hst]; simp [Heap.get_alloc]
        case alone =>
          rw [hst]
          simp only [FsState.setFiles_openInodes, FsState.setInodes_openInodes,
            Heap.cells_alloc_free, hb.opened]
        case state => rw [hst, hb.state]; rfl
        case dirs => rw [hst]; exact hb.dirs
        case size => rw [hfree]; exact hb.size
        case free => rw [hfree]; exact hb.free
        case frame => rw [hfree]; exact hb.frame
        case length => exact hb.length
        case isDir => exact hb.isDir
        case content => exact hb.content
        case sectors => exact hb.sectors
  · refine .inl ⟨fun h => absurd h.1 (by omega), fun r hr => ?_⟩
    have hnil : freeMapInit n = [] := by
      rw [← List.length_eq_zero_iff, length_freeMapInit]
      omega
    rw [hnil] at hstart
    have hcreate : freeMapCreate.exec (initialState.setFreeMap []) v = none := exec_freeMapCreate_nil
    simp only [filesysInit, if_true, Cmd.exec_bind, hnil, hstart, Option.bind_some, doFormat, hcreate,
      Option.bind_none] at hr
    cases hr

end format

end MyShell.Fs

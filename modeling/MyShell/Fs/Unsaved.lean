/-
A restart after a `create` that found no room. Where the sectors run out just
when an index sector is needed, the zeros for it land on sector 0, the inode of
the free map: nothing is seen of it before the next start, which finds no free
map on the device and goes on with a new one, in which the sectors of all files
are free.
-/
import MyShell.Fs.Remount

namespace MyShell.Fs

open Storage BlockTree Session

/-! ## Where the sectors run out -/

/-- A new file of `n` sectors needs an index sector when it has `f`: the list,
the list of lists, or one of the lists in that. -/
def NeedsIndex (f n : Nat) : Prop :=
  f = 123 ∧ 123 < n ∨ f = 252 ∧ 251 < n ∨ ∃ k < 128, f = 253 + 129 * k ∧ 251 + 128 * k < n

/-- In a level of lists each begins with its index sector. -/
theorem getElem?_missingF_lists {v : Image} {k w n : Nat} (hk : k < w) (hn : 128 * k < n) :
    (missingF layout v (level 1 (List.replicate w layout.null)) n)[129 * k]? = some .index := by
  induction w generalizing k n with
  | zero => omega
  | succ w ih =>
    have hwidth : layout.width = 128 := rfl
    rw [List.replicate_succ, level_cons, missingF, if_neg (by omega), Nat.pow_one, hwidth,
      missing_null, missingF_leaves, hwidth]
    cases k with
    | zero => rfl
    | succ k =>
      rw [List.getElem?_append_right (by simp only [List.length_cons, List.length_replicate]; omega)]
      have hlength : 129 * (k + 1) - (Kind.index :: List.replicate
          (min (min n 128) 128) Kind.data).length = 129 * k := by
        simp only [List.length_cons, List.length_replicate]
        omega
      rw [hlength]
      exact ih (by omega) (by omega)

theorem NeedsIndex.slips {v : Image} {b : Bitmap} {length end_ : Nat} {isDir : Bool}
    (h : NeedsIndex (freeCount b) (bytesToSectors end_)) :
    (newInodeDisk length isDir).Slips v b end_ := by
  have hnode (l n : Nat) (hn : 0 < n) : missingF layout v [(l, 0)] n =
      missing layout v l layout.null (min n (128 ^ l)) := by
    rw [missingF, if_neg (by omega)]
    simp [missingF]
  have hlists (n : Nat) (hn : 0 < n) : missingF layout v [(2, 0)] n =
      .index :: missingF layout v (level 1 (List.replicate 128 layout.null)) (min n (128 ^ 2)) := by
    rw [hnode 2 n hn, missing_null]
    rfl
  have hlist (n : Nat) (hn : 0 < n) : missingF layout v [(1, 0)] n =
      .index :: List.replicate (min n 128) .data := by
    rw [hnode 1 n hn, missing_null, missingF_leaves]
    simp
  rw [InodeDisk.Slips, newInodeDisk_lacking]
  generalize bytesToSectors end_ = n at h
  rcases h with ⟨hf, hn⟩ | ⟨hf, hn⟩ | ⟨k, hk, hf, hn⟩
  · rw [hf, List.getElem?_append_right (by simp), List.length_replicate, hlist _ (by omega)]
    simp [Nat.min_eq_right hn.le]
  · rw [hf, List.getElem?_append_right (by simp), List.length_replicate, hlist _ (by omega),
      hlists _ (by omega), List.getElem?_append_right (by simp; omega)]
    have hzero : 252 - min n 123 - (Kind.index :: List.replicate
        (min (n - 123) 128) Kind.data).length = 0 := by
      simp only [List.length_cons, List.length_replicate]
      omega
    rw [hzero]
    rfl
  · rw [hf, List.getElem?_append_right (by simp; omega), List.length_replicate, hlist _ (by omega),
      hlists _ (by omega), List.getElem?_append_right (by simp; omega)]
    have hindex : 253 + 129 * k - min n 123 - (Kind.index :: List.replicate
        (min (n - 123) 128) Kind.data).length = 129 * k + 1 := by
      simp only [List.length_cons, List.length_replicate]
      omega
    rw [hindex, List.getElem?_cons_succ]
    exact getElem?_missingF_lists hk (by omega)

/-! ## Zeros on sector 0 -/

namespace Volume

variable {s s' : Session} {a : BlockSector → Option Node} {x : BlockSector}

theorem create_zero (h : Volume s a) (hx : x ∈ s.spare) {length : Int} (hlen : length < 2 ^ 31)
    (hnonneg : 0 ≤ length) {isDir ok : Bool}
    (hneeds : NeedsIndex (freeCount s.st.freeMap) (bytesToSectors length.toNat))
    (hdoes : s.Does (inodeCreate x length isDir) ok s') :
    s'.image freeMapSector = Sector.zeros := by
  obtain ⟨q, fm, C, hinv⟩ := h.inv
  have hm : Mounted s.st s.image q fm
      (⟨x, newInodeDisk 0 isDir⟩ :: (diskOwners s.image C ++ (s.spare.erase x).map
        fun x => ⟨x, newInodeDisk 0 false⟩)) :=
    (hinv.mounted.perm (spare_perm hx _)).shrink (.refl _) (newInodeDisk_sound _)
  obtain ⟨ok', b, v', d, hexec, hc, -⟩ := hm.inodeCreate hlen
  rw [Does, hexec] at hdoes
  simp only [Option.some.injEq, Prod.mk.injEq] at hdoes
  obtain ⟨-, -, rfl⟩ := hdoes
  exact hc.zero.trans (if_pos ⟨hnonneg, hneeds.slips⟩)

theorem release_zero (h : Volume s a) (hx : x ∈ s.spare)
    (hdoes : s.Does (Fs.withFreeMap fun file => freeMapRelease file x 1) () s') :
    s'.image freeMapSector = s.image freeMapSector := by
  obtain ⟨q, fm, C, hinv⟩ := h.inv
  obtain ⟨b, v, hexec, hreleased, -⟩ := (hinv.mounted.perm (spare_perm hx _)).releaseSector
  rw [Does, hexec] at hdoes
  simp only [Option.some.injEq, Prod.mk.injEq, true_and] at hdoes
  obtain ⟨-, rfl⟩ := hdoes
  exact hreleased.frame _ fun hmap => hmap.1 rfl

end Volume

/-- A `create` that needs an index sector when no sector is left. -/
theorem Rooted.filesysCreate_zero {s s' : Session} {a : BlockSector → Option Node}
    {g : Growable UInt8} {T : Table} (h : Rooted s a g T) (hcwd : s.CwdOk) {path : CString}
    {length : Int} (hlen : length < 2 ^ 31) (hnonneg : 0 ≤ length) {f : Nat}
    (hfree : freeCount s.st.freeMap = f + 1) (hneeds : NeedsIndex f (bytesToSectors length.toNat))
    {ok : Bool} (hdoes : s.Does (Fs.filesysCreate path length false) ok s') :
    ok = false ∧ s'.image freeMapSector = Sector.zeros := by
  obtain ⟨d, dir, s₁, henter, h₁, hd₁, hcnt, hcwd₁, haround₁, -⟩ := h.enter hcwd
  rcases h₁.vol.allocate with
    ⟨hnone, -⟩ | ⟨x, s₂, hsome, hvol₂, hb₂, hholds₂, hlive₂, hspare₂, htakes₂⟩
  · rw [haround₁.freeMap, hfree] at hnone
    omega
  have hxspare : x ∈ s₂.spare := by rw [hspare₂]; exact List.mem_cons_self
  obtain ⟨h₂, hd₂⟩ := h₁.beside hvol₂ hlive₂ hd₁ hb₂ hholds₂
  have hne : (x != 0) = true := bne_iff_ne.2 (hvol₂.spare_fresh hxspare).1
  have hfree₂ : freeCount s₂.st.freeMap = f := by
    have hcount := htakes₂.count
    rw [haround₁.freeMap, hfree, List.length_singleton] at hcount
    omega
  rw [← hfree₂] at hneeds
  obtain ⟨s₃, hb₃, hholds₃, ⟨hroom, -⟩ | ⟨-, hcreate, hvol₃, hlive₃, hspare₃⟩⟩ :=
    hvol₂.create hxspare length hlen false
  · exact absurd hneeds.slips (newInodeDisk_fits.2 hroom.2 : (newInodeDisk 0 false).Fits s₂.image
      s₂.st.freeMap _).not_slips
  obtain ⟨h₃, hd₃⟩ := h₂.beside hvol₃ hlive₃ hd₂ hb₃ hholds₃
  have hxspare₃ : x ∈ s₃.spare := by rw [hspare₃]; exact hxspare
  obtain ⟨s₄, hrelease, hvol₄, hb₄, hholds₄, hlive₄, -⟩ := hvol₃.release hxspare₃
  obtain ⟨h₄, hd₄⟩ := h₃.beside hvol₄ hlive₄ hd₃ hb₄ hholds₄
  obtain ⟨s₅, hleave, -, -, haround₅, -⟩ :=
    h₄.leave hd₄ (by rw [hb₄.cwd, hb₃.cwd, hb₂.cwd]; exact hcwd₁) hcnt
  have hfails : s.Does (Fs.filesysCreate path length false) false s₅ := by
    unfold Fs.filesysCreate
    refine henter.bind (Does.bind (hsome.bind (hcreate.bind (.pure _ _))) ?_)
    simp only [Bool.not_false, Bool.true_and, hne, if_true]
    exact hrelease.bind (hleave.bind (.pure _ _))
  obtain ⟨rfl, -, himage⟩ := hdoes.same hfails
  refine ⟨rfl, ?_⟩
  rw [himage, haround₅.image, hvol₃.release_zero hxspare₃ hrelease,
    hvol₂.create_zero hxspare hlen hnonneg hneeds hcreate]

/-! ## The next start -/

/-- `filesys_init` with zeros on sector 0: PANIC prints that the free map could not be read,
and a new one stays in memory. -/
theorem exec_filesysInit_zero {n : Nat} (hn : 1 < n) {v : Image}
    (hzero : v freeMapSector = Sector.zeros) :
    ∃ st, (filesysInit n false).exec initialState v = some (false, st, v) ∧ st.freeMap = freeMapInit n ∧
      ∀ p i, st.openInodes.get p = some i → i.sector = freeMapSector := by
  let blank : InodeDisk := .ofSector Sector.zeros
  let st₀ : FsState := { initialState with freeMap := freeMapInit n }
  let st : FsState := ((st₀.setFreeMapFile (some st₀.files.next)).setInodes
    (st₀.openInodes.alloc ⟨freeMapSector, 1, false, 0, blank⟩)).setFiles
    (st₀.files.alloc ⟨st₀.openInodes.next, 0, false⟩)
  have hmap : MapFile st st₀.openInodes.next blank :=
    ⟨⟨_, _, rfl, by simp [st, Heap.get_alloc]; rfl, rfl⟩,
      ⟨_, by simp [st, Heap.get_alloc]; rfl, rfl, rfl⟩⟩
  -- the file is empty
  have hlength : blank.length = 0 := by decide
  have hread : (bitmapRead (freeMapInit n) blank).exec (freeMapInit n) v =
      some (none, freeMapInit n, v) := by
    have hcovers : blank.Covers v blank.length.toNat := fun i hi => by
      rw [hlength] at hi
      simp at hi
    have hnone := exec_readAt (d := blank) (InodeDisk.length_directBlocks_ofSector _) hcovers
      (freeMapInit n) (bitmapFileSize (freeMapInit n)) 0
    have hcnt : (min ((bitmapFileSize (freeMapInit n) : Nat) : Int)
        (blank.length - (0 : Nat))).toNat = 0 := by omega
    have hsize : 0 ≠ bitmapFileSize (freeMapInit n) := by
      rw [bitmapFileSize, length_freeMapInit, byteCnt, divRoundUp]
      omega
    rw [hcnt, show ((0 : Nat) : Int) = 0 from rfl] at hnone
    rw [bitmapRead]
    simp [hnone, hsize]
  have hopen : freeMapOpen.exec st₀ v = some (false, st, v) := by
    simp only [freeMapOpen, inodeOpen, show st₀.openInodes.cells = [] from rfl, List.find?_nil,
      fileOpen, Cmd.exec_bind,
      Cmd.exec_getState, Cmd.exec_read, Cmd.exec_setState, Cmd.exec_pure, Option.bind_some,
      Cmd.exec_modifyState, hzero]
    refine Eq.trans (congrArg (fun st => Cmd.exec _ st v) (?_ : _ = st)) ?_
    · rfl
    · rw [exec_withFreeMap hmap, show st.freeMap = freeMapInit n from rfl]
      simp only [Cmd.exec_bind, Cmd.exec_getState, Option.bind_some, Cmd.exec_ofOption,
        Option.map_some, hread, Cmd.exec_pure]
      rfl
  refine ⟨st, ?_, rfl, fun p i hp => ?_⟩
  · simp only [filesysInit, Cmd.exec_bind, Cmd.exec_modifyState, Option.bind_some,
      Bool.false_eq_true, if_false, Cmd.exec_pure, initFileTable]
    change (freeMapOpen.exec st₀ v).bind _ = _
    rw [hopen]
    rfl
  · simp only [st, FsState.setFiles_openInodes, FsState.setInodes_openInodes, Heap.get_alloc] at hp
    split at hp
    · cases hp
      rfl
    · cases hp

theorem inodeData_closed {st : FsState} {v : Image} {x : BlockSector}
    (h : ∀ p i, st.openInodes.get p = some i → i.sector ≠ x) :
    st.inodeData v x = .ofSector (v x) := by
  have hfind : st.openInodes.cells.find? (fun c => c.2.sector = x) = none :=
    List.find?_eq_none.2 fun c hc hsector =>
    h c.1 c.2 (Heap.get_of_mem hc) (by simpa using hsector)
  rw [FsState.inodeData, hfind]

/-- The names can be read from the device alone. -/
theorem Rooted.entriesInUse_closed {s : Session} {a : BlockSector → Option Node}
    {g : Growable UInt8} {T : Table} (h : Rooted s a g T) (hst : s.st.Settled) {st : FsState}
    (hclosed : ∀ p i, st.openInodes.get p = some i → i.sector = freeMapSector) :
    (st.entriesInUse s.image).map DirEntry.cname = T.names := by
  have hroot : rootDirSector ≠ freeMapSector := by decide
  obtain ⟨m, hvol, hmap, hkept⟩ := h.vol.forgetInodes hst.calm
  have hsettled : (s.st.setInodes m).Settled :=
    ⟨fun p i hp => hst.calm p i ((hkept p i (hmap p i hp)).1 hp), hst.cwd⟩
  have hnames := (h.next hvol rfl).entriesInUse hsettled
  have hdata : (s.st.setInodes m).inodeData s.image rootDirSector =
      st.inodeData s.image rootDirSector := by
    rw [inodeData_closed fun p i hp => by rw [hmap p i hp]; exact hroot.symm,
      inodeData_closed fun p i hp => by rw [hclosed p i hp]; exact hroot.symm]
  rw [← hnames, FsState.entriesInUse, FsState.entriesInUse, hdata]

/-- **A restart after a `create` without room.** After commands that all succeed, on files
each of which is always named by the same path, a `create` that needs an index sector when
no sector is left fails. At the next start the same names are listed, but the free map is
that of an empty device: the sectors of all files are free. -/
theorem restart_forgets {n : BlockSector} {d : Cache} {cs : List FileCommand} {st₁ st₂ : FsState}
    {c₁ c₂ : BufferCache} {path : CString} {isize : Int} {f : Nat}
    (hformat : (filesysInit n.toNat true).run initialState (BufferCache.init d) = some (true, st₁,
      c₁))
    (hcs : ∀ c ∈ cs, c.OnFile)
    (hone : ∀ c ∈ cs, ∀ c' ∈ cs, fileName c.path = fileName c'.path → c.path = c'.path)
    (hrun : (FileCommand.runAll cs).run st₁ c₁ = some (true, st₂, c₂))
    (hpath : path ≠ [] ∧ path.length < 255 ∧ 0 ∉ path) (hsize : 0 ≤ isize ∧ isize < 2 ^ 31)
    (hfree : freeCount st₂.freeMap = f + 1) (hneeds : NeedsIndex f (bytesToSectors isize.toNat)) :
    ∃ st₃ c₃ st₄ c₄, (fsutilCreate path isize).run st₂ c₂ = some (false, st₃, c₃) ∧
      filesysDone st₃ c₃ = some (st₄, c₄) ∧
      ∀ c : Cache, c.fsDevice.contents = c₄.state.fsDevice.contents →
        ∃ st₅ c₅, (filesysInit n.toNat false).run initialState (BufferCache.init c) =
          some (false, st₅, c₅) ∧
          st₅.freeMap = freeMapInit n.toNat ∧ Agrees fsutilLs st₂ c₂ st₅ c₅ := by
  obtain ⟨s, a, g, T, P, rfl, himage, h, hsettled, hn, hinj, -, hmapSize⟩ :=
    FileCommand.session hformat hcs hone hrun
  have hn1 : 1 < n.toNat := by
    have hle : freeCount s.st.freeMap ≤ s.st.freeMap.length := List.count_le_length
    omega
  -- the `create` that fails
  obtain ⟨hslash, hsub⟩ := fileName_chars path
  obtain ⟨s₃, ok, hdoes, hkeep, hres⟩ :=
    h.rooted.filesysCreate_cases h.cwd rfl ⟨fun hmem => hpath.2.2 (hsub hmem), hslash⟩ hsize.2
  obtain ⟨rfl, hzero⟩ := h.rooted.filesysCreate_zero h.cwd hsize.2 hsize.1 hfree hneeds hdoes
  obtain ⟨-, -, hrooted₃, -⟩ := hres.resolve_left fun hok => by cases hok.1
  have h₃ := h.keeping hrooted₃ hkeep.cwd hkeep.files hkeep.holds
  have hn₃ : s₃.Named P := hn.of_eq (by rw [hkeep.files]) (by rw [hkeep.files])
  have hsettled₃ : s₃.st.Settled :=
    (Leaves.filesysCreate path isize _ _ _ _ _ (hsettled.still s.image) hdoes).settled
  have hcreate : (fsutilCreate path isize).exec s.st c₂.state.view = some (false, s₃.st, s₃.image) := by
    have hlength := List.length_pos_iff.2 hpath.1
    rw [fsutilCreate, if_neg (by omega), ← himage]
    exact hdoes
  obtain ⟨c₃, hrun₃, hview₃⟩ := BufferCache.run_of_exec hcreate
  -- shutdown
  obtain ⟨p, hp, hcloses⟩ := h₃.closes hsettled₃ hn₃ hinj
  obtain ⟨st₄, hdone⟩ := hcloses.filesysDone hp c₃
  refine ⟨s₃.st, c₃, st₄, _, hrun₃, hdone, fun c hc => ?_⟩
  have hview : (BufferCache.init c).state.view = s₃.image :=
    (Cache.init_view c).trans (hc.trans (c₃.close_contents.trans hview₃))
  -- restart
  obtain ⟨st₅, hinit, hmap, hclosed⟩ := exec_filesysInit_zero hn1 hzero
  obtain ⟨c₅, hrun₅, hview₅⟩ := BufferCache.run_of_exec (hview ▸ hinit)
  refine ⟨st₅, c₅, hrun₅, hmap, some T.names, ?_, ?_⟩
  · obtain ⟨st', hls, -⟩ := hsettled.fsutilLs s.image
    rw [answer_exec, ← himage, hls, h.rooted.entriesInUse hsettled]
    rfl
  · have hsettled₅ : st₅.Settled := .boot hinit
    obtain ⟨st', hls, -⟩ := hsettled₅.fsutilLs s₃.image
    rw [answer_exec, hview₅, hview, hls, hrooted₃.entriesInUse_closed hsettled₃ hclosed]
    rfl

/-- A file of 124 sectors on a device of 199, where 124 are free. -/
theorem restart_forgets_199 : ∃ d st₁ c₁, (filesysInit 199 true).run initialState
    (BufferCache.init d) = some (true, st₁, c₁) ∧ freeCount st₁.freeMap = 124 ∧
    ∃ st₃ c₃ st₄ c₄, (fsutilCreate [97] (124 * 512)).run st₁ c₁ = some (false, st₃, c₃) ∧
      filesysDone st₃ c₃ = some (st₄, c₄) ∧
      ∀ c : Cache, c.fsDevice.contents = c₄.state.fsDevice.contents →
        ∃ st₅ c₅, (filesysInit 199 false).run initialState (BufferCache.init c) =
          some (false, st₅, c₅) ∧
          st₅.freeMap = freeMapInit 199 ∧ Agrees fsutilLs st₁ c₁ st₅ c₅ := by
  obtain ⟨st₁, v₁, -, -, -, hformat, -, -, -, -, hfree, -⟩ := exists_rooted_of (n := 199) (by decide)
  have hcost : sectorCost (bytesToSectors (byteCnt ((199 : BlockSector).toNat - 1))) = 1 := by decide
  have hsize : (199 : BlockSector).toNat = 199 := rfl
  have hfree : freeCount st₁.freeMap = 123 + 1 := by omega
  let d : Cache :=
    ⟨fun _ => ⟨false, 0, Sector.zeros, false, false⟩, 0, ⟨199, fun _ => Sector.zeros⟩⟩
  have hview : (BufferCache.init d).state.view = fun _ => Sector.zeros := Cache.init_view d
  obtain ⟨c₁, hrun₁, -⟩ := BufferCache.run_of_exec (hview ▸ hformat)
  have hneeds : NeedsIndex 123 (bytesToSectors (124 * 512 : Int).toNat) := .inl ⟨rfl, by decide⟩
  have hcs : ∀ c ∈ ([] : List FileCommand), c.OnFile := fun _ hc => absurd hc List.not_mem_nil
  have hone : ∀ c ∈ ([] : List FileCommand), ∀ c' ∈ ([] : List FileCommand), fileName c.path =
      fileName c'.path → c.path = c'.path :=
    fun _ hc => absurd hc List.not_mem_nil
  exact ⟨d, st₁, c₁, hrun₁, hfree, restart_forgets (n := 199) hrun₁ hcs hone rfl (by decide)
    (by decide) hfree hneeds⟩

end MyShell.Fs

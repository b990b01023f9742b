/-
`fragmentation_degree` where files were only created: whatever was created, and
whatever could not be, none of the files is fragmented.
-/
import MyShell.Fs.Layout
import MyShell.Fs.ShellCommands

namespace MyShell.Fs

open Storage BlockTree Session

/-- Nothing is open, and the files lie as `filesys_create` lays them. -/
structure Tidy (s : Session) (a : BlockSector → Option Node) (g : Growable UInt8) (T : Table) :
    Prop where
  rooted : Rooted s a g T
  cwd : s.st.cwd = none
  closed : ∀ p y, s.Holds p y → y = freeMapSector
  dots : ∀ name ∈ T.names, ¬ IsDots name
  map : AlmostCompact s.st.freeMap
  dense : ∀ y ∈ T.sectors, s.Dense y

/-! ## One file -/

/-- A gap of two sectors at most does not count. -/
theorem not_fragmented {sector next : BlockSector} (hlt : sector.toNat < next.toNat)
    (hle : next.toNat ≤ sector.toNat + 3) : ¬ next - sector > 3 := by
  have hsub : (next - sector).toNat = next.toNat - sector.toNat :=
    UInt32.toNat_sub_of_le _ _ (UInt32.le_iff_toNat_le.2 hlt.le)
  have hthree : (3 : UInt32).toNat = 3 := rfl
  rw [gt_iff_lt, UInt32.lt_iff_toNat_lt]
  omega

/-- Sectors in order with gaps of two at most are not fragmented. -/
theorem exec_fragmentedLoop (st : FsState) (v : Image) {sectors : List BlockSector}
    (h : ∀ i, (hi : i + 1 < sectors.length) → sectors[i].toNat < sectors[i + 1].toNat ∧
      sectors[i + 1].toNat ≤ sectors[i].toNat + 3) :
    (fragmentedLoop (sectors.length - 1) sectors).exec st v = some (false, st, v) := by
  induction sectors with
  | nil => rfl
  | cons sector rest ih =>
    cases rest with
    | nil => rfl
    | cons next rest =>
      obtain ⟨hlt, hle⟩ : sector.toNat < next.toNat ∧ next.toNat ≤ sector.toNat + 3 := h 0 (by simp)
      have hrest := ih fun i hi => h (i + 1) (Nat.succ_lt_succ hi)
      rw [List.length_cons, Nat.add_sub_cancel] at hrest ⊢
      rw [List.length_cons, fragmentedLoop, if_neg (not_fragmented hlt hle), hrest]

theorem exec_fragmentedLoop_map (st : FsState) (v : Image) {f : Nat → BlockSector} {n : Nat}
    (h : ∀ i, i + 1 < n → (f i).toNat < (f (i + 1)).toNat ∧ (f (i + 1)).toNat ≤ (f i).toNat + 3) :
    (fragmentedLoop (n - 1) ((List.range n).map f)).exec st v = some (false, st, v) := by
  have hloop := @exec_fragmentedLoop st v ((List.range n).map f) fun i hi => by
    rw [List.length_map, List.length_range] at hi
    simpa using h i hi
  rwa [List.length_map, List.length_range] at hloop

/-- `fragmented_file` of an open inode whose sectors are in order. -/
theorem Volume.fragmentedFile {s : Session} {a : BlockSector → Option Node} {p : Ptr}
    {y : BlockSector} (h : Volume s a) (hp : s.Holds p y) (hy : y ≠ freeMapSector)
    (hdense : s.Dense y) : s.Does (fragmentedFile p) false s := by
  obtain ⟨q, fm, C, i, hinv, hi, rfl, hdata⟩ := h.held hp
  have hsound := hinv.sound (.inr ⟨p, hp⟩) hy
  rw [Session.Dense, hdata] at hdense
  rw [hdata] at hsound
  have hderef : s.Does (derefInode p) i s := by simp [Does, derefInode, hi]
  refine Does.bind (hderef.bind (.pure s i.data.length)) ?_
  dsimp only
  split
  · exact .pure _ _
  · next hmore =>
    replace hmore : 1 < bytesToSectors i.data.length.toNat := by
      have hlow := hsound.low
      omega
    have hlast : i.data.sector s.image (bytesToSectors i.data.length.toNat - 1) ≠ 0 :=
      hsound.covers _ (lt_bytesToSectors.1 (by omega))
    have hmax : bytesToSectors i.data.length.toNat ≤ InodeDisk.maxSectors := by
      by_contra hover
      exact hlast (InodeDisk.sector_of_le hsound.direct (by omega))
    have hsectors : s.Does (getInodeDataSectors i.data)
      (some ((List.range (bytesToSectors i.data.length.toNat)).map
        (sectorAt s.image i.data))) s := exec_getInodeDataSectors _ hsound.direct hsound.low hmax
    have hloop : s.Does (fragmentedLoop (bytesToSectors i.data.length.toNat - 1)
        ((List.range (bytesToSectors i.data.length.toNat)).map (sectorAt s.image i.data))) false s := by
      have hsector (k : Nat) (hk : k < bytesToSectors i.data.length.toNat) :
          sectorAt s.image i.data k = i.data.sector s.image k :=
        sectorAt_eq hsound.direct (hsound.covers _ (lt_bytesToSectors.1 hk))
      refine exec_fragmentedLoop_map s.st s.image fun k hk => ?_
      rw [hsector k (by omega), hsector (k + 1) hk]
      exact hdense k hk
    exact hderef.bind (hsectors.bind ((Does.pure s _).bind hloop))

/-- `file_close` of a file that is not removed leaves the device alone. -/
theorem OpenFile.fileClose_kept {s s' : Session} {a : BlockSector → Option Node} {f : Ptr}
    {file : File} {x : BlockSector} (hf : OpenFile s f file x) (h : Volume s a)
    (hdeny : file.denyWrite = false) (hx : x ∈ s.live)
    (hdoes : s.Does (Fs.fileClose (some f)) () s') :
    s'.image = s.image ∧ s'.st.freeMap = s.st.freeMap := by
  obtain ⟨s₁, hclose, -, -, -, -, -, hkept, -⟩ := h.closeInode hf.holds hf.sector
  obtain ⟨hmap, himage, -⟩ := hkept hx
  have hclose : (inodeClose (some file.inode)).exec s.st s.image = some ((), s₁.st, s₁.image) := hclose
  rw [Does, exec_fileClose hf.handle hdeny, hclose] at hdoes
  simp only [Option.map_some, Option.some.injEq, Prod.mk.injEq, true_and] at hdoes
  obtain ⟨hst, himage'⟩ := hdoes
  exact ⟨by rw [← himage', himage], by rw [← hst, ← hmap]; rfl⟩

/-- The loop of `fragmentation_degree`, before the names that are left. -/
structure Counting (a : BlockSector → Option Node) (g : Growable UInt8) (T : Table) (d : Ptr)
    (s : Session) (dir : Dir) (names : List CString) : Prop where
  looping : Looping a g T d s dir names
  once : dir.openCnt = 1
  closed : ∀ p y, s.Holds p y → y = freeMapSector ∨ p = dir.inode
  dots : ∀ name ∈ T.names, ¬ IsDots name
  map : AlmostCompact s.st.freeMap
  dense : ∀ y ∈ T.sectors, s.Dense y

namespace Counting

variable {s s' : Session} {a : BlockSector → Option Node} {g : Growable UInt8} {T : Table} {d : Ptr}
  {dir : Dir} {name : CString} {names : List CString}

theorem not_holds (h : Counting a g T d s dir names) {y : BlockSector} (hy : y ∈ T.sectors)
    (p : Ptr) : ¬ s.Holds p y := by
  intro hp
  obtain ⟨-, hy0, hyroot, -⟩ := h.looping.rooted.files y hy
  rcases h.closed p y hp with rfl | rfl
  · exact hy0 rfl
  · exact hyroot (hp.unique h.looping.handle.holds)

theorem read {pos : Int} (h : Counting a g T d s dir names) (hstands : s.Stands s' d { dir with pos }) :
    Counting a g T d s' { dir with pos } names where
  looping := h.looping.read hstands
  once := h.once
  closed p y hp := h.closed p y ((hstands.holds p y).1 hp)
  dots := h.dots
  map := by rw [hstands.state]; exact h.map
  dense y hy := (Stays.of_eq (hstands.data y) hstands.image).dense (h.dense y hy)

theorem countFile (h : Counting a g T d s dir (name :: names)) (hname : name ∈ T.names) :
    ∃ s', s.Does (countFile name) [false] s' ∧ Counting a g T d s' dir names := by
  obtain ⟨y, hy⟩ := h.looping.bound name List.mem_cons_self
  have hmem : y ∈ T.sectors :=
    Table.mem_sectors.2 ⟨name, (SlotMap.lookup_eq_some h.looping.rooted.distinct).1 hy⟩
  obtain ⟨hylive, hy0, hyroot, b, hb⟩ := h.looping.rooted.files y hmem
  obtain ⟨hne, -, hslash⟩ :=
    h.looping.rooted.names _ ((SlotMap.lookup_eq_some h.looping.rooted.distinct).1 hy)
  obtain ⟨p, s₁, hopen, h₁, ho⟩ :=
    h.looping.rooted.filesysOpen h.looping.cwdOk (fileName_plain hne hslash) hne
      (not_or.1 (h.dots name hname)) hy
  have hdense₁ : s₁.Dense y := (Stays.of_eq (ho.data y hyroot) ho.image).dense (h.dense y hmem)
  have hinode : s₁.Does (fileGetInode s.st.files.next) p s₁ := ho.file.derefFile.bind (.pure _ _)
  have hcount := h₁.vol.fragmentedFile ho.file.holds hy0 hdense₁
  have hylive₁ : y ∈ s₁.live := by rw [ho.live]; exact hylive
  obtain ⟨s₂, hclose, hvol₂, hstate₂, -, hholds₂, hlive₂⟩ := ho.file.fileClose h₁.vol rfl
  obtain ⟨himage₂, hmap₂⟩ := ho.file.fileClose_kept h₁.vol rfl hylive₁ hclose
  have h₂ : Rooted s₂ a g T := h₁.next hvol₂ hlive₂
  have hcwd₂ : s₂.st.cwd = some d := by
    rw [hstate₂]
    exact ho.dir.cwd.trans h.looping.cwd
  have hget : s₂.st.dirs.get d = some dir := by
    rw [hstate₂]
    exact (ho.dir.get d h.looping.cwd).trans h.looping.handle.handle
  -- the directory's inode is not the file's
  obtain ⟨dir', hget', hroot, -⟩ := ho.cwd d (ho.dir.cwd.trans h.looping.cwd)
  obtain rfl : dir = dir' :=
    Option.some.inj (h.looping.handle.handle.symm.trans
      ((ho.dir.get d h.looping.cwd).symm.trans hget'))
  have hholds : s₂.Holds dir.inode rootDirSector := by
    refine (hholds₂ _ _).2 ⟨hroot, ?_⟩
    rintro rfl
    exact hyroot (ho.file.holds.unique hroot)
  have hclosed₂ : ∀ q z, s₂.Holds q z → z = freeMapSector ∨ q = dir.inode := by
    intro q z hq
    obtain ⟨hq₁, hqp⟩ := (hholds₂ q z).1 hq
    by_cases hz : z = rootDirSector
    · subst hz
      exact .inr (h₁.vol.inj hroot hq₁)
    · exact h.closed q z (((ho.holds q z hz).1 hq₁).resolve_right fun hnew => hqp hnew.1)
  have hdense₂ : ∀ z ∈ T.sectors, s₂.Dense z := by
    intro z hz
    obtain ⟨-, hz0, hzroot, -⟩ := h.looping.rooted.files z hz
    have hnot : ∀ q, ¬ s₂.Holds q z := fun q hq => by
      rcases hclosed₂ q z hq with rfl | rfl
      · exact hz0 rfl
      · exact hzroot (hq.unique hholds)
    have himage : s₂.image = s.image := himage₂.trans ho.image
    refine Stays.dense (.of_eq ?_ himage) (h.dense z hz)
    rw [data_closed hnot, data_closed (h.not_holds hz), himage]
  refine ⟨s₂, hopen.bind (hinode.bind (hcount.bind (hclose.bind (.pure _ _)))),
    ⟨h₂, h₂.openDir hget hholds, hcwd₂,
    h.looping.count, fun name' hname' => h.looping.bound name' (List.mem_cons_of_mem _ hname')⟩,
    h.once, hclosed₂, h.dots, ?_, hdense₂⟩
  rw [hmap₂, ho.freeMap]
  exact h.map

end Counting

/-! ## The calls -/

theorem mapM_printed {α : Type} (x : α) (names : List CString) :
    (names.mapM fun _ => some [x]).map List.flatten = some (List.replicate names.length x) := by
  induction names with
  | nil => rfl
  | cons name names ih =>
    rw [mapM_cons_flatten, ih]
    rfl

namespace Tidy

variable {s : Session} {a : BlockSector → Option Node} {g : Growable UInt8} {T : Table}

/-- **`fragmentation_degree`** counts the files, and none as fragmented. -/
theorem fragmentationDegree (h : Tidy s a g T) :
    ∃ s', s.Does fragmentationDegree (some (T.names.length, 0)) s' ∧ Tidy s' a g T := by
  have hcwd : s.CwdOk := fun d hd => by
    rw [h.cwd] at hd
    cases hd
  obtain ⟨d, dir, s₁, henter, h₁, hd₁, hcnt₁, hcwd₁, haround₁, hroot₁, hout₁, hfirst⟩ :=
    h.rooted.enter hcwd
  have hone : dir.openCnt = 1 := by
    by_contra hmore
    rw [Outside, if_neg hmore, h.cwd] at hout₁
    cases hout₁.1
  have hroot : ∀ p, ¬ s.Holds p rootDirSector := fun p hp => absurd (h.closed p _ hp) (by decide)
  have hbound : ∀ name ∈ Table.names (T.drop 0), ∃ y, SlotMap.lookup T name = some y :=
    fun name hname =>
    (Table.mem_names h.rooted.distinct).1 ((T.names_drop 0).subset hname)
  have hcounting : Counting a g T d s₁ dir (Table.names (T.drop 0)) := by
    refine ⟨⟨h₁, hd₁, hcwd₁, hcnt₁, hbound⟩, hone, fun p y hp => ?_, h.dots,
      haround₁.freeMap.symm ▸ h.map, fun y hy => ?_⟩
    · by_cases hy : y = rootDirSector
      · subst hy
        exact ((hroot₁ p hp).resolve_left (hroot p)).1 |> .inr
      · exact .inl (h.closed p y ((haround₁.holds p y hy).1 hp))
    · exact (haround₁.stays (h.rooted.files y hy).2.2.1).dense (h.dense y hy)
  have hloop := OpenDir.forEachName countFile (fun _ => some [false])
    (fun s dir names => Counting a g T d s dir names ∧ ∀ name ∈ names, name ∈ T.names)
    (fun hI => ⟨hI.1.looping.handle, hI.1.looping.rooted.vol⟩)
    (fun hI hstands => ⟨hI.1.read hstands, hI.2⟩)
    (fun {s dir name names} hI => by
      obtain ⟨s', hcount, h'⟩ := hI.1.countFile (hI.2 name List.mem_cons_self)
      exact .inl ⟨s', hcount, h', fun name' hname' => hI.2 name' (List.mem_cons_of_mem _ hname')⟩)
    ⟨hcounting, fun name hname => (T.names_drop 0).subset hname⟩ (hfirst hone) (Nat.zero_le _)
  rw [List.drop_zero, mapM_printed] at hloop
  obtain ⟨s₂, hcount, dir₂, h₂, -⟩ := hloop
  obtain ⟨s₃, hleave, h₃, -, haround₃, hroot₃, hout₃⟩ :=
    h₂.looping.rooted.leave h₂.looping.handle h₂.looping.cwd h₂.looping.count
  rw [Outside, if_pos h₂.once] at hout₃
  refine ⟨s₃, ?_, h₃, hout₃, fun p y hp => ?_, h.dots, haround₃.freeMap.symm ▸ h₂.map,
    fun y hy => ?_⟩
  · unfold Fs.fragmentationDegree
    refine henter.bind (hcount.bind (hleave.bind ?_))
    rw [List.length_replicate, List.count_replicate, if_neg (by decide)]
    exact .pure _ _
  · by_cases hy : y = rootDirSector
    · subst hy
      obtain ⟨hp₂, hne⟩ := hroot₃ p hp
      exact (h₂.closed p _ hp₂).resolve_right (hne h₂.once)
    · rcases h₂.closed p y ((haround₃.holds p y hy).1 hp) with hy0 | rfl
      · exact hy0
      · exact absurd (((haround₃.holds _ y hy).1 hp).unique h₂.looping.handle.holds) hy
  · exact (haround₃.stays (h.rooted.files y hy).2.2.1).dense (h₂.dense y hy)

/-- `create` of a file, whatever comes of it. -/
theorem fsutilCreate (h : Tidy s a g T) {fname : CString} {isize : Int} (h0 : 0 ∉ fname)
    (hdots : ¬ IsDots (fileName fname)) (hsize : isize < 2 ^ 31) :
    ∃ s' made a' g' T', s.Does (fsutilCreate fname isize) made s' ∧ Tidy s' a' g' T' ∧
      T'.names.length = T.names.length + if made then 1 else 0 := by
  by_cases hlen : fname.length = 0 ∨ 255 ≤ fname.length
  · refine ⟨s, false, a, g, T, ?_, h, rfl⟩
    rw [Fs.fsutilCreate, if_pos hlen]
    exact .pure _ _
  have hcwd : s.CwdOk := fun d hd => by
    rw [h.cwd] at hd
    cases hd
  have hchars : 0 ∉ fileName fname ∧ slash ∉ fileName fname :=
    ⟨fun hmem => h0 ((fileName_chars fname).2 hmem), (fileName_chars fname).1⟩
  obtain ⟨s', made, hdoes, hmap', hstays, hcases⟩ := h.rooted.filesysCreate_layout hcwd rfl hchars hsize
  obtain ⟨s₀, made₀, hdoes₀, hkeep, -⟩ := h.rooted.filesysCreate_cases hcwd rfl hchars hsize
  have hst : s₀.st = s'.st := hdoes.state_eq hdoes₀
  have hcwd' : s'.st.cwd = none := by rw [← hst, hkeep.dir.cwd, h.cwd]
  have hclosed' : ∀ p y, s'.Holds p y → y = freeMapSector := by
    intro p y hp
    have hp₀ : s₀.Holds p y := by rwa [Session.Holds, hst]
    by_cases hy : y = rootDirSector
    · subst hy
      exact h.closed p _ (hkeep.root p hp₀)
    · exact h.closed p y ((hkeep.holds p y hy).1 hp₀)
  have hdense' : ∀ y ∈ T.sectors, s'.Dense y := by
    intro y hy
    obtain ⟨hylive, hy0, hyroot, -⟩ := h.rooted.files y hy
    exact (hstays y hylive hy0 hyroot).dense (h.dense y hy)
  have hcreate : s.Does (Fs.fsutilCreate fname isize) made s' := by
    rw [Fs.fsutilCreate, if_neg hlen]
    exact hdoes
  rcases hcases with ⟨rfl, -, y, a', g', hdense, h'⟩ | ⟨rfl, h'⟩
  · have hperm : (SlotMap.put T (fileName fname, y)).reduceOption.Perm
        ((fileName fname, y) :: T.reduceOption) := SlotMap.put_perm
    refine ⟨s', true, a', g', _, hcreate, ⟨h', hcwd', hclosed', fun name hname => ?_, hmap' h.map,
      fun z hz => ?_⟩, ?_⟩
    · rcases List.mem_cons.1 ((hperm.map Prod.fst).mem_iff.1 hname) with rfl | hold
      · exact hdots
      · exact h.dots name hold
    · rcases List.mem_cons.1 ((hperm.map Prod.snd).mem_iff.1 hz) with rfl | hold
      · exact hdense h.map
      · exact hdense' z hold
    · rw [Table.names, List.length_map, hperm.length_eq, List.length_cons, Table.names, List.length_map]
      rfl
  · exact ⟨s', false, a, g, T, hcreate, ⟨h', hcwd', hclosed', h.dots, hmap' h.map, hdense'⟩, rfl⟩

end Tidy

/-- `create` of one file after the other: how many there were made. -/
def createAll : List (CString × Int) → FsM Nat
  | [] => pure 0
  | (fname, isize) :: files => do
    let made ← fsutilCreate fname isize
    let rest ← createAll files
    pure (rest + if made then 1 else 0)

theorem Tidy.createAll {s : Session} {a : BlockSector → Option Node} {g : Growable UInt8}
    {T : Table} (h : Tidy s a g T) {files : List (CString × Int)}
    (hfiles : ∀ e ∈ files, 0 ∉ e.1 ∧ ¬ IsDots (fileName e.1) ∧ e.2 < 2 ^ 31) :
    ∃ s' k a' g' T', s.Does (createAll files) k s' ∧ Tidy s' a' g' T' ∧
      T'.names.length = T.names.length + k := by
  induction files generalizing s a g T with
  | nil => exact ⟨s, 0, a, g, T, .pure _ _, h, rfl⟩
  | cons e files ih =>
    obtain ⟨h0, hdots, hsize⟩ := hfiles e List.mem_cons_self
    obtain ⟨s₁, made, a₁, g₁, T₁, hcreate, h₁, hcount₁⟩ := h.fsutilCreate h0 hdots hsize
    obtain ⟨s₂, k, a₂, g₂, T₂, hrest, h₂, hcount₂⟩ :=
      ih h₁ fun e' he' => hfiles e' (List.mem_cons_of_mem _ he')
    refine ⟨s₂, _, a₂, g₂, T₂, hcreate.bind (hrest.bind (.pure _ _)), h₂, ?_⟩
    rw [hcount₂, hcount₁]
    omega

theorem Tidy.format {n : BlockSector} {v₀ v : Image} {st : FsState}
    (hformat : (filesysInit n.toNat true).exec initialState v₀ = some (true, st, v)) :
    ∃ a g T, Tidy ⟨st, v, [rootDirSector], []⟩ a g T ∧ T.names = [] := by
  obtain ⟨a, g, T, h, hempty, -, hcwd, -⟩ := Stocked.format hformat
  obtain ⟨q, fm, -, hf⟩ := Session.Inv.format hformat
  have hnil : T.names = [] := by rw [Table.names, hempty]; rfl
  refine ⟨a, g, T, ⟨h.rooted, hcwd, ?_, ?_, (filesysInit_compact n.toNat_lt.le hformat).almost,
    ?_⟩, hnil⟩
  · rintro p y ⟨i, hi, rfl⟩
    by_cases hp : p = q
    · subst hp
      have hi : some i = some _ := hi.symm.trans hf.map
      cases hi
      rfl
    · have hget : (st.openInodes.free q).get p = some i := by
        rw [Heap.get_free, if_neg hp]
        exact hi
      have hmem := Heap.mem_of_get hget
      rw [hf.alone] at hmem
      cases hmem
  · rw [hnil]
    exact fun name hname => absurd hname List.not_mem_nil
  · rw [Table.sectors, hempty]
    exact fun y hy => absurd hy List.not_mem_nil

/-- **A device on which files were only created** has no fragmented file. -/
theorem created_unfragmented {n : BlockSector} {v₀ v : Image} {st : FsState}
    (hformat : (filesysInit n.toNat true).exec initialState v₀ = some (true, st, v))
    {files : List (CString × Int)}
    (hfiles : ∀ e ∈ files, 0 ∉ e.1 ∧ ¬ IsDots (fileName e.1) ∧ e.2 < 2 ^ 31) :
    ∃ k st' v', (createAll files).exec st v = some (k, st', v') ∧
      ∃ st'' v'', fragmentationDegree.exec st' v' = some (some (k, 0), st'', v'') := by
  obtain ⟨a, g, T, h, hnil⟩ := Tidy.format hformat
  obtain ⟨s', k, a', g', T', hcreate, h', hcount⟩ := h.createAll hfiles
  obtain ⟨s'', hdegree, -⟩ := h'.fragmentationDegree
  rw [hnil, List.length_nil, Nat.zero_add] at hcount
  rw [hcount] at hdegree
  exact ⟨k, s'.st, s'.image, hcreate, s''.st, s''.image, hdegree⟩

/-- A file of 118 sectors on a device of 200. -/
theorem created_unfragmented_200 : ∃ st v st' v',
    (filesysInit 200 true).exec initialState (fun _ => Sector.zeros) = some (true, st, v) ∧
    (createAll [([97], 60000)]).exec st v = some (1, st', v') ∧
    ∃ st'' v'', fragmentationDegree.exec st' v' = some (some (1, 0), st'', v'') := by
  obtain ⟨st, v, -, -, -, st₁, v₁, hformat, -, -, -, -, hcreate⟩ :=
    exists_fresh 60000 (by decide) (by decide) (by decide)
  have hall : (createAll [([97], 60000)]).exec st v = some (1, st₁, v₁) := by
    rw [createAll, Cmd.exec_bind, hcreate]
    rfl
  have hfiles : ∀ e ∈ [(([97], 60000) : CString × Int)], 0 ∉ e.1 ∧ ¬ IsDots (fileName e.1) ∧
      e.2 < 2 ^ 31 := by decide
  obtain ⟨k, st', v', hexec, hdegree⟩ := created_unfragmented (n := 200) hformat hfiles
  rw [hall] at hexec
  cases hexec
  exact ⟨st, v, st₁, v₁, hformat, hall, hdegree⟩

end MyShell.Fs

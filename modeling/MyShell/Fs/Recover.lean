/-
Data hidden behind the ends of the files (`recover (2)` in fsutil2.c).

The command looks at the last data sector of each file of the root directory,
from the length modulo the sector size on. `Recovering.body` says what it
writes for a file, and `Listed.recover2` what a whole pass writes.
-/
import MyShell.Fs.Commands
import MyShell.Fs.DataSectors

namespace MyShell.Fs

open Storage Session

/-! ## From source -/

/-- What `recover (2)` leaves: a file on the host, or a message that it could
not be created. -/
inductive Recovered where
  | file (recoveredName : CString) (bytes : List UInt8)
  | failed (fileName : CString)
  deriving DecidableEq

/-- "recovered2-%s.txt" -/
def recovered2Name (fileName : CString) : CString :=
  [114, 101, 99, 111, 118, 101, 114, 101, 100, 50, 45] ++ fileName ++ [46, 116, 120, 116]

/-- The rest of the body of the loop, for the file's inode. The host lets some
files be written. -/
def recoverInode (writable : CString → Bool) (fileName : CString) (inode : Ptr) :
    FsM (List Recovered) := do
  let fileSize ← inodeLength inode
  let numSectors := bytesToSectors fileSize.toNat
  if numSectors = 0 then do
    inodeClose (some inode)
    pure []
  else do
    match ← getInodeDataSectors (← derefInode inode).data with
    | none => do
      inodeClose (some inode)
      pure []
    | some sectors => do
      -- past the sectors that an inode can have, the entry was never filled
      let lastSector ← Cmd.ofOption sectors[numSectors - 1]?
      let lastBlockOffset := fileSize.toNat % blockSectorSize
      let buffer ← Cmd.read lastSector
      let rest := buffer.slice lastBlockOffset (blockSectorSize - lastBlockOffset)
      let hiddenData := rest.any (· ≠ 0)
      let recovered :=
        if hiddenData then
          if writable (recovered2Name fileName) then
            [.file (recovered2Name fileName) (rest.filter (· ≠ 0))]
          else [.failed fileName]
        else []
      inodeClose (some inode)
      pure recovered

/-- The body of the loop. -/
def recoverFile (writable : CString → Bool) (fileName : CString) : FsM (List Recovered) := do
  match ← filesysOpen fileName with
  | none => pure []
  | some file => do recoverInode writable fileName (← fileGetInode file)

/-- `recover (2)` -/
def recover2 (writable : CString → Bool) : FsM (List Recovered) := do
  match ← dirOpenRoot with
  | none => pure []
  | some dir => do
    let recovered ← forEachName dir (recoverFile writable)
    dirClose (some dir)
    pure recovered

/-! ## One file -/

/-- The bytes of the last data sector that `recover (2)` looks at. -/
def Session.searched (s : Session) (y : BlockSector) : List UInt8 :=
  let length := (s.data y).length.toNat
  (s.image ((s.data y).sector s.image (bytesToSectors length - 1))).slice (length % 512)
    (512 - length % 512)

/-- What `recover (2)` leaves for the inode. -/
def Session.recovered (s : Session) (writable : CString → Bool) (name : CString) (y : BlockSector) :
    List Recovered :=
  if (s.data y).length.toNat = 0 then []
  else if (s.searched y).any (· ≠ 0) then
    if writable (recovered2Name name) then [.file (recovered2Name name) ((s.searched y).filter (· ≠ 0))]
    else [.failed name]
  else []

theorem bytesToSectors_eq_zero {n : Nat} : bytesToSectors n = 0 ↔ n = 0 := by
  unfold bytesToSectors divRoundUp blockSectorSize
  omega

theorem Volume.recoverInode {s : Session} {a : BlockSector → Option Node} {p : Ptr}
    {y : BlockSector} (h : Volume s a) (hp : s.Holds p y) (hy : y ≠ freeMapSector)
    (hlive : y ∈ s.live) (writable : CString → Bool) (name : CString) :
    ∃ s', s.Does (recoverInode writable name p) (s.recovered writable name y) s' ∧ Volume s' a ∧
      s.Beside s' ∧
      (∀ p' x, s'.Holds p' x ↔ s.Holds p' x ∧ p' ≠ p) ∧ s'.live = s.live ∧ s'.image = s.image ∧
      ∀ x, x ≠ y → s'.data x = s.data x := by
  obtain ⟨q, fm, C, i, hinv, hi, rfl, hdata⟩ := h.held hp
  have hsound := hinv.sound (.inr ⟨p, hp⟩) hy
  obtain ⟨s', hclose, hvol', hb', hholds', hlive', -, hkept', -⟩ := h.closeInode hp hy
  obtain ⟨-, himage', hdata'⟩ := hkept' hlive
  refine ⟨s', ?_, hvol', hb', hholds', hlive', himage', hdata'⟩
  have hderef : s.Does (derefInode p) i s := by simp [Does, derefInode, hi]
  refine Does.bind (hderef.bind (.pure s i.data.length)) ?_
  unfold Session.recovered Session.searched
  rw [hdata] at hsound ⊢
  by_cases hzero : i.data.length.toNat = 0
  · rw [if_pos (bytesToSectors_eq_zero.2 hzero), if_pos hzero]
    exact hclose.bind (.pure _ _)
  · have hmore : bytesToSectors i.data.length.toNat ≠ 0 := fun h => hzero (bytesToSectors_eq_zero.1 h)
    rw [if_neg hmore, if_neg hzero]
    have hlast : i.data.sector s.image (bytesToSectors i.data.length.toNat - 1) ≠ 0 :=
      hsound.covers _ (lt_bytesToSectors.1 (by omega))
    have hmax : bytesToSectors i.data.length.toNat ≤ InodeDisk.maxSectors := by
      by_contra hover
      exact hlast (InodeDisk.sector_of_le hsound.direct (by omega))
    have hsectors : s.Does (getInodeDataSectors i.data)
      (some ((List.range (bytesToSectors i.data.length.toNat)).map
        (sectorAt s.image i.data))) s := exec_getInodeDataSectors _ hsound.direct hsound.low hmax
    have hget : ((List.range (bytesToSectors i.data.length.toNat)).map (sectorAt s.image i.data))[
        bytesToSectors i.data.length.toNat - 1]? =
        some (i.data.sector s.image (bytesToSectors i.data.length.toNat - 1)) := by
      rw [List.getElem?_map, List.getElem?_range (by omega), Option.map_some,
        sectorAt_eq hsound.direct hlast]
    have hread : s.Does (Cmd.read (i.data.sector s.image (bytesToSectors i.data.length.toNat - 1)))
        _ s := Cmd.exec_read _ _ _
    refine hderef.bind (hsectors.bind ?_)
    simp only [hget]
    exact (Does.pure s _).bind (hread.bind (hclose.bind (.pure _ _)))

/-! ## A pass -/

/-- What a pass leaves for the name; none if it closes the root directory's
own inode. -/
def Session.recoveredAt (s : Session) (T : Table) (writable : CString → Bool) (name : CString) :
    Option (List Recovered) :=
  if IsDots name then none else (SlotMap.lookup T name).map (s.recovered writable name)

/-- In the middle of a pass that started in the state `s`: the root directory's
handle is the global one, and the files that are left are as they were. -/
structure Recovering (s : Session) (a : BlockSector → Option Node) (g : Growable UInt8) (T : Table)
    (d : Ptr) (s' : Session) (dir : Dir) (names : List CString) : Prop where
  listed : Listed s' a g T
  handle : OpenDir s' a d dir rootDirSector rootDirSector g T
  cwd : s'.st.cwd = some d
  count : 0 < dir.openCnt
  nodup : names.Nodup
  bound : ∀ name ∈ names, ∃ y, SlotMap.lookup T name = some y
  image : s'.image = s.image
  stays : ∀ name ∈ names, ∀ y, SlotMap.lookup T name = some y → s'.data y = s.data y

theorem Listed.lookup_inj {s : Session} {a : BlockSector → Option Node} {g : Growable UInt8}
    {T : Table} {name name' : CString} {y : BlockSector} (h : Listed s a g T)
    (hy : SlotMap.lookup T name = some y) (hy' : SlotMap.lookup T name' = some y) :
    name = name' := by
  have hmem := (SlotMap.lookup_eq_some h.distinct).1 hy
  have hmem' := (SlotMap.lookup_eq_some h.distinct).1 hy'
  exact congrArg Prod.fst (List.inj_on_of_nodup_map h.sectors hmem hmem' rfl)

namespace Recovering

variable {s s' s'' : Session} {a : BlockSector → Option Node} {g : Growable UInt8} {T : Table}
  {d : Ptr} {dir : Dir} {name : CString} {names : List CString}

theorem cwdOk (h : Recovering s a g T d s' dir names) : s'.CwdOk := fun d' hd' => by
  obtain rfl : d = d' := Option.some.inj (h.cwd.symm.trans hd')
  exact ⟨dir, h.handle.handle, h.handle.holds, h.count⟩

theorem read {pos : Int} (h : Recovering s a g T d s' dir names)
    (hstands : s'.Stands s'' d { dir with pos }) :
    Recovering s a g T d s'' { dir with pos } names where
  listed := h.listed.next (hstands.volume h.listed.vol) hstands.live
  handle := h.handle.stands hstands rfl
  cwd := by rw [hstands.state]; exact h.cwd
  count := h.count
  nodup := h.nodup
  bound := h.bound
  image := hstands.image.trans h.image
  stays name hname y hy := (hstands.data y).trans (h.stays name hname y hy)

theorem file (h : Recovering s a g T d s' dir (name :: names)) (hdots : ¬ IsDots name)
    (writable : CString → Bool) :
    s'.Answers (recoverFile writable name) (s.recoveredAt T writable name) fun s'' =>
      Recovering s a g T d s'' dir names := by
  obtain ⟨y, hy⟩ := h.bound name List.mem_cons_self
  obtain ⟨hlive, hy0, hyroot⟩ := h.listed.file_of_lookup hy
  obtain ⟨hne, -, hslash⟩ := h.listed.names _ ((SlotMap.lookup_eq_some h.listed.distinct).1 hy)
  obtain ⟨hnew, hnodup⟩ := List.nodup_cons.1 h.nodup
  obtain ⟨p, s₁, hopen, h₁, ho⟩ :=
    h.listed.filesysOpen h.cwdOk (fileName_plain hne hslash) hne (not_or.1 hdots) hy
  obtain ⟨s₂, hdoes, hvol₂, hb₂, hholds₂, hlive₂, himage₂, hdata₂⟩ :=
    h₁.vol.recoverInode ho.file.holds hy0 (by rw [ho.live]; exact hlive) writable name
  have hrecovered : s₁.recovered writable name y = s.recovered writable name y := by
    unfold Session.recovered Session.searched
    rw [ho.data y hyroot, h.stays name List.mem_cons_self y hy, ho.image, h.image]
  rw [hrecovered] at hdoes
  have hinode : s₁.Does (fileGetInode s'.st.files.next) p s₁ := ho.file.derefFile.bind (.pure _ _)
  have h₂ := h₁.next hvol₂ hlive₂
  have hget : s₂.st.dirs.get d = some dir := by
    rw [hb₂.dirs, ho.dir.get d h.cwd]
    exact h.handle.handle
  obtain ⟨dir', hget', hroot, -⟩ := ho.cwd d (ho.dir.cwd.trans h.cwd)
  obtain rfl : dir = dir' :=
    Option.some.inj (h.handle.handle.symm.trans ((ho.dir.get d h.cwd).symm.trans hget'))
  have hholds : s₂.Holds dir.inode rootDirSector := by
    refine (hholds₂ _ _).2 ⟨hroot, ?_⟩
    rintro rfl
    exact hyroot (ho.file.holds.unique hroot)
  rw [Session.recoveredAt, if_neg hdots, hy]
  refine ⟨s₂, hopen.bind (hinode.bind hdoes), h₂, h₂.openDir hget hholds, ?_, h.count, hnodup,
    fun name' hname' => h.bound name' (List.mem_cons_of_mem _ hname'),
    himage₂.trans (ho.image.trans h.image),
    fun name' hname' y' hy' => ?_⟩
  · rw [hb₂.cwd, ho.dir.cwd]
    exact h.cwd
  · have hyy : y' ≠ y := by
      rintro rfl
      obtain rfl := h.listed.lookup_inj hy hy'
      exact hnew hname'
    rw [hdata₂ y' hyy, ho.data y' (h.listed.file_of_lookup hy').2.2]
    exact h.stays name' (List.mem_cons_of_mem _ hname') y' hy'

end Recovering

namespace Recovering

variable {s s' s'' : Session} {a : BlockSector → Option Node} {g : Growable UInt8} {T : Table}
  {d : Ptr} {dir : Dir} {name : CString} {names : List CString}

/-- Under these names the root directory's own inode is closed, through which
the next `dir_readdir` reads. -/
theorem dots (h : Recovering s a g T d s' dir (name :: names)) (hdots : IsDots name)
    (writable : CString → Bool) :
    ∃ recovered s'', s'.Does (recoverFile writable name) recovered s'' ∧
      (dirReaddir d).exec s''.st s''.image = none := by
  obtain ⟨y, hy⟩ := h.bound name List.mem_cons_self
  obtain ⟨hne, -, hslash⟩ := h.listed.names _ ((SlotMap.lookup_eq_some h.listed.distinct).1 hy)
  obtain ⟨s₁, hopen, h₁, hd₁, hf₁, -⟩ :=
    h.listed.filesysOpen_dots h.handle h.cwd h.count (fileName_plain hne hslash) hdots
  have hinode : s₁.Does (fileGetInode s'.st.files.next) dir.inode s₁ := hf₁.derefFile.bind (.pure _ _)
  obtain ⟨s₂, hdoes, -, hb₂, hholds₂, -⟩ :=
    h₁.vol.recoverInode hf₁.holds hd₁.sector h₁.root writable name
  refine ⟨_, s₂, hopen.bind (hinode.bind hdoes), ?_⟩
  -- the directory's inode is no longer there
  have hdir : s₂.st.dirs.get d = some dir := by
    rw [hb₂.dirs]
    exact hd₁.handle
  have hgone : s₂.st.openInodes.get dir.inode = none :=
    Session.get_of_not_holds fun x hx => ((hholds₂ _ _).1 hx).2 rfl
  exact exec_dirReaddir_stale hdir hgone

theorem body (h : Recovering s a g T d s' dir (name :: names)) (writable : CString → Bool) :
    (s'.Answers (recoverFile writable name) (s.recoveredAt T writable name)
      fun s'' => Recovering s a g T d s'' dir names) ∨ s.recoveredAt T writable name = none ∧
        ∃ recovered s'', s'.Does (recoverFile writable name) recovered s'' ∧
          (dirReaddir d).exec s''.st s''.image = none := by
  by_cases hdots : IsDots name
  · exact .inr ⟨if_pos hdots, h.dots hdots writable⟩
  · exact .inl (h.file hdots writable)

end Recovering

/-! ## The command -/

/-- The slot from which the root directory is read once it is opened: the
first one, unless it is open already. -/
def Session.FromSlot (s : Session) (k : Nat) : Prop :=
  match s.st.cwd with
  | none => k = 0
  | some d => ∃ dir, s.st.dirs.get d = some dir ∧ dir.pos = (36 * (k + 1) : Nat)

/-- The position of the root directory once it is opened. -/
theorem Session.FromSlot.pos {s : Session} {k : Nat} {d : Ptr} {dir : Dir} (hslot : s.FromSlot k)
    (hout : s.Outside d dir) (hfirst : dir.openCnt = 1 → dir.pos = dirEntrySize) :
    dir.pos = (36 * (k + 1) : Nat) := by
  unfold Outside at hout
  unfold FromSlot at hslot
  split at hout
  · next hone =>
    rw [hout] at hslot
    obtain rfl : k = 0 := hslot
    exact hfirst hone
  · rw [hout.1] at hslot
    obtain ⟨dir', hget, hpos⟩ := hslot
    rw [hout.2] at hget
    cases hget
    exact hpos

theorem Table.names_drop (T : Table) (k : Nat) : (Table.names (T.drop k)).Sublist T.names :=
  ((List.drop_sublist k T).filterMap id).map Prod.fst

/-- **`recover (2)`** leaves what it leaves for each file, one after the other. -/
theorem Listed.recover2 {s : Session} {a : BlockSector → Option Node} {g : Growable UInt8}
    {T : Table} {k : Nat} (h : Listed s a g T) (hcwd : s.CwdOk) (hslot : s.FromSlot k)
    (hk : k ≤ T.length) (writable : CString → Bool) :
    s.Answers (recover2 writable) (((Table.names (T.drop k)).mapM (s.recoveredAt T writable)).map
      List.flatten) fun _ => True := by
  obtain ⟨d, dir, s₁, henter, h₁, hd₁, hcnt, hcwd₁, haround₁, -, hout₁, hfirst⟩ := h.enter hcwd
  have hpos := hslot.pos hout₁ hfirst
  have hsub := T.names_drop k
  have hrecovering : Recovering s a g T d s₁ dir (Table.names (T.drop k)) := by
    refine ⟨h₁, hd₁, hcwd₁, hcnt, h.distinct.sublist hsub, fun name hname => ?_, haround₁.image,
      fun name _ y hy => ?_⟩
    · exact (Table.mem_names h.distinct).1 (hsub.subset hname)
    · exact haround₁.data y (h.file_of_lookup hy).2.2
  have hloop := OpenDir.forEachName (recoverFile writable) (s.recoveredAt T writable)
    (Recovering s a g T d)
    (fun hI => ⟨hI.handle, hI.listed.vol⟩) (fun hI => hI.read)
      (fun hI => hI.body writable) hrecovering hpos hk
  have hclose (recovered : List Recovered) (s₂ : Session)
    (hI : ∃ dir', Recovering s a g T d s₂ dir' []) :
      s₂.Answers (do dirClose (some d); pure recovered) (some recovered) fun _ => True := by
    obtain ⟨dir', hI⟩ := hI
    obtain ⟨s₃, hleave, -⟩ := hI.listed.leave hI.handle hI.cwd hI.count
    exact hleave.answers (Answers.pure trivial recovered)
  have hall := hloop.bind hclose
  rw [Option.bind_fun_some] at hall
  exact henter.answers hall

/-! ## What lies past the end -/

/-- The bytes of the last data sector at offsets from the file's length on,
without zeros. -/
def Session.pastEnd (s : Session) (y : BlockSector) (length : Nat) : List UInt8 :=
  ((List.range' length (512 * bytesToSectors length - length)).map ((s.data y).byte s.image)).filter
    (· ≠ 0)

section pastEnd

variable {s : Session} {y : BlockSector} {length : Nat}

theorem pastEnd_full (hfull : length % 512 = 0) : s.pastEnd y length = [] := by
  have hzero : 512 * bytesToSectors length - length = 0 := by
    unfold bytesToSectors divRoundUp blockSectorSize
    omega
  rw [Session.pastEnd, hzero]
  rfl

/-- Where the last sector is not full, the search starts at the end of the file. -/
theorem searched_rest (hlength : (s.data y).length = length) (hrest : length % 512 ≠ 0) :
    (s.searched y).filter (· ≠ 0) = s.pastEnd y length := by
  have hsize : 512 * bytesToSectors length - length = 512 - length % 512 := by
    unfold bytesToSectors divRoundUp blockSectorSize
    omega
  have hlast : bytesToSectors length - 1 = length / 512 := by
    unfold bytesToSectors divRoundUp blockSectorSize
    omega
  rw [Session.pastEnd, Session.searched, hlength, Int.toNat_natCast, hsize, hlast,
    List.range'_eq_map_range, List.map_map]
  congr 1
  refine List.map_congr_left fun i hi => ?_
  have hi := List.mem_range.1 hi
  rw [Function.comp, InodeDisk.byte, show (length + i) / 512 = length / 512 by omega,
    show (length + i) % 512 = length % 512 + i by omega]

/-- Where it is full, the whole sector is searched. -/
theorem searched_full (hlength : (s.data y).length = length) (hfull : length % 512 = 0)
    (hpos : 1 ≤ length) :
    s.searched y = (List.range 512).map fun i => (s.data y).byte s.image (length - 512 + i) := by
  have hlast : bytesToSectors length - 1 = (length - 512) / 512 := by
    unfold bytesToSectors divRoundUp blockSectorSize
    omega
  rw [Session.searched, hlength, Int.toNat_natCast, hfull, hlast]
  refine List.map_congr_left fun i hi => ?_
  have hi := List.mem_range.1 hi
  rw [InodeDisk.byte, show (length - 512 + i) / 512 = (length - 512) / 512 by omega,
    show (length - 512 + i) % 512 = 0 + i by omega]

/-- What is found is what lies past the end, exactly if the last sector is not
full or holds zeros only. -/
theorem searched_eq_iff (hlength : (s.data y).length = length) (hpos : 1 ≤ length) :
    (s.searched y).filter (· ≠ 0) = s.pastEnd y length ↔
      length % 512 ≠ 0 ∨ ∀ pos < length, length ≤ pos + 512 → (s.data y).byte s.image pos = 0 := by
  by_cases hfull : length % 512 = 0
  · rw [pastEnd_full hfull, searched_full hlength hfull hpos, List.filter_eq_nil_iff]
    simp only [List.forall_mem_map, List.mem_range, ne_eq, decide_not, Bool.not_eq_true',
      decide_eq_false_iff_not, not_not, hfull, not_true_eq_false, false_or]
    constructor
    · intro hzero pos hlt hle
      have := hzero (pos + 512 - length) (by omega)
      rwa [show length - 512 + (pos + 512 - length) = pos by omega] at this
    · intro hzero i hi
      exact hzero _ (by omega) (by omega)
  · exact iff_of_true (searched_rest hlength hfull) (.inl hfull)

end pastEnd

theorem recovered2Name_inj {name name' : CString} (h : recovered2Name name = recovered2Name name') :
    name = name' := by
  simpa [recovered2Name] using h

/-- The file that a pass writes for the name. -/
theorem mem_recovered {s : Session} {T : Table} {writable : CString → Bool} {names : List CString}
    {recovered : List Recovered} {name : CString} {y : BlockSector} {length : Nat}
    {bytes : List UInt8}
    (hmap : (names.mapM (s.recoveredAt T writable)).map List.flatten = some recovered)
    (hy : SlotMap.lookup T name = some y) (hlength : (s.data y).length = length) (hpos : 1 ≤ length)
    (hw : writable (recovered2Name name) = true) :
    Recovered.file (recovered2Name name) bytes ∈ recovered ↔
      name ∈ names ∧ (s.searched y).filter (· ≠ 0) ≠ [] ∧
      bytes = (s.searched y).filter (· ≠ 0) := by
  obtain ⟨hall, hmem⟩ := mem_printed hmap
  have hany : (s.searched y).any (· ≠ 0) = true ↔ (s.searched y).filter (· ≠ 0) ≠ [] := by
    simp [List.filter_eq_nil_iff]
  have hrecovered : s.recovered writable name y =
      if (s.searched y).any (· ≠ 0) then [.file (recovered2Name name)
        ((s.searched y).filter (· ≠ 0))] else [] := by
    unfold Session.recovered
    rw [if_neg (by rw [hlength, Int.toNat_natCast]; omega), if_pos hw]
  rw [hmem]
  constructor
  · intro ⟨name', hname', l, hl, hin⟩
    unfold Session.recoveredAt at hl
    split at hl
    · cases hl
    obtain ⟨y', hy', rfl⟩ := Option.map_eq_some_iff.1 hl
    obtain rfl : name = name' := by
      unfold Session.recovered at hin
      split_ifs at hin
      · cases hin
      · rw [List.mem_singleton, Recovered.file.injEq] at hin
        exact recovered2Name_inj hin.1
      · simp at hin
      · cases hin
    obtain rfl : y = y' := Option.some.inj (hy.symm.trans hy')
    rw [hrecovered] at hin
    split at hin
    · next hfound =>
      rw [List.mem_singleton, Recovered.file.injEq] at hin
      exact ⟨hname', hany.1 hfound, hin.2⟩
    · cases hin
  · rintro ⟨hname, hne, rfl⟩
    obtain ⟨l, hl⟩ := hall name hname
    refine ⟨name, hname, l, hl, ?_⟩
    unfold Session.recoveredAt at hl
    split at hl
    · cases hl
    rw [hy] at hl
    obtain rfl : s.recovered writable name y = l := Option.some.inj hl
    rw [hrecovered, if_pos (hany.2 hne)]
    exact List.mem_singleton_self _

/-- **What `recover (2)` reports** is what lies past the end of the file,
exactly if no file is named as a directory, and the file's last sector is not
full or holds zeros only; for a file in front of the slot from which the
directory is read, if nothing lies past the end. -/
theorem recovers_past_end {s : Session} {a : BlockSector → Option Node} {g : Growable UInt8}
    {T : Table} {k length : Nat} {writable : CString → Bool} {name : CString} {y : BlockSector}
    (h : Listed s a g T) (hcwd : s.CwdOk) (hslot : s.FromSlot k) (hk : k ≤ T.length)
    (hy : SlotMap.lookup T name = some y) (hlength : (s.data y).length = length) (hpos : 1 ≤ length)
    (hw : writable (recovered2Name name) = true) :
    (∃ recovered st v, (recover2 writable).exec s.st s.image = some (recovered, st, v) ∧
      ∀ bytes, Recovered.file (recovered2Name name) bytes ∈ recovered ↔ s.pastEnd y length ≠ [] ∧
        bytes = s.pastEnd y length) ↔
    (∀ name' ∈ Table.names (T.drop k), ¬ IsDots name') ∧
      if name ∈ Table.names (T.drop k) then
        length % 512 ≠ 0 ∨ ∀ pos < length, length ≤ pos + 512 → (s.data y).byte s.image pos = 0
      else s.pastEnd y length = [] := by
  have hall := h.recover2 hcwd hslot hk writable
  have hdots : (∃ recovered, ((Table.names (T.drop k)).mapM (s.recoveredAt T writable)).map
    List.flatten = some recovered) ↔
      ∀ name' ∈ Table.names (T.drop k), ¬ IsDots name' := by
    constructor
    · intro ⟨recovered, hmap⟩ name' hname' hd
      obtain ⟨l, hl⟩ := (mem_printed hmap).1 name' hname'
      rw [Session.recoveredAt, if_pos hd] at hl
      cases hl
    · intro hno
      refine exists_printed fun name' hname' => ?_
      obtain ⟨y', hy'⟩ := (Table.mem_names h.distinct).1 ((T.names_drop k).subset hname')
      exact ⟨_, by rw [Session.recoveredAt, if_neg (hno name' hname'), hy', Option.map_some]⟩
  -- the file is read or not
  have hfile {recovered : List Recovered} (hmap : ((Table.names (T.drop k)).mapM
    (s.recoveredAt T writable)).map List.flatten =
      some recovered) : (∀ bytes, Recovered.file (recovered2Name name) bytes ∈ recovered ↔
        s.pastEnd y length ≠ [] ∧ bytes = s.pastEnd y length) ↔
      if name ∈ Table.names (T.drop k) then
        length % 512 ≠ 0 ∨ ∀ pos < length, length ≤ pos + 512 → (s.data y).byte s.image pos = 0
      else s.pastEnd y length = [] := by
    simp only [mem_recovered hmap hy hlength hpos hw]
    split
    · next hname =>
      rw [← searched_eq_iff hlength hpos]
      simp only [hname, true_and]
      generalize (s.searched y).filter _ = found
      generalize s.pastEnd y length = past
      constructor
      · intro hiff
        by_cases hpast : past = []
        · by_contra hne
          exact ((hiff found).1 ⟨fun hnil => hne (hnil.trans hpast.symm), rfl⟩).1 hpast
        · exact ((hiff past).2 ⟨hpast, rfl⟩).2.symm
      · rintro rfl bytes
        rfl
    · next hname =>
      constructor
      · intro hiff
        by_contra hne
        exact hname ((hiff _).2 ⟨hne, rfl⟩).1
      · intro hnil bytes
        exact iff_of_false (fun hin => hname hin.1) fun hin => hin.1 hnil
  rw [hall.exists_iff]
  constructor
  · intro ⟨recovered, hmap, hiff⟩
    exact ⟨hdots.1 ⟨recovered, hmap⟩, (hfile hmap).1 hiff⟩
  · intro ⟨hno, hok⟩
    obtain ⟨recovered, hmap⟩ := hdots.2 hno
    exact ⟨recovered, hmap, (hfile hmap).2 hok⟩

/-- The file of `exists_written`, as `recover (2)` sees it. -/
theorem written_file {s : Session} {a : BlockSector → Option Node} {g : Growable UInt8} {T : Table}
    {y : BlockSector} {n : Nat} (h : Stocked s a g T) (hn : 4 ≤ n)
    (hlook : SlotMap.lookup T [97] = some y)
    (hnode : a y = some ⟨(Growable.zeros n).write 0 [104, 105, 0, 0], false⟩) :
    (s.data y).length = n ∧
      ∀ pos < n, (s.data y).byte s.image pos = [104, 105, 0, 0].getD pos 0 := by
  obtain ⟨hlive, hmap, -⟩ := h.rooted.file_of_lookup hlook
  obtain ⟨⟨hlength, hcontent⟩, -⟩ := h.rooted.vol.shows y _ hmap (.inl hlive) hnode
  have hlength : (s.data y).length = n := by
    rw [hlength, Growable.length_write, Growable.length_zeros]
    simp only [List.length_cons, List.length_nil]
    omega
  refine ⟨hlength, fun pos hpos => ?_⟩
  obtain ⟨q, fm, C, hinv⟩ := h.rooted.vol.inv
  have hsector : (s.data y).sector s.image (pos / 512) ≠ 0 :=
    (hinv.sound (.inl hlive) hmap).covers _ (by rw [hlength, Int.toNat_natCast]; omega)
  rw [← InodeDisk.content_eq hsector, hcontent, Growable.get_write, Growable.get_zeros]
  split
  · rw [Nat.sub_zero]
  · rw [List.getD_eq_default]
    simp only [List.length_cons, List.length_nil] at *
    omega

theorem recovers_past_end_written :
    ∃ s a g T y, Listed s a g T ∧ SlotMap.lookup T [97] = some y ∧ (s.data y).length = 4 ∧
    ∃ recovered st v, (recover2 fun _ => true).exec s.st s.image = some (recovered, st, v) ∧
      ∀ bytes, Recovered.file (recovered2Name [97]) bytes ∈ recovered ↔ s.pastEnd y 4 ≠ [] ∧
        bytes = s.pastEnd y 4 := by
  obtain ⟨st, v, s, a, g, T, y, -, -, h, hcwd, hnames, hlook, hnode, -⟩ :=
    exists_written (Nat.le_refl 4) (by decide)
  obtain ⟨hlength, -⟩ := written_file h (Nat.le_refl 4) hlook hnode
  have hslot : s.FromSlot 0 := by
    rw [Session.FromSlot, hcwd]
  obtain ⟨writable, hwritable⟩ : ∃ w : CString → Bool, w = fun _ => true := ⟨_, rfl⟩
  have hiff := recovers_past_end h.rooted.listed h.cwd hslot (Nat.zero_le _) hlook hlength (by decide)
    (congrFun hwritable (recovered2Name [97]))
  rw [List.drop_zero, hnames, if_pos (List.mem_singleton_self _)] at hiff
  subst hwritable
  refine ⟨s, a, g, T, y, h.rooted.listed, hlook, hlength,
    hiff.2 ⟨fun name hname => ?_, .inl (by decide)⟩⟩
  rw [List.mem_singleton.1 hname]
  decide

/-- A file of 512 bytes has no byte past its end in its last sector, but all
that it holds is reported. -/
theorem recovered_before_end : ∃ st v s a g T y recovered st' v',
    (filesysInit 200 true).exec initialState (fun _ => Sector.zeros) = some (true, st, v) ∧
    (Command.runAll [.create [97] 512, .write [97] [[104, 105]]]).exec st v = some ((), s.st, s.image) ∧
    Listed s a g T ∧ SlotMap.lookup T [97] = some y ∧ (s.data y).length = 512 ∧ s.pastEnd y 512 = [] ∧
    (recover2 fun _ => true).exec s.st s.image = some (recovered, st', v') ∧
    .file (recovered2Name [97]) [104, 105] ∈ recovered := by
  obtain ⟨st, v, s, a, g, T, y, hformat, hexec, h, hcwd, hnames, hlook, hnode, -⟩ :=
    exists_written (n := 512) (by decide) (Nat.le_refl 512)
  obtain ⟨hlength, hbytes⟩ := written_file h (by decide) hlook hnode
  have hslot : s.FromSlot 0 := by
    rw [Session.FromSlot, hcwd]
  have hfound : (s.searched y).filter (· ≠ 0) = [104, 105] := by
    have hmap : s.searched y = (List.range 512).map fun i => [104, 105, 0, 0].getD i 0 := by
      rw [searched_full hlength rfl (by decide)]
      refine List.map_congr_left fun i hi => ?_
      rw [Nat.sub_self, Nat.zero_add]
      exact hbytes i (List.mem_range.1 hi)
    have hrange : List.range 512 = List.range 4 ++ (List.range 508).map (4 + ·) := by
      rw [← List.range_add]
    rw [hmap, hrange, List.map_append, List.filter_append, List.map_map]
    have hzero : ((List.range 508).map ((fun i => [104, 105, 0, 0].getD i
        (0 : UInt8)) ∘ (4 + ·))).filter (· ≠ 0) = [] := by
      rw [List.filter_eq_nil_iff]
      simp [Nat.add_comm 4]
    rw [hzero]
    rfl
  have hall := h.rooted.listed.recover2 h.cwd hslot (Nat.zero_le _) fun _ => true
  obtain ⟨recovered, hmap⟩ : ∃ recovered, ((Table.names (T.drop 0)).mapM
    (s.recoveredAt T fun _ => true)).map List.flatten =
      some recovered := by
    refine exists_printed fun name hname => ?_
    rw [List.drop_zero, hnames] at hname
    rw [List.mem_singleton.1 hname, Session.recoveredAt, if_neg (by decide), hlook]
    exact ⟨_, rfl⟩
  rw [hmap] at hall
  obtain ⟨s', hdoes, -⟩ := hall
  refine ⟨st, v, s, a, g, T, y, recovered, _, _, hformat, hexec, h.rooted.listed, hlook, hlength,
    pastEnd_full rfl, hdoes, ?_⟩
  rw [mem_recovered hmap hlook hlength (by decide) rfl, hfound, List.drop_zero, hnames]
  exact ⟨List.mem_singleton_self _, by simp, rfl⟩

end MyShell.Fs

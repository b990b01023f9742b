/-
The root directory and the files in it, where it is the only directory
(`Rooted`), and the calls of filesys.c on it.
-/
import MyShell.Fs.DirectoryMap
import MyShell.Fs.OpenFile
import MyShell.Fs.Taken

namespace MyShell.Fs

open Storage Session

/-- The sectors in the slots. -/
def Table.sectors (T : Table) : List BlockSector := T.reduceOption.map Prod.snd

theorem Table.mem_sectors {T : Table} {y : BlockSector} :
    y ∈ T.sectors ↔ ∃ name, (name, y) ∈ T.reduceOption := by
  simp [Table.sectors]

/-- The root directory binds names to files of their own. -/
structure Rooted (s : Session) (a : BlockSector → Option Node) (g : Growable UInt8) (T : Table) :
    Prop where
  vol : Volume s a
  root : rootDirSector ∈ s.live
  node : a rootDirSector = some ⟨g, true⟩
  folder : Folder g rootDirSector T
  distinct : SlotMap.Distinct T
  names : ∀ x ∈ T.reduceOption, x.1 ≠ [] ∧ 0 ∉ x.1 ∧ slash ∉ x.1
  sectors : T.sectors.Nodup
  files : ∀ y ∈ T.sectors, y ∈ s.live ∧ y ≠ freeMapSector ∧ y ≠ rootDirSector ∧
    ∃ f, a y = some ⟨f, false⟩

/-- The root directory binds names to files of their own, whatever these hold. -/
structure Listed (s : Session) (a : BlockSector → Option Node) (g : Growable UInt8) (T : Table) :
    Prop where
  vol : Volume s a
  root : rootDirSector ∈ s.live
  node : a rootDirSector = some ⟨g, true⟩
  folder : Folder g rootDirSector T
  distinct : SlotMap.Distinct T
  names : ∀ x ∈ T.reduceOption, x.1 ≠ [] ∧ 0 ∉ x.1 ∧ slash ∉ x.1
  sectors : T.sectors.Nodup
  files : ∀ y ∈ T.sectors, y ∈ s.live ∧ y ≠ freeMapSector ∧ y ≠ rootDirSector

theorem rootDirSector_ne : rootDirSector ≠ freeMapSector := by decide

namespace Session

/-- Open files and the like have not changed. -/
def SameFiles (s s' : Session) : Prop :=
  s'.st = { s.st with
    freeMap := s'.st.freeMap, openInodes := s'.st.openInodes, dirs := s'.st.dirs, cwd := s'.st.cwd }

/-- The global directory is a handle of the root directory, or there is none. -/
def CwdOk (s : Session) : Prop :=
  ∀ d, s.st.cwd = some d → ∃ dir, s.st.dirs.get d = some dir ∧ s.Holds dir.inode rootDirSector ∧
    0 < dir.openCnt

/-- The global directory is as it was. -/
structure SameCwd (s s' : Session) : Prop where
  cwd : s'.st.cwd = s.st.cwd
  get : ∀ d, s.st.cwd = some d → s'.st.dirs.get d = s.st.dirs.get d

/-- The global directory, as it is where `d` is not opened once more. -/
def Outside (s : Session) (d : Ptr) (dir : Dir) : Prop :=
  if dir.openCnt = 1 then s.st.cwd = none
  else s.st.cwd = some d ∧ s.st.dirs.get d = some { dir with openCnt := dir.openCnt - 1 }

/-- Only handles of directories and the root directory's inode in memory have
changed. -/
structure Around (s s' : Session) : Prop where
  files : s.SameFiles s'
  holds : ∀ p y, y ≠ rootDirSector → (s'.Holds p y ↔ s.Holds p y)
  live : s'.live = s.live
  spare : s'.spare = s.spare
  freeMap : s'.st.freeMap = s.st.freeMap
  image : s'.image = s.image
  data : ∀ y, y ≠ rootDirSector → s'.data y = s.data y

variable {s s' s'' : Session} {d : Ptr} {dir : Dir} {x : BlockSector}

theorem SameFiles.refl (s : Session) : s.SameFiles s := rfl

theorem SameFiles.trans (h : s.SameFiles s') (h' : s'.SameFiles s'') : s.SameFiles s'' := by
  unfold SameFiles at *
  rw [h', h]

theorem Outside.same (h : s.Outside d dir) (h' : s'.Outside d dir) : s.SameCwd s' := by
  unfold Outside at h h'
  split at h
  · next hone =>
    rw [if_pos hone] at h'
    refine ⟨h'.trans h.symm, fun d' hd' => ?_⟩
    rw [h] at hd'
    cases hd'
  · next hmore =>
    rw [if_neg hmore] at h'
    refine ⟨h'.1.trans h.1.symm, fun d' hd' => ?_⟩
    obtain rfl : d = d' := Option.some.inj (h.1.symm.trans hd')
    exact h'.2.trans h.2.symm

theorem Beside.sameFiles (h : s.Beside s') : s.SameFiles s' := by
  unfold SameFiles
  rw [h.state]

theorem Stands.sameFiles (h : s.Stands s' d dir) : s.SameFiles s' := by
  unfold SameFiles
  rw [h.state]

theorem Shuts.sameFiles (h : s.Shuts s' d dir x) : s.SameFiles s' := by
  unfold SameFiles
  rw [h.state]

end Session

namespace Rooted

variable {s s' : Session} {a a' : BlockSector → Option Node} {g : Growable UInt8} {T : Table}

theorem listed (h : Rooted s a g T) : Listed s a g T :=
  ⟨h.vol, h.root, h.node, h.folder, h.distinct, h.names, h.sectors, fun y hy => by
    obtain ⟨hlive, hmap, hroot, -⟩ := h.files y hy
    exact ⟨hlive, hmap, hroot⟩⟩

/-- The same files, after a call that keeps them. -/
theorem next (h : Rooted s a g T) (hvol : Volume s' a) (hlive : s'.live = s.live) : Rooted s' a g T :=
  ⟨hvol, by rw [hlive]; exact h.root, h.node, h.folder, h.distinct, h.names,
    h.sectors, by rw [hlive]; exact h.files⟩

theorem written (h : Rooted s a g T) {y : BlockSector} (hy : y ≠ rootDirSector)
    (hlive : s'.live = s.live) {bytes : Growable UInt8}
    (hvol : Volume s' (Function.update a y (some ⟨bytes, false⟩))) :
    Rooted s' (Function.update a y (some ⟨bytes, false⟩)) g T where
  vol := hvol
  root := by rw [hlive]; exact h.root
  node := by rw [Function.update_of_ne (Ne.symm hy)]; exact h.node
  folder := h.folder
  distinct := h.distinct
  names := h.names
  sectors := h.sectors
  files z hz := by
    obtain ⟨hzlive, hz0, hzroot, f, hf⟩ := h.files z hz
    refine ⟨by rw [hlive]; exact hzlive, hz0, hzroot, ?_⟩
    by_cases hzy : z = y
    · subst hzy
      exact ⟨bytes, Function.update_self ..⟩
    · exact ⟨f, by rw [Function.update_of_ne hzy]; exact hf⟩

end Rooted

/-! ## Opening and closing the root directory -/

namespace Listed

variable {s s' : Session} {a : BlockSector → Option Node} {g : Growable UInt8} {T : Table}

theorem next (h : Listed s a g T) (hvol : Volume s' a) (hlive : s'.live = s.live) : Listed s' a g T :=
  ⟨hvol, by rw [hlive]; exact h.root, h.node, h.folder, h.distinct, h.names,
    h.sectors, by rw [hlive]; exact h.files⟩

theorem file_of_lookup (h : Listed s a g T) {name : CString} {y : BlockSector}
    (hy : SlotMap.lookup T name = some y) : y ∈ s.live ∧ y ≠ freeMapSector ∧ y ≠ rootDirSector :=
  h.files y (Table.mem_sectors.2 ⟨name, (SlotMap.lookup_eq_some h.distinct).1 hy⟩)

theorem openDir (h : Listed s a g T) {d : Ptr} {dir : Dir} (hd : s.st.dirs.get d = some dir)
    (hp : s.Holds dir.inode rootDirSector) : OpenDir s a d dir rootDirSector rootDirSector g T :=
  ⟨hd, hp, rootDirSector_ne, h.node, h.folder⟩

/-- `dir_open_root` where there is no global directory. -/
theorem openRoot (h : Listed s a g T) (hcwd : s.st.cwd = none) :
    ∃ p s', s.Does dirOpenRoot (some s.st.dirs.next) s' ∧ Listed s' a g T ∧
      OpenDir s' a s.st.dirs.next ⟨p, 36, 1⟩ rootDirSector rootDirSector g T ∧ s.SameFiles s' ∧
      s'.st.cwd = some s.st.dirs.next ∧ (∀ d, s'.st.dirs.get d = if d = s.st.dirs.next then
        some ⟨p, 36, 1⟩ else s.st.dirs.get d) ∧
      (∀ p' y, s.Holds p' y → s'.Holds p' y) ∧
      (∀ p' y, s'.Holds p' y → s.Holds p' y ∨ p' = p ∧ y = rootDirSector) ∧
      s'.live = s.live ∧ s'.spare = s.spare ∧ s'.st.freeMap = s.st.freeMap ∧ s'.image = s.image ∧
      ∀ y, s'.data y = s.data y := by
  obtain ⟨p, s₁, hopen, hvol₁, hb₁, hp₁, hkeep₁, hback₁, hlive₁, hspare₁, hmap₁, himage₁,
      hdata₁⟩ :=
    h.vol.openAny h.root
  obtain ⟨s₂, hdir, hstands⟩ := Volume.dirOpen (s := s₁) p
  rw [hb₁.dirs] at hdir hstands
  have hvol₂ := hstands.volume hvol₁
  refine ⟨p, ⟨s₂.st.setCwd (some s.st.dirs.next), s₂.image, s₂.live, s₂.spare⟩, ?_, ?_⟩
  · refine Does.bind (?_ : s.Does Cmd.getState s.st s) ?_
    · rfl
    · rw [hcwd]
      exact hopen.bind (hdir.bind rfl)
  · have hvol₃ : Volume ⟨s₂.st.setCwd (some s.st.dirs.next), s₂.image, s₂.live, s₂.spare⟩ a :=
      hvol₂.handles rfl rfl rfl rfl rfl rfl fun _ _ => rfl
    have hget : ∀ d, s₂.st.dirs.get d =
        if d = s.st.dirs.next then some ⟨p, 36, 1⟩ else s.st.dirs.get d := fun d => by
      rw [hstands.get, hb₁.dirs]
    have hlisted := h.next hvol₃ (hstands.live.trans hlive₁)
    refine ⟨hlisted, hlisted.openDir ?_ ?_, ?_, rfl, hget, fun p' y hp' => ?_, fun p' y hp' => ?_,
      hstands.live.trans hlive₁, hstands.spare.trans hspare₁, ?_, hstands.image.trans himage₁,
      fun y => (hstands.data y).trans (hdata₁ y)⟩
    · exact (hget _).trans (if_pos rfl)
    · exact (hstands.holds _ _).2 hp₁
    · change s₂.st.setCwd _ = _
      rw [hstands.state, hb₁.state]
      rfl
    · exact (hstands.holds _ _).2 (hkeep₁ _ _ hp')
    · exact hback₁ _ _ ((hstands.holds _ _).1 hp')
    · change s₂.st.freeMap = _
      rw [hstands.state]
      exact hmap₁

theorem openRoot_again {d : Ptr} {dir : Dir} (hcwd : s.st.cwd = some d)
    (hd : s.st.dirs.get d = some dir) :
    ∃ s', s.Does dirOpenRoot (some d) s' ∧ s.Stands s' d { dir with openCnt := dir.openCnt + 1 } := by
  obtain ⟨s', hdoes, hstands⟩ := OpenDir.modify hd fun d => { d with openCnt := d.openCnt + 1 }
  refine ⟨s', Does.bind (?_ : s.Does Cmd.getState s.st s) ?_, hstands⟩
  · rfl
  · rw [hcwd]
    refine Does.bind (?_ : s.Does (derefDir d) dir s) (hdoes.bind (.pure _ _))
    simp [Does, exec_derefDir, hd]

theorem enter (h : Listed s a g T) (hcwd : s.CwdOk) :
    ∃ d dir s', s.Does dirOpenRoot (some d) s' ∧ Listed s' a g T ∧
      OpenDir s' a d dir rootDirSector rootDirSector g T ∧
      0 < dir.openCnt ∧ s'.st.cwd = some d ∧ s.Around s' ∧
      (∀ p, s'.Holds p rootDirSector → s.Holds p rootDirSector ∨ p = dir.inode ∧ dir.openCnt = 1) ∧
      s.Outside d dir ∧ (dir.openCnt = 1 → dir.pos = dirEntrySize) := by
  cases hc : s.st.cwd with
  | none =>
    obtain ⟨p, s', hdoes, h', hd', hsame, hcwd', -, hkeep, hback, hlive, hspare, hmap, himage,
        hdata⟩ := h.openRoot hc
    refine ⟨_, _, s', hdoes, h', hd', zero_lt_one, hcwd',
      ⟨hsame, fun p' y hy => ⟨fun hp' => ?_, hkeep p' y⟩, hlive, hspare,
      hmap, himage, fun y _ => hdata y⟩, fun p' hp' => (hback p' _ hp').imp_right fun hnew =>
        ⟨hnew.1, rfl⟩, hc, fun _ => rfl⟩
    exact (hback p' y hp').resolve_right fun hno => hy hno.2
  | some d =>
    obtain ⟨dir, hd, hp, hcnt⟩ := hcwd d hc
    obtain ⟨s', hdoes, hstands⟩ := openRoot_again (s := s) hc hd
    refine ⟨d, _, s', hdoes, h.next (hstands.volume h.vol) hstands.live,
      (h.openDir hd hp).stands hstands rfl, ?_, ?_,
      ⟨hstands.sameFiles, fun p' y _ => hstands.holds p' y, hstands.live, hstands.spare, ?_,
        hstands.image,
        fun y _ => hstands.data y⟩, fun p' hp' => .inl ((hstands.holds p' _).1 hp'), ?_, fun hone => ?_⟩
    · simp only
      omega
    · rw [hstands.state, hc]
    · rw [hstands.state]
    · rw [Outside, if_neg (by simp only; omega)]
      exact ⟨hc, by simpa using hd⟩
    · simp only at hone
      omega

theorem leave {d : Ptr} {dir : Dir} (h : Listed s a g T)
    (hd : OpenDir s a d dir rootDirSector rootDirSector g T) (hcwd : s.st.cwd = some d)
    (hcnt : 0 < dir.openCnt) :
    ∃ s', s.Does (dirClose (some d)) () s' ∧ Listed s' a g T ∧ s'.CwdOk ∧ s.Around s' ∧
      (∀ p, s'.Holds p rootDirSector → s.Holds p rootDirSector ∧
        (dir.openCnt = 1 → p ≠ dir.inode)) ∧
      s'.Outside d dir := by
  by_cases hlast : dir.openCnt = 1
  · obtain ⟨s', hdoes, hvol', hshuts⟩ := OpenDir.close_last h.vol hd.handle hd.holds hd.sector hlast
    obtain ⟨hmap, himage, hdata⟩ := hshuts.kept h.root
    refine ⟨s', hdoes, h.next hvol' hshuts.live, fun d' hd' => ?_,
      ⟨hshuts.sameFiles, fun p y hy => ?_, hshuts.live,
      hshuts.spare, hmap, himage, hdata⟩, fun p hp => ((hshuts.holds p _).1 hp).imp_right
      fun hne _ => hne, ?_⟩
    · rw [hshuts.state] at hd'
      cases hd'
    · rw [hshuts.holds]
      refine ⟨And.left, fun hp => ⟨hp, ?_⟩⟩
      rintro rfl
      exact hy (hp.unique hd.holds)
    · rw [Outside, if_pos hlast, hshuts.state]
  · obtain ⟨s', hdoes, hstands⟩ := OpenDir.close_more hd.handle hlast
    refine ⟨s', hdoes, h.next (hstands.volume h.vol) hstands.live, fun d' hd' => ?_, ⟨hstands.sameFiles,
      fun p y _ => hstands.holds p y, hstands.live, hstands.spare, by rw [hstands.state], hstands.image,
      fun y _ => hstands.data y⟩,
      fun p hp => ⟨(hstands.holds p _).1 hp, fun heq => absurd heq hlast⟩, ?_⟩
    · rw [hstands.state] at hd'
      obtain rfl : d = d' := Option.some.inj (hcwd.symm.trans hd')
      refine ⟨_, (hd.stands hstands rfl).handle, (hstands.holds _ _).2 hd.holds, ?_⟩
      simp only
      omega
    · rw [Outside, if_neg hlast]
      exact ⟨by rw [hstands.state]; exact hcwd, (hd.stands hstands rfl).handle⟩

end Listed

namespace Rooted

variable {s s' : Session} {a a' : BlockSector → Option Node} {g : Growable UInt8} {T : Table}

theorem openDir (h : Rooted s a g T) {d : Ptr} {dir : Dir} (hd : s.st.dirs.get d = some dir)
    (hp : s.Holds dir.inode rootDirSector) : OpenDir s a d dir rootDirSector rootDirSector g T :=
  h.listed.openDir hd hp

theorem enter (h : Rooted s a g T) (hcwd : s.CwdOk) :
    ∃ d dir s', s.Does dirOpenRoot (some d) s' ∧ Rooted s' a g T ∧
      OpenDir s' a d dir rootDirSector rootDirSector g T ∧
      0 < dir.openCnt ∧ s'.st.cwd = some d ∧ s.Around s' ∧
      (∀ p, s'.Holds p rootDirSector → s.Holds p rootDirSector ∨ p = dir.inode ∧ dir.openCnt = 1) ∧
      s.Outside d dir ∧ (dir.openCnt = 1 → dir.pos = dirEntrySize) := by
  obtain ⟨d, dir, s', hdoes, h', hd, hcnt, hcwd', haround, hrest⟩ := h.listed.enter hcwd
  exact ⟨d, dir, s', hdoes, h.next h'.vol haround.live, hd, hcnt, hcwd', haround, hrest⟩

theorem leave {d : Ptr} {dir : Dir} (h : Rooted s a g T)
    (hd : OpenDir s a d dir rootDirSector rootDirSector g T) (hcwd : s.st.cwd = some d)
    (hcnt : 0 < dir.openCnt) :
    ∃ s', s.Does (dirClose (some d)) () s' ∧ Rooted s' a g T ∧ s'.CwdOk ∧ s.Around s' ∧
      (∀ p, s'.Holds p rootDirSector → s.Holds p rootDirSector ∧
        (dir.openCnt = 1 → p ≠ dir.inode)) ∧
      s'.Outside d dir := by
  obtain ⟨s', hdoes, h', hcwd', haround, hrest⟩ := h.listed.leave hd hcwd hcnt
  exact ⟨s', hdoes, h.next h'.vol haround.live, hcwd', haround, hrest⟩

/-! ## Creating a file -/

/-- A file that exists under no name yet is bound to one. -/
theorem bind {name : CString} {y : BlockSector} {f g' : Growable UInt8}
    (h : Rooted s (Function.update a y (some ⟨f, false⟩)) g T) (hy : y ∈ s.live)
    (hy0 : y ≠ freeMapSector) (hyroot : y ≠ rootDirSector) (hnew : y ∉ T.sectors)
    (hvol : Volume s' (Function.update (Function.update a y (some ⟨f, false⟩)) rootDirSector
      (some ⟨g', true⟩)))
    (hlive : s'.live = s.live) (hfolder : Folder g' rootDirSector (SlotMap.put T (name, y)))
    (hname : name ≠ [] ∧ 0 ∉ name ∧ slash ∉ name) (hno : SlotMap.lookup T name = none) :
    Rooted s' (Function.update (Function.update a y (some ⟨f, false⟩)) rootDirSector
      (some ⟨g', true⟩)) g' (SlotMap.put T (name, y)) where
  vol := hvol
  root := by rw [hlive]; exact h.root
  node := Function.update_self ..
  folder := hfolder
  distinct := h.distinct.put hno
  names x hx := by
    rcases List.mem_cons.1 (SlotMap.put_perm.mem_iff.1 hx) with rfl | hx
    · exact hname
    · exact h.names x hx
  sectors := by
    rw [Table.sectors, (SlotMap.put_perm.map Prod.snd).nodup_iff, List.map_cons, List.nodup_cons]
    exact ⟨hnew, h.sectors⟩
  files z hz := by
    rw [hlive]
    have hcases : z = y ∨ z ∈ T.sectors := by
      have hz := (SlotMap.put_perm.map Prod.snd).mem_iff.1 hz
      rwa [List.map_cons, List.mem_cons] at hz
    rcases hcases with rfl | hold
    · exact ⟨hy, hy0, hyroot, f, by rw [Function.update_of_ne hyroot, Function.update_self]⟩
    · obtain ⟨hzlive, hz0, hzroot, f', hf'⟩ := h.files z hold
      exact ⟨hzlive, hz0, hzroot, f', by rw [Function.update_of_ne hzroot]; exact hf'⟩

theorem beside (h : Rooted s a g T) (hvol : Volume s' a) (hlive : s'.live = s.live) {d : Ptr}
    {dir : Dir} (hd : OpenDir s a d dir rootDirSector rootDirSector g T) (hb : s.Beside s')
    (hholds : ∀ p y, s'.Holds p y ↔ s.Holds p y) :
    Rooted s' a g T ∧ OpenDir s' a d dir rootDirSector rootDirSector g T :=
  ⟨h.next hvol hlive, hd.beside hb ((hholds _ _).2 hd.holds) hd.node hd.folder⟩

theorem fresh (h : Rooted s a g T) {y : BlockSector} {n : Option Node} (hy : y ∉ s.live)
    (hvol : Volume s' (Function.update a y n)) (hlive : s'.live = y :: s.live) :
    Rooted s' (Function.update a y n) g T where
  vol := hvol
  root := by rw [hlive]; exact List.mem_cons_of_mem _ h.root
  node := by
    rw [Function.update_of_ne]
    · exact h.node
    · rintro rfl
      exact hy h.root
  folder := h.folder
  distinct := h.distinct
  names := h.names
  sectors := h.sectors
  files z hz := by
    obtain ⟨hzlive, hz0, hzroot, f, hf⟩ := h.files z hz
    refine ⟨by rw [hlive]; exact List.mem_cons_of_mem _ hzlive, hz0, hzroot, f, ?_⟩
    rw [Function.update_of_ne]
    · exact hf
    · rintro rfl
      exact hy hzlive

end Rooted

/-- What is known of an inode that is neither live nor open says nothing. -/
theorem Volume.forget {s : Session} {a : BlockSector → Option Node} {x : BlockSector} {n : Option Node}
    (h : Volume s (Function.update a x n)) (hx : ¬ s.Present x) : Volume s a := by
  refine ⟨h.inv, fun y m hy0 hy ha => h.shows y m hy0 hy ?_⟩
  rw [Function.update_of_ne]
  · exact ha
  · rintro rfl
    exact hx hy

theorem splitPathFilename_plain {name : CString} (hne : name ≠ []) (hslash : slash ∉ name) :
    splitPathFilename name = ([], name) := by
  have htokens : tokens name = [name] := by
    rw [tokens, List.splitOn_eq_singleton hslash]
    simp [hne]
  have hhead : name.head? ≠ some slash := by
    cases name with
    | nil => simp
    | cons c cs => simpa using fun hc : c = slash => hslash (hc ▸ List.mem_cons_self)
  rw [splitPathFilename, htokens]
  simp [hhead]

/-- The `file_name` of `split_path_filename`. -/
abbrev fileName (path : CString) : CString := (splitPathFilename path).2

theorem fileName_plain {name : CString} (hne : name ≠ []) (hslash : slash ∉ name) :
    fileName name = name := by
  rw [fileName, splitPathFilename_plain hne hslash]

theorem mem_splitOn {path token : CString} (h : token ∈ path.splitOn slash) :
    slash ∉ token ∧ token ⊆ path := by
  induction path generalizing token with
  | nil =>
    obtain rfl : token = [] := by simpa using h
    exact ⟨List.not_mem_nil, List.nil_subset _⟩
  | cons c path ih =>
    rw [List.splitOn_cons_eq_if_modifyHead] at h
    split at h
    · rcases List.mem_cons.1 h with rfl | h
      · exact ⟨List.not_mem_nil, List.nil_subset _⟩
      · exact ⟨(ih h).1, List.subset_cons_of_subset _ (ih h).2⟩
    · next hc =>
      cases hsplit : path.splitOn slash with
      | nil =>
        rw [hsplit] at h
        cases h
      | cons first rest =>
        rw [hsplit, List.modifyHead_cons] at h
        rcases List.mem_cons.1 h with rfl | h
        · have hfirst : first ∈ path.splitOn slash := by rw [hsplit]; exact List.mem_cons_self
          obtain ⟨hslash, hsub⟩ := ih hfirst
          exact ⟨List.not_mem_cons_of_ne_of_not_mem (fun he => hc (by simp [he])) hslash,
            List.cons_subset_cons _ hsub⟩
        · have hrest : token ∈ path.splitOn slash := by rw [hsplit]; exact List.mem_cons_of_mem _ h
          obtain ⟨hslash, hsub⟩ := ih hrest
          exact ⟨hslash, List.subset_cons_of_subset _ hsub⟩

/-- A file name has no slash in it, and no NUL where the path has none. -/
theorem fileName_chars (path : CString) : slash ∉ fileName path ∧ fileName path ⊆ path := by
  have hlast : (tokens path).getLastD [] ∈ [] :: tokens path := List.getLastD_mem_cons
  rcases List.mem_cons.1 hlast with hnil | hmem
  · rw [fileName, splitPathFilename, hnil]
    exact ⟨List.not_mem_nil, List.nil_subset _⟩
  · exact mem_splitOn (List.mem_filter.1 hmem).1

theorem ne_nil_of_fileName {path name : CString} (hpath : fileName path = name) (hne : name ≠ []) :
    path ≠ [] := by
  rintro rfl
  exact hne hpath.symm

/-- There are the sectors for a file of the length and for its inode. -/
def Session.FileRoom (s : Session) (length : Int) : Prop :=
  0 ≤ length ∧ bytesToSectors length.toNat ≤ InodeDisk.maxSectors ∧
    1 + sectorCost (bytesToSectors length.toNat) ≤ freeCount s.st.freeMap

/-- What a call of filesys.c leaves of open files and inodes. -/
structure Session.Keeping (s s' : Session) : Prop where
  cwd : s'.CwdOk
  files : s.SameFiles s'
  holds : ∀ p y, y ≠ rootDirSector → (s'.Holds p y ↔ s.Holds p y)
  root : ∀ p, s'.Holds p rootDirSector → s.Holds p rootDirSector
  size : s'.st.freeMap.length = s.st.freeMap.length
  dir : s.SameCwd s'

namespace Rooted

variable {s s' : Session} {a a' : BlockSector → Option Node} {g : Growable UInt8} {T : Table}

/-- The root directory's inode, if it was not open, is closed again. -/
theorem back_root {s₁ : Session} {dir : Dir} {p : Ptr}
    (henter : ∀ p, s₁.Holds p rootDirSector → s.Holds p rootDirSector ∨ p = dir.inode ∧
      dir.openCnt = 1)
    (hleave : s₁.Holds p rootDirSector ∧ (dir.openCnt = 1 → p ≠ dir.inode)) :
    s.Holds p rootDirSector :=
  (henter p hleave.1).resolve_right fun hnew => hleave.2 hnew.2 hnew.1

/-- The sector of the inode is given back, and nothing else was taken. -/
def TakesNothing (s : Session) (g : Growable UInt8) (T : Table) (name : CString) (length : Int) :
    Prop :=
  length < 0 ∨ freeCount s.st.freeMap ≤ 1 ∨ length = 0 ∧ (name = [] ∨ nameMax < name.length ∨
    SlotMap.lookup T name ≠ none ∨ InodeDisk.maxSectors * 512 < g.length + 36)

/-- `filesys_create` of a file in the root directory, whatever its name. -/
theorem filesysCreate_cases (h : Rooted s a g T) (hcwd : s.CwdOk) {path name : CString}
    (hpath : fileName path = name) (hchars : 0 ∉ name ∧ slash ∉ name) {length : Int}
    (hlen : length < 2 ^ 31) :
    ∃ s' ok, s.Does (Fs.filesysCreate path length false) ok s' ∧ s.Keeping s' ∧
      (ok = true ∧ s.FileRoom length ∧ name.length ≤ nameMax ∧ SlotMap.lookup T name = none ∧
          (none ∈ T → freeCount s'.st.freeMap + (1 + sectorCost (bytesToSectors length.toNat)) =
            freeCount s.st.freeMap) ∧
          (∃ y g', y ∉ s.live ∧ (∀ p, ¬ s.Holds p y) ∧ s'.live = y :: s.live ∧
            Rooted s' (Function.update (Function.update a y (some ⟨.zeros length.toNat, false⟩))
              rootDirSector (some ⟨g', true⟩)) g' (SlotMap.put T (name, y))) ∨
        ok = false ∧ s'.live = s.live ∧ Rooted s' a g T ∧
          ¬ (s.FileRoom length ∧ name ≠ [] ∧ name.length ≤ nameMax ∧ SlotMap.lookup T name = none ∧
            none ∈ T) ∧
          (s'.st.freeMap = s.st.freeMap ↔ TakesNothing s g T name length)) := by
  obtain ⟨d, dir, s₁, henter, h₁, hd₁, hcnt, hcwd₁, haround₁, hroot₁, hout₁, -⟩ :=
    h.enter hcwd
  obtain ⟨directory, hsplit⟩ : ∃ directory, splitPathFilename path = (directory, name) :=
    ⟨_, Prod.ext rfl hpath⟩
  rcases h₁.vol.allocate with
    ⟨hfree, hnone⟩ | ⟨x, s₂, hsome, hvol₂, hb₂, hholds₂, hlive₂, hspare₂, htakes₂⟩
  · -- no sector is free
    obtain ⟨s₂, hleave, h₂, hcwd₂, haround₂, hroot₂, hout₂⟩ := h₁.leave hd₁ hcwd₁ hcnt
    refine ⟨s₂, false, ?_, ⟨hcwd₂, haround₁.files.trans haround₂.files, fun p y hy =>
      (haround₂.holds p y hy).trans (haround₁.holds p y hy), fun p hp => ?_, ?_, hout₁.same hout₂⟩,
        .inr ⟨rfl, haround₂.live.trans haround₁.live, h₂, ?_, ?_⟩⟩
    · unfold Fs.filesysCreate
      rw [hsplit]
      exact henter.bind (Does.bind (hnone.bind (.pure _ _)) (hleave.bind (.pure _ _)))
    · exact back_root hroot₁ (hroot₂ p hp)
    · rw [haround₂.freeMap, haround₁.freeMap]
    · rintro ⟨⟨-, -, hroom⟩, -⟩
      rw [← haround₁.freeMap, hfree] at hroom
      omega
    · refine iff_of_true (haround₂.freeMap.trans haround₁.freeMap) (.inr (.inl ?_))
      rw [← haround₁.freeMap, hfree]
      exact Nat.zero_le _
  have hxspare : x ∈ s₂.spare := by rw [hspare₂]; exact List.mem_cons_self
  obtain ⟨hx0, hxlive, hxopen, -⟩ := hvol₂.spare_fresh hxspare
  obtain ⟨h₂, hd₂⟩ := h₁.beside hvol₂ hlive₂ hd₁ hb₂ hholds₂
  have hxroot : x ≠ rootDirSector := by
    rintro rfl
    exact hxlive h₂.root
  rw [haround₁.freeMap] at htakes₂
  have hfree₂ : freeCount s₂.st.freeMap + 1 = freeCount s.st.freeMap := htakes₂.count
  have hne : (x != 0) = true := bne_iff_ne.2 hx0
  obtain ⟨s₃, hb₃, hholds₃, ⟨hroom, hcreate, hvol₃, hlive₃, hspare₃, hcount₃⟩ | ⟨hroom,
    hcreate,
      hvol₃, hlive₃, hspare₃⟩⟩ :=
    hvol₂.create hxspare length hlen false
  · obtain ⟨hgrows₃, hsame₃⟩ := hvol₂.create_grows hxspare hlen hcreate
    have hlive₃ : s₃.live = x :: s₂.live := hlive₃
    have h₃ := h₂.fresh hxlive hvol₃ hlive₃
    have hd₃ := h₃.openDir (hb₃.dirs ▸ hd₂.handle) ((hholds₃ _ _).2 hd₂.holds)
    have hnew : x ∉ T.sectors := fun hmem => hxlive (h₂.files x hmem).1
    have hroom' : s.FileRoom length := by
      obtain ⟨h0, hmax, hcost⟩ := hroom
      exact ⟨h0, hmax, by omega⟩
    obtain ⟨s₄, ok, hadd, hb₄, hholds₄, hlive₄, hspare₄, hsame₄,
        ⟨haddable, rfl, g', hvol₄, hd₄⟩ | ⟨haddable, rfl, hvol₄, hd₄⟩⟩ :=
      hd₃.add h₃.vol (y := x) hchars.1
    · -- the name is entered
      have hne' : name ≠ [] := List.length_pos_iff.1 haddable.1
      have h₄ := h₃.bind (by rw [hlive₃]; exact List.mem_cons_self) hx0 hxroot hnew hvol₄ hlive₄
        hd₄.folder ⟨hne', hchars⟩ haddable.2.2.1
      obtain ⟨s₅, hleave, h₅, hcwd₅, haround₅, hroot₅, hout₅⟩ :=
        h₄.leave hd₄ (by rw [hb₄.cwd, hb₃.cwd, hb₂.cwd]; exact hcwd₁) hcnt
      refine ⟨s₅, true, ?_, ⟨hcwd₅, ?_, fun p y hy => ?_, fun p hp => ?_, ?_, hout₁.same hout₅⟩,
        .inl ⟨rfl, hroom', haddable.2.1, haddable.2.2.1, fun hslot => ?_, x, g', ?_, fun p hp => ?_,
          ?_, h₅⟩⟩
      · unfold Fs.filesysCreate
        rw [hsplit]
        exact henter.bind (Does.bind (hsome.bind (hcreate.bind (hadd.bind (.pure _ _))))
          (hleave.bind (.pure _ _)))
      · exact haround₁.files.trans (((hb₂.trans hb₃).trans hb₄).sameFiles.trans haround₅.files)
      · rw [haround₅.holds p y hy, hholds₄, hholds₃, hholds₂, haround₁.holds p y hy]
      · have hp := hroot₅ p hp
        rw [hholds₄, hholds₃, hholds₂] at hp
        exact back_root hroot₁ hp
      · rw [haround₅.freeMap, hb₄.size, hb₃.size, hb₂.size, haround₁.freeMap]
      · rw [haround₅.freeMap, hsame₄ hslot]
        omega
      · rwa [← haround₁.live, ← hlive₂]
      · exact hxopen p ((hholds₂ _ _).2 ((haround₁.holds p x hxroot).2 hp))
      · rw [haround₅.live, hlive₄, hlive₃, hlive₂, haround₁.live]
    · -- the inode is given up
      have hclosed : ∀ p, ¬ s₄.Holds p x := fun p hp => hxopen p ((hholds₃ _ _).1 ((hholds₄ _ _).1 hp))
      have hlive : s₄.live.erase x = s₂.live := by rw [hlive₄, hlive₃, List.erase_cons_head]
      have hdiscard := hvol₄.discard (by rw [hlive₄, hlive₃]; exact List.mem_cons_self) hclosed
      rw [hlive] at hdiscard
      have hvol := hdiscard.forget (fun hpresent => hpresent.elim hxlive fun ⟨p, hp⟩ => hclosed p hp)
      obtain ⟨h₅, hd₅⟩ :=
        h₂.beside hvol rfl hd₂ (hb₃.trans ⟨hb₄.state, hb₄.size⟩) fun p y =>
          (hholds₄ p y).trans (hholds₃ p y)
      obtain ⟨s₆, hrelease, hvol₆, hb₆, hholds₆, hlive₆, -, hgive₆⟩ :=
        hvol.release List.mem_cons_self
      obtain ⟨h₆, hd₆⟩ := h₅.beside hvol₆ hlive₆ hd₅ hb₆ hholds₆
      obtain ⟨s₇, hleave, h₇, hcwd₇, haround₇, hroot₇, hout₇⟩ :=
        h₆.leave hd₆ (by rw [hb₆.cwd, hb₄.cwd, hb₃.cwd, hb₂.cwd]; exact hcwd₁) hcnt
      have hrelease : s₄.Does (withFreeMap fun file => freeMapRelease file x 1) () s₆ := hrelease
      refine ⟨s₇, false, ?_, ⟨hcwd₇, ?_, fun p y hy => ?_, fun p hp => ?_, ?_, hout₁.same hout₇⟩,
        .inr ⟨rfl, ?_, h₇, ?_, ?_⟩⟩
      · unfold Fs.filesysCreate
        rw [hsplit]
        refine henter.bind (Does.bind (hsome.bind (hcreate.bind (hadd.bind (.pure _ _)))) ?_)
        simp only [Bool.not_false, Bool.true_and, hne, if_true]
        exact hrelease.bind (hleave.bind (.pure _ _))
      · exact haround₁.files.trans (((hb₂.trans hb₃).trans hb₄).sameFiles.trans
          (hb₆.sameFiles.trans haround₇.files))
      · rw [haround₇.holds p y hy, hholds₆, ← haround₁.holds p y hy, ← hholds₂, ← hholds₃,
          ← hholds₄]
        rfl
      · obtain ⟨hp, hne⟩ := hroot₇ p hp
        have hp : s₄.Holds p rootDirSector := (hholds₆ _ _).1 hp
        rw [hholds₄, hholds₃, hholds₂] at hp
        exact back_root hroot₁ ⟨hp, hne⟩
      · rw [haround₇.freeMap, hb₆.size, hb₄.size, hb₃.size, hb₂.size, haround₁.freeMap]
      · rw [haround₇.live, hlive₆, hlive₂, haround₁.live]
      · rintro ⟨-, hne', hlen, hno, hslot⟩
        have hlt := Table.freeSlot_lt hslot
        have hglen := hd₃.folder.length
        exact haddable ⟨List.length_pos_iff.2 hne', hlen, hno,
          h₃.vol.room_of_le hd₃.sector (.inr ⟨_, hd₃.holds⟩) hd₃.node (by omega)
          (by simp only; omega)⟩
      · obtain ⟨hgrows₄, hsame₄⟩ := hd₃.add_grows h₃.vol hadd
        rw [haround₇.freeMap, Grows.back_iff h.vol.map_size htakes₂
          (hgrows₃.trans hgrows₄) hb₆.size hgive₆,
          hgrows₃.trans_eq_iff hvol₂.map_size hgrows₄, hsame₃, hsame₄, TakesNothing]
        have hpos := hroom.1
        by_cases hzero : length = 0
        · -- a file without sectors
          subst hzero
          have hnone : freeCount s₃.st.freeMap = 0 ↔ freeCount s.st.freeMap ≤ 1 := by
            have hcount₃ : freeCount s₃.st.freeMap + 0 = freeCount s₂.st.freeMap := hcount₃
            omega
          rw [hnone]
          simp
        · rw [or_iff_right (a := length ≤ 0) (by omega), or_iff_right (a := length < 0) (by omega),
            or_iff_left (a := freeCount s.st.freeMap ≤ 1) fun hzero' => hzero hzero'.1]
          exact ⟨fun hlost => by omega, fun hfew => ⟨by omega, .inl (by omega)⟩⟩
  · -- there are not the sectors
    obtain ⟨hgrows₃, hsame₃⟩ := hvol₂.create_grows hxspare hlen hcreate
    obtain ⟨h₃, hd₃⟩ := h₂.beside hvol₃ hlive₃ hd₂ hb₃ hholds₃
    obtain ⟨s₄, hrelease, hvol₄, hb₄, hholds₄, hlive₄, -, hgive₄⟩ :=
      hvol₃.release (by rw [hspare₃]; exact hxspare)
    obtain ⟨h₄, hd₄⟩ := h₃.beside hvol₄ hlive₄ hd₃ hb₄ hholds₄
    obtain ⟨s₅, hleave, h₅, hcwd₅, haround₅, hroot₅, hout₅⟩ :=
      h₄.leave hd₄ (by rw [hb₄.cwd, hb₃.cwd, hb₂.cwd]; exact hcwd₁) hcnt
    refine ⟨s₅, false, ?_, ⟨hcwd₅, ?_, fun p y hy => ?_, fun p hp => ?_, ?_, hout₁.same hout₅⟩,
      .inr ⟨rfl, ?_, h₅, ?_, ?_⟩⟩
    · unfold Fs.filesysCreate
      rw [hsplit]
      refine henter.bind (Does.bind (hsome.bind (hcreate.bind (.pure _ _))) ?_)
      simp only [Bool.not_false, Bool.true_and, hne, if_true]
      exact hrelease.bind (hleave.bind (.pure _ _))
    · exact haround₁.files.trans (((hb₂.trans hb₃).trans hb₄).sameFiles.trans haround₅.files)
    · rw [haround₅.holds p y hy, hholds₄, hholds₃, hholds₂, haround₁.holds p y hy]
    · have hp := hroot₅ p hp
      rw [hholds₄, hholds₃, hholds₂] at hp
      exact back_root hroot₁ hp
    · rw [haround₅.freeMap, hb₄.size, hb₃.size, hb₂.size, haround₁.freeMap]
    · rw [haround₅.live, hlive₄, hlive₃, hlive₂, haround₁.live]
    · rintro ⟨⟨h0, hmax, hcost⟩, -⟩
      exact hroom ⟨h0, hmax, by omega⟩
    · rw [haround₅.freeMap, Grows.back_iff h.vol.map_size htakes₂ hgrows₃ hb₄.size hgive₄, hsame₃,
        TakesNothing]
      have hzero : length ≠ 0 := by
        rintro rfl
        exact hroom ⟨Int.le_refl 0, by decide, Nat.zero_le _⟩
      rw [or_iff_left (a := freeCount s.st.freeMap ≤ 1) fun hzero' => hzero hzero'.1]
      omega

/-- **`filesys_create`** of a file in the root directory. -/
theorem filesysCreate (h : Rooted s a g T) (hcwd : s.CwdOk) {path name : CString}
    (hpath : fileName path = name) (hname : name ≠ [] ∧ 0 ∉ name ∧ slash ∉ name) {length : Int}
    (hlen : length < 2 ^ 31) :
    ∃ s' ok, s.Does (Fs.filesysCreate path length false) ok s' ∧ s.Keeping s' ∧
      (ok = true ∧ s.FileRoom length ∧ name.length ≤ nameMax ∧ SlotMap.lookup T name = none ∧
          (none ∈ T → freeCount s'.st.freeMap + (1 + sectorCost (bytesToSectors length.toNat)) =
            freeCount s.st.freeMap) ∧
          (∃ y g', y ∉ s.live ∧ (∀ p, ¬ s.Holds p y) ∧ s'.live = y :: s.live ∧
            Rooted s' (Function.update (Function.update a y (some ⟨.zeros length.toNat, false⟩))
              rootDirSector (some ⟨g', true⟩)) g' (SlotMap.put T (name, y))) ∨
        ok = false ∧ s'.live = s.live ∧ Rooted s' a g T ∧
          ¬ (s.FileRoom length ∧ name.length ≤ nameMax ∧ SlotMap.lookup T name = none ∧
            none ∈ T)) := by
  obtain ⟨s', ok, hdoes, hkeep, hok | ⟨hok, hlive, h', hno, -⟩⟩ :=
    h.filesysCreate_cases hcwd hpath hname.2 hlen
  · exact ⟨s', ok, hdoes, hkeep, .inl hok⟩
  · exact ⟨s', ok, hdoes, hkeep, .inr ⟨hok, hlive, h',
      fun ⟨hroom, hrest⟩ => hno ⟨hroom, hname.1, hrest⟩⟩⟩

/-! ## Opening a file -/

theorem file_of_lookup (h : Rooted s a g T) {name : CString} {y : BlockSector}
    (hy : SlotMap.lookup T name = some y) :
    y ∈ s.live ∧ y ≠ freeMapSector ∧ y ≠ rootDirSector ∧ ∃ f, a y = some ⟨f, false⟩ :=
  h.files y (Table.mem_sectors.2 ⟨name, (SlotMap.lookup_eq_some h.distinct).1 hy⟩)

end Rooted

/-- `dir_lookup` of `.` and `..` in the root directory: its own inode, as it is. -/
theorem OpenDir.dirLookup_dots {s : Session} {a : BlockSector → Option Node} {g : Growable UInt8}
    {T : Table} {d : Ptr} {dir : Dir} {name : CString}
    (hd : OpenDir s a d dir rootDirSector rootDirSector g T) (h : Volume s a)
    (hdots : IsDots name) : s.Does (Fs.dirLookup d name) (some dir.inode) s := by
  refine hd.derefDir.bind ?_
  rcases hdots with rfl | rfl
  · rw [if_pos rfl]
    exact Does.bind (.pure _ _) (.pure _ _)
  · obtain ⟨e, es, hentries, -, hsector, -⟩ := hd.folder.entries
    have hread := h.readEntry hd.holds hd.sector hd.node 0
    rw [hentries, List.getElem?_cons_zero] at hread
    have hopen : s.Does (inodeOpen e.inodeSector) dir.inode s := by
      rw [hsector]
      exact h.open_hit hd.holds
    rw [if_neg (by decide), if_pos rfl]
    exact hread.bind (Does.bind (.pure _ _) (hopen.bind (.pure _ _)))

theorem Listed.dirLookup {s : Session} {a : BlockSector → Option Node} {g : Growable UInt8}
    {T : Table} {d : Ptr} {dir : Dir} (h : Listed s a g T)
    (hd : OpenDir s a d dir rootDirSector rootDirSector g T) {name : CString}
    (hdot : name ≠ [dot] ∧ name ≠ [dot, dot]) : match SlotMap.lookup T name with
    | none => s.Does (Fs.dirLookup d name) none s
    | some y =>
      ∃ p s', s.Does (Fs.dirLookup d name) (some p) s' ∧ Volume s' a ∧ s.Beside s' ∧ s'.Holds p y ∧
        (∀ p' z, s.Holds p' z → s'.Holds p' z) ∧
        (∀ p' z, s'.Holds p' z → s.Holds p' z ∨ p' = p ∧ z = y) ∧
        s'.live = s.live ∧ s'.spare = s.spare ∧ s'.st.freeMap = s.st.freeMap ∧ s'.image = s.image ∧
        ∀ z, s'.data z = s.data z := by
  cases hy : SlotMap.lookup T name with
  | none =>
    refine hd.derefDir.bind ?_
    rw [if_neg hdot.1, if_neg hdot.2]
    exact (hd.lookup_none h.vol hy).bind (.pure _ _)
  | some y =>
    obtain ⟨i, e, z, -, hi, he, hlook⟩ :=
      hd.lookup_some h.vol (show SlotMap.lookup T name ≠ none by rw [hy]; simp)
    obtain rfl : z = y := Option.some.inj ((SlotMap.lookup_of_slot h.distinct hi).symm.trans hy)
    have hesec : e.inodeSector = z := by
      unfold DirEntry.slot at he
      split at he
      · exact congrArg Prod.snd (Option.some.inj he)
      · cases he
    obtain ⟨p, s', hopen, hrest⟩ := h.vol.openAny (h.file_of_lookup hy).1
    refine ⟨p, s', hd.derefDir.bind ?_, hrest⟩
    rw [if_neg hdot.1, if_neg hdot.2]
    refine hlook.bind ?_
    rw [← hesec] at hopen
    exact hopen.bind (.pure _ _)

/-- The file on inode `y` has been opened. -/
structure Session.Opens (s s' : Session) (p : Ptr) (y : BlockSector) : Prop where
  cwd : s'.CwdOk
  file : OpenFile s' s.st.files.next ⟨p, 0, false⟩ y
  get : ∀ q, s'.st.files.get q = if q = s.st.files.next then some ⟨p, 0, false⟩ else s.st.files.get q
  table : s'.st.fileTable = s.st.fileTable
  holds : ∀ q z, z ≠ rootDirSector → (s'.Holds q z ↔ s.Holds q z ∨ q = p ∧ z = y)
  live : s'.live = s.live
  freeMap : s'.st.freeMap = s.st.freeMap
  image : s'.image = s.image
  dir : s.SameCwd s'
  data : ∀ z, z ≠ rootDirSector → s'.data z = s.data z

namespace Listed

variable {s s' : Session} {a a' : BlockSector → Option Node} {g : Growable UInt8} {T : Table}

/-- **`filesys_open`** of a file in the root directory. -/
theorem filesysOpen (h : Listed s a g T) (hcwd : s.CwdOk) {path name : CString}
    (hpath : fileName path = name) (hne : name ≠ []) (hdot : name ≠ [dot] ∧ name ≠ [dot, dot])
    {y : BlockSector} (hy : SlotMap.lookup T name = some y) :
    ∃ p s', s.Does (filesysOpen path) (some s.st.files.next) s' ∧ Listed s' a g T ∧ s.Opens s' p y := by
  obtain ⟨d, dir, s₁, henter, h₁, hd₁, hcnt, hcwd₁, haround₁, -, hout₁, -⟩ := h.enter hcwd
  have hlook := h₁.dirLookup hd₁ hdot
  rw [hy] at hlook
  obtain ⟨p, s₂, hlookup, hvol₂, hb₂, hp₂, hkeep₂, hback₂, hlive₂, hspare₂, hmap₂,
    himage₂,
      hdata₂⟩ := hlook
  have h₂ := h₁.next hvol₂ hlive₂
  have hd₂ := h₂.openDir (hb₂.dirs ▸ hd₁.handle) (hkeep₂ _ _ hd₁.holds)
  obtain ⟨s₃, hleave, h₃, hcwd₃, haround₃, -, hout₃⟩ :=
    h₂.leave hd₂ (by rw [hb₂.cwd]; exact hcwd₁) hcnt
  obtain ⟨hylive, hy0, hyroot⟩ := h.file_of_lookup hy
  have hp₃ := (haround₃.holds p y hyroot).2 hp₂
  have hremoved : s₃.Does (inodeIsRemoved p) false s₃ := by
    have := h₃.vol.isRemoved hp₃ hy0
    rwa [haround₃.live, hlive₂, haround₁.live, decide_eq_false (not_not_intro hylive)] at this
  obtain ⟨s₄, hopen, hm⟩ := exists_fileOpen s₃ p
  have hvol₄ := h₃.vol.fileOpen hm
  have hfiles : s.SameFiles s₃ := haround₁.files.trans (hb₂.sameFiles.trans haround₃.files)
  have hnext : s₃.st.files = s.st.files := by rw [hfiles]
  rw [hnext] at hopen hm
  have hfile : OpenFile s₄ s.st.files.next ⟨p, 0, false⟩ y :=
    ⟨by rw [hm.get, if_pos rfl], (hm.holds _ _).2 hp₃, hy0⟩
  obtain ⟨directory, hsplit⟩ : ∃ directory, splitPathFilename path = (directory, name) :=
    ⟨_, Prod.ext rfl hpath⟩
  have hsame := hout₁.same hout₃
  refine ⟨p, s₄, ?_, h₃.next hvol₄ hm.live, ?_, hfile,
    fun q => by rw [hm.get, hnext], ?_, fun q z hz => ?_, ?_, ?_, ?_,
    ⟨by rw [hm.state]; exact hsame.cwd, fun d' hd' => by rw [hm.state]; exact hsame.get d' hd'⟩,
    fun z hz => ?_⟩
  · unfold Fs.filesysOpen
    rw [if_neg (ne_nil_of_fileName hpath hne), hsplit]
    refine henter.bind ?_
    simp only [ne_eq, hne, not_false_eq_true, if_true]
    refine Does.bind (hlookup.bind (hleave.bind (.pure _ _))) (hremoved.bind ?_)
    exact hopen
  · intro d' hd'
    rw [hm.state] at hd'
    obtain ⟨dir', hget, hp', hcnt'⟩ := hcwd₃ d' hd'
    exact ⟨dir', by rw [hm.state]; exact hget, (hm.holds _ _).2 hp', hcnt'⟩
  · rw [hm.state, show s₃.st.fileTable = s.st.fileTable by rw [hfiles]]
  · rw [hm.holds, haround₃.holds q z hz, ← haround₁.holds q z hz]
    refine ⟨hback₂ q z, ?_⟩
    rintro (hq | ⟨rfl, rfl⟩)
    · exact hkeep₂ q z hq
    · exact hp₂
  · rw [hm.live, haround₃.live, hlive₂, haround₁.live]
  · rw [hm.state]
    exact haround₃.freeMap.trans (hmap₂.trans haround₁.freeMap)
  · rw [hm.image, haround₃.image, himage₂, haround₁.image]
  · have hdata : s₄.data z = s₃.data z := by
      rw [Session.data, hm.state, hm.image]
      rfl
    rw [hdata, haround₃.data z hz, hdata₂, haround₁.data z hz]

end Listed

/-- `filesys_open` of `.` and `..` where the root directory is open: a file on its own inode. -/
theorem Listed.filesysOpen_dots {s : Session} {a : BlockSector → Option Node} {g : Growable UInt8}
    {T : Table} {d : Ptr} {dir : Dir} {path name : CString} (h : Listed s a g T)
    (hd : OpenDir s a d dir rootDirSector rootDirSector g T) (hcwd : s.st.cwd = some d)
    (hcnt : 0 < dir.openCnt) (hpath : fileName path = name) (hdots : IsDots name) :
    ∃ s', s.Does (Fs.filesysOpen path) (some s.st.files.next) s' ∧ Listed s' a g T ∧
      OpenDir s' a d dir rootDirSector rootDirSector g T ∧
      OpenFile s' s.st.files.next ⟨dir.inode, 0, false⟩ rootDirSector ∧
      s'.st.cwd = some d := by
  have hne : name ≠ [] := by rcases hdots with rfl | rfl <;> simp
  obtain ⟨s₁, hroot, hstands₁⟩ := Listed.openRoot_again hcwd hd.handle
  have hd₁ := hd.stands hstands₁ rfl
  have h₁ := h.next (hstands₁.volume h.vol) hstands₁.live
  have hlookup := hd₁.dirLookup_dots h₁.vol hdots
  obtain ⟨s₂, hclose, hstands₂⟩ := OpenDir.close_more hd₁.handle (by simp only; omega)
  have hd₂ := hd₁.stands hstands₂ rfl
  have h₂ := h₁.next (hstands₂.volume h₁.vol) hstands₂.live
  have hremoved : s₂.Does (inodeIsRemoved dir.inode) false s₂ := by
    have := h₂.vol.isRemoved hd₂.holds hd₂.sector
    rwa [decide_eq_false (not_not_intro h₂.root)] at this
  obtain ⟨s₃, hfile, hm₃⟩ := exists_fileOpen s₂ dir.inode
  have hfiles : s₂.st.files = s.st.files := by rw [hstands₂.state, hstands₁.state]
  rw [hfiles] at hfile hm₃
  have h₃ : Listed s₃ a g T := h₂.next (h₂.vol.fileOpen (by rw [hfiles]; exact hm₃)) hm₃.live
  have hroot₃ : s₃.Holds dir.inode rootDirSector := (hm₃.holds _ _).2 hd₂.holds
  have hget₃ : s₃.st.dirs.get d = some dir := by
    have hget := hd₂.handle
    simp only [Int.add_sub_cancel] at hget
    rw [hm₃.state]
    exact hget
  refine ⟨s₃, ?_, h₃, h₃.openDir hget₃ hroot₃,
    ⟨by rw [hm₃.get, if_pos rfl], hroot₃, hd.sector⟩, ?_⟩
  · obtain ⟨directory, hsplit⟩ : ∃ directory, splitPathFilename path = (directory, name) :=
      ⟨_, Prod.ext rfl hpath⟩
    unfold Fs.filesysOpen
    rw [if_neg (ne_nil_of_fileName hpath hne), hsplit]
    refine hroot.bind ?_
    simp only [ne_eq, hne, not_false_eq_true, if_true]
    exact Does.bind (hlookup.bind (hclose.bind (.pure _ _))) (hremoved.bind hfile)
  · rw [hm₃.state, hstands₂.state, hstands₁.state]
    exact hcwd

/-- Where it is closed, the inode is gone with the directory when `filesys_open` looks at it. -/
theorem Listed.filesysOpen_dots_closed {s : Session} {a : BlockSector → Option Node}
    {g : Growable UInt8} {T : Table} {path : CString} (h : Listed s a g T) (hcwd : s.st.cwd = none)
    (hdots : IsDots (fileName path)) : (Fs.filesysOpen path).exec s.st s.image = none := by
  have hne : fileName path ≠ [] := by rcases hdots with he | he <;> simp [he]
  obtain ⟨p, s₁, hroot, h₁, hd₁, -⟩ := h.openRoot hcwd
  have hlookup := hd₁.dirLookup_dots h₁.vol hdots
  obtain ⟨s₂, hclose, -, hshuts⟩ := OpenDir.close_last h₁.vol hd₁.handle hd₁.holds hd₁.sector rfl
  have hgone : s₂.st.openInodes.get p = none :=
    Session.get_of_not_holds fun x hx => ((hshuts.holds _ _).1 hx).2 rfl
  obtain ⟨directory, hsplit⟩ : ∃ directory, splitPathFilename path = (directory, fileName path) :=
    ⟨_, Prod.ext rfl rfl⟩
  unfold Session.Does at hroot hlookup hclose
  unfold Fs.filesysOpen
  rw [if_neg (ne_nil_of_fileName rfl hne), hsplit]
  simp [hroot, hne, hlookup, hclose, inodeIsRemoved, exec_derefInode, hgone]

namespace Rooted

variable {s s' : Session} {a a' : BlockSector → Option Node} {g : Growable UInt8} {T : Table}

/-- **`filesys_open`** of a file in the root directory. -/
theorem filesysOpen (h : Rooted s a g T) (hcwd : s.CwdOk) {path name : CString}
    (hpath : fileName path = name) (hne : name ≠ []) (hdot : name ≠ [dot] ∧ name ≠ [dot, dot])
    {y : BlockSector} (hy : SlotMap.lookup T name = some y) :
    ∃ p s', s.Does (Fs.filesysOpen path) (some s.st.files.next) s' ∧ Rooted s' a g T ∧
      s.Opens s' p y := by
  obtain ⟨p, s', hopen, h', ho⟩ := h.listed.filesysOpen hcwd hpath hne hdot hy
  exact ⟨p, s', hopen, h.next h'.vol ho.live, ho⟩

/-- `filesys_open` of a name that is not there. -/
theorem filesysOpen_none (h : Rooted s a g T) (hcwd : s.CwdOk) {path name : CString}
    (hpath : fileName path = name) (hne : name ≠ []) (hdot : name ≠ [dot] ∧ name ≠ [dot, dot])
    (hno : SlotMap.lookup T name = none) :
    ∃ s', s.Does (Fs.filesysOpen path) none s' ∧ Rooted s' a g T ∧ s.Keeping s' := by
  obtain ⟨d, dir, s₁, henter, h₁, hd₁, hcnt, hcwd₁, haround₁, hroot₁, hout₁, -⟩ :=
    h.enter hcwd
  have hlook := h₁.listed.dirLookup hd₁ hdot
  rw [hno] at hlook
  obtain ⟨s₂, hleave, h₂, hcwd₂, haround₂, hroot₂, hout₂⟩ := h₁.leave hd₁ hcwd₁ hcnt
  obtain ⟨directory, hsplit⟩ : ∃ directory, splitPathFilename path = (directory, name) :=
    ⟨_, Prod.ext rfl hpath⟩
  refine ⟨s₂, ?_, h₂, ⟨hcwd₂, haround₁.files.trans haround₂.files, fun p y hy =>
    (haround₂.holds p y hy).trans (haround₁.holds p y hy), fun p hp =>
      back_root hroot₁ (hroot₂ p hp), ?_, hout₁.same hout₂⟩⟩
  · unfold Fs.filesysOpen
    rw [if_neg (ne_nil_of_fileName hpath hne), hsplit]
    refine henter.bind ?_
    simp only [ne_eq, hne, not_false_eq_true, if_true]
    exact Does.bind (hlook.bind (hleave.bind (.pure _ _))) (.pure _ _)
  · rw [haround₂.freeMap, haround₁.freeMap]

end Rooted

/-! ## Removing a file -/

namespace Rooted

variable {s s' : Session} {a a' : BlockSector → Option Node} {g : Growable UInt8} {T : Table}

/-- A file has been removed, and its slot freed. -/
theorem unbind {i : Nat} {name : CString} {y : BlockSector} {g' : Growable UInt8}
    (h : Rooted s a g T) (hi : T[i]? = some (some (name, y))) (hlive : s'.live = s.live.erase y)
    (hvol : Volume s' (Function.update a rootDirSector (some ⟨g', true⟩)))
    (hfolder : Folder g' rootDirSector (T.set i none)) :
    Rooted s' (Function.update a rootDirSector (some ⟨g', true⟩)) g' (T.set i none) := by
  have hperm := SlotMap.free_perm hi
  have hnodup := (hperm.map Prod.snd).nodup_iff.1 h.sectors
  rw [List.map_cons, List.nodup_cons] at hnodup
  have hmem : ∀ z ∈ Table.sectors (T.set i none), z ∈ T.sectors := fun z hz =>
    (hperm.map Prod.snd).mem_iff.2 (List.mem_cons_of_mem _ hz)
  have hy : y ∈ T.sectors := (hperm.map Prod.snd).mem_iff.2 List.mem_cons_self
  have hroot := (h.files y hy).2.2.1
  refine ⟨hvol, ?_, Function.update_self .., hfolder, h.distinct.free hi,
    fun x hx => h.names x (hperm.mem_iff.2 (List.mem_cons_of_mem _ hx)), hnodup.2, fun z hz => ?_⟩
  · rw [hlive]
    exact (List.mem_erase_of_ne (Ne.symm hroot)).2 h.root
  · obtain ⟨hzlive, hz0, hzroot, f, hf⟩ := h.files z (hmem z hz)
    have hzy : z ≠ y := by
      rintro rfl
      exact hnodup.1 hz
    exact ⟨by rw [hlive]; exact (List.mem_erase_of_ne hzy).2 hzlive, hz0, hzroot,
      f, by rw [Function.update_of_ne hzroot]; exact hf⟩

theorem splitPathFilename_rooted {name : CString} (hne : name ≠ []) (hslash : slash ∉ name) :
    splitPathFilename (slash :: name) = ([slash], name) := by
  have htokens : tokens (slash :: name) = [name] := by
    rw [tokens, List.splitOn_cons_eq_if_modifyHead, if_pos (beq_self_eq_true _),
      List.splitOn_eq_singleton hslash]
    simp [hne]
  rw [splitPathFilename, htokens]
  rfl

/-- **`filesys_remove`** of a file of the root directory, by its absolute path. -/
theorem filesysRemove (h : Rooted s a g T) (hcwd : s.CwdOk) {name : CString}
    (hname : name ≠ [] ∧ slash ∉ name) :
    ∃ s' ok, s.Does (filesysRemove (slash :: name)) ok s' ∧ s'.CwdOk ∧ s.SameFiles s' ∧
      s'.st.freeMap.length = s.st.freeMap.length ∧ freeCount s.st.freeMap ≤ freeCount s'.st.freeMap ∧
      (∀ p, s'.Holds p rootDirSector → s.Holds p rootDirSector) ∧
      (ok = true ∧ (∃ i y g', T[i]? = some (some (name, y)) ∧
          Rooted s' (Function.update a rootDirSector (some ⟨g', true⟩)) g' (T.set i none) ∧
          s'.live = s.live.erase y ∧
          ∀ p z, z ≠ rootDirSector → (s'.Holds p z ↔ s.Holds p z ∧ z ≠ y)) ∨
        ok = false ∧ SlotMap.lookup T name = none ∧ Rooted s' a g T ∧ s'.live = s.live ∧
          ∀ p z, z ≠ rootDirSector → (s'.Holds p z ↔ s.Holds p z)) := by
  obtain ⟨d, dir, s₁, henter, h₁, hd₁, hcnt, hcwd₁, haround₁, hroot₁, -⟩ := h.enter hcwd
  have hpath : s.Does (dirOpenPath [slash]) (some d) s₁ := by
    refine Does.bind henter (Does.bind (Does.pure s₁ (some d)) ?_)
    refine hd₁.getInode.bind ?_
    have hremoved := h₁.vol.isRemoved hd₁.holds hd₁.sector
    rw [decide_eq_false (not_not_intro h₁.root)] at hremoved
    exact hremoved.bind (.pure _ _)
  have hfiles : ∀ y, some (name, y) ∈ T → y ∈ s₁.live ∧ y ≠ freeMapSector ∧
    y ≠ rootDirSector ∧
      ∃ f, a y = some ⟨f, false⟩ :=
    fun y hy => h₁.files y (Table.mem_sectors.2 ⟨name, List.reduceOption_mem_iff.2 hy⟩)
  obtain ⟨s₂, ok, hremove, hb₂, hspare₂, hle₂, hres⟩ := hd₁.remove h₁.vol hfiles
  have hexec : ∀ s₃, s₂.Does (dirClose (some d)) () s₃ →
      s.Does (Fs.filesysRemove (slash :: name)) ok s₃ := fun s₃ hclose => by
    unfold Fs.filesysRemove
    rw [splitPathFilename_rooted hname.1 hname.2]
    exact hpath.bind (hremove.bind (hclose.bind (.pure _ _)))
  rcases hres with ⟨rfl, i, y, g', hi, hlive₂, hholds₂, hvol₂, hd₂⟩ | ⟨hno, rfl, rfl⟩
  · have h₂ := h₁.unbind hi hlive₂ hvol₂ hd₂.folder
    obtain ⟨s₃, hleave, h₃, hcwd₃, haround₃, hroot₃, -⟩ :=
      h₂.leave hd₂ (by rw [hb₂.cwd]; exact hcwd₁) hcnt
    refine ⟨s₃, true, hexec s₃ hleave, hcwd₃,
      haround₁.files.trans (hb₂.sameFiles.trans haround₃.files), ?_, ?_,
      fun p hp => ?_, .inl ⟨rfl, i, y, g', hi, h₃, ?_, fun p z hz => ?_⟩⟩
    · rw [haround₃.freeMap, hb₂.size, haround₁.freeMap]
    · rw [haround₃.freeMap, ← haround₁.freeMap]
      exact hle₂
    · obtain ⟨hp, hne⟩ := hroot₃ p hp
      exact back_root hroot₁ ⟨((hholds₂ _ _).1 hp).1, hne⟩
    · rw [haround₃.live, hlive₂, haround₁.live]
    · rw [haround₃.holds p z hz, hholds₂, haround₁.holds p z hz]
  · obtain ⟨s₃, hleave, h₃, hcwd₃, haround₃, hroot₃, -⟩ := h₁.leave hd₁ hcwd₁ hcnt
    refine ⟨s₃, false, hexec s₃ hleave, hcwd₃, haround₁.files.trans haround₃.files, ?_, ?_,
      fun p hp => back_root hroot₁ (hroot₃ p hp),
      .inr ⟨rfl, hno, h₃, haround₃.live.trans haround₁.live, fun p z hz => ?_⟩⟩
    · rw [haround₃.freeMap, haround₁.freeMap]
    · rw [haround₃.freeMap, haround₁.freeMap]
    · rw [haround₃.holds p z hz, haround₁.holds p z hz]

end Rooted

/-! ## A new file system -/

/-- **After formatting** the root directory is there, with no names in it. -/
theorem Rooted.format {n : BlockSector} {v₀ : Image} {st : FsState} {v : Image}
    (hrun : (filesysInit n.toNat true).exec initialState v₀ = some (true, st, v)) :
    ∃ a g, Rooted ⟨st, v, [rootDirSector], []⟩ a g (List.replicate 999 none) ∧
      Session.CwdOk ⟨st, v, [rootDirSector], []⟩ := by
  obtain ⟨q, fm, hinv, hf⟩ := Session.Inv.format hrun
  let s : Session := ⟨st, v, [rootDirSector], []⟩
  let g : Growable UInt8 :=
    (Growable.zeros (36 * 1000)).write 0 (DirEntry.toBytes ⟨rootDirSector, [], true⟩)
  have hbytes := DirEntry.length_toBytes ⟨rootDirSector, [], true⟩
  have hdata : s.data rootDirSector = InodeDisk.ofSector (v rootDirSector) := by
    have hfind : st.openInodes.cells.find? (fun c => c.2.sector = rootDirSector) = none := by
      refine List.find?_eq_none.2 fun c hc hsec => ?_
      obtain ⟨p, i⟩ := c
      have hget : st.openInodes.get p = some i := Heap.get_of_mem hc
      exact hinv.closed (C := [rootDirSector]) List.mem_cons_self p ⟨i, hget, by simpa using hsec⟩
    rw [Session.data, hfind]
  have hempty : (List.replicate 999 (none : Option (CString × BlockSector))).reduceOption = [] :=
    List.reduceOption_replicate_none
  refine ⟨Function.update (fun _ => none) rootDirSector (some ⟨g, true⟩), g,
    ⟨⟨⟨q, fm, _, hinv⟩, fun x m _ _ ha => ?_⟩,
    List.mem_cons_self, Function.update_self .., Folder.new 1000, ?_, ?_, ?_, ?_⟩, fun d hd => ?_⟩
  · by_cases hx : x = rootDirSector
    · subst hx
      rw [Function.update_self] at ha
      cases ha
      refine ⟨⟨?_, fun pos => ?_⟩, ?_⟩
      · rw [hdata, hf.length, Growable.length_write, hbytes, Growable.length_zeros]
        rfl
      · rw [hdata, hf.content, Growable.get_write, hbytes, Growable.get_zeros]
        split
        · rfl
        · exact List.getD_eq_default _ _ (by omega)
      · rw [hdata, hf.isDir]
    · rw [Function.update_of_ne hx] at ha
      cases ha
  · rw [SlotMap.Distinct, hempty]
    exact List.nodup_nil
  · rw [hempty]
    exact fun x hx => absurd hx List.not_mem_nil
  · rw [Table.sectors, hempty]
    exact List.nodup_nil
  · rw [Table.sectors, hempty]
    exact fun y hy => absurd hy List.not_mem_nil
  · have hd : st.cwd = some d := hd
    rw [hf.state] at hd
    cases hd

end MyShell.Fs

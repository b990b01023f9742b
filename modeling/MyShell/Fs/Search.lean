/-
Searching the files of the root directory (`find_file` in fsutil2.c).

`found_in_file` reads through the shell's handle on the file, from wherever
earlier commands have left the position in it. So a search depends on the
positions: `Stocked` says what the shell's handles are on, and
`Stocked.findFile` what a search prints where they stand so or so.
-/
import MyShell.Fs.Append

namespace MyShell.Fs

open Storage Session

/-! ## From source -/

/-- What `find_file` prints. -/
inductive Printed where
  | noMemory (fname : CString)
  | errorReading (fname : CString)
  | name (fname : CString)
  deriving DecidableEq

/-- `strstr (buffer, pattern) != NULL`. In a buffer without a NUL it reads on
behind the end. -/
def strstr (buffer : List UInt8) (pattern : CString) : Option Bool :=
  if 0 ∈ buffer then some (pattern <:+: buffer.takeWhile (· ≠ 0)) else none

/-- `found_in_file`, with what it prints. -/
def foundInFile (pattern fname : CString) : FsM (Bool × List Printed) := do
  let fileSize ← fsutilSize fname
  -- for a size of -1 there is no memory
  if fileSize < 0 then pure (false, [.noMemory fname])
  else do
    match ← fsutilRead fname fileSize with
    | none => pure (false, [.errorReading fname])
    | some buffer =>
      if buffer.length ≠ fileSize then pure (false, [.errorReading fname])
      else return (← Cmd.ofOption (strstr buffer pattern), [])

/-- The body of the loop of `find_file`. -/
def findInFile (pattern name : CString) : FsM (List Printed) := do
  let (found, printed) ← foundInFile pattern name
  pure (if found then printed ++ [.name name] else printed)

/-- `find_file` -/
def findFile (pattern : CString) : FsM (List Printed) := do
  match ← dirOpenRoot with
  | none => pure []
  | some dir => do
    let printed ← forEachName dir (findInFile pattern)
    dirClose (some dir)
    pure printed

/-! ## The shell's handles -/

/-- The path is that of a file: its last part is not empty, and not one of the
two that stand for directories. -/
def NamesFile (path : CString) : Prop :=
  fileName path ≠ [] ∧ fileName path ≠ [dot] ∧ fileName path ≠ [dot, dot]

/-- The path consists of slashes only. -/
def Slashes (path : CString) : Prop := path ≠ [] ∧ fileName path = []

instance (path : CString) : Decidable (Slashes path) := inferInstanceAs (Decidable (_ ∧ _))

/-- What a path is of: a file, nothing at all, or a directory. -/
theorem path_cases (path : CString) :
    NamesFile path ∨ path = [] ∨ Slashes path ∨ IsDots (fileName path) := by
  by_cases hpath : path = []
  · exact .inr (.inl hpath)
  · by_cases hname : fileName path = []
    · exact .inr (.inr (.inl ⟨hpath, hname⟩))
    · by_cases hdots : IsDots (fileName path)
      · exact .inr (.inr (.inr hdots))
      · exact .inl ⟨hname, not_or.1 hdots⟩

/-- The files in the root directory, which end with a NUL, and the shell's
handles, each of its own, on some of them. -/
structure Stocked (s : Session) (a : BlockSector → Option Node) (g : Growable UInt8) (T : Table) :
    Prop where
  rooted : Rooted s a g T
  cwd : s.CwdOk
  dots : ∀ x ∈ T.reduceOption, x.1 ≠ [dot] ∧ x.1 ≠ [dot, dot]
  ends : ∀ y ∈ T.sectors, ∀ f, a y = some ⟨f, false⟩ → f.length ≠ 0 → f.get (f.length - 1) = 0
  table : ∀ e ∈ s.st.fileTable, ∃ file y, OpenFile s e.f file y ∧
    SlotMap.lookup T (fileName e.fname) = some y
  handles : (s.st.fileTable.map FileTableEntry.f).Nodup

/-- The position in the file that is open under the name; 0 where none is. -/
def Session.position (s : Session) (fname : CString) : Int :=
  match s.openedAs fname with
  | none => 0
  | some f => ((s.st.files.get f).map File.pos).getD 0

namespace Session

variable {s s' : Session} {fname : CString} {f : Ptr}

theorem position_of {file : File} {y : BlockSector} (hopened : s.openedAs fname = some f)
    (hf : OpenFile s f file y) : s.position fname = file.pos := by
  unfold position
  rw [hopened]
  simp [hf.handle]

theorem position_congr (hopened : s'.openedAs fname = s.openedAs fname)
    (hget : ∀ f, s.openedAs fname = some f → s'.st.files.get f = s.st.files.get f) :
    s'.position fname = s.position fname := by
  unfold position
  rw [hopened]
  cases hf : s.openedAs fname with
  | none => rfl
  | some f => simp only [hget f hf]

theorem SameFiles.position (h : s.SameFiles s') (fname : CString) :
    s'.position fname = s.position fname :=
  position_congr (by rw [openedAs, h, openedAs]) fun f _ => by rw [h]

theorem SameCwd.trans {s'' : Session} (h : s.SameCwd s') (h' : s'.SameCwd s'') : s.SameCwd s'' :=
  ⟨h'.cwd.trans h.cwd, fun d hd => (h'.get d (h.cwd.trans hd)).trans (h.get d hd)⟩

theorem SameCwd.of_eq (hcwd : s'.st.cwd = s.st.cwd) (hdirs : s'.st.dirs = s.st.dirs) : s.SameCwd s' :=
  ⟨hcwd, fun _ _ => by rw [hdirs]⟩

end Session

namespace Stocked

variable {s s' : Session} {a a' : BlockSector → Option Node} {g g' : Growable UInt8} {T T' : Table}
  {path fname : CString} {f : Ptr} {file file' : File} {x y : BlockSector} {b : Growable UInt8}

theorem opened (h : Stocked s a g T) (hf : s.openedAs fname = some f) :
    ∃ file y, OpenFile s f file y ∧ SlotMap.lookup T (fileName fname) = some y := by
  obtain ⟨e, he, rfl⟩ := Option.map_eq_some_iff.1 hf
  obtain rfl : e.fname = fname := by simpa using List.find?_some he
  exact h.table e (List.mem_of_find?_eq_some he)

theorem opened_inj {fname' : CString} (h : Stocked s a g T) (hf : s.openedAs fname = some f)
    (hf' : s.openedAs fname' = some f) : fname = fname' := by
  obtain ⟨e, he, rfl⟩ := Option.map_eq_some_iff.1 hf
  obtain ⟨e', he', heq⟩ := Option.map_eq_some_iff.1 hf'
  obtain rfl := List.inj_on_of_nodup_map h.handles (List.mem_of_find?_eq_some he')
    (List.mem_of_find?_eq_some he) heq
  have hname : e'.fname = fname := by simpa using List.find?_some he
  have hname' : e'.fname = fname' := by simpa using List.find?_some he'
  exact hname.symm.trans hname'

theorem next (h : Stocked s a g T) (hr : Rooted s' a' g' T') (hcwd : s'.CwdOk)
    (hdots : ∀ x ∈ T'.reduceOption, x.1 ≠ [dot] ∧ x.1 ≠ [dot, dot])
    (hends : ∀ y ∈ T'.sectors, ∀ f, a' y = some ⟨f, false⟩ → f.length ≠ 0 →
      f.get (f.length - 1) = 0)
    (htable : s'.st.fileTable = s.st.fileTable)
    (hopen : ∀ f file y, y ≠ rootDirSector → OpenFile s f file y → ∃ file', OpenFile s' f file' y)
    (hlook : ∀ name y, SlotMap.lookup T name = some y → SlotMap.lookup T' name = some y) :
    Stocked s' a' g' T' := by
  refine ⟨hr, hcwd, hdots, hends, fun e he => ?_, by rw [htable]; exact h.handles⟩
  rw [htable] at he
  obtain ⟨file, y, hf, hy⟩ := h.table e he
  obtain ⟨file', hf'⟩ := hopen _ _ _ (h.rooted.file_of_lookup hy).2.2.1 hf
  exact ⟨file', y, hf', hlook _ _ hy⟩

theorem keeping (h : Stocked s a g T) (hr : Rooted s' a g T) (hcwd : s'.CwdOk) (hfiles : s.SameFiles s')
    (hholds : ∀ p y, y ≠ rootDirSector → (s'.Holds p y ↔ s.Holds p y)) : Stocked s' a g T :=
  h.next hr hcwd h.dots h.ends (by rw [hfiles]) (fun _ file y hy hf =>
    ⟨file, by rw [hfiles]; exact hf.handle, (hholds _ _ hy).2 hf.holds, hf.sector⟩) fun _ _ => id

theorem moves (h : Stocked s a g T) (hf : OpenFile s f file x) (hm : s.Moves s' f file')
    (hinode : file'.inode = file.inode) :
    Stocked s' a g T ∧ s.SameCwd s' ∧ (∀ fname, s'.openedAs fname = s.openedAs fname) ∧
      ∀ fname, s.openedAs fname ≠ some f → s'.position fname = s.position fname := by
  have htable : s'.st.fileTable = s.st.fileTable := by rw [hm.state]
  have hopened (fname : CString) : s'.openedAs fname = s.openedAs fname := by
    rw [openedAs, htable, openedAs]
  refine ⟨h.next (h.rooted.next (hf.volume_moves h.rooted.vol hm) hm.live)
    (fun d hd => ?_) h.dots h.ends htable
    (fun f' file₁ y _ hf' => ?_) fun _ _ => id, .of_eq (by rw [hm.state]) (by rw [hm.state]),
      hopened, fun fname hne => ?_⟩
  · rw [hm.state] at hd
    obtain ⟨dir, hget, hp, hcnt⟩ := h.cwd d hd
    exact ⟨dir, by rw [hm.state]; exact hget, (hm.holds _ _).2 hp, hcnt⟩
  · by_cases heq : f' = f
    · subst heq
      obtain rfl : file = file₁ := Option.some.inj (hf.handle.symm.trans hf'.handle)
      exact ⟨file', hf'.moves hm hinode⟩
    · exact ⟨file₁, by rw [hm.get, if_neg heq]; exact hf'.handle, (hm.holds _ _).2 hf'.holds,
        hf'.sector⟩
  · refine position_congr (hopened fname) fun f' hf' => ?_
    rw [hm.get, if_neg]
    rintro rfl
    exact hne hf'

/-! ## Opening -/

theorem addToFileTable {p : Ptr} (h : Stocked s a g T) (hnone : s.openedAs path = none)
    (hf : OpenFile s f ⟨p, 0, false⟩ y) (hy : SlotMap.lookup T (fileName path) = some y)
    (hnew : f ∉ s.st.fileTable.map FileTableEntry.f) :
    ∃ s', s.Does (addToFileTable f path) () s' ∧ Stocked s' a g T ∧ s.SameCwd s' ∧
      (∀ fname, s'.position fname = s.position fname) ∧ s'.openedAs path = some f ∧
      OpenFile s' f ⟨p, 0, false⟩ y := by
  let s' : Session :=
    ⟨{ s.st with fileTable := s.st.fileTable ++ [⟨path, f⟩] }, s.image, s.live, s.spare⟩
  have hkeep (f' : Ptr) (file' : File) (x : BlockSector) (hf' : OpenFile s f' file' x) :
      OpenFile s' f' file' x :=
    ⟨hf'.handle, hf'.holds, hf'.sector⟩
  have hfind : s.st.fileTable.find? (fun e => e.fname = path) = none := by simpa [openedAs] using hnone
  have hopened : s'.openedAs path = some f := by
    rw [openedAs, List.find?_append, hfind]
    simp
  refine ⟨s', ?_, ⟨?_, h.cwd, h.dots, h.ends, fun e he => ?_, ?_⟩, .of_eq rfl rfl, fun fname => ?_,
    hopened, hkeep _ _ _ hf⟩
  · refine (s.getFileByFname path).bind ?_
    rw [hnone]
    rfl
  · exact h.rooted.next (h.rooted.vol.handles rfl rfl rfl rfl rfl rfl fun _ _ => rfl) rfl
  · rcases List.mem_append.1 he with he | he
    · obtain ⟨file, y, hfile, hlook⟩ := h.table e he
      exact ⟨file, y, hkeep _ _ _ hfile, hlook⟩
    · rw [List.mem_singleton.1 he]
      exact ⟨_, y, hkeep _ _ _ hf, hy⟩
  · rw [List.map_append, List.nodup_append]
    refine ⟨h.handles, by simp, fun f₁ hf₁ f₂ hf₂ heq => hnew ?_⟩
    obtain rfl : f₂ = f := List.mem_singleton.1 hf₂
    exact heq ▸ hf₁
  · by_cases hname : fname = path
    · subst hname
      rw [position_of hopened (hkeep _ _ _ hf), position, hnone]
    · refine position_congr ?_ fun _ _ => rfl
      rw [openedAs, List.find?_append, List.find?_cons, decide_eq_false (Ne.symm hname)]
      simp [openedAs]

/-- **The handle under the path**, opened if need be; none exactly if there is no such file. -/
theorem openFname (h : Stocked s a g T) (hpath : NamesFile path) :
    ∃ s', Stocked s' a g T ∧ s.SameCwd s' ∧ (∀ fname, s'.position fname = s.position fname) ∧
      (SlotMap.lookup T (fileName path) = none ∧ s.Does (openFname path) none s' ∨
        ∃ y f file, SlotMap.lookup T (fileName path) = some y ∧ s.Does (Fs.openFname path) (some f) s' ∧
          s'.openedAs path = some f ∧ OpenFile s' f file y) := by
  cases hopened : s.openedAs path with
  | some f =>
    obtain ⟨file, y, hf, hy⟩ := h.opened hopened
    exact ⟨s, h, .of_eq rfl rfl, fun _ => rfl,
      .inr ⟨y, f, file, hy, openFname_again hopened, hopened, hf⟩⟩
  | none =>
    cases hy : SlotMap.lookup T (fileName path) with
    | none =>
      obtain ⟨s', hopen, hrooted, hkeep⟩ := h.rooted.filesysOpen_none h.cwd rfl hpath.1 hpath.2 hy
      refine ⟨s', h.keeping hrooted hkeep.cwd hkeep.files hkeep.holds, hkeep.dir,
        hkeep.files.position, .inl ⟨rfl, ?_⟩⟩
      refine (s.getFileByFname path).bind ?_
      rw [hopened]
      exact hopen.bind (.pure _ _)
    | some y =>
      obtain ⟨p, s₁, hopen, hrooted, ho⟩ := h.rooted.filesysOpen h.cwd rfl hpath.1 hpath.2 hy
      have hnew : s.st.files.next ∉ s.st.fileTable.map FileTableEntry.f := fun hmem => by
        obtain ⟨e, he, hnext⟩ := List.mem_map.1 hmem
        obtain ⟨file, x, hf, hx⟩ := h.table e he
        exact (Stored.openFile_opens hf (h.rooted.file_of_lookup hx).2.2.1 ho).2 hnext
      have h₁ : Stocked s₁ a g T := h.next hrooted ho.cwd h.dots h.ends ho.table
        (fun f file x hx hf => ⟨file, (Stored.openFile_opens hf hx ho).1⟩) fun _ _ => id
      have hopened₁ (fname : CString) : s₁.openedAs fname = s.openedAs fname := by
        rw [openedAs, ho.table, openedAs]
      have hposition₁ (fname : CString) : s₁.position fname = s.position fname := by
        refine position_congr (hopened₁ fname) fun f hf => ?_
        rw [ho.get, if_neg]
        rintro rfl
        obtain ⟨e, he, hnext⟩ := Option.map_eq_some_iff.1 hf
        exact hnew (List.mem_map.2 ⟨e, List.mem_of_find?_eq_some he, hnext⟩)
      obtain ⟨s₂, hadd, h₂, hsame₂, hposition₂, hopened₂, hf₂⟩ :=
        h₁.addToFileTable ((hopened₁ path).trans hopened) ho.file hy (by rw [ho.table]; exact hnew)
      refine ⟨s₂, h₂, ho.dir.trans hsame₂, fun fname => (hposition₂ fname).trans (hposition₁ fname),
        .inr ⟨y, _, _, rfl, ?_, hopened₂, hf₂⟩⟩
      refine (s.getFileByFname path).bind ?_
      rw [hopened]
      exact hopen.bind (hadd.bind (.pure _ _))

/-- No handle is open under a path that is not a file's. -/
theorem openedAs_none (h : Stocked s a g T) (hpath : fileName path = [] ∨ IsDots (fileName path)) :
    s.openedAs path = none := by
  cases hopened : s.openedAs path with
  | none => rfl
  | some f =>
    obtain ⟨-, y, -, hy⟩ := h.opened hopened
    have hmem := (SlotMap.lookup_eq_some h.rooted.distinct).1 hy
    rcases hpath with hnil | hdots
    · exact absurd hnil (h.rooted.names _ hmem).1
    · exact absurd hdots (not_or.2 (h.dots _ hmem))

/-- At the prompt, under any path but one of slashes only. -/
theorem openFname_cases (h : Stocked s a g T) (hcwd : s.st.cwd = none) (hslashes : ¬ Slashes path) :
    NamesFile path ∨ s.Does (Fs.openFname path) none s ∨ (Fs.openFname path).exec s.st s.image =
    none := by
  rcases path_cases path with hfile | rfl | hyes | hdots
  · exact .inl hfile
  · refine .inr (.inl ((s.getFileByFname []).bind ?_))
    rw [h.openedAs_none (.inl rfl)]
    exact Does.bind (.pure _ _) (.pure _ _)
  · exact absurd hyes hslashes
  · have hget : (getFileByFname path).exec s.st s.image = some (s.openedAs path, s.st, s.image) :=
      s.getFileByFname path
    rw [h.openedAs_none (.inr hdots)] at hget
    refine .inr (.inr ?_)
    unfold Fs.openFname
    simp [hget, h.rooted.listed.filesysOpen_dots_closed hcwd hdots]

theorem seekBack (h : Stocked s a g T) (hf : OpenFile s f file y) (ha : a y = some ⟨b, false⟩) :
    ∃ s', s.Does (do
        let curOffset ← fileTell f
        let length ← fileLength f
        fileSeek f curOffset
        pure length) b.length s' ∧ s.Moves s' f file := by
  obtain ⟨s', hseek, hm⟩ := hf.fileSeek file.pos
  have htell : s.Does (fileTell f) file.pos s := hf.derefFile.bind (.pure _ _)
  have hlength := h.rooted.vol.length_eq hf.holds hf.sector ha
  exact ⟨s', htell.bind ((hf.derefFile.bind hlength).bind (hseek.bind (.pure _ _))), hm⟩

theorem fsutilSize (h : Stocked s a g T) (hpath : NamesFile path)
    (hy : SlotMap.lookup T (fileName path) = some y) (ha : a y = some ⟨b, false⟩) :
    ∃ s' f file, s.Does (fsutilSize path) b.length s' ∧ Stocked s' a g T ∧ s.SameCwd s' ∧
      (∀ fname, s'.position fname = s.position fname) ∧ s'.openedAs path = some f ∧
      OpenFile s' f file y := by
  obtain ⟨s₁, h₁, hsame₁, hposition₁, ⟨hno, -⟩ | ⟨y', f, file, hy', hopen, hopened₁,
      hf₁⟩⟩ :=
    h.openFname hpath
  · rw [hy] at hno
    cases hno
  obtain rfl : y = y' := Option.some.inj (hy.symm.trans hy')
  obtain ⟨s₂, hsize, hm⟩ := h₁.seekBack hf₁ ha
  obtain ⟨h₂, hsame₂, hopened₂, hposition₂⟩ := h₁.moves hf₁ hm rfl
  have hf₂ := hf₁.moves hm rfl
  refine ⟨s₂, f, _, hopen.bind hsize, h₂, hsame₁.trans hsame₂, fun fname => ?_,
    (hopened₂ path).trans hopened₁, hf₂⟩
  rw [← hposition₁]
  by_cases hf : s₁.openedAs fname = some f
  · rw [position_of hf hf₁, position_of ((hopened₂ fname).trans hf) hf₂]
  · exact hposition₂ fname hf

end Stocked

theorem OpenFile.fileRead_negative {s : Session} {a : BlockSector → Option Node} {f : Ptr}
    {file : File} {y : BlockSector} {n : Node} (hf : OpenFile s f file y) (hvol : Volume s a)
    (ha : a y = some n) (hpos : file.pos < 0) (size : Int) :
    if size ≤ 0 then ∃ s', s.Does (Fs.fileRead f size) [] s' ∧ s.Moves s' f file
    else (Fs.fileRead f size).exec s.st s.image = none := by
  obtain ⟨q, fm, C, i, hinv, hi, rfl, hdata⟩ := hvol.held hf.holds
  have hlength : 0 ≤ i.data.length := by
    rw [← hdata, (hvol.shows _ n hf.sector (.inr ⟨_, hf.holds⟩) ha).1.1]
    exact Int.natCast_nonneg _
  have hread := exec_inodeReadAt_negative (v := s.image) hi hlength hpos size
  split
  · next hsize =>
    rw [if_pos hsize] at hread
    obtain ⟨s', hdoes, hm⟩ := hf.fileRead_of hread
    simp only [List.length_nil, Int.natCast_zero, Int.add_zero] at hm
    exact ⟨s', hdoes, hm⟩
  · next hsize =>
    rw [if_neg hsize] at hread
    have hderef : (Fs.derefFile f).exec s.st s.image = some (file, s.st, s.image) := hf.derefFile
    rw [Fs.fileRead, Cmd.exec_bind, hderef, Option.bind_some, Cmd.exec_bind, hread]
    rfl

/-! ## Searching one file -/

/-- The bytes up to the first NUL. -/
def upToNul (b : Growable UInt8) : CString := (b.read b.length 0).takeWhile (· ≠ 0)

/-- What is printed for a file, from this position in it. There is no NUL in
the buffer for an empty file, and nothing can be read before the first byte. -/
def searchFrom (pos : Int) (pattern name : CString) (b : Growable UInt8) : Option (List Printed) :=
  if b.length = 0 ∨ pos < 0 then none
  else if pos = 0 then some (if pattern <:+: upToNul b then [.name name] else [])
  else some [.errorReading name]

namespace Stocked

variable {s s' : Session} {a a' : BlockSector → Option Node} {g g' : Growable UInt8} {T T' : Table}
  {name : CString} {y : BlockSector} {b : Growable UInt8}

theorem namesFile (h : Stocked s a g T) (hy : SlotMap.lookup T name = some y) :
    fileName name = name ∧ NamesFile name := by
  have hmem := (SlotMap.lookup_eq_some h.rooted.distinct).1 hy
  obtain ⟨hne, -, hslash⟩ := h.rooted.names _ hmem
  have hplain := fileName_plain hne hslash
  exact ⟨hplain, by rw [NamesFile, hplain]; exact ⟨hne, h.dots _ hmem⟩⟩

/-- **One file.** -/
theorem findInFile (h : Stocked s a g T) (hy : SlotMap.lookup T name = some y)
    (ha : a y = some ⟨b, false⟩) (pattern : CString) :
    s.Answers (Fs.findInFile pattern name) (searchFrom (s.position name) pattern name b) fun s' =>
      Stocked s' a g T ∧ s.SameCwd s' ∧ ∀ fname ≠ name, s'.position fname = s.position fname := by
  obtain ⟨hplain, hnames⟩ := h.namesFile hy
  obtain ⟨s₁, f, file, hsize, h₁, hsame₁, hposition₁, hopened₁, hf₁⟩ :=
    h.fsutilSize hnames (by rw [hplain]; exact hy) ha
  have hends := h.ends y (Table.mem_sectors.2 ⟨name,
    (SlotMap.lookup_eq_some h.rooted.distinct).1 hy⟩) b ha
  have hpos : s.position name = file.pos := by rw [← hposition₁, position_of hopened₁ hf₁]
  -- what follows the read
  let rest (buffer : List UInt8) : FsM (List Printed) :=
    if (buffer.length : Int) ≠ b.length then pure [.errorReading name]
    else do return if ← Cmd.ofOption (strstr buffer pattern) then [.name name] else []
  have hexec : (Fs.findInFile pattern name).exec s.st s.image =
      ((Fs.fileRead f b.length).exec s₁.st s₁.image).bind fun r => (rest r.1).exec r.2.1 r.2.2 := by
    have hsize : (Fs.fsutilSize name).exec s.st s.image =
        some ((b.length : Int), s₁.st, s₁.image) := hsize
    have hopen : (Fs.openFname name).exec s₁.st s₁.image = some (some f, s₁.st, s₁.image) :=
      openFname_again hopened₁
    rw [Fs.findInFile, Cmd.exec_bind, foundInFile, Cmd.exec_bind, hsize, Option.bind_some]
    dsimp only
    rw [if_neg (by omega), Cmd.exec_bind, fsutilRead, Cmd.exec_bind, hopen, Option.bind_some]
    dsimp only
    rw [Cmd.exec_bind]
    cases (Fs.fileRead f b.length).exec s₁.st s₁.image with
    | none => rfl
    | some r =>
      obtain ⟨buffer, st, v⟩ := r
      simp only [Option.bind_some, Cmd.exec_pure, rest]
      split
      · rfl
      · cases strstr buffer pattern with
        | none => rfl
        | some found => simp
  unfold searchFrom
  rw [hpos]
  rcases Int.lt_or_le file.pos 0 with hneg | hnonneg
  · rw [if_pos (.inr hneg)]
    change (Fs.findInFile pattern name).exec s.st s.image = none
    have hread := hf₁.fileRead_negative h₁.rooted.vol ha hneg b.length
    split at hread
    · next hempty =>
      obtain ⟨s₂, hread, -⟩ := hread
      have hread : (Fs.fileRead f b.length).exec s₁.st s₁.image = some ([], s₂.st, s₂.image) := hread
      have hzero : b.length = 0 := by omega
      rw [hexec, hread, Option.bind_some]
      simp [rest, hzero, strstr]
    · rw [hexec, hread]
      rfl
  · obtain ⟨s₂, hread, hm⟩ := hf₁.fileRead h₁.rooted.vol hnonneg ha b.length
    simp only [Int.toNat_natCast] at hread hm
    have hread : (Fs.fileRead f b.length).exec s₁.st s₁.image =
        some (b.read b.length file.pos.toNat, s₂.st, s₂.image) := hread
    obtain ⟨h₂, hsame₂, -, hposition₂⟩ := h₁.moves hf₁ hm rfl
    have hothers : ∀ fname ≠ name, s₂.position fname = s.position fname := fun fname hne => by
      rw [hposition₂ fname fun hf => hne (h₁.opened_inj hf hopened₁), hposition₁]
    have hdone (printed : List Printed) (hrest : (rest (b.read b.length file.pos.toNat)).exec s₂.st
      s₂.image =
        some (printed, s₂.st, s₂.image)) : ∃ s', s.Does (Fs.findInFile pattern name) printed s' ∧
        Stocked s' a g T ∧
        s.SameCwd s' ∧ ∀ fname ≠ name, s'.position fname = s.position fname := by
      refine ⟨s₂, ?_, h₂, hsame₁.trans hsame₂, hothers⟩
      rw [Does, hexec, hread, Option.bind_some]
      exact hrest
    have hlength := b.length_read b.length file.pos.toNat
    by_cases hempty : b.length = 0
    · rw [if_pos (.inl hempty)]
      change (Fs.findInFile pattern name).exec s.st s.image = none
      have hnil : b.read b.length file.pos.toNat = [] := List.eq_nil_of_length_eq_zero (by omega)
      rw [hexec, hread, Option.bind_some, hnil]
      simp [rest, hempty, strstr]
    · rw [if_neg (by omega)]
      by_cases hzero : file.pos = 0
      · -- the whole file is read
        rw [if_pos hzero]
        rw [hzero] at hdone hlength
        simp only [Int.toNat_zero, Nat.sub_zero, Nat.min_self] at hdone hlength
        have hnul : 0 ∈ b.read b.length 0 := by
          refine List.mem_iff_getElem.2 ⟨b.length - 1, by omega, ?_⟩
          rw [Growable.getElem_read, Nat.zero_add]
          exact hends hempty
        refine hdone _ ?_
        simp only [rest, hlength, ne_eq, not_true_eq_false, if_false, strstr, if_pos hnul]
        simp [upToNul]
      · rw [if_neg hzero]
        refine hdone _ ?_
        simp only [rest]
        rw [if_pos (by omega)]
        rfl

end Stocked

/-! ## Searching all files -/

/-- What `find_file` prints for the name. -/
def Session.search (s : Session) (a : BlockSector → Option Node) (T : Table)
    (pattern name : CString) : Option (List Printed) := do
  let n ← a (← SlotMap.lookup T name)
  searchFrom (s.position name) pattern name n.bytes

/-- In the middle of a search that started in the state `s`: the directory's
handle is the global one, and the handles on the files that are left have not
moved. -/
structure Searching (s : Session) (a : BlockSector → Option Node) (g : Growable UInt8) (T : Table)
    (d : Ptr) (s' : Session) (dir : Dir) (names : List CString) : Prop where
  stocked : Stocked s' a g T
  handle : OpenDir s' a d dir rootDirSector rootDirSector g T
  cwd : s'.st.cwd = some d
  once : dir.openCnt = 1
  nodup : names.Nodup
  bound : ∀ name ∈ names, ∃ y, SlotMap.lookup T name = some y
  stays : ∀ name ∈ names, s'.position name = s.position name

namespace Searching

variable {s s' s'' : Session} {a : BlockSector → Option Node} {g : Growable UInt8} {T : Table}
  {d : Ptr} {dir : Dir} {name : CString} {names : List CString}

theorem read {pos : Int} (h : Searching s a g T d s' dir names)
    (hstands : s'.Stands s'' d { dir with pos }) :
    Searching s a g T d s'' { dir with pos } names := by
  have hcwd : s''.st.cwd = some d := by rw [hstands.state]; exact h.cwd
  have hdir := h.handle.stands hstands rfl
  refine ⟨h.stocked.keeping (h.stocked.rooted.next (hstands.volume h.stocked.rooted.vol)
    hstands.live) (fun d' hd' => ?_)
    hstands.sameFiles fun p y _ => hstands.holds p y, hdir, hcwd, h.once, h.nodup, h.bound,
    fun name hname => (hstands.sameFiles.position name).trans (h.stays name hname)⟩
  obtain rfl : d = d' := Option.some.inj (hcwd.symm.trans hd')
  exact ⟨_, hdir.handle, hdir.holds, by rw [h.once]; exact zero_lt_one⟩

theorem body (h : Searching s a g T d s' dir (name :: names)) (pattern : CString) :
    s'.Answers (findInFile pattern name) (s.search a T pattern name) fun s'' =>
      Searching s a g T d s'' dir names := by
  obtain ⟨y, hy⟩ := h.bound name List.mem_cons_self
  obtain ⟨-, -, -, b, ha⟩ := h.stocked.rooted.file_of_lookup hy
  have hfind := h.stocked.findInFile hy ha pattern
  rw [h.stays name List.mem_cons_self] at hfind
  have hsearch : s.search a T pattern name = searchFrom (s.position name) pattern name b := by
    simp [Session.search, hy, ha]
  rw [hsearch]
  refine hfind.mono fun s'' hafter => ?_
  obtain ⟨hstocked, hsame, hothers⟩ := hafter
  obtain ⟨hnew, hnodup⟩ := List.nodup_cons.1 h.nodup
  have hcwd : s''.st.cwd = some d := hsame.cwd.trans h.cwd
  have hget : s''.st.dirs.get d = some dir := (hsame.get d h.cwd).trans h.handle.handle
  obtain ⟨dir', hget', hholds, -⟩ := hstocked.cwd d hcwd
  obtain rfl := Option.some.inj (hget.symm.trans hget')
  refine ⟨hstocked, hstocked.rooted.openDir hget hholds, hcwd, h.once, hnodup,
    fun name' hname' => h.bound name' (List.mem_cons_of_mem _ hname'), fun name' hname' => ?_⟩
  rw [hothers name' (by rintro rfl; exact hnew hname')]
  exact h.stays name' (List.mem_cons_of_mem _ hname')

end Searching

theorem Table.mem_names {T : Table} {name : CString} (h : SlotMap.Distinct T) :
    name ∈ T.names ↔ ∃ y, SlotMap.lookup T name = some y := by
  simp [Table.names, SlotMap.lookup_eq_some h]

namespace Stocked

variable {s : Session} {a : BlockSector → Option Node} {g : Growable UInt8} {T : Table}

/-- **`find_file`** prints what it prints for each file, one after the other. -/
theorem findFile (h : Stocked s a g T) (hcwd : s.st.cwd = none) (pattern : CString) :
    s.Answers (findFile pattern) ((T.names.mapM (s.search a T pattern)).map List.flatten) fun s' =>
      Stocked s' a g T ∧ s'.st.cwd = none := by
  obtain ⟨d, dir, s₁, henter, h₁, hd₁, hcnt, hcwd₁, haround₁, -, hout₁, hfirst⟩ :=
    h.rooted.enter h.cwd
  have honce : dir.openCnt = 1 := by
    by_contra hmore
    rw [Outside, if_neg hmore, hcwd] at hout₁
    cases hout₁.1
  have hsearching : Searching s a g T d s₁ dir T.names := by
    refine ⟨h.keeping h₁ (fun d' hd' => ?_) haround₁.files haround₁.holds, hd₁, hcwd₁, honce,
      h.rooted.distinct,
      fun name hname => (Table.mem_names h.rooted.distinct).1 hname, fun name _ =>
        haround₁.files.position name⟩
    obtain rfl : d = d' := Option.some.inj (hcwd₁.symm.trans hd')
    exact ⟨dir, hd₁.handle, hd₁.holds, hcnt⟩
  have hloop := OpenDir.forEachName (Fs.findInFile pattern) (s.search a T pattern) (Searching s a g T d)
    (fun hI => ⟨hI.handle, hI.stocked.rooted.vol⟩) (fun hI => hI.read)
    (fun hI => .inl (hI.body pattern)) (k := 0)
    hsearching (hfirst honce) (Nat.zero_le _)
  have hclose (printed : List Printed) (s₂ : Session) (hI : ∃ dir', Searching s a g T d s₂ dir' []) :
      s₂.Answers (do dirClose (some d); pure printed) (some printed) fun s' => Stocked s' a g T ∧
      s'.st.cwd = none := by
    obtain ⟨dir', hsearching'⟩ := hI
    have hstocked₂ := hsearching'.stocked
    obtain ⟨s₃, hleave, h₃, hcwd₃, haround₃, -, hout₃⟩ :=
      hstocked₂.rooted.leave hsearching'.handle hsearching'.cwd
        (by rw [hsearching'.once]; exact zero_lt_one)
    rw [Outside, if_pos hsearching'.once] at hout₃
    exact hleave.answers (Answers.pure ⟨hstocked₂.keeping h₃ hcwd₃ haround₃.files haround₃.holds,
      hout₃⟩ printed)
  have hall := hloop.bind hclose
  rw [Option.bind_fun_some] at hall
  exact henter.answers hall

/-- Only the name itself is printed for a name. -/
theorem eq_of_mem_search {pattern name name' : CString} {printed : List Printed}
    (h : s.search a T pattern name' = some printed) (hmem : Printed.name name ∈ printed) :
    name = name' := by
  simp only [Session.search, bind, Option.bind_eq_some_iff, searchFrom] at h
  obtain ⟨y, -, n, -, h⟩ := h
  split at h
  · cases h
  · split at h
    · split at h
      · cases h
        simpa using hmem
      · cases h
        cases hmem
    · cases h
      simp at hmem

/-- **A search finds the files it should** exactly if none is empty, and each
is closed or at its beginning, or else further on and not one of them. -/
theorem finds_iff (h : Stocked s a g T) (hcwd : s.st.cwd = none) (pattern : CString) :
    (∃ printed st v, (Fs.findFile pattern).exec s.st s.image = some (printed, st, v) ∧
      ∀ name y b, SlotMap.lookup T name = some y → a y = some ⟨b, false⟩ →
        (Printed.name name ∈ printed ↔ pattern <:+: upToNul b)) ↔
    ∀ name y b, SlotMap.lookup T name = some y → a y = some ⟨b, false⟩ →
      b.length ≠ 0 ∧ (s.position name = 0 ∨ 0 < s.position name ∧ ¬ pattern <:+: upToNul b) := by
  have hfind := h.findFile hcwd pattern
  have hsearch {name : CString} {y : BlockSector} {b : Growable UInt8}
    (hy : SlotMap.lookup T name = some y)
      (ha : a y = some ⟨b, false⟩) : s.search a T pattern name =
      searchFrom (s.position name) pattern name b := by
    simp [Session.search, hy, ha]
  have hnames {name : CString} : name ∈ T.names ↔ ∃ y, SlotMap.lookup T name = some y :=
    Table.mem_names h.rooted.distinct
  -- a name is printed where it is printed for itself
  have hprinted {printed : List Printed} (hmap : (T.names.mapM (s.search a T pattern)).map
    List.flatten = some printed)
      {name : CString} {y : BlockSector} {b : Growable UInt8} (hy : SlotMap.lookup T name = some y)
      (ha : a y = some ⟨b, false⟩) : ∃ l, searchFrom (s.position name) pattern name b = some l ∧
        (Printed.name name ∈ printed ↔ Printed.name name ∈ l) := by
    obtain ⟨hall, hmem⟩ := mem_printed hmap
    obtain ⟨l, hl⟩ := hall name (hnames.2 ⟨y, hy⟩)
    refine ⟨l, (hsearch hy ha).symm.trans hl, (hmem _).trans ⟨fun hsome => ?_, fun hin =>
      ⟨name, hnames.2 ⟨y, hy⟩, l, hl, hin⟩⟩⟩
    obtain ⟨name', hname', l', hl', hin⟩ := hsome
    obtain rfl := eq_of_mem_search hl' hin
    rw [hl] at hl'
    cases hl'
    exact hin
  rw [hfind.exists_iff]
  constructor
  · rintro ⟨printed, hmap, hiff⟩ name y b hy ha
    obtain ⟨l, hl, hin⟩ := hprinted hmap hy ha
    unfold searchFrom at hl
    split at hl
    · cases hl
    · next hok =>
      refine ⟨fun hempty => hok (.inl hempty), ?_⟩
      split at hl
      · next hzero => exact .inl hzero
      · next hmore =>
        refine .inr ⟨by omega, fun hcontains => ?_⟩
        cases hl
        have := hin.1 ((hiff name y b hy ha).2 hcontains)
        simp at this
  · intro hok
    have hsome {name : CString} {y : BlockSector} {b : Growable UInt8}
      (hy : SlotMap.lookup T name = some y)
        (ha : a y = some ⟨b, false⟩) : ∃ l, searchFrom (s.position name) pattern name b = some l ∧
          (Printed.name name ∈ l ↔ pattern <:+: upToNul b) := by
      obtain ⟨hne, hpos⟩ := hok name y b hy ha
      unfold searchFrom
      rw [if_neg (by omega)]
      rcases hpos with hzero | ⟨hpos, hno⟩
      · rw [if_pos hzero]
        refine ⟨_, rfl, ?_⟩
        split
        · next hcontains => simp [hcontains]
        · next hcontains => simp [hcontains]
      · rw [if_neg (by omega)]
        exact ⟨_, rfl, by simpa using hno⟩
    have hall : ∀ name ∈ T.names, ∃ l, s.search a T pattern name = some l := fun name hname => by
      obtain ⟨y, hy⟩ := hnames.1 hname
      obtain ⟨-, -, -, b, ha⟩ := h.rooted.file_of_lookup hy
      obtain ⟨l, hl, -⟩ := hsome hy ha
      exact ⟨l, (hsearch hy ha).trans hl⟩
    obtain ⟨printed, hmap⟩ := exists_printed hall
    refine ⟨printed, hmap, fun name y b hy ha => ?_⟩
    obtain ⟨l, hl, hin⟩ := hprinted hmap hy ha
    obtain ⟨l', hl', hin'⟩ := hsome hy ha
    rw [hl] at hl'
    cases hl'
    exact hin.trans hin'

end Stocked

end MyShell.Fs

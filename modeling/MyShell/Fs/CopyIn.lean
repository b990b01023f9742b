/-
Copying a file in from the host and out again (fsutil2.c).

`copy_in` makes a file for the content and a NUL behind it, and `copy_out`
reads up to the first NUL. So what comes back is the content up to its first
NUL, but for a file that was removed by another name than it was opened by:
the open file of that name is still there, its inode is not.
-/
import MyShell.Fs.Fsutil
import MyShell.Fs.Root

namespace MyShell.Fs

open Storage Session

/-! ## From source -/

/-- An `int`; overflow is undefined. -/
def checkInt (n : Int) : Option Int := if -2 ^ 31 ≤ n ∧ n < 2 ^ 31 then some n else none

/-- `available_space_bytes` -/
def availableSpace (freespace : Nat) : Option Int := do
  let spaceBlocks : Int := (freespace / directBlocksCount : Nat) + 1
  let total ← checkInt (freespace * 512)
  let overhead ← checkInt (spaceBlocks * 512)
  checkInt (total - overhead)

/-- `write_size` -/
def writeSize (freespace fileSize : Nat) : Option Int := do
  let available ← availableSpace freespace
  pure (if (fileSize + 1 : Int) < available then fileSize + 1 else available)

/-- What follows the last `/`. -/
def lastName (fname : CString) : CString := (fname.splitOn slash).getLastD []

/-- The buffer after `fread`, which may leave the last byte as it was. -/
def copyBuffer (content : List UInt8) (size : Nat) : List UInt8 :=
  content.take size ++ List.replicate (size - content.length) 0

/-- `copy_in`, from a host with these files: what it answers, and the numbers
in its warning if it prints one. -/
def copyIn (host : CString → Option (List UInt8)) (fname : CString) :
    FsM (Error × Option (Int × Int)) :=
  do match host fname with
  | none => pure (.fileDoesNotExist, none)
  | some content => do
    let size ← Cmd.ofOption (writeSize (← fsutilFreespace) content.length)
    let fileName := lastName fname
    if !(← fsutilCreate fileName size) then pure (.fileCreationError, none)
    else if size < 0 then pure (.noMemSpace, none)
    else do
      let _ ← fsutilWrite fileName (copyBuffer content size.toNat)
      pure (.noError, if size < content.length then some (size, content.length) else none)

/-- The loop of `copy_out`. -/
def copyOutLoop (file : Ptr) : Nat → FsM (List UInt8)
  | 0 => pure []
  | fuel + 1 => do
    match ← fileRead file 1 with
    | [ch] => if ch = 0 then pure [] else return ch :: (← copyOutLoop file fuel)
    | _ => pure []

/-- `copy_out`, to a host on which these files can be written: what it
answers, and the file it writes. -/
def copyOut (writable : CString → Bool) (fname : CString) :
    FsM (Error × Option (CString × List UInt8)) :=
  do match ← filesysOpen fname with
  | none => pure (.fileDoesNotExist, none)
  | some sourceFile => do
    let fileSize ← fileLength sourceFile
    if fileSize < 0 then do
      fsutilClose fname
      pure (.noMemSpace, none)
    else do
      let _ ← fsutilSeek fname 0
      let bytes ← copyOutLoop sourceFile (fileSize.toNat + 1)
      fsutilClose fname
      if writable (lastName fname) then pure (.noError, some (lastName fname, bytes))
      else pure (.fileCreationError, none)

/-! ## A file in the root directory -/

/-- The name is that of a file with the content `n`, which is open under the
name or not. -/
structure Stored (s : Session) (a : BlockSector → Option Node) (g : Growable UInt8) (T : Table)
    (name : CString) (y : BlockSector) (n : Node) : Prop where
  rooted : Rooted s a g T
  cwd : s.CwdOk
  plain : name ≠ [] ∧ slash ∉ name
  dots : name ≠ [dot] ∧ name ≠ [dot, dot]
  bound : SlotMap.lookup T name = some y
  node : a y = some n
  handle : ∀ f, s.openedAs name = some f → ∃ file, OpenFile s f file y ∧ file.denyWrite = false
  once : ∀ e ∈ s.st.fileTable.eraseP fun e => e.fname = name, e.fname ≠ name

namespace Stored

variable {s s' : Session} {a : BlockSector → Option Node} {g : Growable UInt8} {T : Table}
  {name : CString} {y : BlockSector} {n : Node} {f p : Ptr} {file file' : File}

theorem ne_root (h : Stored s a g T name y n) : y ≠ rootDirSector :=
  (h.rooted.file_of_lookup h.bound).2.2.1

theorem ne_zero (h : Stored s a g T name y n) : y ≠ freeMapSector :=
  (h.rooted.file_of_lookup h.bound).2.1

theorem moves (h : Stored s a g T name y n) {x : BlockSector} (hf : OpenFile s f file x)
    (hm : s.Moves s' f file') (hinode : file'.inode = file.inode)
    (hdeny : file'.denyWrite = file.denyWrite) : Stored s' a g T name y n where
  rooted := h.rooted.next (hf.volume_moves h.rooted.vol hm) hm.live
  cwd d hd := by
    rw [hm.state] at hd
    obtain ⟨dir, hget, hp, hcnt⟩ := h.cwd d hd
    exact ⟨dir, by rw [hm.state]; exact hget, (hm.holds _ _).2 hp, hcnt⟩
  plain := h.plain
  dots := h.dots
  bound := h.bound
  node := h.node
  handle f' hf' := by
    rw [openedAs, hm.state] at hf'
    obtain ⟨file₀, hf₀, hdeny₀⟩ := h.handle f' hf'
    by_cases heq : f' = f
    · subst heq
      obtain rfl : file = file₀ := Option.some.inj (hf.handle.symm.trans hf₀.handle)
      exact ⟨file', hf₀.moves hm hinode, hdeny.trans hdeny₀⟩
    · exact ⟨file₀, ⟨by rw [hm.get, if_neg heq]; exact hf₀.handle, (hm.holds _ _).2 hf₀.holds,
        hf₀.sector⟩, hdeny₀⟩
  once := by rw [hm.state]; exact h.once

/-! ## Opening it -/

theorem openFile_opens {x : BlockSector} (hf : OpenFile s f file x) (hx : x ≠ rootDirSector)
    (ho : s.Opens s' p y) : OpenFile s' f file x ∧ f ≠ s.st.files.next := by
  have hne : f ≠ s.st.files.next := by
    rintro rfl
    have hget := hf.handle
    rw [Heap.get_next] at hget
    cases hget
  exact ⟨⟨by rw [ho.get, if_neg hne]; exact hf.handle, (ho.holds _ _ hx).2 (.inl hf.holds),
    hf.sector⟩, hne⟩

/-- `filesys_open` gives a handle of its own. -/
theorem filesysOpen (h : Stored s a g T name y n) :
    ∃ p s', s.Does (filesysOpen name) (some s.st.files.next) s' ∧ Stored s' a g T name y n ∧
      s.Opens s' p y ∧
      s'.openedAs name = s.openedAs name ∧ s.openedAs name ≠ some s.st.files.next := by
  obtain ⟨p, s', hdoes, hrooted, ho⟩ :=
    h.rooted.filesysOpen h.cwd (fileName_plain h.plain.1 h.plain.2) h.plain.1 h.dots h.bound
  have hopened : s'.openedAs name = s.openedAs name := by rw [openedAs, openedAs, ho.table]
  refine ⟨p, s', hdoes, ⟨hrooted, ho.cwd, h.plain, h.dots, h.bound, h.node,
    fun f hf => ?_, by rw [ho.table]; exact h.once⟩, ho, hopened, fun hnext => ?_⟩
  · obtain ⟨file, hfile, hdeny⟩ := h.handle f (hopened ▸ hf)
    exact ⟨file, (openFile_opens hfile h.ne_root ho).1, hdeny⟩
  · obtain ⟨file, hfile, -⟩ := h.handle _ hnext
    exact (openFile_opens hfile h.ne_root ho).2 rfl

theorem addToFileTable (h : Stored s a g T name y n) (hnew : s.openedAs name = none)
    (hf : OpenFile s f ⟨p, 0, false⟩ y) :
    ∃ s', s.Does (addToFileTable f name) () s' ∧ Stored s' a g T name y n ∧
      (s'.st.freeMap = s.st.freeMap ∧ s'.st.fileTable = s.st.fileTable ++ [⟨name, f⟩]) ∧
      s'.openedAs name = some f ∧
      ∀ f' file' x, OpenFile s f' file' x → OpenFile s' f' file' x := by
  have hnone : ∀ e ∈ s.st.fileTable, e.fname ≠ name := by simpa [openedAs] using hnew
  have hfind : (s.st.fileTable ++ [FileTableEntry.mk name f]).find? (fun e => e.fname = name) =
      some ⟨name, f⟩ := by
    rw [List.find?_append, List.find?_eq_none.2 fun e he => by simpa using hnone e he]
    simp
  have herase : (s.st.fileTable ++ [FileTableEntry.mk name f]).eraseP (fun e => e.fname = name) =
      s.st.fileTable := by
    rw [List.eraseP_append_right _ fun e he => by simpa using hnone e he]
    simp
  let s' : Session :=
    ⟨{ s.st with fileTable := s.st.fileTable ++ [⟨name, f⟩] }, s.image, s.live, s.spare⟩
  have hopened : s'.openedAs name = some f := by
    rw [openedAs]
    exact congrArg (Option.map FileTableEntry.f) hfind
  have hkeep : ∀ f' file' x, OpenFile s f' file' x → OpenFile s' f' file' x := fun f' file' x hf' =>
    ⟨hf'.handle, hf'.holds, hf'.sector⟩
  refine ⟨s', ?_, ⟨?_, h.cwd, h.plain, h.dots, h.bound, h.node, fun f' hf' => ?_, fun e he => ?_⟩,
    ⟨rfl, rfl⟩, hopened, hkeep⟩
  · refine (s.getFileByFname name).bind ?_
    rw [hnew]
    rfl
  · exact h.rooted.next (h.rooted.vol.handles rfl rfl rfl rfl rfl rfl fun _ _ => rfl) rfl
  · obtain rfl : f = f' := Option.some.inj (hopened.symm.trans hf')
    exact ⟨_, hkeep _ _ _ hf, rfl⟩
  · exact hnone e (herase ▸ he)

/-- The file under the name, opened if need be. -/
theorem openFname (h : Stored s a g T name y n) :
    ∃ f file s', s.Does (openFname name) (some f) s' ∧ Stored s' a g T name y n ∧
      s'.openedAs name = some f ∧
      OpenFile s' f file y ∧ file.denyWrite = false ∧ s'.st.freeMap = s.st.freeMap ∧
      (s.openedAs name = none → file.pos = 0 ∧ s'.st.fileTable = s.st.fileTable ++ [⟨name, f⟩]) ∧
      ∀ f' file' x, x ≠ rootDirSector → OpenFile s f' file' x → s.openedAs name ≠ some f' →
        OpenFile s' f' file' x ∧ f' ≠ f := by
  cases hopened : s.openedAs name with
  | some f =>
    obtain ⟨file, hf, hdeny⟩ := h.handle f hopened
    exact ⟨f, file, s, openFname_again hopened, h, hopened, hf, hdeny, rfl, fun hno => by (cases hno),
      fun f' file' x _ hf' hne => ⟨hf', fun heq => hne (congrArg some heq.symm)⟩⟩
  | none =>
    obtain ⟨p, s₁, hopen, h₁, ho, hopened₁, -⟩ := h.filesysOpen
    obtain ⟨s₂, hadd, h₂, ⟨hmap₂, htable₂⟩, hopened₂, hkeep⟩ :=
      h₁.addToFileTable (hopened₁.trans hopened) ho.file
    refine ⟨_, _, s₂, (s.getFileByFname name).bind ?_, h₂, hopened₂, hkeep _ _ _ ho.file, rfl,
      hmap₂.trans ho.freeMap, fun _ => ⟨rfl, by rw [htable₂, ho.table]⟩,
      fun f' file' x hx hf' _ => ?_⟩
    · rw [hopened]
      exact hopen.bind (hadd.bind (.pure _ _))
    · obtain ⟨hf₁, hne⟩ := openFile_opens hf' hx ho
      exact ⟨hkeep _ _ _ hf₁, hne⟩

/-- `fsutil_seek` moves the file in the table, no other. -/
theorem fsutilSeek (h : Stored s a g T name y n) (offset : Int) :
    ∃ s', s.Does (fsutilSeek name offset) 0 s' ∧ Stored s' a g T name y n ∧
      ∀ f' file' x, x ≠ rootDirSector → OpenFile s f' file' x → s.openedAs name ≠ some f' →
        OpenFile s' f' file' x := by
  obtain ⟨f, file, s₁, hopen, h₁, -, hf₁, -, -, -, hkeep⟩ := h.openFname
  obtain ⟨s₂, hseek, hm⟩ := hf₁.fileSeek offset
  refine ⟨s₂, hopen.bind (hseek.bind (.pure _ _)), h₁.moves hf₁ hm rfl rfl,
    fun f' file' x hx hf' hne => ?_⟩
  obtain ⟨hf'₁, hff⟩ := hkeep f' file' x hx hf' hne
  exact ⟨by rw [hm.get, if_neg hff]; exact hf'₁.handle, (hm.holds _ _).2 hf'₁.holds, hf'₁.sector⟩

/-! ## Closing it -/

/-- `fsutil_close` closes the file's inode, whoever has it open. -/
theorem fsutilClose (h : Stored s a g T name y n) :
    ∃ s', s.Does (fsutilClose name) () s' ∧ Stored s' a g T name y n ∧ s'.openedAs name = none := by
  cases hopened : s.openedAs name with
  | none =>
    have hremove : s.Does (removeFromFileTable name) false s := by
      refine (s.getFileByFname name).bind ?_
      rw [hopened]
      exact .pure _ _
    exact ⟨s, hremove.bind (.pure _ _), h, hopened⟩
  | some f =>
    obtain ⟨file, hf, hdeny⟩ := h.handle f hopened
    obtain ⟨s₁, hclose, hvol₁, hstate₁, -, hholds₁, hlive₁⟩ := hf.fileClose h.rooted.vol hdeny
    let s' : Session :=
      ⟨s₁.st.setFileTable (s₁.st.fileTable.eraseP fun e => e.fname = name), s₁.image, s₁.live,
        s₁.spare⟩
    have herase : s'.st.fileTable = s.st.fileTable.eraseP fun e => e.fname = name := by
      rw [FsState.setFileTable_fileTable, hstate₁]
    have hopened' : s'.openedAs name = none := by
      rw [openedAs, herase, List.find?_eq_none.2 fun e he => by simpa using h.once e he]
      rfl
    have hvol' : Volume s' a := hvol₁.handles rfl rfl rfl rfl rfl rfl fun _ _ => rfl
    have hremove : s.Does (removeFromFileTable name) true s' := by
      refine (s.getFileByFname name).bind ?_
      rw [hopened]
      exact hclose.bind rfl
    refine ⟨s', hremove.bind (.pure _ _), ⟨h.rooted.next hvol' hlive₁, fun d hd => ?_, h.plain,
      h.dots, h.bound, h.node, fun f' hf' => ?_, fun e he => ?_⟩, hopened'⟩
    · obtain ⟨dir, hget, hp, hcnt⟩ := h.cwd d (by rw [← hd, FsState.setFileTable_cwd, hstate₁])
      refine ⟨dir, by rw [FsState.setFileTable_dirs, hstate₁]; exact hget,
        (hholds₁ _ _).2 ⟨hp, ?_⟩, hcnt⟩
      intro heq
      exact h.ne_root (hf.holds.unique (heq ▸ hp))
    · rw [hopened'] at hf'
      cases hf'
    · rw [herase] at he
      exact h.once e (List.mem_of_mem_eraseP he)

end Stored

/-! ## Copying out -/

theorem OpenFile.copyOutLoop {s : Session} {a : BlockSector → Option Node} {f p : Ptr}
    {y : BlockSector} {n : Node} {k : Nat} {deny : Bool} (hf : OpenFile s f ⟨p, k, deny⟩ y)
    (h : Volume s a) (ha : a y = some n) (fuel : Nat) (hfuel : n.bytes.length < k + fuel) :
    ∃ s' pos, s.Does (copyOutLoop f fuel) ((n.bytes.read n.bytes.length k).takeWhile (· ≠ 0)) s' ∧
      s.Moves s' f ⟨p, pos, deny⟩ := by
  induction fuel generalizing s k with
  | zero =>
    rw [show n.bytes.read n.bytes.length k = [] by simp [Growable.read]; omega]
    exact ⟨s, k, .pure _ _, .refl hf.handle⟩
  | succ fuel ih =>
    obtain ⟨s₁, hread, hm⟩ := hf.fileRead h (Int.natCast_nonneg k) ha 1
    rw [Int.toNat_natCast, show (1 : Int).toNat = 1 from rfl] at hread hm
    by_cases hk : k < n.bytes.length
    · have hone : n.bytes.read 1 k = [n.bytes.get k] := by
        rw [Growable.read, Nat.min_eq_left (by omega)]
        rfl
      have hcons : n.bytes.read n.bytes.length k =
          n.bytes.get k :: n.bytes.read n.bytes.length (k + 1) := by
        rw [Growable.read, Growable.read, Nat.min_eq_right (by omega), Nat.min_eq_right (by omega),
          show n.bytes.length - k = n.bytes.length - (k + 1) + 1 by
            omega, List.range_succ_eq_map, List.map_cons, List.map_map]
        simp [Nat.add_assoc, Nat.add_comm 1, Function.comp_def]
      rw [hone] at hread hm
      rw [hcons, List.takeWhile_cons]
      by_cases hzero : n.bytes.get k = 0
      · refine ⟨s₁, _, hread.bind ?_, hm⟩
        simp only [hzero, ne_eq, not_true_eq_false, decide_false, Bool.false_eq_true, if_false, if_true]
        exact .pure _ _
      · have hpos : (k : Int) + ([n.bytes.get k] : List UInt8).length = (k + 1 : Nat) := by simp
        simp only [hpos] at hm
        obtain ⟨s₂, pos, hloop, hm₂⟩ := ih (hf.moves hm rfl) (hf.volume_moves h hm) (by omega)
        refine ⟨s₂, pos, hread.bind ?_, hm.trans hm₂⟩
        simp only [hzero, ne_eq, not_false_eq_true, decide_true, if_true, if_false]
        exact hloop.bind (.pure _ _)
    · have hnil : ∀ size, n.bytes.read size k = [] := fun size => by
        rw [Growable.read, show min size (n.bytes.length - k) = 0 by omega]
        rfl
      rw [hnil] at hread hm
      rw [hnil]
      exact ⟨s₁, _, hread.bind (.pure _ _), hm⟩

theorem lastName_plain {name : CString} (h : slash ∉ name) : lastName name = name := by
  rw [lastName, List.splitOn_eq_singleton h]
  rfl

/-- **`copy_out`** of a file, open under its name or not. -/
theorem Stored.copyOut {s : Session} {a : BlockSector → Option Node} {g : Growable UInt8}
    {T : Table} {name : CString} {y : BlockSector} {n : Node} (h : Stored s a g T name y n)
    (writable : CString → Bool) : ∃ s', s.Does (copyOut writable name)
        (if writable name then (.noError, some (name,
          (n.bytes.read n.bytes.length 0).takeWhile (· ≠ 0))) else (.fileCreationError, none)) s' ∧
      Stored s' a g T name y n ∧ s'.openedAs name = none := by
  obtain ⟨p, s₁, hopen, h₁, ho, hopened₁, hne⟩ := h.filesysOpen
  have hf₁ := ho.file
  have hlength : s₁.Does (fileLength s.st.files.next) n.bytes.length s₁ :=
    hf₁.derefFile.bind (h₁.rooted.vol.length_eq hf₁.holds hf₁.sector h₁.node)
  obtain ⟨s₂, hseek, h₂, hkeep⟩ := h₁.fsutilSeek 0
  have hf₂ := hkeep _ _ _ h.ne_root hf₁ (hopened₁ ▸ hne)
  obtain ⟨s₃, pos, hloop, hm⟩ :=
    OpenFile.copyOutLoop (k := 0) hf₂ h₂.rooted.vol h₂.node (n.bytes.length + 1) (by omega)
  have h₃ := h₂.moves hf₂ hm rfl rfl
  obtain ⟨s₄, hclose, h₄, hopened₄⟩ := h₃.fsutilClose
  refine ⟨s₄, hopen.bind (hlength.bind ?_), h₄, hopened₄⟩
  rw [if_neg (by omega)]
  refine hseek.bind (hloop.bind (hclose.bind ?_))
  rw [lastName_plain h.plain.2]
  split
  · exact .pure _ _
  · exact .pure _ _

/-! ## Copying in -/

/-- What is stored of the content: its first bytes, and a zero for the last. -/
def storedBytes (content : List UInt8) (size : Nat) : List UInt8 := content.take (size - 1) ++ [0]

theorem length_storedBytes {content : List UInt8} {size : Nat} (h0 : 0 < size)
    (hle : size ≤ content.length + 1) : (storedBytes content size).length = size := by
  rw [storedBytes, List.length_append, List.length_take, List.length_singleton]
  omega

/-- The buffer, after `file_write` has set its last byte. -/
theorem buffer_storedBytes {content : List UInt8} {size : Nat} (h0 : 0 < size)
    (hle : size ≤ content.length + 1) :
    (copyBuffer content size).dropLast ++ [0] = storedBytes content size := by
  rw [copyBuffer, storedBytes]
  congr 1
  by_cases hlt : size ≤ content.length
  · rw [Nat.sub_eq_zero_of_le hlt, List.replicate_zero, List.append_nil, List.dropLast_eq_take,
      List.length_take, List.take_take, Nat.min_eq_left hlt, Nat.min_eq_left (by omega)]
  · obtain rfl : size = content.length + 1 := by omega
    rw [Nat.add_sub_cancel_left, List.take_of_length_le (Nat.le_succ _), Nat.add_sub_cancel,
      List.take_length, List.dropLast_append_of_ne_nil (by simp)]
    simp

theorem availableSpace_eq {freespace : Nat} (h : freespace < 2 ^ 22) :
    availableSpace freespace = some (512 * ((freespace : Int) - (freespace / 123 : Nat) - 1)) := by
  have hle : freespace / 123 ≤ freespace := Nat.div_le_self _ _
  have htotal : checkInt (freespace * 512) = some ((freespace : Int) * 512) := if_pos (by omega)
  have hover : checkInt (((freespace / 123 : Nat) + 1 : Int) * 512) =
      some (((freespace / 123 : Nat) + 1 : Int) * 512) :=
    if_pos (by omega)
  have hdiff : checkInt ((freespace : Int) * 512 - ((freespace / 123 : Nat) + 1 : Int) * 512) =
      some ((freespace : Int) * 512 - ((freespace / 123 : Nat) + 1 : Int) * 512) := if_pos (by omega)
  rw [availableSpace, show directBlocksCount = 123 from rfl]
  simp only [htotal, hover, Option.bind_eq_bind, Option.bind_some, hdiff, Option.some.injEq]
  omega

theorem availableSpace_eq_none {freespace : Nat} (h : 2 ^ 22 ≤ freespace) :
    availableSpace freespace = none := by
  have htotal : checkInt (freespace * 512) = none := if_neg (by omega)
  simp only [availableSpace, htotal, Option.bind_eq_bind, Option.bind_none]

theorem writeSize_eq {freespace : Nat} (h : freespace < 2 ^ 22) (fileSize : Nat) :
    writeSize freespace fileSize =
    some (min ((fileSize : Int) + 1) (512 * ((freespace : Int) - (freespace / 123 : Nat) - 1))) := by
  rw [writeSize, availableSpace_eq h]
  simp only [Option.bind_eq_bind, Option.bind_some, Option.pure_def, Option.some.injEq]
  split
  all_goals omega

theorem writeSize_bounds {freespace fileSize : Nat} {size : Int}
    (h : writeSize freespace fileSize = some size) : size ≤ fileSize + 1 ∧ size < 2 ^ 31 := by
  by_cases hfree : freespace < 2 ^ 22
  · rw [writeSize_eq hfree, Option.some.injEq] at h
    have : freespace / 123 ≤ freespace := Nat.div_le_self _ _
    omega
  · rw [writeSize, availableSpace_eq_none (by omega)] at h
    cases h

theorem Stored.beside {s s' : Session} {a : BlockSector → Option Node} {g : Growable UInt8}
    {T : Table} {name : CString} {y : BlockSector} {n : Node} (h : Stored s a g T name y n)
    (hb : s.Beside s') (hholds : ∀ p x, s'.Holds p x ↔ s.Holds p x) (hlive : s'.live = s.live)
    {bytes : Growable UInt8} (hvol : Volume s' (Function.update a y (some ⟨bytes, false⟩))) :
    Stored s' (Function.update a y (some ⟨bytes, false⟩)) g T name y ⟨bytes, false⟩ where
  rooted := h.rooted.written h.ne_root hlive hvol
  cwd d hd := by
    obtain ⟨dir, hget, hp, hcnt⟩ := h.cwd d (hb.cwd ▸ hd)
    exact ⟨dir, by rw [hb.dirs]; exact hget, (hholds _ _).2 hp, hcnt⟩
  plain := h.plain
  dots := h.dots
  bound := h.bound
  node := Function.update_self ..
  handle f hf := by
    rw [openedAs, hb.fileTable] at hf
    obtain ⟨file, hfile, hdeny⟩ := h.handle f hf
    exact ⟨file, hfile.beside hb ((hholds _ _).2 hfile.holds), hdeny⟩
  once := by rw [hb.fileTable]; exact h.once

theorem Session.fsutilFreespace (s : Session) : s.Does fsutilFreespace (freeCount s.st.freeMap) s := by
  rw [← bitmapCount_eq]
  rfl

theorem fsutilCreate_eq {name : CString} (h0 : name ≠ []) (h : name.length ≤ nameMax) (size : Int) :
    fsutilCreate name size = filesysCreate name size false := by
  have hpos := List.length_pos_iff.2 h0
  have hmax : nameMax = 30 := rfl
  rw [fsutilCreate, if_neg (by omega)]

theorem Rooted.stored_new {s s' : Session} {a : BlockSector → Option Node} {g g' : Growable UInt8}
    {T : Table} {name : CString} {y : BlockSector} {f : Growable UInt8} (h : Rooted s a g T)
    (hkeep : s.Keeping s') (hplain : name ≠ [] ∧ slash ∉ name)
    (hdots : name ≠ [dot] ∧ name ≠ [dot, dot]) (hnew : s.openedAs name = none)
    (hno : SlotMap.lookup T name = none) (hy : y ∉ s.live)
    (h' : Rooted s' (Function.update (Function.update a y (some ⟨f, false⟩)) rootDirSector
      (some ⟨g', true⟩)) g' (SlotMap.put T (name, y))) :
    Stored s' (Function.update (Function.update a y (some ⟨f, false⟩)) rootDirSector
      (some ⟨g', true⟩)) g' (SlotMap.put T (name, y)) name y ⟨f, false⟩ where
  rooted := h'
  cwd := hkeep.cwd
  plain := hplain
  dots := hdots
  bound := by rw [SlotMap.lookup_put h.distinct hno, if_pos rfl]
  node := by
    rw [Function.update_of_ne, Function.update_self]
    rintro rfl
    exact hy h.root
  handle f hf := by
    rw [openedAs, hkeep.files] at hf
    exact absurd (hnew.symm.trans hf) (by simp)
  once e he := by
    rw [hkeep.files] at he
    have hnone : ∀ e ∈ s.st.fileTable, e.fname ≠ name := by simpa [openedAs] using hnew
    exact hnone e (List.mem_of_mem_eraseP he)

/-- `copy_in` from where there is a file for the content. -/
theorem Session.exec_copyIn {s s₁ : Session} {host : CString → Option (List UInt8)}
    {fname name : CString} {content : List UInt8} (hhost : host fname = some content)
    (hlast : lastName fname = name) {size : Int}
    (hsize : writeSize (freeCount s.st.freeMap) content.length = some size) (h0 : 0 ≤ size)
    (hcreate : s.Does (fsutilCreate name size) true s₁) : (copyIn host fname).exec s.st s.image =
      ((fsutilWrite name (copyBuffer content size.toNat)).exec s₁.st s₁.image).map fun r =>
        ((.noError, if size < content.length then some (size, (content.length : Int)) else none),
          r.2) := by
  have hfree : Fs.fsutilFreespace.exec s.st s.image = some (freeCount s.st.freeMap, s.st,
      s.image) := s.fsutilFreespace
  have hcreate : (fsutilCreate name size).exec s.st s.image = some (true, s₁.st, s₁.image) := hcreate
  unfold copyIn
  rw [hhost]
  dsimp only
  rw [Cmd.exec_bind, hfree, Option.bind_some]
  dsimp only
  rw [Cmd.exec_bind, Cmd.exec_ofOption, hsize, Option.map_some, Option.bind_some]
  dsimp only
  rw [hlast, Cmd.exec_bind, hcreate, Option.bind_some]
  dsimp only
  rw [if_neg (by decide), if_neg (by omega), Cmd.exec_bind, Option.map_eq_bind]
  rfl

/-- What `fsutil_create` leaves where it makes the file. -/
theorem Rooted.created {s : Session} {a : BlockSector → Option Node} {g : Growable UInt8}
    {T : Table} {name : CString} (h : Rooted s a g T) (hcwd : s.CwdOk)
    (hname : name ≠ [] ∧ 0 ∉ name ∧ slash ∉ name) {size : Int} (hlt : size < 2 ^ 31) {st : FsState}
    {v : Image} (hcreate : (fsutilCreate name size).exec s.st s.image = some (true, st, v)) :
    ∃ s₁ y g', s.Does (fsutilCreate name size) true s₁ ∧ s.Keeping s₁ ∧ s.FileRoom size ∧
      SlotMap.lookup T name = none ∧ y ∉ s.live ∧
      Rooted s₁ (Function.update (Function.update a y (some ⟨.zeros size.toNat, false⟩)) rootDirSector
        (some ⟨g', true⟩)) g' (SlotMap.put T (name, y)) := by
  have hsmall : ¬ (name.length = 0 ∨ 255 ≤ name.length) := fun hno => by
    rw [fsutilCreate, if_pos hno] at hcreate
    cases hcreate
  have heq : fsutilCreate name size = Fs.filesysCreate name size false := by
    rw [fsutilCreate, if_neg hsmall]
  obtain ⟨s₁, ok, hdoes, hkeep, hres⟩ :=
    h.filesysCreate hcwd (fileName_plain hname.1 hname.2.2) hname hlt
  rw [← heq] at hdoes
  obtain rfl : true = ok := by
    rw [Does, hcreate] at hdoes
    exact congrArg Prod.fst (Option.some.inj hdoes)
  obtain ⟨-, hroom, -, hno, -, y, g', hy, -, -, h₁⟩ := hres.resolve_right fun hf => by cases hf.1
  exact ⟨s₁, y, g', hdoes, hkeep, hroom, hno, hy, h₁⟩

/-- **`copy_in`** of a file, once there is one for it. -/
theorem Rooted.copyIn {s : Session} {a : BlockSector → Option Node} {g : Growable UInt8} {T : Table}
    {name : CString} (h : Rooted s a g T) (hcwd : s.CwdOk)
    (hname : name ≠ [] ∧ 0 ∉ name ∧ slash ∉ name) (hdots : name ≠ [dot] ∧ name ≠ [dot, dot])
    (hnew : s.openedAs name = none) {host : CString → Option (List UInt8)} {fname : CString}
    {content : List UInt8} (hhost : host fname = some content) (hlast : lastName fname = name)
    {size : Int} (hsize : writeSize (freeCount s.st.freeMap) content.length = some size)
    (hpos : 0 < size) {st : FsState} {v : Image}
    (hcreate : (fsutilCreate name size).exec s.st s.image = some (true, st, v)) :
    ∃ s' a' g' T' y n, s.Does (copyIn host fname)
        (.noError, if size < content.length then some (size, (content.length : Int)) else none) s' ∧
      Stored s' a' g' T' name y n ∧ n.bytes.length = size.toNat ∧
      n.bytes.read size.toNat 0 = storedBytes content size.toNat ∧
      ∃ f p, s'.openedAs name = some f ∧ OpenFile s' f ⟨p, size - 2, false⟩ y := by
  obtain ⟨hle, hlt⟩ := writeSize_bounds hsize
  obtain ⟨s₁, y, g', hcreate, hkeep, -, hno, hy, h₁⟩ := h.created hcwd hname hlt hcreate
  have hstored₁ := h.stored_new hkeep ⟨hname.1, hname.2.2⟩ hdots hnew hno hy h₁
  have hnew₁ : s₁.openedAs name = none := by
    rw [openedAs, hkeep.files]
    exact hnew
  -- the file is opened and written
  obtain ⟨f, file, s₂, hopen, h₂, hopened₂, hf₂, hdeny, -, hpos₂, -⟩ := hstored₁.openFname
  obtain ⟨p, pos, deny⟩ := file
  obtain rfl : pos = 0 := (hpos₂ hnew₁).1
  obtain rfl : deny = false := hdeny
  have hbuffer : (copyBuffer content size.toNat).dropLast ++ [0] = storedBytes content size.toNat :=
    buffer_storedBytes (by omega) (by omega)
  have hlen := length_storedBytes (show 0 < size.toNat by omega)
    (show size.toNat ≤ content.length + 1 by omega)
  have hne : copyBuffer content size.toNat ≠ [] := by
    refine List.length_pos_iff.1 ?_
    simp only [copyBuffer, List.length_append, List.length_take, List.length_replicate]
    omega
  obtain ⟨s₃, k, hwrite, hb₃, hholds₃, hlive₃, -, -, hres₃⟩ :=
    h₂.rooted.vol.writeAt hf₂.holds hf₂.sector h₂.node
    (storedBytes content size.toNat) 0 (by intro hnil; rw [hnil] at hlen; simp at hlen; omega)
  rw [Nat.zero_add, hlen] at hres₃
  have hroom := h₂.rooted.vol.room_of_le hf₂.sector (.inr ⟨_, hf₂.holds⟩) h₂.node
    (show 0 < size.toNat by omega) (Nat.le_refl _)
  obtain ⟨-, hk, hvol₃⟩ := hres₃.resolve_right fun hno => hno.1 hroom
  rw [← hbuffer] at hwrite
  obtain ⟨s₄, hdoes₄, hm₄⟩ := hf₂.fileWrite_of hne hwrite hb₃
  have h₃ := h₂.beside hb₃ hholds₃ hlive₃ hvol₃
  have hf₃ := hf₂.beside hb₃ ((hholds₃ _ _).2 hf₂.holds)
  have h₄ := h₃.moves hf₃ hm₄ rfl rfl
  have hdoes : s₁.Does (fsutilWrite name (copyBuffer content size.toNat)) k s₄ := hopen.bind hdoes₄
  refine ⟨s₄, _, _, _, y, _, ?_, h₄, ?_, ?_, f, p, ?_, ?_⟩
  · have hexec := exec_copyIn hhost hlast hsize hpos.le hcreate
    rw [show (fsutilWrite name (copyBuffer content size.toNat)).exec s₁.st s₁.image =
      _ from hdoes] at hexec
    exact hexec
  · rw [Growable.length_write, hlen, Growable.length_zeros, Nat.zero_add, Nat.max_self]
  · have hread := (Growable.zeros size.toNat).read_write 0 (storedBytes content size.toNat)
    rwa [hlen] at hread
  · rw [openedAs, hm₄.state]
    simpa only [openedAs, hb₃.fileTable] using hopened₂
  · have hf₄ := hf₃.moves hm₄ rfl
    rwa [show (0 : Int) + (k - 2) = size - 2 by omega] at hf₄

/-! ## There and back -/

/-- The open file is not on any inode: it was closed, or its inode was. -/
def Session.Stale (s : Session) (f : Ptr) : Prop :=
  ∀ file, s.st.files.get f = some file → s.st.openInodes.get file.inode = none

/-- A write to a file whose inode was closed. -/
theorem Session.Stale.fileWrite {s : Session} {f : Ptr} (h : s.Stale f) (buffer : List UInt8) :
    (fileWrite f buffer).exec s.st s.image = none := by
  unfold Fs.fileWrite
  split
  · rfl
  · rw [Cmd.exec_bind, exec_derefFile]
    cases hf : s.st.files.get f with
    | none => rfl
    | some file => simp [inodeWriteAt, derefInode, h file hf]

/-- What `copy_in` does first, where it ends without an error. -/
theorem copyIn_noError {s : Session} {host : CString → Option (List UInt8)} {fname : CString}
    {warning : Option (Int × Int)} {st : FsState} {v : Image}
    (hexec : (copyIn host fname).exec s.st s.image = some ((.noError, warning), st, v)) :
    ∃ content size st' v', host fname = some content ∧
      writeSize (freeCount s.st.freeMap) content.length = some size ∧
      0 ≤ size ∧ (fsutilCreate (lastName fname) size).exec s.st s.image = some (true, st', v') := by
  unfold copyIn at hexec
  cases hhost : host fname with
  | none =>
    rw [hhost] at hexec
    cases hexec
  | some content =>
    have hfree : fsutilFreespace.exec s.st s.image = some (freeCount s.st.freeMap, s.st, s.image) :=
      s.fsutilFreespace
    rw [hhost] at hexec
    dsimp only at hexec
    rw [Cmd.exec_bind, hfree, Option.bind_some] at hexec
    dsimp only at hexec
    rw [Cmd.exec_bind, Cmd.exec_ofOption] at hexec
    cases hsize : writeSize (freeCount s.st.freeMap) content.length with
    | none =>
      rw [hsize] at hexec
      cases hexec
    | some size =>
      rw [hsize, Option.map_some, Option.bind_some] at hexec
      dsimp only at hexec
      rw [Cmd.exec_bind] at hexec
      obtain ⟨⟨ok, st', v'⟩, hcreate, hexec⟩ := Option.bind_eq_some_iff.1 hexec
      cases ok with
      | false => simp at hexec
      | true =>
        by_cases hneg : size < 0
        · simp [hneg] at hexec
        · exact ⟨content, size, st', v', rfl, hsize, by omega, hcreate⟩

/-- `copy_in` of a name under which a file is open whose inode was closed. -/
theorem Rooted.copyIn_stale {s : Session} {a : BlockSector → Option Node} {g : Growable UInt8}
    {T : Table} {name : CString} (h : Rooted s a g T) (hcwd : s.CwdOk)
    (hname : name ≠ [] ∧ 0 ∉ name ∧ slash ∉ name) {f : Ptr} (hopened : s.openedAs name = some f)
    (hstale : s.Stale f) {host : CString → Option (List UInt8)} {fname : CString}
    {content : List UInt8} (hhost : host fname = some content) (hlast : lastName fname = name)
    {size : Int} (hsize : writeSize (freeCount s.st.freeMap) content.length = some size)
    (hpos : 0 ≤ size) {st : FsState} {v : Image}
    (hcreate : (fsutilCreate name size).exec s.st s.image = some (true, st, v)) :
    (Fs.copyIn host fname).exec s.st s.image = none := by
  obtain ⟨s₁, y, g', hcreate, hkeep, -⟩ := h.created hcwd hname (writeSize_bounds hsize).2 hcreate
  have hopened₁ : s₁.openedAs name = some f := by
    rw [openedAs, hkeep.files]
    exact hopened
  have hstale₁ : s₁.Stale f := fun file hf => by
    rw [hkeep.files] at hf
    have hgone := hstale file hf
    cases hget : s₁.st.openInodes.get file.inode with
    | none => rfl
    | some i =>
      -- no inode has been opened there
      have hholds : s.Holds file.inode i.sector := by
        by_cases hroot : i.sector = rootDirSector
        · rw [hroot]
          exact hkeep.root _ ⟨i, hget, hroot⟩
        · exact (hkeep.holds _ _ hroot).1 ⟨i, hget, rfl⟩
      obtain ⟨j, hj, -⟩ := hholds
      rw [hgone] at hj
      cases hj
  have hopen : (openFname name).exec s₁.st s₁.image = some (some f, s₁.st, s₁.image) :=
    openFname_again hopened₁
  rw [exec_copyIn hhost hlast hsize hpos hcreate]
  simp [fsutilWrite, hopen, hstale₁.fileWrite]

/-- `copy_in`, the file closed or not, and `copy_out`. -/
def copyBack (host : CString → Option (List UInt8)) (writable : CString → Bool) (fname : CString)
    (close : Bool) : FsM (Error × Option (CString × List UInt8)) := do
  let _ ← copyIn host fname
  if close then fsutilClose (lastName fname) else pure ()
  copyOut writable (lastName fname)

theorem takeWhile_storedBytes (content : List UInt8) :
    (storedBytes content (content.length + 1)).takeWhile (· ≠ 0) = content.takeWhile (· ≠ 0) := by
  rw [storedBytes, Nat.add_sub_cancel, List.take_length]
  induction content with
  | nil => rfl
  | cons c content ih => rw [List.cons_append, List.takeWhile_cons, List.takeWhile_cons, ih]

/-- **There and back.** Where there is no file of the name and the content
fits, `copy_out` gives back the content up to its first NUL, exactly if no file
is open under the name. -/
theorem copied_back {s : Session} {a : BlockSector → Option Node} {g : Growable UInt8} {T : Table}
    {name : CString} (h : Rooted s a g T) (hcwd : s.CwdOk)
    (hname : name ≠ [] ∧ 0 ∉ name ∧ slash ∉ name) (hdots : name ≠ [dot] ∧ name ≠ [dot, dot])
    (hstale : ∀ f, s.openedAs name = some f → s.Stale f) {host : CString → Option (List UInt8)}
    {writable : CString → Bool} {fname : CString} {content : List UInt8}
    (hhost : host fname = some content) (hlast : lastName fname = name)
    (hwritable : writable name = true)
    (hsize : writeSize (freeCount s.st.freeMap) content.length = some (content.length + 1))
    (hcreate : ∃ st v, (fsutilCreate name (content.length + 1)).exec s.st s.image = some (true, st,
      v)) :
    (∀ close, ∃ st v, (copyBack host writable fname close).exec s.st s.image =
      some ((.noError, some (name, content.takeWhile (· ≠ 0))), st, v)) ↔ s.openedAs name = none := by
  obtain ⟨st, v, hcreate⟩ := hcreate
  constructor
  · intro hback
    cases hopened : s.openedAs name with
    | none => rfl
    | some f =>
      obtain ⟨st, v, hexec⟩ := hback false
      rw [copyBack, Cmd.exec_bind,
        h.copyIn_stale hcwd hname hopened (hstale f hopened) hhost hlast hsize
        (by omega) hcreate] at hexec
      cases hexec
  · intro hopened close
    obtain ⟨s₁, a', g', T', y, n, hin, hstored, hlen, hread, -⟩ :=
      h.copyIn hcwd hname hdots hopened hhost hlast hsize (by omega) hcreate
    have hbytes : (n.bytes.read n.bytes.length 0).takeWhile (· ≠ 0) = content.takeWhile (· ≠ 0) := by
      rw [hlen, hread, ← takeWhile_storedBytes content]
      rfl
    have hout : ∀ s₂, Stored s₂ a' g' T' name y n → ∃ s₃,
        s₂.Does (copyOut writable name) (.noError, some (name, content.takeWhile (· ≠ 0))) s₃ :=
          fun s₂ h₂ => by
      obtain ⟨s₃, hdoes, -⟩ := h₂.copyOut writable
      rw [if_pos hwritable, hbytes] at hdoes
      exact ⟨s₃, hdoes⟩
    unfold copyBack
    rw [hlast]
    cases close with
    | false =>
      obtain ⟨s₃, hdoes⟩ := hout s₁ hstored
      exact ⟨_, _, hin.bind hdoes⟩
    | true =>
      obtain ⟨s₂, hclose, h₂, -⟩ := hstored.fsutilClose
      obtain ⟨s₃, hdoes⟩ := hout s₂ h₂
      exact ⟨_, _, hin.bind (hclose.bind hdoes)⟩

/-! ## On a new file system -/

/-- A device of this many sectors, formatted. -/
theorem exists_rooted_of {n : BlockSector} (hn : Formattable n.toNat) : ∃ st v a g T,
    (filesysInit n.toNat true).exec initialState (fun _ => Sector.zeros) = some (true, st, v) ∧
    Rooted ⟨st, v, [rootDirSector], []⟩ a g T ∧ Session.CwdOk ⟨st, v, [rootDirSector], []⟩ ∧
    (∀ name, SlotMap.lookup T name = none) ∧ none ∈ T ∧
    freeCount st.freeMap + sectorCost (bytesToSectors (byteCnt (n.toNat - 1))) + 71 = n.toNat - 3 ∧
    st.freeMap.length = n.toNat - 1 ∧ st.fileTable = [] := by
  have hthree := hn.1
  rcases exec_filesysInit (n := n.toNat) (v := fun _ => Sector.zeros) n.toNat_lt.le with
    ⟨hno, -⟩ | ⟨-, st, v, q, fm, hexec, hf⟩
  · exact absurd hn hno
  · obtain ⟨a, g, hrooted, hcwd⟩ := Rooted.format hexec
    refine ⟨st, v, a, g, _, hexec, hrooted, hcwd, fun name => ?_,
      List.mem_replicate.2 ⟨by omega, rfl⟩, hf.free, hf.size, ?_⟩
    · rw [SlotMap.lookup, List.reduceOption_replicate_none]
      rfl
    · rw [hf.state]
      rfl

theorem exists_rooted : ∃ st v a g T, (filesysInit 200 true).exec initialState
    (fun _ => Sector.zeros) = some (true, st, v) ∧
    Rooted ⟨st, v, [rootDirSector], []⟩ a g T ∧ Session.CwdOk ⟨st, v, [rootDirSector], []⟩ ∧
    (∀ name, SlotMap.lookup T name = none) ∧ none ∈ T ∧
    freeCount st.freeMap = 125 ∧ st.freeMap.length = 199 ∧ st.fileTable = [] := by
  have hn : Formattable (200 : BlockSector).toNat := by decide
  obtain ⟨st, v, a, g, T, hexec, hrooted, hcwd, hempty, hslot, hfree, hlength, htable⟩ :=
    exists_rooted_of hn
  have hcost : sectorCost (bytesToSectors (byteCnt ((200 : BlockSector).toNat - 1))) = 1 := by decide
  have hsize : (200 : BlockSector).toNat = 200 := rfl
  exact ⟨st, v, a, g, T, hexec, hrooted, hcwd, hempty, hslot, by omega, hlength, htable⟩

/-- `fsutil_create` of a file for which there is room. -/
theorem Rooted.exists_fsutilCreate {s : Session} {a : BlockSector → Option Node}
    {g : Growable UInt8} {T : Table} {name : CString} (h : Rooted s a g T) (hcwd : s.CwdOk)
    (hname : name ≠ [] ∧ 0 ∉ name ∧ slash ∉ name) (hlen : name.length ≤ nameMax)
    (hno : SlotMap.lookup T name = none) (hslot : none ∈ T) {size : Int} (hsize : size < 2 ^ 31)
    (hroom : s.FileRoom size) :
    ∃ s' y g', s.Does (fsutilCreate name size) true s' ∧ s.Keeping s' ∧ y ∉ s.live ∧
      freeCount s'.st.freeMap + (1 + sectorCost (bytesToSectors size.toNat)) = freeCount s.st.freeMap ∧
      Rooted s' (Function.update (Function.update a y (some ⟨.zeros size.toNat, false⟩)) rootDirSector
        (some ⟨g', true⟩)) g' (SlotMap.put T (name, y)) := by
  obtain ⟨s', ok, hdoes, hkeep, ⟨rfl, -, -, -, hcount, y, g', hy, -, -, h'⟩ | ⟨-, -, -, hfail⟩⟩ :=
    h.filesysCreate hcwd (fileName_plain hname.1 hname.2.2) hname hsize
  · rw [← fsutilCreate_eq hname.1 hlen] at hdoes
    exact ⟨s', y, g', hdoes, hkeep, hy, hcount hslot, h'⟩
  · exact absurd ⟨hroom, hlen, hno, hslot⟩ hfail

/-- On a fresh device of 200 sectors no file `a` is open, and one of so many bytes can be made. -/
theorem exists_fresh (size : Int) (hsize : 0 ≤ size ∧ size < 2 ^ 31)
    (hmax : bytesToSectors size.toNat ≤ InodeDisk.maxSectors)
    (hcost : 1 + sectorCost (bytesToSectors size.toNat) ≤ 125) :
    ∃ st v a g T st' v', (filesysInit 200 true).exec initialState (fun _ => Sector.zeros) =
      some (true, st, v) ∧
      Rooted ⟨st, v, [rootDirSector], []⟩ a g T ∧ Session.CwdOk ⟨st, v, [rootDirSector], []⟩ ∧
      Session.openedAs ⟨st, v, [rootDirSector], []⟩ [97] = none ∧ freeCount st.freeMap = 125 ∧
      (fsutilCreate [97] size).exec st v = some (true, st', v') := by
  obtain ⟨st, v, a, g, T, hformat, hrooted, hcwd, hempty, hslot, hfree, -, htable⟩ := exists_rooted
  have hopened : Session.openedAs ⟨st, v, [rootDirSector], []⟩ [97] = none := by
    rw [openedAs, htable]
    rfl
  have hroom : Session.FileRoom ⟨st, v, [rootDirSector], []⟩ size :=
    ⟨hsize.1, hmax, by rw [hfree]; exact hcost⟩
  have hname : ([97] : CString) ≠ [] ∧ 0 ∉ ([97] : CString) ∧ slash ∉ ([97] : CString) := by decide
  obtain ⟨s', -, -, hcreate, -⟩ :=
    hrooted.exists_fsutilCreate hcwd hname (by decide) (hempty _) hslot hsize.2 hroom
  exact ⟨st, v, a, g, T, s'.st, s'.image, hformat, hrooted, hcwd, hopened, hfree, hcreate⟩

theorem copied_back_hi : ∃ st v st' v', (filesysInit 200 true).exec initialState
    (fun _ => Sector.zeros) = some (true, st, v) ∧
    (copyBack (fun _ => some [104, 105]) (fun _ => true) [97] false).exec st v =
      some ((.noError, some ([97], [104, 105])), st', v') := by
  obtain ⟨st, v, a, g, T, _, _, hformat, hrooted, hcwd, hopened, hfree, hcreate⟩ :=
    exists_fresh 3 (by decide) (by decide) (by decide)
  have hback : (∀ close, ∃ st' v', (copyBack (fun _ => some [104, 105])
    (fun _ => true) [97] close).exec st v =
      some ((.noError, some ([97], ([104, 105] : List UInt8).takeWhile (· ≠ 0))), st', v')) ↔
      Session.openedAs ⟨st, v, [rootDirSector], []⟩ [97] = none :=
    copied_back hrooted hcwd (by decide) (by decide) (fun f hf => by rw [hopened] at hf; cases hf)
      rfl rfl rfl (by rw [hfree]; rfl) ⟨_, _, hcreate⟩
  obtain ⟨st', v', hexec⟩ := hback.2 hopened false
  exact ⟨st, v, st', v', hformat, hexec⟩

/-- A file is made and opened by `seek a 0`, and removed by `rm /a`. -/
def removedBeside : FsM Unit := do
  let _ ← filesysInit 200 true
  let _ ← fsutilCreate [97] 1
  let _ ← fsutilSeek [97] 0
  let _ ← fsutilRm [47, 97]

theorem writeSize_small {freespace : Nat} (hlow : 123 ≤ freespace) (hhigh : freespace ≤ 199) :
    writeSize freespace 1 = some 2 := by
  rw [writeSize_eq (by omega), Option.some.injEq]
  omega

/-- There is no file `a` then, there is room for one, and `copy_in a` faults. -/
theorem copied_back_fault :
    ∃ st v, removedBeside.exec initialState (fun _ => Sector.zeros) = some ((), st, v) ∧
    (∃ st' v', (filesysOpen [97]).exec st v = some (none, st', v')) ∧
    (∃ st' v', (fsutilCreate [97] 2).exec st v = some (true, st', v')) ∧
    writeSize (freeCount st.freeMap) 1 = some 2 ∧
    (copyBack (fun _ => some [104]) (fun _ => true) [97] false).exec st v = none := by
  obtain ⟨st, v, a, g, T, hformat, hrooted, hcwd, hempty, hslot, hfree, hlength, htable⟩ :=
    exists_rooted
  have hroom : Session.FileRoom ⟨st, v, [rootDirSector], []⟩ 1 := by
    refine ⟨by omega, by decide, ?_⟩
    rw [hfree]
    decide
  have hname : ([97] : CString) ≠ [] ∧ 0 ∉ ([97] : CString) ∧ slash ∉ ([97] : CString) := by decide
  have hdots : ([97] : CString) ≠ [dot] ∧ ([97] : CString) ≠ [dot, dot] := by decide
  obtain ⟨s₁, y, g₁, hcreate, hkeep₁, hy, hcount₁, h₁⟩ :=
    hrooted.exists_fsutilCreate hcwd hname (by decide) (hempty _) hslot (by omega) hroom
  have htable₁ : s₁.st.fileTable = [] := by rw [hkeep₁.files]; exact htable
  have hopened₀ : Session.openedAs ⟨st, v, [rootDirSector], []⟩ [97] = none := by
    rw [openedAs, htable]
    rfl
  have hstored₁ := hrooted.stored_new hkeep₁ ⟨hname.1, hname.2.2⟩ hdots hopened₀ (hempty _) hy h₁
  have hopened₁ : s₁.openedAs [97] = none := by
    rw [openedAs, htable₁]
    rfl
  -- it is opened
  obtain ⟨f, file, s₂, hopen, h₂, hopened₂, hf₂, -, hmap₂, hnew₂, -⟩ := hstored₁.openFname
  obtain ⟨-, htable₂⟩ := hnew₂ hopened₁
  obtain ⟨s₃, hseek, hm₃⟩ := hf₂.fileSeek 0
  have h₃ := h₂.moves hf₂ hm₃ rfl rfl
  have hf₃ := hf₂.moves hm₃ rfl
  have hseek : s₁.Does (fsutilSeek [97] 0) 0 s₃ := hopen.bind (hseek.bind (.pure _ _))
  -- and removed
  have hother : s₃.openedAs [47, 97] = none := by
    rw [openedAs, hm₃.state]
    simp only [htable₂, htable₁]
    rfl
  have hentry : s₃.Does (removeFromFileTable [47, 97]) false s₃ := by
    refine (s₃.getFileByFname [47, 97]).bind ?_
    rw [hother]
    exact .pure _ _
  obtain ⟨s₄, ok, hremove, hcwd₄, hfiles₄, hsize₄, hle₄, hroot₄, hres⟩ :=
    h₃.rooted.filesysRemove h₃.cwd ⟨hname.1, hname.2.2⟩
  obtain ⟨rfl, i, y', g₄, hi, h₄, -, hholds₄⟩ := hres.resolve_right fun hno => by
    rw [h₃.bound] at hno
    cases hno.2.1
  obtain rfl : y' = y :=
    Option.some.inj ((SlotMap.lookup_of_slot h₃.rooted.distinct hi).symm.trans h₃.bound)
  have hgone := (SlotMap.lookup_free h₃.rooted.distinct hi [97]).trans (if_pos rfl)
  have hopened₄ : s₄.openedAs [97] = some f := by
    rw [openedAs, hfiles₄, hm₃.state]
    exact hopened₂
  have hstale : s₄.Stale f := fun file' hfile' => by
    rw [hfiles₄] at hfile'
    obtain rfl := Option.some.inj (hf₃.handle.symm.trans hfile')
    cases hget : s₄.st.openInodes.get file.inode with
    | none => rfl
    | some j =>
      by_cases hroot : j.sector = rootDirSector
      · exact absurd ((hroot₄ _ ⟨j, hget, hroot⟩).unique hf₃.holds) (Ne.symm h₃.ne_root)
      · obtain ⟨hp, hne⟩ := (hholds₄ _ _ hroot).1 ⟨j, hget, rfl⟩
        exact absurd (hp.unique hf₃.holds) hne
  have hmap₃ : s₃.st.freeMap = s₁.st.freeMap := by
    rw [hm₃.state]
    exact hmap₂
  have hcost : sectorCost (bytesToSectors (1 : Int).toNat) = 1 := by decide
  have hfree₄ : 123 ≤ freeCount s₄.st.freeMap := by
    rw [hmap₃] at hle₄
    have : freeCount (Session.mk st v [rootDirSector] []).st.freeMap = 125 := hfree
    omega
  have hmax₄ : freeCount s₄.st.freeMap ≤ 199 := by
    have hlen : freeCount s₄.st.freeMap ≤ s₄.st.freeMap.length := List.count_le_length
    rw [hsize₄, hmap₃, hkeep₁.size] at hlen
    exact hlen.trans (Nat.le_of_eq hlength)
  have hsize := writeSize_small hfree₄ hmax₄
  have hroom₄ : s₄.FileRoom 2 := by
    refine ⟨by decide, by decide, Nat.le_trans ?_ hfree₄⟩
    decide
  obtain ⟨s₅, hlookup, -⟩ :=
    h₄.filesysOpen_none hcwd₄ (fileName_plain hname.1 hname.2.2) hname.1 hdots hgone
  obtain ⟨s₆, -, -, hagain, -⟩ := h₄.exists_fsutilCreate hcwd₄ hname (by decide) hgone
    (List.mem_set (List.getElem?_eq_some_iff.1 hi).1 _) (show (2 : Int) < 2 ^ 31 by decide) hroom₄
  have hrun : removedBeside.exec initialState (fun _ => Sector.zeros) = some ((), s₄.st, s₄.image) := by
    have hinit : Session.Does ⟨initialState, fun _ => Sector.zeros, [], []⟩ (filesysInit 200 true) true
      ⟨st, v, [rootDirSector], []⟩ := hformat
    have hdoes : Session.Does ⟨initialState, fun _ => Sector.zeros, [], []⟩ removedBeside () s₄ :=
      hinit.bind (hcreate.bind (hseek.bind ((hentry.bind hremove).bind (.pure _ _))))
    exact hdoes
  refine ⟨s₄.st, s₄.image, hrun, ⟨_, _, hlookup⟩, ⟨_, _, hagain⟩, hsize, ?_⟩
  have hfault : (copyIn (fun _ => some [104]) [97]).exec s₄.st s₄.image = none :=
    h₄.copyIn_stale hcwd₄ hname hopened₄ hstale rfl rfl hsize (by decide) hagain
  rw [copyBack, Cmd.exec_bind, hfault]
  rfl

end MyShell.Fs

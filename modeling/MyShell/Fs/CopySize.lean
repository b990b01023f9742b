/-
How much `copy_in` copies. It leaves one sector for each 123 free ones, where
an inode takes one for itself, one and one more for the index blocks, and one
for each 128 data sectors from the 252nd on.

So what it chooses does not always fit (`copy_fits`), and where it leaves
something out it is wrong about the last byte (`copy_silent`).
-/
import MyShell.Fs.CopyIn

namespace MyShell.Fs

open Storage Session

/-! ## Sizes -/

/-- What `copy_in` chooses can be stored. The number of free sectors is not
among those for which it leaves too few for the index blocks, or the file is
smaller than what it leaves; and the file is not larger than an inode. -/
def CopyFits (freespace fileSize : Nat) : Prop :=
  freespace < 2 ^ 22 ∧
    (2 ≤ freespace / 123 → 129 * (freespace / 123) < freespace + 4 →
      fileSize < 512 * (freespace - freespace / 123 - 2)) ∧
    (InodeDisk.maxSectors < freespace - freespace / 123 - 1 → fileSize < 512 * InodeDisk.maxSectors)

instance (freespace fileSize : Nat) : Decidable (CopyFits freespace fileSize) :=
  inferInstanceAs (Decidable (_ ∧ _))

/-- The sectors for `n` data sectors, with the inode's. -/
theorem sectorCost_le {n freespace : Nat} : 1 + sectorCost n ≤ freespace ↔
    (n ≤ 123 ∧ n + 1 ≤ freespace) ∨ (123 < n ∧ n ≤ 251 ∧ n + 2 ≤ freespace) ∨
    (251 < n ∧ n + 3 + (n - 251 + 127) / 128 ≤ freespace) := by
  simp only [sectorCost, divRoundUp]
  split
  · split
    all_goals omega
  · split
    all_goals omega

theorem data_fits {freespace sectors : Nat} (hF : 2 ≤ freespace) (hpos : 0 < sectors) :
    1 + sectorCost (min sectors (freespace - freespace / 123 - 1)) ≤ freespace ↔
      (2 ≤ freespace / 123 → 129 * (freespace / 123) < freespace + 4 →
        sectors < freespace - freespace / 123 - 1) := by
  rw [sectorCost_le]
  omega

/-- The sectors of the size that `copy_in` chooses. -/
theorem bytesToSectors_writeSize {freespace fileSize : Nat} {size : Int} (hF : 2 ≤ freespace)
    (hmax : freespace < 2 ^ 22) (h : writeSize freespace fileSize = some size) : 0 < size ∧
      bytesToSectors size.toNat = min (fileSize / 512 + 1) (freespace - freespace / 123 - 1) := by
  rw [writeSize_eq hmax, Option.some.injEq] at h
  unfold bytesToSectors divRoundUp blockSectorSize
  omega

/-- **What fits.** -/
theorem Session.fileRoom_iff {s : Session} {fileSize : Nat} {size : Int}
    (hF : 2 ≤ freeCount s.st.freeMap)
    (h : writeSize (freeCount s.st.freeMap) fileSize = some size) :
    s.FileRoom size ↔ CopyFits (freeCount s.st.freeMap) fileSize := by
  have hmax : freeCount s.st.freeMap < 2 ^ 22 := by
    by_contra hno
    rw [writeSize, availableSpace_eq_none (by omega)] at h
    cases h
  obtain ⟨hpos, hsectors⟩ := bytesToSectors_writeSize hF hmax h
  rw [FileRoom, CopyFits, hsectors, data_fits hF (Nat.succ_pos _), InodeDisk.maxSectors]
  generalize freeCount s.st.freeMap = freespace at *
  constructor
  · rintro ⟨-, hsize, hdata⟩
    refine ⟨hmax, fun hk hlow => ?_, fun hlarge => ?_⟩
    · have := hdata hk hlow
      omega
    · omega
  · rintro ⟨-, hdata, hsize⟩
    refine ⟨hpos.le, ?_, fun hk hlow => ?_⟩
    · by_cases hlarge : 16635 < freespace - freespace / 123 - 1
      · have := hsize hlarge
        omega
      · omega
    · have := hdata hk hlow
      omega

/-! ## Whether it fits -/

/-- What can be read of the file with this name, by a new handle. -/
def readBack (name : CString) (size : Int) : FsM (List UInt8) := do
  match ← filesysOpen name with
  | none => pure []
  | some f => fileRead f size

theorem Stored.readBack {s : Session} {a : BlockSector → Option Node} {g : Growable UInt8}
    {T : Table} {name : CString} {y : BlockSector} {n : Node} (h : Stored s a g T name y n)
    (size : Int) : ∃ s', s.Does (readBack name size) (n.bytes.read size.toNat 0) s' := by
  obtain ⟨p, s₁, hopen, h₁, ho, -⟩ := h.filesysOpen
  obtain ⟨s₂, hread, -⟩ := ho.file.fileRead h₁.rooted.vol (Int.le_refl 0) h₁.node size
  exact ⟨s₂, hopen.bind hread⟩

/-- **`copy_in`'s size.** With at least two free sectors, an unused directory
entry and no file of the name, what `copy_in` chooses to store has a positive
size, fits in the free sectors and is stored, exactly if `CopyFits` says so and
no file is open under the name. -/
theorem copy_fits {s : Session} {a : BlockSector → Option Node} {g : Growable UInt8} {T : Table}
    {name : CString} (h : Rooted s a g T) (hcwd : s.CwdOk)
    (hname : name ≠ [] ∧ 0 ∉ name ∧ slash ∉ name) (hlen : name.length ≤ nameMax)
    (hdots : name ≠ [dot] ∧ name ≠ [dot, dot]) (hno : SlotMap.lookup T name = none)
    (hslot : none ∈ T) (hstale : ∀ f, s.openedAs name = some f → s.Stale f)
    (hF : 2 ≤ freeCount s.st.freeMap) {host : CString → Option (List UInt8)} {fname : CString}
    {content : List UInt8} (hhost : host fname = some content) (hlast : lastName fname = name) :
    (∃ size, writeSize (freeCount s.st.freeMap) content.length = some size ∧ 0 < size ∧
      s.FileRoom size ∧ (∃ st v, (fsutilCreate name size).exec s.st s.image = some (true, st, v)) ∧
      ∃ warning st v, (copyIn host fname).exec s.st s.image = some ((.noError, warning), st, v) ∧
        ∃ st' v', (readBack name size).exec st v = some (storedBytes content size.toNat, st', v')) ↔
    CopyFits (freeCount s.st.freeMap) content.length ∧ s.openedAs name = none := by
  constructor
  · rintro ⟨size, hsize, hpos, hroom, ⟨st, v, hcreate⟩, warning, st', v', hexec, -⟩
    refine ⟨(s.fileRoom_iff hF hsize).1 hroom, ?_⟩
    cases hopened : s.openedAs name with
    | none => rfl
    | some f =>
      rw [h.copyIn_stale hcwd hname hopened (hstale f hopened) hhost hlast hsize hpos.le
        hcreate] at hexec
      cases hexec
  · intro ⟨hfits, hopened⟩
    have hsize := writeSize_eq hfits.1 content.length
    have hroom := (s.fileRoom_iff hF hsize).2 hfits
    have hpos := (bytesToSectors_writeSize hF hfits.1 hsize).1
    obtain ⟨s₁, y, g', hcreate, -⟩ :=
      h.exists_fsutilCreate hcwd hname hlen hno hslot (writeSize_bounds hsize).2 hroom
    obtain ⟨s₂, a', g'', T', y', n, hin, hstored, hlength, hread, -⟩ :=
      h.copyIn hcwd hname hdots hopened hhost hlast hsize hpos hcreate
    obtain ⟨s₃, hback⟩ := hstored.readBack _
    rw [hread] at hback
    exact ⟨_, hsize, hpos, hroom, ⟨_, _, hcreate⟩, _, _, _, hin, _, _, hback⟩

theorem Session.exec_copyIn_refused {s s₁ : Session} {host : CString → Option (List UInt8)}
    {fname : CString} {content : List UInt8} (hhost : host fname = some content) {size : Int}
    (hsize : writeSize (freeCount s.st.freeMap) content.length = some size)
    (hcreate : s.Does (fsutilCreate (lastName fname) size) false s₁) :
    s.Does (copyIn host fname) (.fileCreationError, none) s₁ := by
  have hfree : s.Does Fs.fsutilFreespace (freeCount s.st.freeMap) s := s.fsutilFreespace
  have hchoose : s.Does (Cmd.ofOption (writeSize (freeCount s.st.freeMap) content.length)) size s := by
    rw [hsize]
    rfl
  unfold copyIn
  rw [hhost]
  exact hfree.bind (hchoose.bind (hcreate.bind (.pure _ _)))

theorem copy_fits_small :
    ∃ st v, (filesysInit 200 true).exec initialState (fun _ => Sector.zeros) = some (true, st, v) ∧
    ∃ warning st' v', (copyIn (fun _ => some [104]) [97]).exec st v =
      some ((.noError, warning), st', v') := by
  obtain ⟨st, v, a, g, T, hformat, hrooted, hcwd, hempty, hslot, hfree, -, htable⟩ := exists_rooted
  have hopened : Session.openedAs ⟨st, v, [rootDirSector], []⟩ [97] = none := by
    rw [openedAs, htable]
    rfl
  have htwo : 2 ≤ freeCount (Session.mk st v [rootDirSector] []).st.freeMap := by
    rw [hfree]
    decide
  have hfits : CopyFits (freeCount (Session.mk st v [rootDirSector] []).st.freeMap)
      ([104] : List UInt8).length := by
    rw [hfree]
    decide
  obtain ⟨host, hhost⟩ : ∃ host : CString → Option (List UInt8), host = fun _ => some [104] :=
    ⟨_, rfl⟩
  have hcontent : host [97] = some [104] := congrFun hhost _
  have hlast : lastName [97] = [97] := rfl
  obtain ⟨-, -, -, -, -, warning, st', v', hexec, -⟩ :=
    (copy_fits hrooted hcwd (by decide) (by decide) (by decide)
    (hempty _) hslot (fun f hf => by rw [hopened] at hf; cases hf) htwo hcontent hlast).2 ⟨hfits,
      hopened⟩
  rw [hhost] at hexec
  exact ⟨st, v, hformat, warning, st', v', hexec⟩

/-- With 255 free sectors a file of 251 sectors is refused: `copy_in` would
store 252, and they need two index blocks. -/
theorem copy_refused : ∃ st v a g T, (filesysInit 330 true).exec initialState
    (fun _ => Sector.zeros) = some (true, st, v) ∧
    Rooted ⟨st, v, [rootDirSector], []⟩ a g T ∧ SlotMap.lookup T [97] = none ∧ none ∈ T ∧
    freeCount st.freeMap = 255 ∧
    writeSize 255 128512 = some 128513 ∧
    ∃ st' v', (copyIn (fun _ => some (List.replicate 128512 1)) [97]).exec st v =
      some ((.fileCreationError, none), st', v') := by
  have hn : Formattable (330 : BlockSector).toNat := by decide
  obtain ⟨st, v, a, g, T, hformat, hrooted, hcwd, hempty, hslot, hfree, -, -⟩ := exists_rooted_of hn
  have hcost : sectorCost (bytesToSectors (byteCnt ((330 : BlockSector).toNat - 1))) = 1 := by decide
  have hdevice : (330 : BlockSector).toNat = 330 := rfl
  have hcount : freeCount st.freeMap = 255 := by omega
  have hchosen : writeSize 255 128512 = some 128513 := by
    rw [writeSize_eq (by omega)]
    rfl
  obtain ⟨content, hcontent⟩ : ∃ content : List UInt8, content = List.replicate 128512 1 := ⟨_, rfl⟩
  have hlength : content.length = 128512 := by rw [hcontent, List.length_replicate]
  have hsize : writeSize (freeCount (Session.mk st v [rootDirSector] []).st.freeMap)
      content.length = some 128513 := by
    rw [hlength]
    exact hcount.symm ▸ hchosen
  have hroom : ¬ Session.FileRoom ⟨st, v, [rootDirSector], []⟩ 128513 := fun h => by
    have htoo := h.2.2
    have hneed : 1 + sectorCost (bytesToSectors (128513 : Int).toNat) = 256 := by decide
    have : freeCount (Session.mk st v [rootDirSector] []).st.freeMap = 255 := hcount
    omega
  have hname : ([97] : CString) ≠ [] ∧ 0 ∉ ([97] : CString) ∧ slash ∉ ([97] : CString) := by decide
  obtain ⟨s₁, ok, hcreate, -, hmade | ⟨rfl, -⟩⟩ :=
    hrooted.filesysCreate hcwd (fileName_plain hname.1 hname.2.2) hname
    (show (128513 : Int) < 2 ^ 31 by decide)
  · exact absurd hmade.2.1 hroom
  · rw [← fsutilCreate_eq (by decide) (by decide)] at hcreate
    have hrefused : Session.Does _ (copyIn (fun _ => some content) [97]) (.fileCreationError,
        none) s₁ :=
      exec_copyIn_refused rfl hsize hcreate
    rw [hcontent] at hrefused
    exact ⟨st, v, a, g, T, hformat, hrooted, hempty _, hslot, hcount, hchosen, _, _, hrefused⟩

/-! ## What is left out -/

/-- The number of bytes that are read back unchanged. -/
def unchanged (content bytes : List UInt8) : Nat := (content.zip bytes).countP fun p => p.1 = p.2

/-- What `copy_in` says is so: nothing was left out, or these many bytes of the
content were written. -/
def SaysSo (content bytes : List UInt8) : Option (Int × Int) → Prop
  | none => bytes = content
  | some (written, _) => written = unchanged content bytes

/-- The content is shorter than the space that `copy_in` leaves itself, or has a
NUL for the last byte of that space. -/
def KeepsLast (freespace : Nat) (content : List UInt8) : Prop :=
  content.length < 512 * (freespace - freespace / 123 - 1) ∨
    content[512 * (freespace - freespace / 123 - 1) - 1]? = some 0

theorem unchanged_self (content : List UInt8) : unchanged content content = content.length := by
  induction content with
  | nil => rfl
  | cons c content ih =>
    rw [unchanged, List.zip_cons_cons, List.countP_cons_of_pos (by simp), List.length_cons, ← ih]
    rfl

theorem unchanged_append (kept : List UInt8) (c : UInt8) (rest : List UInt8) :
    unchanged (kept ++ c :: rest) (kept ++ [0]) = kept.length + if c = 0 then 1 else 0 := by
  rw [unchanged, List.zip_append rfl, List.countP_append, ← unchanged, unchanged_self]
  simp [List.countP_cons]

/-- The last of the bytes stored is a NUL, whatever it should have been. -/
theorem unchanged_storedBytes {content : List UInt8} {size : Nat} (h0 : 0 < size)
    (hle : size ≤ content.length) :
    unchanged content (storedBytes content size) = size ↔ content[size - 1]? = some 0 := by
  have hlt : size - 1 < content.length := by omega
  have hlength : (content.take (size - 1)).length = size - 1 := by
    rw [List.length_take, Nat.min_eq_left hlt.le]
  have hcount := unchanged_append (content.take (size - 1)) content[size - 1]
    (content.drop (size - 1 + 1))
  rw [← List.drop_eq_getElem_cons hlt, List.take_append_drop, ← storedBytes, hlength] at hcount
  rw [List.getElem?_eq_getElem hlt, Option.some.injEq, hcount]
  by_cases hzero : content[size - 1] = 0
  · rw [if_pos hzero]
    exact iff_of_true (by omega) hzero
  · rw [if_neg hzero]
    exact iff_of_false (by omega) hzero

/-- A whole file of the content's size that ends in NUL. -/
theorem storedBytes_eq_self {content : List UInt8} (h0 : content ≠ []) :
    storedBytes content content.length = content ↔ content[content.length - 1]? = some 0 := by
  rw [storedBytes, ← List.dropLast_eq_take, ← List.getLast?_eq_getElem?]
  constructor
  · intro h
    rw [← h, List.getLast?_append]
    rfl
  · intro h
    rw [List.getLast?_eq_some_getLast h0, Option.some.injEq] at h
    rw [← h, List.dropLast_append_getLast]


/-- `copy_in` of an empty buffer: `file_write` sets the byte before it. -/
theorem Rooted.copyIn_empty {s : Session} {a : BlockSector → Option Node} {g : Growable UInt8}
    {T : Table} {name : CString} (h : Rooted s a g T) (hcwd : s.CwdOk)
    (hname : name ≠ [] ∧ 0 ∉ name ∧ slash ∉ name) (hdots : name ≠ [dot] ∧ name ≠ [dot, dot])
    (hnew : s.openedAs name = none) {host : CString → Option (List UInt8)} {fname : CString}
    {content : List UInt8} (hhost : host fname = some content) (hlast : lastName fname = name)
    (hsize : writeSize (freeCount s.st.freeMap) content.length = some 0) {st : FsState} {v : Image}
    (hcreate : (fsutilCreate name 0).exec s.st s.image = some (true, st, v)) :
    (Fs.copyIn host fname).exec s.st s.image = none := by
  obtain ⟨s₁, y, g', hcreate, hkeep, -, hno, hy, h₁⟩ := h.created hcwd hname (by decide) hcreate
  have hstored := h.stored_new hkeep ⟨hname.1, hname.2.2⟩ hdots hnew hno hy h₁
  obtain ⟨f, file, s₂, hopen, -⟩ := hstored.openFname
  have hopen : (openFname name).exec s₁.st s₁.image = some (some f, s₂.st, s₂.image) := hopen
  have hempty : copyBuffer content (Int.toNat 0) = [] := by simp [copyBuffer]
  rw [exec_copyIn hhost hlast hsize le_rfl hcreate, fsutilWrite, Cmd.exec_bind, hopen, hempty]
  rfl

/-- What can be read afterwards of the bytes that should be there. -/
theorem Rooted.copyIn_readBack {s : Session} {a : BlockSector → Option Node} {g : Growable UInt8}
    {T : Table} {name : CString} (h : Rooted s a g T) (hcwd : s.CwdOk)
    (hname : name ≠ [] ∧ 0 ∉ name ∧ slash ∉ name) (hdots : name ≠ [dot] ∧ name ≠ [dot, dot])
    (hnew : s.openedAs name = none) {host : CString → Option (List UInt8)} {fname : CString}
    {content : List UInt8} (hhost : host fname = some content) (hlast : lastName fname = name)
    {size : Int} (hsize : writeSize (freeCount s.st.freeMap) content.length = some size)
    (hpos : 0 < size) {st : FsState} {v : Image}
    (hcreate : (fsutilCreate name size).exec s.st s.image = some (true, st, v)) :
    ∃ s₁, s.Does (Fs.copyIn host fname)
        (.noError, if size < content.length then some (size, (content.length : Int)) else none) s₁ ∧
      ∀ bytes, (∃ st' v', (readBack name content.length).exec s₁.st s₁.image =
        some (bytes, st', v')) ↔ bytes = (storedBytes content size.toNat).take content.length := by
  obtain ⟨s₁, a', g', T', y, n, hin, hstored, hlength, hread, -⟩ :=
    h.copyIn hcwd hname hdots hnew hhost hlast hsize hpos hcreate
  obtain ⟨s₂, hback⟩ := hstored.readBack content.length
  have hback : (readBack name content.length).exec s₁.st s₁.image = _ := hback
  refine ⟨s₁, hin, fun bytes => ?_⟩
  rw [hback, ← hread, Int.toNat_natCast, Growable.read_eq_take (hlength.trans (Nat.zero_add _).symm).le]
  constructor
  · intro ⟨st', v', heq⟩
    exact (congrArg Prod.fst (Option.some.inj heq)).symm
  · rintro rfl
    exact ⟨_, _, rfl⟩

/-- **What is left out.** Where `copy_in` returns without an error, the file's
first bytes are the content if there was no warning, and the warning counts
those that are, exactly if `KeepsLast` says so. -/
theorem copy_silent {s : Session} {a : BlockSector → Option Node} {g : Growable UInt8} {T : Table}
    {name : CString} (h : Rooted s a g T) (hcwd : s.CwdOk)
    (hname : name ≠ [] ∧ 0 ∉ name ∧ slash ∉ name) (hdots : name ≠ [dot] ∧ name ≠ [dot, dot])
    (hstale : ∀ f, s.openedAs name = some f → s.Stale f) {host : CString → Option (List UInt8)}
    {fname : CString} {content : List UInt8} (hhost : host fname = some content)
    (hlast : lastName fname = name) {warning : Option (Int × Int)} {st : FsState} {v : Image}
    (hexec : (copyIn host fname).exec s.st s.image = some ((.noError, warning), st, v)) :
    (∃ bytes st' v', (readBack name content.length).exec st v = some (bytes, st', v') ∧
      SaysSo content bytes warning) ↔
    KeepsLast (freeCount s.st.freeMap) content := by
  obtain ⟨content₀, size, st', v', hhost₀, hsize, h0, hcreate⟩ := copyIn_noError hexec
  obtain rfl : content = content₀ := Option.some.inj (hhost.symm.trans hhost₀)
  rw [hlast] at hcreate
  have hopened : s.openedAs name = none := by
    cases hopened : s.openedAs name with
    | none => rfl
    | some f =>
      rw [h.copyIn_stale hcwd hname hopened (hstale f hopened) hhost hlast hsize h0 hcreate] at hexec
      cases hexec
  have hpos : 0 < size := by
    rcases h0.lt_or_eq with hpos | rfl
    · exact hpos
    · rw [h.copyIn_empty hcwd hname hdots hopened hhost hlast hsize hcreate] at hexec
      cases hexec
  obtain ⟨s₁, hin, hbytes⟩ := h.copyIn_readBack hcwd hname hdots hopened hhost hlast hsize hpos hcreate
  rw [Does, hexec, Option.some.injEq, Prod.mk.injEq, Prod.mk.injEq, Prod.mk.injEq] at hin
  obtain ⟨⟨-, rfl⟩, rfl, rfl⟩ := hin
  have hF : freeCount s.st.freeMap < 2 ^ 22 := by
    by_contra hno
    rw [writeSize, availableSpace_eq_none (by omega)] at hsize
    cases hsize
  rw [writeSize_eq hF, Option.some.injEq] at hsize
  have hback (P : List UInt8 → Prop) :
      (∃ bytes st' v', (readBack name content.length).exec s₁.st s₁.image = some (bytes, st', v') ∧
        P bytes) ↔ P ((storedBytes content size.toNat).take content.length) := by
    constructor
    · rintro ⟨bytes, st', v', hexec, hP⟩
      exact (hbytes bytes).1 ⟨st', v', hexec⟩ ▸ hP
    · intro hP
      obtain ⟨st', v', hexec⟩ := (hbytes _).2 rfl
      exact ⟨_, st', v', hexec, hP⟩
  refine (hback _).trans ?_
  generalize freeCount s.st.freeMap = freespace at hsize hF ⊢
  unfold KeepsLast
  by_cases hroom : content.length < 512 * (freespace - freespace / 123 - 1)
  · -- all of it is stored
    obtain rfl : size = content.length + 1 := by omega
    rw [if_neg (by omega)]
    refine iff_of_true ?_ (.inl hroom)
    unfold SaysSo
    rw [show ((content.length : Int) + 1).toNat =
      content.length + 1 by omega, storedBytes, Nat.add_sub_cancel,
      List.take_length, List.take_left]
  · have hspace : size.toNat = 512 * (freespace - freespace / 123 - 1) := by omega
    rw [or_iff_right hroom, ← hspace,
      List.take_of_length_le (by rw [length_storedBytes (by omega) (by omega)]; omega)]
    by_cases hlt : size < content.length
    · rw [if_pos hlt, ← unchanged_storedBytes (by omega) (by omega)]
      unfold SaysSo
      omega
    · have hall : size.toNat = content.length := by omega
      rw [if_neg hlt, hall, ← storedBytes_eq_self (List.length_pos_iff.1 (by omega))]
      exact Iff.rfl

theorem copy_silent_small : ∃ st v st' v' bytes st'' v'',
    (filesysInit 200 true).exec initialState (fun _ => Sector.zeros) = some (true, st, v) ∧
    (copyIn (fun _ => some [104]) [97]).exec st v = some ((.noError, none), st', v') ∧
    (readBack [97] 1).exec st' v' = some (bytes, st'', v'') ∧ SaysSo [104] bytes none := by
  obtain ⟨st, v, a, g, T, _, _, hformat, hrooted, hcwd, hopened, hfree, hcreate⟩ :=
    exists_fresh 2 (by decide) (by decide) (by decide)
  have hfree : freeCount (Session.mk st v [rootDirSector] []).st.freeMap = 125 := hfree
  have hname : ([97] : CString) ≠ [] ∧ 0 ∉ ([97] : CString) ∧ slash ∉ ([97] : CString) := by decide
  obtain ⟨host, hhost⟩ : ∃ host : CString → Option (List UInt8), host = fun _ => some [104] :=
    ⟨_, rfl⟩
  have hcontent : host [97] = some [104] := congrFun hhost _
  have hlast : lastName [97] = [97] := rfl
  obtain ⟨s₁, hin, -⟩ := hrooted.copyIn_readBack hcwd hname (by decide) hopened hcontent hlast
    (by rw [hfree]; rfl) (by decide) hcreate
  have hkept : KeepsLast (freeCount (Session.mk st v [rootDirSector] []).st.freeMap) [104] := by
    rw [hfree]
    exact .inl (by decide)
  obtain ⟨bytes, st'', v'', hread, hsays⟩ := (copy_silent hrooted hcwd hname (by decide)
    (fun f hf => by rw [hopened] at hf; cases hf) hcontent hlast hin).2 hkept
  rw [hhost] at hin
  exact ⟨st, v, _, _, bytes, st'', v'', hformat, hin, hread, hsays⟩

/-- With 125 free sectors a file of 123 sectors without a NUL is copied without
a warning, and loses its last byte. -/
theorem copy_silent_last : ∃ st v st' v' bytes st'' v'',
    (filesysInit 200 true).exec initialState (fun _ => Sector.zeros) = some (true, st, v) ∧
    (copyIn (fun _ => some (List.replicate 62976 1)) [97]).exec st v =
    some ((.noError, none), st', v') ∧
    (readBack [97] 62976).exec st' v' = some (bytes, st'', v'') ∧ bytes ≠ List.replicate 62976 1 := by
  obtain ⟨st, v, a, g, T, _, _, hformat, hrooted, hcwd, hopened, hfree, hcreate⟩ :=
    exists_fresh 62976 (by decide) (by decide) (by decide)
  have hfree : freeCount (Session.mk st v [rootDirSector] []).st.freeMap = 125 := hfree
  have hname : ([97] : CString) ≠ [] ∧ 0 ∉ ([97] : CString) ∧ slash ∉ ([97] : CString) := by decide
  obtain ⟨content, hcontent⟩ : ∃ content : List UInt8, content = List.replicate 62976 1 := ⟨_, rfl⟩
  have hlength : content.length = 62976 := by rw [hcontent, List.length_replicate]
  obtain ⟨host, hhost⟩ : ∃ host : CString → Option (List UInt8), host = fun _ => some content :=
    ⟨_, rfl⟩
  have hhost' : host [97] = some content := congrFun hhost _
  have hlast : lastName [97] = [97] := rfl
  have hsize : writeSize (freeCount (Session.mk st v [rootDirSector] []).st.freeMap)
      content.length = some 62976 := by
    rw [hfree, hlength, writeSize_eq (by omega)]
    rfl
  obtain ⟨s₁, hin, hbytes⟩ :=
    hrooted.copyIn_readBack hcwd hname (by decide) hopened hhost' hlast hsize (by decide) hcreate
  obtain ⟨st'', v'', hread⟩ := (hbytes _).2 rfl
  have hstored : (storedBytes content (62976 : Int).toNat).take content.length =
      storedBytes content content.length := by
    rw [show (62976 : Int).toNat = content.length from hlength.symm]
    exact List.take_of_length_le (length_storedBytes (by omega) (Nat.le_succ _)).le
  have hlost : storedBytes content content.length ≠ content := fun heq => by
    rw [storedBytes_eq_self (List.length_pos_iff.1 (by omega)), hlength, hcontent,
      List.getElem?_replicate_of_lt (by omega)] at heq
    cases heq
  rw [if_neg (by omega), hhost, hcontent] at hin
  rw [hstored, show (content.length : Int) = 62976 by omega] at hread
  exact ⟨st, v, _, _, _, st'', v'', hformat, hin, hread, fun heq => hlost (heq.trans hcontent.symm)⟩

end MyShell.Fs

/-
Writes to a file that was copied in. `copy_in` ends its text with one NUL, the
`write` command with two, and `file_write` steps back two bytes for either:
the next write begins at the last byte of the text.
-/
import MyShell.Fs.CopyIn

namespace MyShell.Fs

open Storage Session

/-! ## Reads and writes from before the first byte -/

section negative

variable {data : InodeDisk} {buffer : List UInt8} {offset k : Int} {b b' : Bitmap} {v v' : Image}
  {file : Option InodeDisk} {i i' : Inode} {st : FsState}

theorem tmod_sector_nonpos (hofs : offset < 0) : offset.tmod blockSectorSize ≤ 0 := by
  have hnonneg := Int.tmod_nonneg (blockSectorSize : Int) (show 0 ≤ -offset by omega)
  rw [Int.neg_tmod] at hnonneg
  omega

/-- The copy would start before the bounce buffer. -/
theorem exec_readLoop_negative (hlen : 0 ≤ data.length) {size : Int} (hsize : 0 < size)
    (hofs : offset < 0) (fuel : Nat) :
    (readLoop data (fuel + 1) size offset : Disk FsState (List UInt8)).exec st v = none := by
  have hmod := tmod_sector_nonpos hofs
  have hsector : (blockSectorSize : Int) = 512 := rfl
  rw [readLoop, if_neg (by omega), Cmd.exec_bind,
    exec_byteToSector_none (fun h => absurd h.1 (by omega)), Option.bind_some]
  simp only
  rw [if_neg, if_pos hofs, Cmd.exec_fault]
  rw [hsector] at hmod ⊢
  omega

/-- `inode_read_at` from before the first byte. -/
theorem exec_inodeReadAt_negative {p : Ptr} (hi : st.openInodes.get p = some i)
    (hlen : 0 ≤ i.data.length) (hofs : offset < 0) (size : Int) :
    (inodeReadAt p size offset).exec st v = if size ≤ 0 then some ([], st, v) else none := by
  rw [inodeReadAt, Cmd.exec_bind, exec_derefInode, hi]
  change (readLoop i.data size.toNat size offset).exec st v = _
  split
  · next hsize =>
    rw [Int.toNat_eq_zero.2 hsize]
    rfl
  · next hsize =>
    obtain ⟨m, hm⟩ : ∃ m, size.toNat = m + 1 := ⟨size.toNat - 1, by omega⟩
    rw [hm, exec_readLoop_negative hlen (by omega) hofs]

theorem exec_writeLoop_negative (hlen : 0 ≤ data.length) (hne : buffer ≠ []) (hofs : offset < 0) :
    (writeLoop data buffer.length buffer offset : Disk Bitmap Int).exec b v = none := by
  have hpos := List.length_pos_iff.2 hne
  have hmod := tmod_sector_nonpos hofs
  have hsector : (blockSectorSize : Int) = 512 := rfl
  obtain ⟨m, hm⟩ : ∃ m, buffer.length = m + 1 := ⟨buffer.length - 1, by omega⟩
  rw [hm, writeLoop, if_neg (by omega), Cmd.exec_bind,
    exec_byteToSector_none (fun h => absurd h.1 (by omega)), Option.bind_some]
  simp only
  rw [if_neg, if_pos hofs, Cmd.exec_fault]
  rw [hsector] at hmod ⊢
  omega

theorem exec_extend_negative {end_ : Int} (hend : end_ < 0) :
    (i.extend file end_).exec b v = some ((false, i), b, v) := by
  unfold Inode.extend inodeReserve
  rw [Cmd.exec_bind, exec_byteToSector_none (fun h => absurd h.1 (by omega)), Option.bind_some]
  simp [hend]

theorem exec_extend_zero :
    ∃ r : Inode × Image, (i.extend file 0).exec b v = some ((true, r.1), b, r.2) := by
  have hreserve : (inodeReserve file i.data 0).exec b v = some ((true, i.data), b, v) := by
    have hnone : bytesToSectors 0 = 0 := by decide
    simp [inodeReserve, hnone, reserveBlocks]
  unfold Inode.extend
  rw [Cmd.exec_bind, exec_byteToSector_none (fun h => absurd h.1 (by omega)), Option.bind_some]
  dsimp only
  rw [if_pos rfl, Cmd.exec_bind, hreserve]
  exact ⟨(_, _), rfl⟩

/-- A write from before the first byte that returns has changed nothing, or
what a write of its bytes from the first one on would have that finds no room. -/
theorem Inode.writeAt_negative (hlen : 0 ≤ i.data.length) (hne : buffer ≠ []) (hofs : offset < 0)
    (hexec : (i.writeAt file buffer offset).exec b v = some ((k, i'), b', v')) :
    k = 0 ∧ (i' = i ∧ b' = b ∧ v' = v ∨ 0 < offset + buffer.length ∧ ∀ buffer' : List UInt8,
      (buffer'.length : Int) = offset + buffer.length → (i.writeAt file buffer' 0).exec b v =
      some ((0, i'), b', v')) := by
  unfold Inode.writeAt at hexec
  split at hexec
  · cases hexec
    exact ⟨rfl, .inl ⟨rfl, rfl, rfl⟩⟩
  · next hdeny =>
    rcases Int.lt_or_le (offset + buffer.length) 0 with hend | hend
    · rw [Cmd.exec_bind, exec_extend_negative hend, Option.bind_some] at hexec
      cases hexec
      exact ⟨rfl, .inl ⟨rfl, rfl, rfl⟩⟩
    · rw [Cmd.exec_bind] at hexec
      obtain ⟨⟨⟨ok, i₁⟩, b₁, v₁⟩, hextend, hexec⟩ := Option.bind_eq_some_iff.1 hexec
      cases ok with
      | false =>
        cases hexec
        have hpos : 0 < offset + buffer.length := by
          refine lt_of_le_of_ne hend fun hzero => ?_
          obtain ⟨r, hroom⟩ := exec_extend_zero (i := i) (v := v) (b := b)
          rw [← hzero, hroom] at hextend
          cases hextend
        refine ⟨rfl, .inr ⟨hpos, fun buffer' hbuffer' => ?_⟩⟩
        rw [Inode.writeAt, if_neg hdeny, Cmd.exec_bind, Int.zero_add, hbuffer', hextend]
        rfl
      | true =>
        -- the length is what it was, or where the write would end
        have hlen₁ : 0 ≤ i₁.data.length := by
          unfold Inode.extend at hextend
          rw [Cmd.exec_bind] at hextend
          obtain ⟨⟨sector, b₂, v₂⟩, -, hextend⟩ := Option.bind_eq_some_iff.1 hextend
          dsimp only at hextend
          split at hextend
          · rw [Cmd.exec_bind] at hextend
            obtain ⟨⟨⟨success, data⟩, b₃, v₃⟩, -, hextend⟩ := Option.bind_eq_some_iff.1 hextend
            cases success with
            | false => cases hextend
            | true =>
              cases hextend
              exact hend
          · cases hextend
            exact hlen
        dsimp only at hexec
        rw [if_neg (by decide), Cmd.exec_bind, exec_writeLoop_negative hlen₁ hne hofs] at hexec
        cases hexec

end negative

/-- **`inode_write_at`** from before the first byte, if it returns: nothing that can be read changes. -/
theorem Volume.writeAt_negative {s : Session} {a : BlockSector → Option Node} {n : Node} {p : Ptr}
    {x : BlockSector} (h : Volume s a) (hp : s.Holds p x) (hx : x ≠ freeMapSector)
    (ha : a x = some n) {buffer : List UInt8} (hne : buffer ≠ []) {offset k : Int}
    (hofs : offset < 0) {st : FsState} {v : Image}
    (hexec : (inodeWriteAt p buffer offset).exec s.st s.image = some (k, st, v)) :
    k = 0 ∧ ∃ s', s'.st = st ∧ s'.image = v ∧ s.Beside s' ∧
    (∀ p' y, s'.Holds p' y ↔ s.Holds p' y) ∧
    s'.live = s.live ∧
      Volume s' a := by
  obtain ⟨q, fm, C, i, hinv, hi, rfl, hdata⟩ := h.held hp
  have hlength : 0 ≤ i.data.length := by
    rw [← hdata, (h.shows _ n hx (.inr ⟨_, hp⟩) ha).1.1]
    exact Int.natCast_nonneg _
  have hderef : (derefInode p).exec s.st s.image = some (i, s.st, s.image) := by
    rw [exec_derefInode, hi]
    rfl
  rw [inodeWriteAt, Cmd.exec_bind, hderef, Option.bind_some, Cmd.exec_bind,
    exec_withFreeMap hinv.mounted.map] at hexec
  obtain ⟨⟨⟨k₁, i₁⟩, st₁, v₁⟩, hwith, hexec⟩ := Option.bind_eq_some_iff.1 hexec
  obtain ⟨⟨⟨k₂, i₂⟩, b₂, v₂⟩, hat, hwith⟩ := Option.map_eq_some_iff.1 hwith
  cases hwith
  cases hexec
  obtain ⟨rfl, ⟨rfl, rfl, rfl⟩ | ⟨hend, hat'⟩⟩ := Inode.writeAt_negative hlength hne hofs hat
  · refine ⟨rfl, s, ?_, rfl, .refl s, fun _ _ => Iff.rfl, rfl, h⟩
    change s.st = (s.st.setFreeMap s.st.freeMap).setInodes (s.st.openInodes.modify p fun _ => i₁)
    rw [Heap.modify_same hi]
    rfl
  · -- a write of as many bytes from the first one on
    obtain ⟨m, hm⟩ := Int.eq_ofNat_of_zero_le hend.le
    obtain ⟨s', k, hdoes, hb, hholds, hlive, -, -, hres⟩ := h.writeAt hp hx ha (List.replicate m 0) 0
      (by simpa using fun hzero : m = 0 => by omega)
    have hat' := hat' (List.replicate m 0) (by rw [List.length_replicate]; exact hm.symm)
    have hdoes' : (inodeWriteAt p (List.replicate m 0) 0).exec s.st s.image =
        some (0, (s.st.setFreeMap b₂).setInodes (s.st.openInodes.modify p fun _ => i₁), v₂) := by
      rw [inodeWriteAt, Cmd.exec_bind, hderef, Option.bind_some, Cmd.exec_bind,
        exec_withFreeMap hinv.mounted.map, hat']
      rfl
    obtain ⟨rfl, hst, himage⟩ : k = 0 ∧ s'.st = _ ∧ s'.image = v₂ := by
      have := hdoes.symm.trans hdoes'
      simpa using this
    refine ⟨rfl, s', hst, himage, hb, hholds, hlive, ?_⟩
    rcases hres with ⟨-, hk, -⟩ | ⟨-, -, hvol⟩
    · rw [List.length_replicate] at hk
      omega
    · exact hvol

/-- A command that writes from before the first byte does not write all. -/
theorem OpenFile.writeCommand_negative {s : Session} {f : Ptr} {file : File} {x : BlockSector}
    {a : BlockSector → Option Node} {n : Node} (hf : OpenFile s f file x) (hvol : Volume s a)
    (ha : a x = some n) (hpos : file.pos < 0) {fname : CString} (hentry : s.openedAs fname = some f)
    {args : List CString} {st : FsState} {v : Image} :
    (writeCommand (fname :: args)).exec s.st s.image ≠ some ((.noError, none), st, v) := by
  intro hexec
  cases args with
  | nil => simp [writeCommand] at hexec
  | cons arg args =>
    simp only [writeCommand, fsutilWrite, Cmd.exec_bind, Option.bind_eq_some_iff] at hexec
    obtain ⟨⟨k, st₁, v₁⟩, ⟨⟨f', st₀, v₀⟩, hopen, hwrite⟩, hexec⟩ := hexec
    have hopen' : (openFname fname).exec s.st s.image = some (some f, s.st, s.image) :=
      openFname_again hentry
    cases hopen.symm.trans hopen'
    have hne : writeBuffer (arg :: args) ≠ [] := by rw [writeBuffer_eq]; simp
    have hderef : (Fs.derefFile f).exec s.st s.image = some (file, s.st, s.image) := hf.derefFile
    dsimp only at hwrite
    rw [fileWrite, if_neg hne, Cmd.exec_bind, hderef, Option.bind_some, Cmd.exec_bind] at hwrite
    obtain ⟨⟨k', st₂, v₂⟩, hinode, hwrite⟩ := Option.bind_eq_some_iff.1 hwrite
    cases hwrite
    obtain ⟨rfl, -⟩ := hvol.writeAt_negative hf.holds hf.sector ha (by simp) hpos hinode
    have hwarn : ((writeBuffer (arg :: args)).length : Int) ≠ 0 := by
      have := List.length_pos_iff.2 hne
      omega
    simp [hwarn.symm] at hexec

/-! ## After `copy_in` -/

namespace Session.Begins

variable {s : Session} {x : BlockSector} {bytes bytes' : List UInt8}

theorem readAt_iff {a : BlockSector → Option Node} (hvol : Volume s a) {p : Ptr} (hp : s.Holds p x)
    (hx : x ≠ freeMapSector) :
    (inodeReadAt p bytes.length 0).exec s.st s.image = some (bytes, s.st, s.image) ↔
    s.Begins x bytes := by
  refine ⟨fun hread => ?_, fun h => h.readAt hvol hp hx⟩
  obtain ⟨q, fm, C, i, hinv, hi, rfl, hdata⟩ := hvol.held hp
  rw [show (0 : Int) = (0 : Nat) from rfl, hinv.mounted.exec_inodeReadAt hi (hinv.holds_ne hi hx),
    ← hdata, Nat.sub_zero, Option.some.injEq, Prod.mk.injEq] at hread
  have hlen := congrArg List.length hread.1
  rw [List.length_map, List.length_range] at hlen
  refine ⟨by omega, fun k hk => ?_⟩
  have hget := congrArg (·.getD k 0) hread.1
  rw [hlen] at hget
  simpa [hk] using hget

/-- Two beginnings of the same length are the same. -/
theorem unique (h : s.Begins x bytes) (h' : s.Begins x bytes')
    (hlen : bytes.length = bytes'.length) : bytes = bytes' := by
  refine List.ext_getElem hlen fun k hk hk' => ?_
  have hk₁ := h.content k hk
  have hk₂ := h'.content k hk'
  rw [List.getD_eq_getElem _ _ hk] at hk₁
  rw [List.getD_eq_getElem _ _ hk'] at hk₂
  exact hk₁.symm.trans hk₂

end Session.Begins

theorem eq_zero_of_shift {t : UInt8} : ∀ {l : List UInt8}, l ++ [0] = t :: l → t = 0
  | [], h => (List.cons.inj h).1.symm
  | c :: l, h => by
    obtain ⟨rfl, hrest⟩ := List.cons.inj h
    exact eq_zero_of_shift hrest

/-- The file that `copy_in` leaves when it stores all of its text. -/
theorem Rooted.copyIn_whole {s : Session} {a : BlockSector → Option Node} {g : Growable UInt8}
    {T : Table} {name : CString} (h : Rooted s a g T) (hcwd : s.CwdOk)
    (hname : name ≠ [] ∧ 0 ∉ name ∧ slash ∉ name) (hdots : name ≠ [dot] ∧ name ≠ [dot, dot])
    (hstale : ∀ f, s.openedAs name = some f → s.Stale f) {host : CString → Option (List UInt8)}
    {fname : CString} {content : List UInt8} (hhost : host fname = some content)
    (hlast : lastName fname = name)
    (hsize : writeSize (freeCount s.st.freeMap) content.length = some ((content.length : Int) + 1))
    {st : FsState} {v : Image}
    (hcopy : (Fs.copyIn host fname).exec s.st s.image = some ((.noError, none), st, v)) :
    ∃ s' a' y f p, s'.st = st ∧ s'.image = v ∧ Volume s' a' ∧ s'.openedAs name = some f ∧
      OpenFile s' f ⟨p, content.length - 1, false⟩ y ∧ s'.Begins y (content ++ [0]) ∧
      ∃ n, a' y = some n ∧ n.bytes.length = content.length + 1 := by
  obtain ⟨content', size, st₀, v₀, hhost', hsize', -, hcreate⟩ := copyIn_noError hcopy
  obtain rfl := Option.some.inj (hhost.symm.trans hhost')
  obtain rfl := Option.some.inj (hsize.symm.trans hsize')
  rw [hlast] at hcreate
  cases hopened : s.openedAs name with
  | some f =>
    rw [h.copyIn_stale hcwd hname hopened (hstale f hopened) hhost hlast hsize
      (by omega) hcreate] at hcopy
    cases hcopy
  | none =>
    obtain ⟨s', a', g', T', y, n, hin, hstored, hlen, hread, f, p, hentry, hfile⟩ :=
      h.copyIn hcwd hname hdots hopened hhost hlast hsize (by omega) hcreate
    obtain ⟨rfl, rfl⟩ : st = s'.st ∧ v = s'.image := by
      rw [Does, hcopy] at hin
      simpa using hin
    rw [show (content.length + 1 : Int) - 2 = content.length - 1 by omega] at hfile
    refine ⟨s', a', y, f, p, rfl, rfl, hstored.rooted.vol, hentry, hfile, ?_, n, hstored.node, by omega⟩
    have hbytes : n.bytes.read (content ++ [0]).length 0 = content ++ [0] := by
      rw [List.length_append, List.length_singleton, ← Int.toNat_natCast (content.length + 1)]
      refine hread.trans ?_
      rw [storedBytes, show (content.length + 1 : Int).toNat - 1 =
        content.length by omega, List.take_length]
    have hat := hstored.rooted.vol.readAt hfile.holds hfile.sector hstored.node
      (content ++ [0]).length 0
    rw [hbytes] at hat
    exact (Begins.readAt_iff hstored.rooted.vol hfile.holds hfile.sector).1 hat

/-- **Writes after `copy_in`.** The file holds the text that was copied in, those
of the commands and a NUL, exactly if there are no commands. -/
theorem appends_after_copyIn {s : Session} {a : BlockSector → Option Node} {g : Growable UInt8}
    {T : Table} {name : CString} (h : Rooted s a g T) (hcwd : s.CwdOk)
    (hname : name ≠ [] ∧ 0 ∉ name ∧ slash ∉ name) (hdots : name ≠ [dot] ∧ name ≠ [dot, dot])
    (hstale : ∀ f, s.openedAs name = some f → s.Stale f) {host : CString → Option (List UInt8)}
    {fname : CString} {content : List UInt8} (hhost : host fname = some content)
    (hlast : lastName fname = name) (hnul : 0 ∉ content)
    (hsize : writeSize (freeCount s.st.freeMap) content.length = some ((content.length : Int) + 1))
    {st : FsState} {v : Image}
    (hcopy : (copyIn host fname).exec s.st s.image = some ((.noError, none), st, v))
    {commands : List (List CString)} {answers : List (Error × Option (Int × Int))} {st' : FsState}
    {v' : Image} (hexec : (writeCommands name commands).exec st v = some (answers, st', v'))
    (hok : ∀ r ∈ answers, r = (.noError, none)) :
    ∃ f file, (getFileByFname name).exec st' v' = some (some f, st', v') ∧ st'.files.get f = some file ∧
      ((inodeReadAt file.inode (content ++ (commands.map text).flatten ++ [0]).length 0).exec st' v' =
        some (content ++ (commands.map text).flatten ++ [0], st', v') ↔ commands = []) := by
  obtain ⟨s', a', y, f, p, rfl, rfl, hvol, hentry, hfile, hbegins, n, hnode, -⟩ :=
    h.copyIn_whole hcwd hname hdots hstale hhost hlast hsize hcopy
  cases commands with
  | nil =>
    obtain ⟨-, rfl, rfl⟩ : [] = answers ∧ s'.st = st' ∧ s'.image = v' := by
      simpa [writeCommands] using hexec
    have hget : (getFileByFname name).exec s'.st s'.image =
        some (s'.openedAs name, s'.st, s'.image) := s'.getFileByFname name
    refine ⟨f, _, by rw [hget, hentry], hfile.handle, iff_of_true ?_ rfl⟩
    rw [List.map_nil, List.flatten_nil, List.append_nil]
    exact (Begins.readAt_iff hvol hfile.holds hfile.sector).2 hbegins
  | cons args commands =>
    by_cases hempty : content = []
    · -- the position is -1
      subst hempty
      simp only [writeCommands, Cmd.exec_bind, Option.bind_eq_some_iff, Cmd.exec_pure,
        Option.some.injEq] at hexec
      obtain ⟨⟨r, st₁, v₁⟩, hfirst, ⟨rs, st₂, v₂⟩, -, hanswers⟩ := hexec
      obtain ⟨rfl, -⟩ : r :: rs = answers ∧ _ := by simpa using hanswers
      obtain rfl := hok r List.mem_cons_self
      exact absurd hfirst (hfile.writeCommand_negative hvol hnode (by simp) hentry)
    · obtain ⟨front, t, rfl⟩ : ∃ front t, content = front ++ [t] :=
        ⟨_, _, (List.dropLast_append_getLast hempty).symm⟩
      have ht : t ≠ 0 := fun ht => hnul (by simp [ht])
      have hpos : ((front ++ [t]).length : Int) - 1 = front.length := by simp
      rw [hpos] at hfile
      have htyped : Typed s' y f name p front :=
        ⟨⟨hvol.inv, fun _ _ _ _ hn => by cases hn⟩, ⟨false, hfile⟩, hentry, hbegins.left.left⟩
      obtain ⟨⟨hvol', ⟨deny, hfile'⟩, hentry', -⟩, hlast⟩ := htyped.writeCommands hexec hok
      have hget : (getFileByFname name).exec st' v' = some (some f, st', v') := by
        have := Session.getFileByFname ⟨st', v', s'.live, s'.spare⟩ name
        rwa [hentry'] at this
      refine ⟨f, _, hget, hfile'.handle, iff_of_false (fun hread => ?_) (List.cons_ne_nil _ _)⟩
      have hall := (Begins.readAt_iff hvol' hfile'.holds hfile'.sector).1 hread
      have hsame := (hlast (List.cons_ne_nil _ _)).unique hall.left (by simp; omega)
      rw [List.append_assoc, List.append_assoc, List.append_cancel_left_eq] at hsame
      exact ht (eq_zero_of_shift hsame)

/-- On a fresh device, the text "hi" is copied in. -/
theorem exists_hi {host : CString → Option (List UInt8)} (hhost : host [97] = some [104, 105]) :
    ∃ st v a g T st' v',
    (filesysInit 200 true).exec initialState (fun _ => Sector.zeros) = some (true, st, v) ∧
    Rooted ⟨st, v, [rootDirSector], []⟩ a g T ∧ Session.CwdOk ⟨st, v, [rootDirSector], []⟩ ∧
    (∀ f, Session.openedAs ⟨st, v, [rootDirSector], []⟩ [97] = some f →
      Session.Stale ⟨st, v, [rootDirSector], []⟩ f) ∧
    writeSize (freeCount (Session.mk st v [rootDirSector] []).st.freeMap)
    ([104, 105] : List UInt8).length =
      some ((([104, 105] : List UInt8).length : Int) + 1) ∧
    (copyIn host [97]).exec st v = some ((.noError, none), st', v') := by
  obtain ⟨st, v, a, g, T, _, _, hformat, hrooted, hcwd, hopened, hfree, hcreate⟩ :=
    exists_fresh 3 (by decide) (by decide) (by decide)
  have hfree : freeCount (Session.mk st v [rootDirSector] []).st.freeMap = 125 := hfree
  have hsize : writeSize (freeCount (Session.mk st v [rootDirSector] []).st.freeMap)
    ([104, 105] : List UInt8).length =
      some ((([104, 105] : List UInt8).length : Int) + 1) := by
    rw [hfree]
    rfl
  have hname : ([97] : CString) ≠ [] ∧ 0 ∉ ([97] : CString) ∧ slash ∉ ([97] : CString) := by decide
  obtain ⟨s', -, -, -, -, -, hin, -⟩ :=
    hrooted.copyIn hcwd hname (by decide) hopened hhost rfl hsize (by decide) hcreate
  have hstale (f : Ptr) (hf : Session.openedAs ⟨st, v, [rootDirSector], []⟩ [97] = some f) :
      Session.Stale ⟨st, v, [rootDirSector], []⟩ f := by
    rw [hopened] at hf
    cases hf
  exact ⟨st, v, a, g, T, s'.st, s'.image, hformat, hrooted, hcwd, hstale, hsize, hin⟩

theorem appends_after_copyIn_none : ∃ st v st₁ v₁ f file,
    (filesysInit 200 true).exec initialState (fun _ => Sector.zeros) = some (true, st, v) ∧
    (copyIn (fun _ => some [104, 105]) [97]).exec st v = some ((.noError, none), st₁, v₁) ∧
    (writeCommands [97] []).exec st₁ v₁ = some ([], st₁, v₁) ∧ st₁.files.get f = some file ∧
    (inodeReadAt file.inode 3 0).exec st₁ v₁ = some ([104, 105, 0], st₁, v₁) := by
  obtain ⟨host, hhost⟩ : ∃ host : CString → Option (List UInt8), host = fun _ => some [104, 105] :=
    ⟨_, rfl⟩
  have hcontent : host [97] = some [104, 105] := congrFun hhost _
  obtain ⟨st, v, a, g, T, st₁, v₁, hformat, hrooted, hcwd, hstale, hsize, hin⟩ := exists_hi hcontent
  have hname : ([97] : CString) ≠ [] ∧ 0 ∉ ([97] : CString) ∧ slash ∉ ([97] : CString) := by decide
  have hwrite : (writeCommands [97] []).exec st₁ v₁ = some ([], st₁, v₁) := rfl
  obtain ⟨f, file, -, hfile, hiff⟩ :=
    appends_after_copyIn hrooted hcwd hname (by decide) hstale hcontent rfl (by decide) hsize hin
    hwrite (by simp)
  rw [hhost] at hin
  have hread := hiff.2 rfl
  exact ⟨st, v, st₁, v₁, f, file, hformat, hin, hwrite, hfile, hread⟩

/-- There is room up to the end of the sector in which the file ends. -/
theorem Volume.room_of_same {s : Session} {a : BlockSector → Option Node} {x : BlockSector}
    {n : Node} (h : Volume s a) (hx : s.Present x) (hx0 : x ≠ freeMapSector) (ha : a x = some n)
    {end_ : Nat} (hpos : 0 < end_) (hend : bytesToSectors end_ = bytesToSectors n.bytes.length) :
    s.Room x end_ := by
  obtain ⟨q, fm, C, hinv⟩ := h.inv
  have hsound := hinv.sound hx hx0
  have hlen := (h.shows x n hx0 hx ha).1.1
  have hmax := hsound.sectors_le
  rw [hlen, Int.toNat_natCast, ← hend] at hmax
  by_cases hle : end_ ≤ n.bytes.length
  · exact .inl ⟨hpos, by rw [hlen]; exact_mod_cast hle⟩
  · have hlacking := hsound.length_lacking (n := end_) (by rw [hlen, Int.toNat_natCast]; omega) hmax
    rw [hlen, Int.toNat_natCast, hend] at hlacking
    exact .inr ⟨by omega, hmax⟩

/-- `write a ab` overwrites the "i". -/
theorem copied_byte_overwritten : ∃ st v st₁ v₁ st₂ v₂ f file,
    (filesysInit 200 true).exec initialState (fun _ => Sector.zeros) = some (true, st, v) ∧
    (copyIn (fun _ => some [104, 105]) [97]).exec st v = some ((.noError, none), st₁, v₁) ∧
    (writeCommands [97] [[[97, 98]]]).exec st₁ v₁ = some ([(.noError, none)], st₂, v₂) ∧
    st₂.files.get f = some file ∧
    (inodeReadAt file.inode 4 0).exec st₂ v₂ = some ([104, 97, 98, 0], st₂, v₂) := by
  obtain ⟨host, hhost⟩ : ∃ host : CString → Option (List UInt8), host = fun _ => some [104, 105] :=
    ⟨_, rfl⟩
  have hcontent : host [97] = some [104, 105] := congrFun hhost _
  obtain ⟨st, v, a, g, T, st₁, v₁, hformat, hrooted, hcwd, hstale, hsize, hin⟩ := exists_hi hcontent
  have hname : ([97] : CString) ≠ [] ∧ 0 ∉ ([97] : CString) ∧ slash ∉ ([97] : CString) := by decide
  obtain ⟨s', a', y, f, p, rfl, rfl, hvol, hentry, hfile, hbegins, n, hnode, hlen⟩ :=
    hrooted.copyIn_whole hcwd hname (by decide) hstale hcontent rfl hsize hin
  have htyped : Typed s' y f [97] p [104] :=
    ⟨⟨hvol.inv, fun _ _ _ _ hn => by cases hn⟩, ⟨false, hfile⟩, hentry,
      Begins.left (show s'.Begins y ([104] ++ [105, 0]) from hbegins)⟩
  have hroom : s'.Room y 5 :=
    hvol.room_of_same (.inr ⟨p, hfile.holds⟩) hfile.sector hnode (by decide) (by rw [hlen]; rfl)
  obtain ⟨s₂, hdoes⟩ := htyped.exists_writeCommand [97, 98] [] hroom
  have hall : s'.Does (writeCommands [97] [[[97, 98]]]) [(.noError, none)] s₂ := hdoes.bind (.pure _ _)
  obtain ⟨⟨hvol₂, ⟨deny, hfile₂⟩, -⟩, hlast⟩ := htyped.writeCommands hall (by simp)
  have hread := (hlast (List.cons_ne_nil _ _)).readAt hvol₂ hfile₂.holds hfile₂.sector
  rw [hhost] at hin
  exact ⟨st, v, s'.st, s'.image, s₂.st, s₂.image, f, _, hformat, hin, hall, hfile₂.handle, hread⟩

end MyShell.Fs

/-
In-memory inodes (inode.c): creating, opening, writing, removing and closing.

The first part is about one inode and the free map. `World.write` and
`World.create` say what a write and a creation do to a file system: whatever
the outcome, every inode keeps its sectors to itself. `Shadow` relates an
open inode to the copy on its sector, which falls behind when a write fails
half way: the copy has no sector that the inode has not.
-/
import MyShell.Fs.Ownership

namespace MyShell.Fs

open Storage BlockTree

/-! ## From source -/

/-- The `calloc`ed inode that `inode_create` starts from. -/
def newInodeDisk (length : Int) (isDir : Bool) : InodeDisk where
  directBlocks := List.replicate directBlocksCount 0
  indirectBlock := 0
  doublyIndirectBlock := 0
  isDir := isDir
  length := length
  magic := inodeMagic

/-- `inode_create` -/
def Inode.create (file : Option InodeDisk) (sector : BlockSector) (length : Int) (isDir : Bool) :
    Disk Bitmap Bool := do
  let (ok, diskInode) ← inodeReserve file (newInodeDisk length isDir) length
  if ok then do
    Cmd.write sector diskInode.toSector
    pure true
  else pure false

/-- The part of `inode_write_at` that makes room up to byte `end_`: whether
there is room, and the inode. -/
def Inode.extend (file : Option InodeDisk) (inode : Inode) (end_ : Int) :
    Disk Bitmap (Bool × Inode) := do
  if (← byteToSector inode.data (end_ - 1)) = noSector then do
    let (success, data) ← inodeReserve file inode.data end_
    if !success then pure (false, { inode with data })
    else do
      let data := { data with length := end_ }
      Cmd.write inode.sector data.toSector
      pure (true, { inode with data })
  else pure (true, inode)

/-- `inode_write_at`: the number of bytes written, and the inode. -/
def Inode.writeAt (file : Option InodeDisk) (inode : Inode) (buffer : List UInt8) (offset : Int) :
    Disk Bitmap (Int × Inode) :=
  if inode.denyWriteCnt ≠ 0 then pure (0, inode)
  else do
    let (success, inode) ← inode.extend file (offset + buffer.length)
    if !success then pure (0, inode)
    else do
      let bytesWritten ← writeLoop inode.data buffer.length buffer offset
      pure (bytesWritten, inode)

def inodeCreate (sector : BlockSector) (length : Int) (isDir : Bool) : FsM Bool :=
  withFreeMap fun file => Inode.create file sector length isDir

def inodeReopen (inode : Ptr) : FsM Ptr := pure inode

def inodeOpen (sector : BlockSector) : FsM Ptr := do
  let s ← Cmd.getState
  match s.openInodes.cells.find? (fun x => x.2.sector = sector) with
  | some (p, _) => inodeReopen p
  | none => do
    let data ← Cmd.read sector
    let inode := { sector, openCnt := 1, removed := false, denyWriteCnt := 0, data := .ofSector data }
    Cmd.setState { s with openInodes := s.openInodes.alloc inode }
    pure s.openInodes.next

def inodeGetInumber (inode : Ptr) : FsM BlockSector := do return (← derefInode inode).sector

def inodeClose (inode : Option Ptr) : FsM Unit :=
  match inode with
  | none => pure ()
  | some p => do
    let i ← derefInode p
    let openCnt := i.openCnt - 1
    modifyInode p fun i => { i with openCnt }
    if openCnt = 0 then do
      (if i.removed then do
        withFreeMap fun file => freeMapRelease file i.sector 1
        let _ ← withFreeMap fun file => inodeDeallocate file i.data
      else pure ())
      Cmd.modifyState fun s => { s with openInodes := s.openInodes.free p }
    else pure ()

def inodeRemove (inode : Ptr) : FsM Unit := do
  let _ ← derefInode inode
  modifyInode inode fun i => { i with removed := true }

def inodeReadAt (inode : Ptr) (size offset : Int) : FsM (List UInt8) := do
  readAt (← derefInode inode).data size offset

def inodeWriteAt (inode : Ptr) (buffer : List UInt8) (offset : Int) : FsM Int := do
  let i ← derefInode inode
  let (n, i) ← withFreeMap fun file => i.writeAt file buffer offset
  modifyInode inode fun _ => i
  pure n

def inodeLength (inode : Ptr) : FsM Int := do return (← derefInode inode).data.length

def inodeIsDirectory (inode : Ptr) : FsM Bool := do return (← derefInode inode).data.isDir

def inodeIsRemoved (inode : Ptr) : FsM Bool := do return (← derefInode inode).removed

/-! ## Contents -/

/-- The inode as an array of bytes that goes on for ever: 0 where it has no
sector. -/
def InodeDisk.content (v : Image) (d : InodeDisk) (pos : Nat) : UInt8 :=
  if d.sector v (pos / 512) = 0 then 0 else d.byte v pos

section contents

variable {fm d d' : InodeDisk} {v v' v₁ : Image} {b b' : Bitmap} {L : List Owner} {s : BlockSector}
  {x : Owner}

theorem InodeDisk.content_eq {pos : Nat} (h : d.sector v (pos / 512) ≠ 0) :
    d.content v pos = d.byte v pos :=
  if_neg h

theorem Untouched.content (h : Untouched v v' L) (hx : x ∈ L) (pos : Nat) :
    x.data.content v' pos = x.data.content v pos := by
  rw [InodeDisk.content, InodeDisk.content, h.sector hx]
  split
  · rfl
  · rename_i hp; exact h.byte hx hp

/-- Growing changes no byte: the sectors it adds hold zeros. -/
theorem World.reserve_content (h : World fm v b (⟨s, d⟩ :: L)) {n : Nat} {ok : Bool}
    {new : List BlockSector}
    (hr : Reserved (some fm) (mapData fm v) v b d.roots n ok d'.roots v' b' new) (pos : Nat) :
    d'.content v' pos = d.content v pos := by
  have hkeep : d.sector v (pos / 512) ≠ 0 → d'.sector v' (pos / 512) = d.sector v (pos / 512) :=
    hr.keep _
  by_cases hd : d.sector v (pos / 512) = 0
  · rw [InodeDisk.content, InodeDisk.content, if_pos hd]
    split
    · rfl
    · rename_i hd'
      have hz : v' (d'.sector v' (pos / 512)) = Sector.zeros := (hr.fresh _ hd hd').2
      rw [InodeDisk.byte, hz, Sector.byte_zeros]
  · rw [InodeDisk.content, InodeDisk.content, hkeep hd, if_neg hd, if_neg hd, InodeDisk.byte,
      InodeDisk.byte, hkeep hd]
    obtain ⟨hu, h0, hF, -⟩ := h.owned (x := ⟨s, d⟩) (by simp) (occ_data (InodeDisk.sector_occ hd))
    have hidx := InodeDisk.Distinct.not_index (h.distinct (x := ⟨s, d⟩) (by simp)) hd
    rw [hr.frame _ (fun hs => hr.takes.clear _ hs hu) hF hidx h0]

/-! ## The copy on disk -/

/-- The inode on sector `s` is a version of `d` with no sectors of its own,
and can take its place. -/
structure Shadow (v : Image) (s : BlockSector) (d : InodeDisk) : Prop where
  roots : Le layout (InodeDisk.ofSector (v s)).roots d.roots
  length : (InodeDisk.ofSector (v s)).length = d.length
  isDir : (InodeDisk.ofSector (v s)).isDir = d.isDir
  magic : (InodeDisk.ofSector (v s)).magic = d.magic
  sound : (InodeDisk.ofSector (v s)).Sound v

theorem Shadow.congr (h : Shadow v s d) (hs : v' s = v s) (hv : ∀ t, d.IsIndex v t → v' t = v t) :
    Shadow v' s d := by
  have hsound : (InodeDisk.ofSector (v s)).Sound v' :=
    h.sound.congr fun t ht => hv t (h.roots.indexF ht)
  exact ⟨by rw [hs]; exact h.roots, by rw [hs]; exact h.length, by rw [hs]; exact h.isDir,
    by rw [hs]; exact h.magic, by rw [hs]; exact hsound⟩

theorem Untouched.shadow (h : Untouched v v' L) (hx : x ∈ L) (hs : Shadow v x.sector x.data) :
    Shadow v' x.sector x.data := hs.congr (h.inode hx) (h.index hx)

/-- A copy whose sectors can be found has what the inode has there. -/
theorem Shadow.sector (h : Shadow v s d) {i : Nat} (hi : (InodeDisk.ofSector (v s)).sector v i ≠ 0) :
    (InodeDisk.ofSector (v s)).sector v i = d.sector v i := h.roots.dataF_ne hi

/-- Where the copy has no sector, it has zeros. -/
theorem Shadow.content (h : Shadow v s d) (pos : Nat) :
    (InodeDisk.ofSector (v s)).content v pos = d.content v pos ∨
    (InodeDisk.ofSector (v s)).content v pos = 0 := by
  by_cases hp : (InodeDisk.ofSector (v s)).sector v (pos / 512) = 0
  · exact .inr (if_pos hp)
  · rw [InodeDisk.content_eq hp, InodeDisk.byte, h.sector hp]
    rw [h.sector hp] at hp
    exact .inl (InodeDisk.content_eq hp).symm

theorem Shadow.content_eq (h : Shadow v s d) {pos : Nat} (hpos : pos < d.length) :
    (InodeDisk.ofSector (v s)).content v pos = d.content v pos := by
  have hp := h.sound.covers (pos / 512) (by rw [h.length]; omega)
  rw [InodeDisk.content_eq hp, InodeDisk.byte, h.sector hp]
  rw [h.sector hp] at hp
  exact (InodeDisk.content_eq hp).symm

theorem World.reserve_shadow (h : World fm v b (⟨s, d⟩ :: L)) {n : Nat} {ok : Bool}
    {new : List BlockSector}
    (hr : Reserved (some fm) (mapData fm v) v b d.roots n ok d'.roots v' b' new)
    (hd : d'.directBlocks.length = 123) (hlen : d'.length = d.length) (hdir : d'.isDir = d.isDir)
    (hmagic : d'.magic = d.magic) (hs : Shadow v s d) : Shadow v' s d' := by
  have hv : v' s = v s := (h.reserve hr hd hlen).2.2
  have hle : Le layout (InodeDisk.ofSector (v s)).roots d'.roots := hs.roots.trans hr.roots
  constructor
  case roots => rw [hv]; exact hle
  case length => rw [hv, hlen]; exact hs.length
  case isDir => rw [hv, hdir]; exact hs.isDir
  case magic => rw [hv, hmagic]; exact hs.magic
  case sound =>
    rw [hv]
    refine ⟨hs.sound.direct, hs.sound.low, hs.sound.high, fun i hi => ?_⟩
    have h₁ := hs.sound.covers i hi
    have h₂ : (InodeDisk.ofSector (v s)).sector v' i = d'.sector v' i := hle.dataF_ne h₁
    rw [hs.sector h₁] at h₁
    rw [h₂, InodeDisk.sector, hr.keep i h₁]
    exact h₁

theorem InodeDisk.Sound.storable (h : d.Sound v) : d.Storable where
  direct := h.direct
  low := by have := h.low; omega
  high := h.high

theorem Shadow.self (hv : v s = d.toSector) (hd : d.Sound v) : Shadow v s d := by
  have hk : InodeDisk.ofSector (v s) = d := by rw [hv]; exact InodeDisk.ofSector_toSector hd.storable
  exact ⟨by rw [hk]; exact .refl _, by rw [hk], by rw [hk], by rw [hk], by rw [hk]; exact hd⟩

/-! ## Writing -/

/-- The sectors that must be supplied before the inode can hold `end_` bytes,
in the order in which they are. -/
def InodeDisk.lacking (v : Image) (d : InodeDisk) (end_ : Nat) : List Kind :=
  missingF layout v d.roots (bytesToSectors end_)

/-- The bytes up to `end_` are within the inode's length. -/
def InodeDisk.Within (d : InodeDisk) (end_ : Nat) : Prop := 0 < end_ ∧ end_ ≤ d.length

instance (d : InodeDisk) (end_ : Nat) : Decidable (d.Within end_) := inferInstanceAs (Decidable (_ ∧ _))

/-- There are sectors enough for `end_` bytes, and an inode can be so long. -/
def InodeDisk.Fits (v : Image) (b : Bitmap) (d : InodeDisk) (end_ : Nat) : Prop :=
  (d.lacking v end_).length ≤ freeCount b ∧ bytesToSectors end_ ≤ InodeDisk.maxSectors

/-- The first sector that cannot be supplied is an index sector. -/
def InodeDisk.Slips (v : Image) (b : Bitmap) (d : InodeDisk) (end_ : Nat) : Prop :=
  (d.lacking v end_)[freeCount b]? = some .index

instance (v : Image) (b : Bitmap) (d : InodeDisk) (end_ : Nat) : Decidable (d.Slips v b end_) :=
  inferInstanceAs (Decidable (_ = _))

theorem InodeDisk.Fits.not_slips {end_ : Nat} (h : d.Fits v b end_) : ¬ d.Slips v b end_ := by
  rw [InodeDisk.Slips, List.getElem?_eq_none h.1]
  simp

/-- The outcome of `Inode.extend`: nothing to do, no room, or a longer inode
that is on its sector. -/
theorem exec_extend {i : Inode} (h : World fm v b (⟨i.sector, i.data⟩ :: L)) (end_ : Nat) :
    (i.data.Within end_ ∧ (i.extend (some fm) end_).exec b v = some ((true, i), b, v)) ∨
    ¬ i.data.Within end_ ∧ ∃ ok d' v₁ b' new,
      (d'.directBlocks.length = 123 ∧ d'.isDir = i.data.isDir ∧ d'.length = i.data.length ∧
        d'.magic = i.data.magic) ∧
      Reserved (some fm) (mapData fm v) v b i.data.roots (bytesToSectors end_) ok d'.roots v₁ b' new ∧
      ((ok = true ∧ bytesToSectors end_ ≤ InodeDisk.maxSectors ∧
          (i.extend (some fm) end_).exec b v =
          some ((true, { i with data := { d' with length := end_ } }), b',
            Function.update v₁ i.sector { d' with length := end_ }.toSector)) ∨
        (¬ (ok = true ∧ bytesToSectors end_ ≤ InodeDisk.maxSectors) ∧
          (i.extend (some fm) end_).exec b v = some ((false, { i with data := d' }), b', v₁))) := by
  have hsound : i.data.Sound v := h.sound ⟨i.sector, i.data⟩ (by simp)
  have hown := h.owned_roots (x := ⟨i.sector, i.data⟩) (by simp)
  simp only [Inode.extend, Cmd.exec_bind, exec_byteToSector_some, Option.bind_some]
  by_cases hw : i.data.Within end_
  · obtain ⟨h₁, h₂⟩ := hw
    have hsec := hsound.covers (((end_ : Int) - 1).toNat / 512) (by omega)
    obtain ⟨hu, -⟩ := h.owned (x := ⟨i.sector, i.data⟩) (by simp) (occ_data (InodeDisk.sector_occ hsec))
    refine .inl ⟨⟨h₁, h₂⟩, ?_⟩
    have hne : (if 0 ≤ (end_ : Int) - 1 ∧ (end_ : Int) - 1 < i.data.length then
        sectorAt v i.data (((end_ : Int) - 1).toNat / 512) else noSector) ≠ noSector := by
      rw [if_pos (by omega), sectorAt_eq hsound.direct hsec]
      exact h.ne_none hu
    rw [if_neg hne]
    rfl
  · refine .inr ⟨hw, ?_⟩
    obtain ⟨ok, d', v₁, b', new, hexec, hd', hr⟩ :=
      exec_inodeReserve end_ h.ready hsound.direct hown (by omega)
    rw [Int.toNat_natCast] at hexec hr
    have hne : ¬ (0 ≤ (end_ : Int) - 1 ∧ (end_ : Int) - 1 < i.data.length) := by
      simp only [InodeDisk.Within] at hw; omega
    refine ⟨ok, d', v₁, b', new, hd', hr, ?_⟩
    rw [if_neg hne, if_pos rfl]
    simp only [Cmd.exec_bind, hexec, Option.bind_some]
    by_cases hok : ok = true ∧ bytesToSectors end_ ≤ InodeDisk.maxSectors
    · refine .inl ⟨hok.1, hok.2, ?_⟩
      simp [hok.1, hok.2]
    · refine .inr ⟨hok, ?_⟩
      have hf : (ok && decide (bytesToSectors end_ ≤ InodeDisk.maxSectors)) = false := by
        simpa [and_comm] using hok
      simp [hf]

/-- What `inode_write_at` does to a file system, whatever its outcome. -/
structure Written (fm : InodeDisk) (v : Image) (b : Bitmap) (L : List Owner) (i : Inode)
    (buffer : List UInt8) (ofs : Nat) (n : Int) (i' : Inode) (v' : Image) (b' : Bitmap) : Prop where
  world : World fm v' b' (⟨i.sector, i'.data⟩ :: L)
  untouched : Untouched v v' L
  inode : i' = { i with data := i'.data }
  kind : i'.data.isDir = i.data.isDir ∧ i'.data.magic = i.data.magic
  shadow : Shadow v i.sector i.data → Shadow v' i.sector i'.data
  frame : ∀ t, v' t ≠ v t → (¬ InUse b t ∧ InUse b' t) ∨ t = i.sector ∨ 1 ≤ i.data.occ v t ∨
    mapData fm v t ∨ t = 0
  zero : v' 0 = if ¬ i.data.Within (ofs + buffer.length) ∧
    i.data.Slips v b (ofs + buffer.length) then Sector.zeros else v 0
  mono : ∀ t, InUse b t → InUse b' t
  size : b'.length = b.length
  left : freeCount b' = if i.data.Within (ofs + buffer.length) then freeCount b
    else freeCount b - (i.data.lacking v (ofs + buffer.length)).length
  grown : (i'.data.blocks v').length + freeCount b' ≤ (i.data.blocks v).length + freeCount b
  place : i.data.Within (ofs + buffer.length) → i' = i ∧ b' = b ∧ v' i.sector = v i.sector
  done : i.data.Within (ofs + buffer.length) ∨ i.data.Fits v b (ofs + buffer.length) →
    n = buffer.length ∧
    i'.data.length = (if i.data.Within (ofs + buffer.length) then i.data.length else
      (ofs + buffer.length : Nat)) ∧
    ∀ pos, i'.data.content v' pos =
      if ofs ≤ pos ∧ pos < ofs + buffer.length then buffer.getD (pos - ofs) 0 else i.data.content v pos
  failed : ¬ (i.data.Within (ofs + buffer.length) ∨ i.data.Fits v b (ofs + buffer.length)) → n = 0 ∧
    i'.data.length = i.data.length ∧ ∀ pos, i'.data.content v' pos = i.data.content v pos
  idle : ¬ (i.data.Within (ofs + buffer.length) ∨ i.data.Fits v b (ofs + buffer.length)) →
    v' i.sector = v i.sector ∧ (freeCount b' = freeCount b → i' = i ∧ b' = b)

theorem InodeDisk.eq_of_roots (hd' : d'.directBlocks.length = 123)
    (hd : d.directBlocks.length = 123) (hroots : d'.roots = d.roots) (hdir : d'.isDir = d.isDir)
    (hlen : d'.length = d.length) (hmagic : d'.magic = d.magic) : d' = d := by
  unfold InodeDisk.roots at hroots
  obtain ⟨h₁, h₂⟩ := List.append_inj hroots (by simp [level, hd', hd])
  have hdirect : d'.directBlocks = d.directBlocks :=
    List.map_injective_iff.2 (fun _ _ he => (Prod.mk.inj he).2) h₁
  simp only [List.cons.injEq, Prod.mk.injEq, true_and, and_true] at h₂
  obtain ⟨directBlocks, indirectBlock, doublyIndirectBlock, isDir, length, magic⟩ := d
  simp only at *
  obtain ⟨h₂, h₃⟩ := h₂
  subst hdirect h₂ h₃ hdir hlen hmagic
  rfl

/-- The in-place part of a write, on an inode that is long enough. -/
theorem World.writeLoop (h : World fm v b (⟨s, d⟩ :: L)) (buffer : List UInt8) (ofs : Nat)
    (hlen : ofs + buffer.length ≤ d.length.toNat) :
    ∃ v', (writeLoop d buffer.length buffer ofs).exec b v = some ((buffer.length : Int), b, v') ∧
      World fm v' b (⟨s, d⟩ :: L) ∧ Untouched v v' L ∧ v' s = v s ∧
      (∀ t, d.IsIndex v t → v' t = v t) ∧
      (∀ t, v' t ≠ v t → 1 ≤ d.occ v t) ∧
      ∀ pos, d.content v' pos =
        if ofs ≤ pos ∧ pos < ofs + buffer.length then buffer.getD (pos - ofs) 0 else
        d.content v pos := by
  have hsound : d.Sound v := h.sound ⟨s, d⟩ (by simp)
  have hdist := h.distinct (x := ⟨s, d⟩) (by simp)
  obtain ⟨v', hexec, hframe, hbytes⟩ := exec_writeLoop hsound.direct hdist hsound.covers b _ buffer ofs
    (Nat.le_refl _) hlen
  have hv : ∀ t, (∀ i, d.sector v i ≠ 0 → t ≠ d.sector v i) → v' t = v t := fun t ht =>
    hframe t fun i h₁ h₂ => ht i (hsound.covers i (by omega))
  obtain ⟨hw, hL, hs⟩ := h.setBytes hv
  have hidx : ∀ t, d.IsIndex v t → v' t = v t := by
    intro t ht
    refine hv t fun i hi he => ?_
    subst he
    exact hdist.not_index hi ht
  refine ⟨v', hexec, hw, hL, hs, hidx, fun t ht => ?_, fun pos => ?_⟩
  · by_contra hocc
    refine ht (hv t fun i hi he => ?_)
    have := InodeDisk.sector_occ hi
    rw [← he] at this
    omega
  · rw [InodeDisk.content, InodeDisk.sector_congr hidx]
    by_cases hp : d.sector v (pos / 512) = 0
    · have hpos : d.length.toNat ≤ 512 * (pos / 512) := by
        by_contra hlt
        exact hsound.covers (pos / 512) (by omega) hp
      rw [if_pos hp, InodeDisk.content, if_pos hp, if_neg (by omega)]
    · rw [if_neg hp, hbytes pos hp, InodeDisk.content_eq hp]

/-- Writing the inode's own sector moves none of its other sectors. -/
theorem World.setInode_same (h : World fm v b (⟨s, d⟩ :: L)) (c : Sector) :
    (∀ t, d.IsIndex v t → Function.update v s c t = v t) ∧
      ∀ pos, d.content (Function.update v s c) pos = d.content v pos := by
  have hne : ∀ t, 1 ≤ d.occ v t → Function.update v s c t = v t := by
    intro t ht
    refine Function.update_of_ne ?_ _ _
    rintro rfl
    have h₁ := h.once_head t
    rw [if_pos (show t = t from rfl)] at h₁
    omega
  have hidx : ∀ t, d.IsIndex v t → Function.update v s c t = v t :=
    fun t ht => hne t (InodeDisk.index_occ ht)
  refine ⟨hidx, fun pos => ?_⟩
  rw [InodeDisk.content, InodeDisk.content, InodeDisk.sector_congr hidx]
  split
  · rfl
  · rename_i hp
    rw [InodeDisk.byte, InodeDisk.byte, InodeDisk.sector_congr hidx, hne _ (InodeDisk.sector_occ hp)]

/-- **A write to an inode.** Whatever its outcome, the file system stays in
order and the other inodes are not touched. -/
theorem World.write {i : Inode} (h : World fm v b (⟨i.sector, i.data⟩ :: L))
    (hdeny : i.denyWriteCnt = 0) (buffer : List UInt8) (ofs : Nat) :
    ∃ n i' b' v', (i.writeAt (some fm) buffer ofs).exec b v = some ((n, i'), b', v') ∧
      Written fm v b L i buffer ofs n i' v' b' := by
  have hsound : i.data.Sound v := h.sound ⟨i.sector, i.data⟩ (by simp)
  rw [Inode.writeAt, if_neg (by simpa using hdeny)]
  have hsum : ((ofs + buffer.length : Nat) : Int) = ofs + buffer.length := Int.natCast_add _ _
  rcases exec_extend h (ofs + buffer.length) with
    ⟨hw, hexec⟩ | ⟨hw, ok, d', v₁, b', new, hd', hr, hout⟩
  · -- the bytes are there
    rw [hsum] at hexec
    obtain ⟨v', hexec', hworld, hL, hs, hidx, hframe, hbytes⟩ :=
      h.writeLoop buffer ofs (by have := hw.2; omega)
    refine ⟨(buffer.length : Int), i, b, v', by simp [hexec, hexec'], ?_⟩
    constructor
    case world => exact hworld
    case untouched => exact hL
    case inode => rfl
    case kind => exact ⟨rfl, rfl⟩
    case shadow => exact fun hsh => hsh.congr hs hidx
    case frame => exact fun t ht => .inr (.inr (.inl (hframe t ht)))
    case zero =>
      rw [if_neg fun hn => hn.1 hw]
      by_contra hne
      have := hframe 0 hne
      rw [InodeDisk.occ_zero] at this
      omega
    case mono => exact fun _ => id
    case size => rfl
    case left => rw [if_pos hw]
    case grown => rw [InodeDisk.blocks_congr hidx]
    case place => exact fun _ => ⟨rfl, rfl, hs⟩
    case done => exact fun _ => ⟨rfl, by rw [if_pos hw], hbytes⟩
    case failed => exact fun hn => absurd (.inl hw) hn
    case idle => exact fun hn => absurd (.inl hw) hn
  · obtain ⟨hdirect, hdir, hlen, hmagic⟩ := hd'
    obtain ⟨hworld₁, hL₁, hs₁⟩ := h.reserve hr hdirect hlen
    have hcontent := h.reserve_content hr
    have hfits : i.data.Fits v b (ofs + buffer.length) ↔
        ok = true ∧ bytesToSectors (ofs + buffer.length) ≤ InodeDisk.maxSectors := by
      rw [hr.ok_iff]; rfl
    have hnew : ∀ t ∈ new, ¬ InUse b t ∧ InUse b' t := fun t ht =>
      ⟨hr.takes.clear t ht, (hr.takes.inUse t).2 (.inr ht)⟩
    have hframe₁ : ∀ t, v₁ t ≠ v t →
        (¬ InUse b t ∧ InUse b' t) ∨ 1 ≤ i.data.occ v t ∨ mapData fm v t ∨ t = 0 := by
      intro t ht
      by_contra hn
      simp only [not_or] at hn
      obtain ⟨hn₁, hn₂, hn₃, hn₄⟩ := hn
      exact ht (hr.frame t (fun hs => hn₁ (hnew t hs)) hn₃ (fun hi => hn₂ (InodeDisk.index_occ hi)) hn₄)
    rcases hout with ⟨hok, hmax, hexec⟩ | ⟨hnok, hexec⟩
    · -- the inode is longer, and on its sector
      rw [hsum] at hexec
      obtain ⟨d'', hd''⟩ : ∃ d'' : InodeDisk, d'' =
          { d' with length := (ofs + buffer.length : Int) } := ⟨_, rfl⟩
      have hroots : d''.roots = d'.roots := by rw [hd'']; rfl
      have hlen'' : d''.length = (ofs + buffer.length : Int) := by rw [hd'']
      rw [← hd''] at hexec
      have hend : ofs + buffer.length ≤ InodeDisk.maxSectors * 512 := by
        simp only [bytesToSectors, divRoundUp, blockSectorSize] at hmax
        omega
      simp only [InodeDisk.maxSectors] at hend
      have hsound₁ : d''.Sound v₁ := by
        refine ⟨by rw [hd'']; exact hdirect, by omega, by omega, fun k hk => ?_⟩
        have hk' : k < bytesToSectors (ofs + buffer.length) := lt_bytesToSectors.2 (by omega)
        rw [InodeDisk.sector, hroots]
        exact hr.full hok k hk' (by rw [InodeDisk.capacity_roots hsound.direct]; omega)
      have hworld₁ := hworld₁.setData hroots hsound₁
      obtain ⟨hworld₂, hL₂⟩ := hworld₁.setInode d''.toSector
      obtain ⟨hidx₂, hcontent₂⟩ := hworld₁.setInode_same d''.toSector
      have hself : Function.update v₁ i.sector d''.toSector i.sector = d''.toSector :=
        Function.update_self _ _ _
      have hs0 : i.sector ≠ 0 := (h.owned (x := ⟨i.sector, i.data⟩) (by simp) (occ_sector v _)).2.1
      have hzero₂ : Function.update v₁ i.sector d''.toSector 0 = v₁ 0 :=
        Function.update_of_ne (Ne.symm hs0) _ _
      have hframe₂ : ∀ t, t ≠ i.sector → Function.update v₁ i.sector d''.toSector t = v₁ t :=
        fun t ht =>
        Function.update_of_ne ht _ _
      generalize Function.update v₁ i.sector d''.toSector =
        v₂ at hexec hworld₂ hL₂ hidx₂ hcontent₂ hself hzero₂ hframe₂
      obtain ⟨v', hexec', hworld', hL', hs', hidx', hframe', hbytes⟩ :=
        hworld₂.writeLoop buffer ofs (by omega)
      refine ⟨(buffer.length : Int), { i with data := d'' }, b', v', by simp [hexec, hexec'], ?_⟩
      constructor
      case world => exact hworld'
      case untouched => exact (hL₁.trans hL₂).trans hL'
      case inode => rfl
      case kind => exact ⟨by rw [hd'']; exact hdir, by rw [hd'']; exact hmagic⟩
      case shadow =>
        exact fun _ => (Shadow.self hself (hworld₂.sound ⟨i.sector, d''⟩ (by simp))).congr hs' hidx'
      case frame =>
        intro t ht
        by_cases h₂ : v' t = v₂ t
        · by_cases hts : t = i.sector
          · exact .inr (.inl hts)
          · rw [h₂, hframe₂ t hts] at ht
            rcases hframe₁ t ht with h₁ | h₁
            · exact .inl h₁
            · exact .inr (.inr h₁)
        · have hocc := hframe' t h₂
          rw [InodeDisk.occ_congr hidx₂, InodeDisk.occ, hroots] at hocc
          have hle := hr.occ t
          by_cases hnt : t ∈ new
          · exact .inl (hnew t hnt)
          · rw [if_neg hnt] at hle
            exact .inr (.inr (.inl (by rw [InodeDisk.occ]; omega)))
      case zero =>
        have h₂ : v' 0 = v₂ 0 := by
          by_contra hne
          have := hframe' 0 hne
          rw [InodeDisk.occ_zero] at this
          omega
        rw [h₂, hzero₂, hr.zero]
        simp only [hw, not_false_eq_true, true_and]
        rfl
      case mono => exact fun t ht => hr.takes.mono ht
      case size => exact hr.takes.length
      case left => rw [hr.left, if_neg hw]; rfl
      case grown =>
        have hidx : ∀ t, d''.IsIndex v₁ t → v' t = v₁ t := fun t ht => by
          rw [hidx' t ((InodeDisk.index_congr hidx₂ t).2 ht), hidx₂ t ht]
        rw [InodeDisk.blocks_congr hidx, InodeDisk.blocks, hroots]
        exact hr.grown
      case place => exact fun hn => absurd hn hw
      case done =>
        refine fun _ => ⟨rfl, by rw [if_neg hw]; exact hlen'', fun pos => ?_⟩
        have hsame : d''.content v₁ pos = d'.content v₁ pos := by rw [hd'']; rfl
        rw [hbytes pos, hcontent₂, hsame, hcontent]
      case failed => exact fun hn => absurd (.inr (hfits.2 ⟨hok, hmax⟩)) hn
      case idle => exact fun hn => absurd (.inr (hfits.2 ⟨hok, hmax⟩)) hn
    · -- there is no room
      rw [hsum] at hexec
      refine ⟨0, { i with data := d' }, b', v₁, by simp [hexec], ?_⟩
      constructor
      case world => exact hworld₁
      case untouched => exact hL₁
      case inode => rfl
      case kind => exact ⟨hdir, hmagic⟩
      case shadow => exact fun hsh => h.reserve_shadow hr hdirect hlen hdir hmagic hsh
      case frame =>
        intro t ht
        rcases hframe₁ t ht with h₁ | h₁
        · exact .inl h₁
        · exact .inr (.inr h₁)
      case zero =>
        rw [hr.zero]
        simp only [hw, not_false_eq_true, true_and]
        rfl
      case mono => exact fun t ht => hr.takes.mono ht
      case size => exact hr.takes.length
      case left => rw [hr.left, if_neg hw]; rfl
      case grown => exact hr.grown
      case place => exact fun hn => absurd hn hw
      case done => exact fun hn => absurd (hfits.1 (hn.resolve_left hw)) hnok
      case failed => exact fun _ => ⟨rfl, hlen, hcontent⟩
      case idle =>
        refine fun _ => ⟨hs₁, fun hcount => ?_⟩
        have hnew : new = [] := List.eq_nil_of_length_eq_zero (by have := hr.takes.count; omega)
        subst hnew
        have hd : d' = i.data :=
          InodeDisk.eq_of_roots hdirect hsound.direct (hr.idle rfl).1 hdir hlen hmagic
        exact ⟨by rw [hd], hr.takes.eq_of_nil h.size⟩

/-! ## Creating -/

theorem newInodeDisk_direct (length : Int) (isDir : Bool) :
    (newInodeDisk length isDir).directBlocks.length = 123 := by
  simp [newInodeDisk]

theorem newInodeDisk_bare (length : Int) (isDir : Bool) (hd : d.directBlocks.length = 123) :
    (newInodeDisk length isDir).roots = bare layout d.roots := by
  have hdirect : bare layout (level 0 d.directBlocks) = level 0 (List.replicate 123 0) := by
    rw [bare_level, hd]
    rfl
  rw [bare] at hdirect
  rw [bare, InodeDisk.roots, InodeDisk.roots, List.map_append, hdirect]
  rfl

theorem newInodeDisk_occ (length : Int) (isDir : Bool) (t : BlockSector) :
    (newInodeDisk length isDir).occ v t = 0 := by
  have h : ∀ l, occF layout v [(l, 0)] t = 0 := fun l => by
    rw [occF_cons, occF_nil, show (0 : BlockSector) = layout.null from rfl, occ_null]
  rw [InodeDisk.occ, InodeDisk.roots, occF_append]
  have h₀ : occF layout v (level 0 (newInodeDisk length isDir).directBlocks) t = 0 := occF_null 123
  have h₁ := h 1
  have h₂ := h 2
  simp only [occF_cons, occF_nil, newInodeDisk] at h₀ h₁ h₂ ⊢
  omega

theorem newInodeDisk_blocks (length : Int) (isDir : Bool) :
    (newInodeDisk length isDir).blocks v = [] := by
  refine List.eq_nil_iff_forall_not_mem.2 fun t ht => ?_
  have h₁ := InodeDisk.mem_blocks.1 ht
  rw [newInodeDisk_occ] at h₁
  omega

theorem newInodeDisk_sector (length : Int) (isDir : Bool) (i : Nat) :
    (newInodeDisk length isDir).sector v i = 0 := by
  by_contra h
  have := InodeDisk.sector_occ h
  rw [newInodeDisk_occ] at this
  omega

theorem newInodeDisk_sound (isDir : Bool) : (newInodeDisk 0 isDir).Sound v :=
  ⟨newInodeDisk_direct _ _, Int.le_refl _, by simp [newInodeDisk],
    fun i hi => by simp [newInodeDisk] at hi⟩

/-- The sectors it takes to give an empty inode `n` data sectors. -/
def sectorCost (n : Nat) : Nat :=
  n + (if n ≤ 123 then 0 else 1) + if n ≤ 251 then 0 else 1 + divRoundUp (n - 251) 128

theorem newInodeDisk_lacking (length : Int) (isDir : Bool) (end_ : Nat) :
    (newInodeDisk length isDir).lacking v end_ =
    List.replicate (min (bytesToSectors end_) 123) .data ++
      (missingF layout v [(1, 0)] (bytesToSectors end_ - 123) ++
        missingF layout v [(2, 0)] (bytesToSectors end_ - 251)) := by
  have hroots : (newInodeDisk length isDir).roots =
      level 0 (List.replicate 123 layout.null) ++ ([(1, 0)] ++ [(2, 0)]) :=
    rfl
  have h₁ : capacity layout (level 0 (List.replicate 123 layout.null)) = 123 := by simp
  have h₂ : capacity layout [(1, 0)] = 128 := rfl
  rw [InodeDisk.lacking, hroots, missingF_append, missingF_append, missingF_leaves, h₁, h₂, Nat.sub_sub]

theorem length_newInodeDisk_lacking (length : Int) (isDir : Bool) {end_ : Nat}
    (h : bytesToSectors end_ ≤ InodeDisk.maxSectors) :
    ((newInodeDisk length isDir).lacking v end_).length = sectorCost (bytesToSectors end_) := by
  have hnode : ∀ l n, 0 < n → missingF layout v [(l, 0)] n =
      missing layout v l 0 (min n (128 ^ l)) := fun l n hn => by
    rw [missingF, if_neg (by omega)]
    simp [missingF]
  have hlist : ∀ n, 0 < n → (missingF layout v [(1, 0)] n).length = 1 + min n 128 := fun n hn => by
    rw [hnode 1 n hn, show (0 : BlockSector) = layout.null from rfl, missing_null, missingF_leaves]
    simp; omega
  have htree : ∀ n, 0 < n → n ≤ 128 * 128 → (missingF layout v [(2, 0)] n).length =
      1 + n + divRoundUp n 128 :=
    fun n hn hle => by
      rw [hnode 2 n hn, show (0 : BlockSector) = layout.null from rfl, missing_null, List.length_cons,
        length_missingF_lists]
      simp only [layout_width, divRoundUp]
      omega
  rw [newInodeDisk_lacking, List.length_append, List.length_append, List.length_replicate, sectorCost]
  generalize bytesToSectors end_ = n at h
  simp only [InodeDisk.maxSectors] at h
  by_cases h₁ : n ≤ 123
  · rw [show n - 123 = 0 by omega, show n - 251 = 0 by omega, missingF_zero, missingF_zero,
      if_pos h₁, if_pos (by omega)]
    simp; omega
  · rw [if_neg h₁, hlist _ (by omega)]
    by_cases h₂ : n ≤ 251
    · rw [show n - 251 = 0 by omega, missingF_zero, if_pos h₂]
      simp; omega
    · rw [if_neg h₂, htree _ (by omega) (by omega)]
      omega

theorem newInodeDisk_fits {length : Int} {isDir : Bool} {end_ : Nat} :
    (newInodeDisk length isDir).Fits v b end_ ↔
    bytesToSectors end_ ≤ InodeDisk.maxSectors ∧ sectorCost (bytesToSectors end_) ≤ freeCount b := by
  rw [InodeDisk.Fits, and_comm]
  refine and_congr_right fun h => ?_
  rw [length_newInodeDisk_lacking length isDir h]

theorem InodeDisk.Sound.sectors_le (h : d.Sound v) :
    bytesToSectors d.length.toNat ≤ InodeDisk.maxSectors := by
  by_contra hgt
  have hcovers := h.covers InodeDisk.maxSectors (lt_bytesToSectors.1 (by omega))
  exact hcovers (InodeDisk.sector_of_le h.direct (Nat.le_refl _))

theorem length_missingF_bare (hd : d.directBlocks.length = 123) {n : Nat}
    (hn : n ≤ InodeDisk.maxSectors) :
    (missingF layout v (bare layout d.roots) n).length = sectorCost n := by
  have hsectors : bytesToSectors (n * 512) = n := by
    simp only [bytesToSectors, divRoundUp, blockSectorSize]
    omega
  have hlacking : ((newInodeDisk 0 false).lacking v (n * 512)).length =
      sectorCost (bytesToSectors (n * 512)) :=
    length_newInodeDisk_lacking 0 false (by rw [hsectors]; exact hn)
  rw [InodeDisk.lacking, hsectors, newInodeDisk_bare 0 false hd] at hlacking
  exact hlacking

/-- The sectors on the way to an inode's data are as many as its length needs. -/
theorem InodeDisk.Sound.length_visited (h : d.Sound v) :
    (visitedF layout v d.roots (bytesToSectors d.length.toNat)).length =
      sectorCost (bytesToSectors d.length.toNat) := by
  rw [length_visitedF fun i hi _ => h.covers i (lt_bytesToSectors.1 hi),
    length_missingF_bare h.direct h.sectors_le]

/-- Growing takes at most what the longer length needs beyond the shorter. -/
theorem InodeDisk.Sound.length_lacking (h : d.Sound v) {n : Nat} (hle : d.length.toNat ≤ n)
    (hn : bytesToSectors n ≤ InodeDisk.maxSectors) :
    (d.lacking v n).length + sectorCost (bytesToSectors d.length.toNat) ≤
    sectorCost (bytesToSectors n) := by
  have hmono : bytesToSectors d.length.toNat ≤ bytesToSectors n := by
    simp only [bytesToSectors, divRoundUp, blockSectorSize]
    omega
  have := length_missingF (v := v) hmono fun i hi _ => h.covers i (lt_bytesToSectors.1 hi)
  rwa [length_missingF_bare h.direct h.sectors_le, length_missingF_bare h.direct hn] at this

/-- What `inode_create` does with a sector taken for it. -/
structure Created (fm : InodeDisk) (v : Image) (b : Bitmap) (L : List Owner) (s : BlockSector)
    (length : Int) (isDir ok : Bool) (v' : Image) (b' : Bitmap) : Prop where
  world : ∃ d, World fm v' b' (⟨s, d⟩ :: L) ∧ (d.blocks v').length + freeCount b' ≤ freeCount b ∧
    (ok = true → v' s = d.toSector ∧ d.length = length ∧ d.isDir = isDir ∧ d.magic = inodeMagic ∧
      ∀ pos, d.content v' pos = 0)
  untouched : Untouched v v' L
  frame : ∀ t, v' t ≠ v t → (¬ InUse b t ∧ InUse b' t) ∨ t = s ∨ mapData fm v t ∨ t = 0
  zero : v' 0 = if 0 ≤ length ∧ (newInodeDisk 0 isDir).Slips v b length.toNat then Sector.zeros else v 0
  mono : ∀ t, InUse b t → InUse b' t
  size : b'.length = b.length
  ok_iff : ok = true ↔ 0 ≤ length ∧ (newInodeDisk 0 isDir).Fits v b length.toNat
  left : freeCount b' =
    if 0 ≤ length then freeCount b - ((newInodeDisk 0 isDir).lacking v length.toNat).length
    else freeCount b

/-- **Creating an inode.** Whatever its outcome, the file system stays in
order and the other inodes are not touched. -/
theorem World.create {isDir : Bool} {length : Int} (h : World fm v b (⟨s, newInodeDisk 0 isDir⟩ :: L))
    (hmax : length < 2 ^ 31) :
    ∃ ok b' v', (Inode.create (some fm) s length isDir).exec b v = some (ok, b', v') ∧
      Created fm v b L s length isDir ok v' b' := by
  rw [Inode.create]
  by_cases hneg : length < 0
  · refine ⟨false, b, v, by simp [inodeReserve, hneg], ?_⟩
    constructor
    case world => exact ⟨_, h, by rw [newInodeDisk_blocks]; simp, fun hf => absurd hf (by decide)⟩
    case untouched => exact fun _ _ _ _ => rfl
    case frame => exact fun t ht => absurd rfl ht
    case zero => rw [if_neg fun hn => by omega]
    case mono => exact fun _ => id
    case size => rfl
    case ok_iff => exact ⟨fun hf => absurd hf (by decide), fun hn => by omega⟩
    case left => rw [if_neg (by omega)]
  · obtain ⟨ok, d', v₁, b', new, hexec, ⟨hdirect, hdir, hlen, hmagic⟩, hr⟩ :=
      exec_inodeReserve length h.ready (newInodeDisk_direct length isDir)
        (h.owned_roots (x := ⟨s, newInodeDisk 0 isDir⟩) (by simp)) (by omega)
    have hr₀ : Reserved (some fm) (mapData fm v) v b (newInodeDisk 0 isDir).roots
      (bytesToSectors length.toNat) ok d'.roots v₁ b' new := hr
    -- the inode, as long as it was
    obtain ⟨d₀, hd₀⟩ : ∃ d₀ : InodeDisk, d₀ = { d' with length := 0 } := ⟨_, rfl⟩
    have hroots₀ : d₀.roots = d'.roots := by rw [hd₀]; rfl
    rw [← hroots₀] at hr₀
    obtain ⟨hworld₀, hL₁, hs₁⟩ := h.reserve hr₀ (by rw [hd₀]; exact hdirect) (by rw [hd₀]; rfl)
    have hcontent := h.reserve_content hr₀
    have hfits : (newInodeDisk 0 isDir).Fits v b length.toNat ↔
        ok = true ∧ bytesToSectors length.toNat ≤ InodeDisk.maxSectors := by rw [hr.ok_iff]; rfl
    have hframe₁ : ∀ t, v₁ t ≠ v t → (¬ InUse b t ∧ InUse b' t) ∨ mapData fm v t ∨ t = 0 := by
      intro t ht
      by_contra hn
      simp only [not_or] at hn
      obtain ⟨hn₁, hn₂, hn₃⟩ := hn
      refine ht (hr.frame t (fun hs => hn₁ ⟨hr.takes.clear t hs, (hr.takes.inUse t).2 (.inr hs)⟩)
        hn₂ (fun hi => ?_) hn₃)
      have h₁ : 1 ≤ (newInodeDisk length isDir).occ v t := InodeDisk.index_occ hi
      rw [newInodeDisk_occ] at h₁
      omega
    have hzero₁ : v₁ 0 = if 0 ≤ length ∧ (newInodeDisk 0 isDir).Slips v b length.toNat then
        Sector.zeros else v 0 := by
      rw [hr.zero]
      simp only [show 0 ≤ length by omega, true_and]
      rfl
    have hgrown : (d'.blocks v₁).length + freeCount b' ≤ freeCount b := by
      have h₁ := hr.grown
      rw [← InodeDisk.blocks, ← InodeDisk.blocks, newInodeDisk_blocks, List.length_nil] at h₁
      omega
    by_cases hok : ok = true ∧ bytesToSectors length.toNat ≤ InodeDisk.maxSectors
    · -- the inode goes to its sector
      have hsound₁ : d'.Sound v₁ := by
        refine ⟨hdirect, by rw [hlen]; simp [newInodeDisk]; omega, by rw [hlen]; exact hmax,
          fun k hk => ?_⟩
        rw [hlen] at hk
        have hk' : k < bytesToSectors length.toNat := lt_bytesToSectors.2 hk
        exact hr.full hok.1 k hk' (by rw [InodeDisk.capacity_roots (newInodeDisk_direct _ _)]; omega)
      have hworld₁ := hworld₀.setData hroots₀.symm hsound₁
      obtain ⟨hworld₂, hL₂⟩ := hworld₁.setInode d'.toSector
      obtain ⟨hidx₂, hcontent₂⟩ := hworld₁.setInode_same d'.toSector
      have hs0 : s ≠ 0 := (h.owned (x := ⟨s, newInodeDisk 0 isDir⟩) (by simp) (occ_sector v _)).2.1
      refine ⟨true, b', Function.update v₁ s d'.toSector, by simp [hexec, hok.1, hok.2], ?_⟩
      constructor
      case world =>
        refine ⟨d', hworld₂, ?_, fun _ => ⟨Function.update_self _ _ _, hlen, hdir, hmagic,
          fun pos => ?_⟩⟩
        · rw [InodeDisk.blocks_congr hidx₂]
          exact hgrown
        have h₀ : d'.content v₁ pos = d₀.content v₁ pos := by rw [hd₀]; rfl
        rw [hcontent₂, h₀, hcontent, InodeDisk.content, if_pos (newInodeDisk_sector 0 isDir _)]
      case untouched => exact hL₁.trans hL₂
      case frame =>
        intro t ht
        by_cases hts : t = s
        · exact .inr (.inl hts)
        · rw [Function.update_of_ne hts] at ht
          rcases hframe₁ t ht with h₁ | h₁
          · exact .inl h₁
          · exact .inr (.inr h₁)
      case zero => rw [Function.update_of_ne (Ne.symm hs0), hzero₁]
      case mono => exact fun t ht => hr.takes.mono ht
      case size => exact hr.takes.length
      case ok_iff => exact ⟨fun _ => ⟨by omega, hfits.2 hok⟩, fun _ => rfl⟩
      case left => rw [hr.left, if_pos (by omega)]; rfl
    · have hf : (ok && decide (bytesToSectors length.toNat ≤ InodeDisk.maxSectors)) = false := by
        simpa [and_comm] using hok
      refine ⟨false, b', v₁, by simp [hexec, hf], ?_⟩
      constructor
      case world =>
        refine ⟨d₀, hworld₀, ?_, fun hn => absurd hn (by decide)⟩
        rw [InodeDisk.blocks, hroots₀]
        exact hgrown
      case untouched => exact hL₁
      case frame =>
        intro t ht
        rcases hframe₁ t ht with h₁ | h₁
        · exact .inl h₁
        · exact .inr (.inr h₁)
      case zero => exact hzero₁
      case mono => exact fun t ht => hr.takes.mono ht
      case size => exact hr.takes.length
      case ok_iff => exact ⟨fun hn => absurd hn (by decide), fun hn => absurd (hfits.1 hn.2) hok⟩
      case left => rw [hr.left, if_pos (by omega)]; rfl

/-! ## Sectors not in use -/

theorem Written.unused {i i' : Inode} {buffer : List UInt8} {ofs : Nat} {n : Int}
    (hw : Written fm v b L i buffer ofs n i' v' b') (h : World fm v b (⟨i.sector, i.data⟩ :: L))
    {t : BlockSector} (ht : ¬ InUse b' t) : v' t = v t := by
  by_contra hne
  rcases hw.frame t hne with ⟨-, hu⟩ | rfl | hocc | hm | rfl
  · exact ht hu
  · exact ht (hw.mono _ (h.owned (x := ⟨i.sector, i.data⟩) (by simp) (occ_sector v _)).1)
  · exact ht (hw.mono _ (h.owned (x := ⟨i.sector, i.data⟩) (by simp) (occ_data hocc)).1)
  · exact ht (hw.mono _ (h.map_inUse (mapData_occ hm)))
  · exact ht (hw.mono _ h.zero)

theorem Created.unused {length : Int} {isDir ok : Bool} (hc : Created fm v b L s length isDir ok v' b')
    (h : World fm v b (⟨s, d⟩ :: L)) {t : BlockSector} (ht : ¬ InUse b' t) : v' t = v t := by
  by_contra hne
  rcases hc.frame t hne with ⟨-, hu⟩ | rfl | hm | rfl
  · exact ht hu
  · exact ht (hc.mono _ (h.owned (x := ⟨t, d⟩) (by simp) (occ_sector v ⟨t, d⟩)).1)
  · exact ht (hc.mono _ (h.map_inUse (mapData_occ hm)))
  · exact ht (hc.mono _ h.zero)

/-! ## Giving back -/

/-- The inode's sector is given back: the file system has one inode less. -/
theorem World.releaseSector (h : World fm v b (⟨s, d⟩ :: L)) :
    ∃ b' v', (freeMapRelease (some fm) s 1).exec b v = some ((), b', v') ∧
      Released (some fm) (mapData fm v) v b v' b' [s] ∧ World fm v' b' L ∧ Untouched v v' L := by
  obtain ⟨hu, -⟩ := h.owned (x := ⟨s, d⟩) (by simp) (occ_sector v _)
  obtain ⟨v', b', hexec, hr⟩ :=
    exec_releaseOne h.ready.fileOk (Option.mem_some_self fm) (lt_of_bitmapTest hu)
  obtain ⟨hw, hL⟩ := h.drop.release hr fun t ht => by
    obtain rfl : t = s := by simpa using ht
    have h₁ := h.once_head t
    rw [if_pos (show t = t from rfl)] at h₁
    rw [total_cons, occ_mapOwner]
    omega
  exact ⟨b', v', hexec, hr, hw, hL⟩

/-- The inode's sector and then its other sectors are given back, as far as
its length covers them. -/
theorem World.releaseInode (h : World fm v b (⟨s, d⟩ :: L)) :
    ∃ b₁ v₁ b' v', (freeMapRelease (some fm) s 1).exec b v = some ((), b₁, v₁) ∧
      (inodeDeallocate (some fm) d).exec b₁ v₁ = some (true, b', v') ∧
      Released (some fm) (mapData fm v) v b v' b'
        (s :: visitedF layout v d.roots (bytesToSectors d.length.toNat)) ∧
      World fm v' b' L ∧ Untouched v v' L := by
  obtain ⟨b₁, v₁, hexec₁, hr₁, -, -⟩ := h.releaseSector
  have hsound : d.Sound v := h.sound ⟨s, d⟩ (by simp)
  have hidx : ∀ t, d.IsIndex v t → ¬ mapData fm v t ∧ v₁ t = v t := by
    intro t ht
    obtain ⟨-, -, hF, -⟩ := h.owned (x := ⟨s, d⟩) (by simp) (occ_data (InodeDisk.index_occ ht))
    exact ⟨hF, hr₁.frame t hF⟩
  have hcover : ∀ i < bytesToSectors d.length.toNat, i < capacity layout d.roots →
      dataF layout v d.roots i ≠ 0 :=
    fun i hi _ => hsound.covers i (lt_bytesToSectors.1 hi)
  have hocc : ∀ t ∈ visitedF layout v d.roots (bytesToSectors d.length.toNat), 1 ≤ d.occ v t := by
    intro t ht
    have h₁ := List.count_pos_iff.2 ht
    have h₂ := count_visitedF hcover t
    rw [InodeDisk.occ]; omega
  have hvis : visitedF layout v₁ d.roots (bytesToSectors d.length.toNat) =
      visitedF layout v d.roots (bytesToSectors d.length.toNat) :=
        visitedF_congr (fun t ht => (hidx t ht).2) _
  obtain ⟨v', b', hexec₂, hr₂⟩ :=
    exec_inodeDeallocate (d := d) (hr₁.fileOk h.ready.fileOk) (Option.mem_some_self fm)
    hsound.direct (fun t ht =>
      (hidx t ((InodeDisk.index_congr (fun t ht => (hidx t ht).2) t).1 ht)).1) hsound.low
    (fun i hi => by rw [InodeDisk.sector_congr fun t ht => (hidx t ht).2]; exact hsound.covers i hi)
    (fun t ht => by
      rw [hvis] at ht
      rw [hr₁.gives.length]
      exact lt_of_bitmapTest (h.owned (x := ⟨s, d⟩) (by simp) (occ_data (hocc t ht))).1)
  rw [hvis] at hr₂
  have hr := hr₁.trans hr₂
  obtain ⟨hw, hL⟩ := h.drop.release hr fun t ht => by
    have h₁ := h.once_head t
    rw [total_cons, occ_mapOwner]
    rcases List.mem_append.1 ht with ht | ht
    · obtain rfl : t = s := by simpa using ht
      rw [if_pos (show t = t from rfl)] at h₁
      omega
    · have := hocc t ht
      omega
  exact ⟨b₁, v₁, b', v', hexec₁, hexec₂, hr, hw, hL⟩

end contents

end MyShell.Fs

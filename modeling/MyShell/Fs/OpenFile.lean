/-
Open files on a file system in order: what `file_read`, `file_write` and
`file_seek` do to the file and to the position in it.

`file_write` moves the position by two bytes less than it wrote, whatever it
wrote. `position_nonneg` says which writes take it below 0.
-/
import MyShell.Fs.Folder
import MyShell.Fs.Space

namespace MyShell.Fs

open Storage Session

/-- Only the open file `f` has changed. -/
structure Session.Moves (s s' : Session) (f : Ptr) (file : File) : Prop where
  state : s'.st = { s.st with files := s'.st.files }
  image : s'.image = s.image
  live : s'.live = s.live
  spare : s'.spare = s.spare
  get : ∀ p, s'.st.files.get p = if p = f then some file else s.st.files.get p

/-- The inode on sector `x` is open, and the open file `f` is on it. -/
structure OpenFile (s : Session) (f : Ptr) (file : File) (x : BlockSector) : Prop where
  handle : s.st.files.get f = some file
  holds : s.Holds file.inode x
  sector : x ≠ freeMapSector

namespace Session.Moves

variable {s s' s'' : Session} {f : Ptr} {file file' : File}

theorem refl (h : s.st.files.get f = some file) : s.Moves s f file where
  state := rfl
  image := rfl
  live := rfl
  spare := rfl
  get p := by
    split
    · subst_vars
      exact h
    · rfl

theorem trans (h : s.Moves s' f file) (h' : s'.Moves s'' f file') : s.Moves s'' f file' where
  state := by rw [h'.state, h.state]
  image := h'.image.trans h.image
  live := h'.live.trans h.live
  spare := h'.spare.trans h.spare
  get p := by
    rw [h'.get, h.get]
    split <;> rfl

theorem holds (h : s.Moves s' f file) (p : Ptr) (x : BlockSector) : s'.Holds p x ↔ s.Holds p x := by
  rw [Session.Holds, h.state]
  rfl

end Session.Moves

namespace OpenFile

variable {s s' : Session} {a : BlockSector → Option Node} {f : Ptr} {file file' : File}
  {x : BlockSector} {n : Node}

/-- The file after a call that is not about open files. -/
theorem beside (hf : OpenFile s f file x) (hb : s.Beside s') (hp : s'.Holds file.inode x) :
    OpenFile s' f file x :=
  ⟨by rw [hb.files]; exact hf.handle, hp, hf.sector⟩

theorem moves (hf : OpenFile s f file x) (h : s.Moves s' f file') (hinode : file'.inode = file.inode) :
    OpenFile s' f file' x :=
  ⟨by rw [h.get, if_pos rfl], by rw [hinode, h.holds]; exact hf.holds, hf.sector⟩

theorem modify (hf : s.st.files.get f = some file) (g : File → File) :
    ∃ s', s.Does (modifyFile f g) () s' ∧ s.Moves s' f (g file) := by
  refine ⟨⟨s.st.setFiles (s.st.files.modify f g), s.image, s.live, s.spare⟩, rfl,
    ⟨rfl, rfl, rfl, rfl, fun p => ?_⟩⟩
  rw [FsState.setFiles_files, Heap.get_modify, hf]
  rfl

/-- Nothing is read where the size is negative. -/
theorem inodeReadAt_toNat (p : Ptr) (size ofs : Int) :
    inodeReadAt p size ofs = inodeReadAt p size.toNat ofs := by
  rcases Int.le_total 0 size with hs | hs
  · rw [Int.toNat_of_nonneg hs]
  · simp only [inodeReadAt, Fs.readAt, Int.toNat_eq_zero.2 hs]
    rfl

section file
variable (hf : OpenFile s f file x) (h : Volume s a)
include hf

theorem derefFile : s.Does (derefFile f) file s := by simp [Does, exec_derefFile, hf.handle]

include h

theorem ne_freeMapFile : s.st.freeMapFile ≠ some f := by
  intro hmap
  obtain ⟨q, fm, C, hinv⟩ := h.inv
  obtain ⟨p, f', hp, hf', hq⟩ := hinv.mounted.map.file
  obtain rfl : f = p := Option.some.inj (hmap.symm.trans hp)
  obtain rfl : file = f' := Option.some.inj (hf.handle.symm.trans hf')
  obtain ⟨i, hi, hx⟩ := hf.holds
  exact hinv.holds_ne hi (by rw [hx]; exact hf.sector) hq

theorem volume_moves (hm : s.Moves s' f file') : Volume s' a := by
  refine h.handles hm.image hm.live hm.spare (by rw [hm.state]) (by rw [hm.state])
    (by rw [hm.state]) fun p hp => ?_
  rw [hm.get, if_neg]
  rintro rfl
  exact hf.ne_freeMapFile h hp

/-! ## The calls -/

omit h in
/-- `file_read`, the inode's part of it being known. -/
theorem fileRead_of {size : Int} {bytes : List UInt8}
    (hread : s.Does (inodeReadAt file.inode size file.pos) bytes s) :
    ∃ s', s.Does (fileRead f size) bytes s' ∧
      s.Moves s' f { file with pos := file.pos + bytes.length } := by
  obtain ⟨s', hmodify, hmoves⟩ := modify hf.handle fun f' => { f' with pos := f'.pos + bytes.length }
  exact ⟨s', hf.derefFile.bind (hread.bind (hmodify.bind (.pure _ _))), hmoves⟩

/-- **`file_read`** from within the file or beyond. -/
theorem fileRead (hpos : 0 ≤ file.pos) (ha : a x = some n) (size : Int) :
    ∃ s', s.Does (fileRead f size) (n.bytes.read size.toNat file.pos.toNat) s' ∧
      s.Moves s' f { file with pos := file.pos + (n.bytes.read size.toNat file.pos.toNat).length } := by
  have hread := h.readAt hf.holds hf.sector ha size.toNat file.pos.toNat
  rw [← inodeReadAt_toNat, Int.toNat_of_nonneg hpos] at hread
  exact hf.fileRead_of hread

omit h in
/-- `file_write`, the inode's part of it being known. -/
theorem fileWrite_of {s₁ : Session} {buffer : List UInt8} {k : Int} (hne : buffer ≠ [])
    (hwrite : s.Does (inodeWriteAt file.inode (buffer.dropLast ++ [0]) file.pos) k s₁)
    (hb : s.Beside s₁) :
    ∃ s', s.Does (fileWrite f buffer) k s' ∧ s₁.Moves s' f { file with pos := file.pos + (k - 2) } := by
  obtain ⟨s', hmodify, hmoves⟩ := modify (s := s₁) (by rw [hb.files]; exact hf.handle) fun f' =>
    { f' with pos := f'.pos + (k - 2) }
  refine ⟨s', ?_, hmoves⟩
  rw [fileWrite, if_neg hne]
  exact hf.derefFile.bind (hwrite.bind (hmodify.bind (.pure _ _)))

omit h in
/-- **`file_seek`** -/
theorem fileSeek (newPos : Int) :
    ∃ s', s.Does (fileSeek f newPos) () s' ∧ s.Moves s' f { file with pos := newPos } := by
  obtain ⟨s', hmodify, hmoves⟩ := modify hf.handle fun f' => { f' with pos := newPos }
  exact ⟨s', hf.derefFile.bind hmodify, hmoves⟩

end file

/-- `file_close`, where the file's inode is in memory. -/
theorem fileClose {s : Session} {a : BlockSector → Option Node} {f : Ptr} {file : File}
    {x : BlockSector} (hf : OpenFile s f file x) (h : Volume s a) (hdeny : file.denyWrite = false) :
    ∃ s', s.Does (Fs.fileClose (some f)) () s' ∧ Volume s' a ∧
      s'.st = { s.st with
        freeMap := s'.st.freeMap, openInodes := s'.st.openInodes, files := s'.st.files } ∧
      (∀ q, s'.st.files.get q = if q = f then none else s.st.files.get q) ∧
      (∀ p y, s'.Holds p y ↔ s.Holds p y ∧ p ≠ file.inode) ∧ s'.live = s.live := by
  obtain ⟨s₁, hclose, hvol₁, hb₁, hholds₁, hlive₁, -⟩ := h.closeInode hf.holds hf.sector
  have hallow : s.Does (fileAllowWrite f) () s := by
    refine hf.derefFile.bind ?_
    rw [hdeny]
    exact .pure _ _
  refine ⟨⟨{ s₁.st with files := s₁.st.files.free f }, s₁.image, s₁.live, s₁.spare⟩,
    hallow.bind (hf.derefFile.bind (hclose.bind rfl)), ?_, ?_, fun q => ?_, hholds₁, hlive₁⟩
  · refine hvol₁.handles rfl rfl rfl rfl rfl rfl fun p hp => ?_
    rw [Heap.get_free, if_neg]
    rintro rfl
    exact hf.ne_freeMapFile h (hb₁.freeMapFile ▸ hp)
  · rw [hb₁.state]
  · rw [Heap.get_free, hb₁.files]

end OpenFile

/-! ## Positions -/

/-- The calls on one open file. -/
inductive FileCall where
  | read (size : Int)
  | write (buffer : List UInt8)
  | seek (newPos : Nat)

def FileCall.run (f : Ptr) : FileCall → FsM Unit
  | .read size => do
    let _ ← fileRead f size
    pure ()
  | .write buffer => do
    let _ ← fileWrite f buffer
    pure ()
  | .seek newPos => fileSeek f newPos

/-- The inode on the sector is opened, and a file on it. -/
def openFile (sector : BlockSector) : FsM (Option Ptr) := do fileOpen (some (← inodeOpen sector))

/-- The calls on the file `f`, each with the state before it, lead to the
state. In between there may be any calls of inode.c that do not close the
file's inode. -/
inductive FileRun (x : BlockSector) (f : Ptr) : List (Session × FileCall) → Session → Prop
  | start {calls s st v} (hr : Run calls s) (hx : x ∈ s.live) (hx0 : x ≠ freeMapSector)
      (h : (openFile x).exec s.st s.image = some (some f, st, v)) :
      FileRun x f [] ⟨st, v, s.live, s.spare⟩
  | call {steps s c st v} (hr : FileRun x f steps s)
      (h : (c.run f).exec s.st s.image = some ((), st, v)) :
      FileRun x f (steps ++ [(s, c)]) ⟨st, v, s.live, s.spare⟩
  | other {steps s c s'} (hr : FileRun x f steps s) (h : Step s c s') (hc : c ≠ .inodeClose x) :
      FileRun x f steps s'

/-- The position in the file is not negative. -/
def Session.Forward (s : Session) (f : Ptr) : Prop :=
  ∃ file, s.st.files.get f = some file ∧ 0 ≤ file.pos

/-- A write from position 2 on, or of enough bytes with room for them. -/
def Session.Safe (s : Session) (x : BlockSector) (f : Ptr) : FileCall → Prop
  | .write buffer => ∃ file, s.st.files.get f = some file ∧
      (2 ≤ file.pos ∨ 2 ≤ file.pos + buffer.length ∧ s.Room x (file.pos.toNat + buffer.length))
  | _ => True

/-- The file `f` is open on inode `x`, in a file system in order. -/
def Session.Tracks (s : Session) (x : BlockSector) (f : Ptr) : Prop :=
  Volume s (fun _ => none) ∧ ∃ file, OpenFile s f file x

theorem length_dropLast_append {buffer : List UInt8} (hne : buffer ≠ []) :
    (buffer.dropLast ++ [0]).length = buffer.length := by
  have := List.length_pos_iff.2 hne
  rw [List.length_append, List.length_dropLast, List.length_singleton]
  omega

theorem Volume.readAt_any {s : Session} {a : BlockSector → Option Node} {p : Ptr} {x : BlockSector}
    (h : Volume s a) (hp : s.Holds p x) (hx : x ≠ freeMapSector) (size : Int) (ofs : Nat) :
    ∃ bytes, s.Does (inodeReadAt p size ofs) bytes s := by
  obtain ⟨q, fm, C, i, hinv, hi, rfl, -⟩ := h.held hp
  rw [OpenFile.inodeReadAt_toNat]
  exact ⟨_, hinv.mounted.exec_inodeReadAt hi (hinv.holds_ne hi hx) size.toNat ofs⟩

theorem Volume.writeAt_any {s : Session} {p : Ptr} {x : BlockSector} (h : Volume s fun _ => none)
    (hp : s.Holds p x) (hx : x ≠ freeMapSector) (buffer : List UInt8) (ofs : Nat) :
    ∃ s' k, s.Does (inodeWriteAt p buffer ofs) k s' ∧ s.Beside s' ∧
      (∀ p' y, s'.Holds p' y ↔ s.Holds p' y) ∧
      s'.live = s.live ∧ s'.spare = s.spare ∧ Volume s' (fun _ => none) ∧
      (s.Room x (ofs + buffer.length) ∧ k = buffer.length ∨ ¬ s.Room x (ofs + buffer.length) ∧
        k = 0) := by
  obtain ⟨s', k, fm, L, i, i', hdoes, hbeside, hholds, hlive, hspare, hw, hdata, -, hvol⟩ :=
    h.write_step hp hx buffer ofs
  have hvol' := hvol none fun n hn => by cases hn
  rw [Function.update_eq_self x (fun _ => (none : Option Node))] at hvol'
  refine ⟨s', k, hdoes, hbeside, hholds, hlive, hspare, hvol', ?_⟩
  rw [Session.Room, hdata]
  by_cases hroom : i.data.Within (ofs + buffer.length) ∨
    i.data.Fits s.image s.st.freeMap (ofs + buffer.length)
  · exact .inl ⟨hroom, (hw.done hroom).1⟩
  · exact .inr ⟨hroom, (hw.failed hroom).1⟩

theorem exists_fileOpen (s : Session) (p : Ptr) :
    ∃ s', s.Does (fileOpen (some p)) (some s.st.files.next) s' ∧
      s.Moves s' s.st.files.next ⟨p, 0, false⟩ :=
  ⟨⟨s.st.setFiles (s.st.files.alloc ⟨p, 0, false⟩), s.image, s.live, s.spare⟩, rfl,
    ⟨rfl, rfl, rfl, rfl, fun p' => Heap.get_alloc _ _ p'⟩⟩

theorem Volume.fileOpen {s s' : Session} {a : BlockSector → Option Node} {file : File} (h : Volume s a)
    (hm : s.Moves s' s.st.files.next file) : Volume s' a := by
  refine h.handles hm.image hm.live hm.spare (by rw [hm.state]) (by rw [hm.state])
    (by rw [hm.state]) fun q hq => ?_
  rw [hm.get, if_neg]
  rintro rfl
  obtain ⟨q', fm, C, hinv⟩ := h.inv
  obtain ⟨p', f', hp', hf', -⟩ := hinv.mounted.map.file
  rw [hq] at hp'
  cases hp'
  rw [Heap.get_next] at hf'
  cases hf'

/-- Calls of inode.c change no handles, and close what they are about. -/
theorem Volume.step {s s' : Session} {c : Call} (h : Volume s fun _ => none) (hs : Step s c s') :
    Volume s' (fun _ => none) ∧ s.Beside s' ∧ ∀ p x, s.Holds p x → c ≠ .inodeClose x →
    s'.Holds p x := by
  obtain ⟨q, fm, C, hinv⟩ := h.inv
  obtain ⟨C', hinv', -⟩ := hinv.step hs
  refine ⟨⟨⟨q, fm, C', hinv'⟩, fun _ _ _ _ hn => by cases hn⟩, ?_⟩
  cases hs with
  | freeMapAllocate hexec =>
    rcases h.allocate with ⟨-, hdoes⟩ | ⟨x, s₁, hdoes, -, hb, hholds, -⟩
    · obtain rfl := hdoes.state_eq hexec
      exact ⟨⟨rfl, rfl⟩, fun _ _ hp _ => hp⟩
    · obtain rfl := hdoes.state_eq hexec
      exact ⟨⟨hb.state, hb.size⟩, fun _ _ hp _ => (hholds _ _).2 hp⟩
  | inodeCreate hx hlen hexec =>
    obtain ⟨s₁, hb, hholds, hres⟩ := h.create hx _ hlen _
    rcases hres with ⟨-, hdoes, -⟩ | ⟨-, hdoes, -⟩
    all_goals
      obtain rfl := hdoes.state_eq hexec
      exact ⟨⟨hb.state, hb.size⟩, fun _ _ hp _ => (hholds _ _).2 hp⟩
  | freeMapRelease hx hexec =>
    obtain ⟨s₁, hdoes, -, hb, hholds, -⟩ := h.release hx
    obtain rfl := hdoes.state_eq hexec
    exact ⟨⟨hb.state, hb.size⟩, fun _ _ hp _ => (hholds _ _).2 hp⟩
  | inodeOpen hx hfree hexec =>
    obtain ⟨s₁, hdoes, -, hb, hholds, -⟩ := h.openInode hx hfree
    obtain rfl := hdoes.state_eq hexec
    exact ⟨⟨hb.state, hb.size⟩, fun _ _ hp _ => (hholds _ _).2 (.inl hp)⟩
  | inodeWriteAt hp hx _ hexec =>
    obtain ⟨s₁, k, hdoes, hb, hholds, -⟩ := h.writeAt_any hp hx _ _
    obtain rfl := hdoes.state_eq hexec
    exact ⟨⟨hb.state, hb.size⟩, fun _ _ hp _ => (hholds _ _).2 hp⟩
  | inodeRemove hp hx hexec =>
    obtain ⟨s₁, hdoes, -, hb, hholds, -⟩ := h.removeInode hp hx
    obtain rfl := hdoes.state_eq hexec
    exact ⟨⟨hb.state, hb.size⟩, fun _ _ hp _ => (hholds _ _).2 hp⟩
  | @inodeClose p₀ x₀ st v hp hx hexec =>
    obtain ⟨s₁, hdoes, -, hb, hholds, -⟩ := h.closeInode hp hx
    obtain rfl := hdoes.state_eq hexec
    refine ⟨⟨hb.state, hb.size⟩, fun p x hp' hc => (hholds _ _).2 ⟨hp', ?_⟩⟩
    -- it is another inode
    rintro rfl
    obtain rfl := hp.unique hp'
    exact hc rfl

namespace Session.Tracks

variable {s s' : Session} {x : BlockSector} {f : Ptr}

theorem moves {file file' : File} (hvol : Volume s fun _ => none) (hf : OpenFile s f file x)
    (hm : s.Moves s' f file') (hinode : file'.inode = file.inode) : s'.Tracks x f :=
  ⟨hf.volume_moves hvol hm, _, hf.moves hm hinode⟩

/-- **One call.** -/
theorem call (h : s.Tracks x f) (hpos : s.Forward f) {c : FileCall} {st : FsState} {v : Image}
    (hexec : (c.run f).exec s.st s.image = some ((), st, v)) :
    Session.Tracks ⟨st, v, s.live, s.spare⟩ x f ∧
    (Session.Forward ⟨st, v, s.live, s.spare⟩ f ↔ s.Safe x f c) := by
  obtain ⟨hvol, file, hf⟩ := h
  obtain ⟨file', hfile', hpos⟩ := hpos
  obtain rfl : file = file' := Option.some.inj (hf.handle.symm.trans hfile')
  have hforward : ∀ {s₁ : Session} {file₁ : File}, s₁.st.files.get f = some file₁ →
      (s₁.Forward f ↔ 0 ≤ file₁.pos) := by
    intro s₁ file₁ hget
    refine ⟨fun hf => ?_, fun h0 => ⟨_, hget, h0⟩⟩
    obtain ⟨_, hget', h0⟩ := hf
    rw [hget] at hget'
    cases hget'
    exact h0
  have hdone : ∀ {s₁ : Session} {file₁ : File}, s.Does (c.run f) () s₁ → s.Moves s₁ f file₁ →
    file₁.inode = file.inode →
      Session.Tracks ⟨st, v, s.live, s.spare⟩ x f ∧
      (Session.Forward ⟨st, v, s.live, s.spare⟩ f ↔ 0 ≤ file₁.pos) :=
    fun hdoes hm hinode => by
      obtain ⟨-, rfl, rfl⟩ : () = () ∧ st = _ ∧ v = _ := by simpa [Does, hexec] using hdoes
      rw [← hm.live, ← hm.spare]
      exact ⟨Tracks.moves hvol hf hm hinode, hforward (hf.moves hm hinode).handle⟩
  cases c with
  | read size =>
    obtain ⟨bytes, hread⟩ := hvol.readAt_any hf.holds hf.sector size file.pos.toNat
    rw [Int.toNat_of_nonneg hpos] at hread
    obtain ⟨s₁, hdoes, hm⟩ := hf.fileRead_of hread
    obtain ⟨htracks, hiff⟩ := hdone (hdoes.bind (.pure _ _)) hm rfl
    exact ⟨htracks, hiff.trans (iff_of_true (by simp only; omega) trivial)⟩
  | seek newPos =>
    obtain ⟨s₁, hdoes, hm⟩ := hf.fileSeek newPos
    obtain ⟨htracks, hiff⟩ := hdone hdoes hm rfl
    exact ⟨htracks, hiff.trans (iff_of_true (by simp only; omega) trivial)⟩
  | write buffer =>
    by_cases hne : buffer = []
    · -- the buffer has no last byte
      rw [FileCall.run, fileWrite, if_pos hne] at hexec
      cases hexec
    obtain ⟨s₁, k, hwrite, hb, hholds, hlive, hspare, hvol₁, hk⟩ :=
      hvol.writeAt_any hf.holds hf.sector (buffer.dropLast ++ [0]) file.pos.toNat
    rw [Int.toNat_of_nonneg hpos] at hwrite
    rw [length_dropLast_append hne] at hk
    obtain ⟨s₂, hdoes, hm⟩ := hf.fileWrite_of hne hwrite hb
    have hf₁ := hf.beside hb ((hholds _ _).2 hf.holds)
    have hdoes : s.Does (FileCall.run f (.write buffer)) () s₂ := hdoes.bind (.pure _ _)
    obtain ⟨-, rfl, rfl⟩ : () = () ∧ st = s₂.st ∧ v = s₂.image := by simpa [Does, hexec] using hdoes
    rw [← hlive, ← hspare, ← hm.live, ← hm.spare]
    refine ⟨Tracks.moves hvol₁ hf₁ hm rfl, (hforward (hf₁.moves hm rfl).handle).trans ?_⟩
    have hsafe : s.Safe x f (.write buffer) ↔
        2 ≤ file.pos ∨ 2 ≤ file.pos + buffer.length ∧ s.Room x (file.pos.toNat + buffer.length) := by
      refine ⟨fun hsafe => ?_, fun hs => ⟨_, hf.handle, hs⟩⟩
      obtain ⟨_, hget, hs⟩ := hsafe
      rw [hf.handle] at hget
      cases hget
      exact hs
    rw [hsafe]
    simp only
    rcases hk with ⟨hroom, rfl⟩ | ⟨hroom, rfl⟩
    · simp only [hroom, and_true]
      omega
    · simp only [hroom, and_false, or_false]
      omega

theorem start {calls : List Call} (hr : Run calls s) (hx : x ∈ s.live) (hx0 : x ≠ freeMapSector)
    {st : FsState} {v : Image} (hexec : (openFile x).exec s.st s.image = some (some f, st, v)) :
    Session.Tracks ⟨st, v, s.live, s.spare⟩ x f ∧ Session.Forward ⟨st, v, s.live, s.spare⟩ f := by
  obtain ⟨q, fm, C, hinv⟩ := hr.inv
  have hvol : Volume s fun _ => none := ⟨⟨q, fm, C, hinv⟩, fun _ _ _ _ hn => by cases hn⟩
  obtain ⟨p, s₁, hopen, hvol₁, hb₁, hp₁, -, -, hlive₁, hspare₁, -⟩ := hvol.openAny hx
  obtain ⟨s₂, hfile, hm⟩ := exists_fileOpen s₁ p
  have hdoes : s.Does (openFile x) (some s₁.st.files.next) s₂ := hopen.bind hfile
  obtain ⟨rfl, rfl, rfl⟩ : f = s₁.st.files.next ∧ st = s₂.st ∧ v = s₂.image := by
    simpa [Does, hexec] using hdoes
  have hvol₂ := hvol₁.fileOpen hm
  have hget : s₂.st.files.get s₁.st.files.next = some ⟨p, 0, false⟩ := by rw [hm.get, if_pos rfl]
  rw [← hlive₁, ← hspare₁, ← hm.live, ← hm.spare]
  exact ⟨⟨hvol₂, ⟨p, 0, false⟩, hget, (hm.holds _ _).2 hp₁, hx0⟩, ⟨p, 0, false⟩, hget,
    Int.le_refl 0⟩

theorem other {c : Call} (h : s.Tracks x f) (hs : Step s c s') (hc : c ≠ .inodeClose x) :
    s'.Tracks x f ∧ (s'.Forward f ↔ s.Forward f) := by
  obtain ⟨hvol, file, hf⟩ := h
  obtain ⟨hvol', hb, hkeep⟩ := hvol.step hs
  exact ⟨⟨hvol', file, hf.beside hb (hkeep _ _ hf.holds hc)⟩, by rw [Forward, Forward, hb.files]⟩

end Session.Tracks

theorem FileRun.tracks {x : BlockSector} {f : Ptr} {steps : List (Session × FileCall)} {s : Session}
    (h : FileRun x f steps s) (hpos : ∀ e ∈ steps, e.1.Forward f) :
    s.Tracks x f := by
  induction h with
  | start hr hx hx0 hexec => exact (Tracks.start hr hx hx0 hexec).1
  | call _ hexec ih =>
    have htracks := ih fun e he => hpos e (List.mem_append_left _ he)
    exact (htracks.call (hpos _ (List.mem_append_right _ (List.mem_singleton_self _))) hexec).1
  | other _ hs hc ih => exact ((ih hpos).other hs hc).1

/-- **Positions.** Over any calls on an open file, the position in it is not
negative in any state exactly if each write is made from position 2 on, or is
of enough bytes to end at position 2 or later and finds room for them. -/
theorem position_nonneg {x : BlockSector} {f : Ptr} {steps : List (Session × FileCall)} {s : Session}
    (h : FileRun x f steps s) :
    ((∀ e ∈ steps, e.1.Forward f) ∧ s.Forward f) ↔ ∀ e ∈ steps, e.1.Safe x f e.2 := by
  induction h with
  | start hr hx hx0 hexec =>
    exact iff_of_true ⟨by simp, (Tracks.start hr hx hx0 hexec).2⟩ (by simp)
  | @call steps s c st v hr hexec ih =>
    simp only [List.mem_append, List.mem_singleton, or_imp, forall_and, forall_eq]
    rw [← ih]
    refine ⟨fun ⟨⟨hsteps, hs⟩, hs'⟩ => ⟨⟨hsteps, hs⟩, ?_⟩,
      fun ⟨⟨hsteps, hs⟩, hsafe⟩ => ⟨⟨hsteps, hs⟩, ?_⟩⟩
    · exact ((hr.tracks hsteps).call hs hexec).2.1 hs'
    · exact ((hr.tracks hsteps).call hs hexec).2.2 hsafe
  | other hr hs hc ih =>
    rw [← ih]
    exact and_congr_right fun hsteps => ((hr.tracks hsteps).other hs hc).2

/-! ## Runs on a new file -/

theorem Volume.room_of_free {s : Session} {a : BlockSector → Option Node} {x : BlockSector}
    (h : Volume s a) (hx : s.Present x) (hx0 : x ≠ freeMapSector) {end_ : Nat} (hpos : 0 < end_)
    (hmax : bytesToSectors end_ ≤ InodeDisk.maxSectors)
    (hfree : sectorCost (bytesToSectors end_) ≤ freeCount s.st.freeMap) : s.Room x end_ := by
  obtain ⟨q, fm, C, hinv⟩ := h.inv
  have hsound := hinv.sound hx hx0
  have hlow := hsound.low
  by_cases hle : (end_ : Int) ≤ (s.data x).length
  · exact .inl ⟨hpos, hle⟩
  · have := hsound.length_lacking (n := end_) (by omega) hmax
    exact .inr ⟨by omega, hmax⟩

/-- A file is opened that is new on a device of 200 sectors. -/
theorem exists_fileRun :
    ∃ x f s, FileRun x f [] s ∧ (∀ end_, 0 < end_ → end_ ≤ 512 → s.Room x end_) ∧
    ∃ p, OpenFile s f ⟨p, 0, false⟩ x := by
  obtain ⟨s, x, p, hr, hp, hx0, hx, hfree⟩ := exists_file (n := 200) (by decide) (by decide)
  obtain ⟨q, fm, C, hinv⟩ := hr.inv
  have hvol : Volume s fun _ => none := ⟨⟨q, fm, C, hinv⟩, fun _ _ _ _ hn => by cases hn⟩
  obtain ⟨s', hfile, hm⟩ := exists_fileOpen s p
  have hdoes : s.Does (openFile x) (some s.st.files.next) s' := (hvol.open_hit hp).bind hfile
  have hrun := FileRun.start hr hx hx0 hdoes
  have hs' : (⟨s'.st, s'.image, s.live, s.spare⟩ : Session) = s' := by rw [← hm.live, ← hm.spare]
  rw [hs'] at hrun
  have hvol' := (hrun.tracks (by simp)).1
  have hone : sectorCost 1 = 1 := by decide
  have hcost : sectorCost (bytesToSectors (byteCnt ((200 : BlockSector).toNat - 1))) = 1 := by decide
  have hsize : (200 : BlockSector).toNat = 200 := rfl
  have hfree' : s'.st.freeMap = s.st.freeMap := by rw [hm.state]
  refine ⟨x, _, s', hrun, fun end_ hpos hend => ?_,
    p, by rw [hm.get, if_pos rfl], (hm.holds _ _).2 hp, hx0⟩
  have hsectors : bytesToSectors end_ = 1 := by
    unfold bytesToSectors divRoundUp blockSectorSize
    omega
  refine hvol'.room_of_free (.inr ⟨p, (hm.holds _ _).2 hp⟩) hx0 hpos (by rw [hsectors]; decide) ?_
  rw [hsectors, hone, hfree']
  omega

theorem FileRun.does {x : BlockSector} {f : Ptr} {steps : List (Session × FileCall)}
    {s s' : Session} {c : FileCall} (h : FileRun x f steps s) (hdoes : s.Does (c.run f) () s')
    (hlive : s'.live = s.live) (hspare : s'.spare = s.spare) :
    FileRun x f (steps ++ [(s, c)]) s' := by
  have hrun := h.call hdoes
  rwa [← hlive, ← hspare] at hrun

/-- A write of one byte or more to the file of a run. -/
theorem FileRun.exists_write {x : BlockSector} {f : Ptr} {steps : List (Session × FileCall)}
    {s : Session} {file : File} (h : FileRun x f steps s) (hvol : Volume s fun _ => none)
    (hf : OpenFile s f file x) (hpos : 0 ≤ file.pos) {buffer : List UInt8} (hne : buffer ≠ []) :
    ∃ s' k, FileRun x f (steps ++ [(s, .write buffer)]) s' ∧ Volume s' (fun _ => none) ∧
      OpenFile s' f { file with pos := file.pos + (k - 2) } x ∧
      (s.Room x (file.pos.toNat + buffer.length) → k = buffer.length) := by
  obtain ⟨s₁, k, hwrite, hb, hholds, hlive, hspare, hvol₁, hk⟩ :=
    hvol.writeAt_any hf.holds hf.sector (buffer.dropLast ++ [0]) file.pos.toNat
  rw [Int.toNat_of_nonneg hpos] at hwrite
  rw [length_dropLast_append hne] at hk
  obtain ⟨s', hdoes, hm⟩ := hf.fileWrite_of hne hwrite hb
  have hf₁ := hf.beside hb ((hholds _ _).2 hf.holds)
  exact ⟨s', k, h.does (hdoes.bind (.pure _ _)) (hm.live.trans hlive) (hm.spare.trans hspare),
    hf₁.volume_moves hvol₁ hm,
    hf₁.moves hm rfl, fun hroom => (hk.resolve_right fun hno => hno.1 hroom).2⟩

/-- Four bytes are written to a new file, and one byte over the third of them.
Both writes meet the condition, the second by the position it starts from. -/
theorem position_nonneg_writes : ∃ x f s₀ s₁ s₂ s₃,
    FileRun x f [(s₀, .write [1, 2, 3, 4]), (s₁, .seek 2), (s₂, .write [5])] s₃ ∧
    s₀.Forward f ∧ s₁.Forward f ∧ s₂.Forward f ∧ s₃.Forward f := by
  obtain ⟨x, f, s₀, hrun₀, hroom, p, hf₀⟩ := exists_fileRun
  obtain ⟨s₁, k, hrun₁, hvol₁, hf₁, hk⟩ :=
    hrun₀.exists_write (hrun₀.tracks (by simp)).1 hf₀ (Int.le_refl 0) (List.cons_ne_nil 1 [2, 3, 4])
  obtain ⟨s₂, hseek, hm⟩ := hf₁.fileSeek (2 : Nat)
  have hrun₂ := hrun₁.does (c := .seek 2) hseek hm.live hm.spare
  have hf₂ := hf₁.moves hm rfl
  obtain ⟨s₃, -, hrun₃, -⟩ :=
    hrun₂.exists_write (hf₁.volume_moves hvol₁ hm) hf₂ (by simp) (List.cons_ne_nil 5 [])
  have hforward := (position_nonneg hrun₃).2 (by
    simp only [List.nil_append, List.cons_append, List.forall_mem_cons]
    exact ⟨⟨_, hf₀.handle, .inr ⟨by simp, hroom 4 (by decide) (by decide)⟩⟩, trivial,
      ⟨_, hf₂.handle, .inl (Int.le_refl 2)⟩, by simp⟩)
  simp only [List.nil_append, List.cons_append, List.forall_mem_cons] at hforward
  obtain ⟨⟨h₀, h₁, h₂, -⟩, h₃⟩ := hforward
  exact ⟨x, f, s₀, s₁, s₂, s₃, hrun₃, h₀, h₁, h₂, h₃⟩

/-- A byte written to a new file takes the position to -1. -/
theorem position_negative :
    ∃ x f s s', FileRun x f [(s, .write [7])] s' ∧ s.Forward f ∧ ¬ s'.Forward f ∧
    ∃ file, s'.st.files.get f = some file ∧ file.pos = -1 := by
  obtain ⟨x, f, s, hrun, hroom, p, hf⟩ := exists_fileRun
  obtain ⟨s', k, hrun', -, hf', hk⟩ :=
    hrun.exists_write (hrun.tracks (by simp)).1 hf (Int.le_refl 0) (List.cons_ne_nil 7 [])
  obtain rfl := hk (hroom 1 (by decide) (by decide))
  refine ⟨x, f, s, s', hrun', ⟨_, hf.handle, Int.le_refl 0⟩, fun hforward => ?_, _, hf'.handle, rfl⟩
  obtain ⟨file, hget, hpos⟩ := hforward
  obtain rfl : _ = file := Option.some.inj (hf'.handle.symm.trans hget)
  exact absurd hpos (by simp)

end MyShell.Fs

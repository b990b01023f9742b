/-
A file system in use, as its callers see it: for each inode of interest the
bytes that can be read of it (`Volume`). Each theorem is one call of inode.c or
free-map.c: what it answers, and which bytes are there after it.
-/
import MyShell.Fs.Growth
import MyShell.Fs.Filesys

namespace MyShell.Fs

open Storage

/-- What can be read of an inode. -/
structure Node where
  bytes : Growable UInt8
  isDir : Bool

/-- A file system in order, whose inodes hold `a`, as far as `a` says. -/
structure Volume (s : Session) (a : BlockSector → Option Node) : Prop where
  inv : ∃ q fm C, s.Inv q fm C
  shows : ∀ x n, x ≠ freeMapSector → s.Present x → a x = some n →
    s.Shows x n.bytes ∧ (s.data x).isDir = n.isDir

namespace Session

variable {s s' s'' : Session} {α β : Type} {m : FsM α} {f : α → FsM β} {r : α} {t : β}

/-- The command answers `r` and leads from `s` to `s'`. -/
def Does (s : Session) (m : FsM α) (r : α) (s' : Session) : Prop :=
  m.exec s.st s.image = some (r, s'.st, s'.image)

theorem Does.pure (s : Session) (r : α) : s.Does (pure r) r s := rfl

theorem Does.bind (h : s.Does m r s') (h' : s'.Does (f r) t s'') : s.Does (m >>= f) t s'' := by
  unfold Does at *
  rw [Cmd.exec_bind, h]
  exact h'

theorem Does.state_eq (h : s.Does m r s') {r' : α} {st : FsState} {v : Image}
    (hexec : m.exec s.st s.image = some (r', st, v)) : st = s'.st := by
  rw [Does, hexec] at h
  exact congrArg (fun e => e.2.1) (Option.some.inj h)

/-- The command gives this answer and leads to such a state, or it faults where
there is no answer. -/
def Answers (s : Session) (m : FsM α) (r : Option α) (P : Session → Prop) : Prop :=
  match r with
  | some r => ∃ s', s.Does m r s' ∧ P s'
  | none => m.exec s.st s.image = none

section answers

variable {P Q : Session → Prop} {o : Option α}

theorem Answers.mono (h : s.Answers m o P) (hPQ : ∀ s', P s' → Q s') : s.Answers m o Q := by
  cases o with
  | none => exact h
  | some r =>
    obtain ⟨s', hdoes, hP⟩ := h
    exact ⟨s', hdoes, hPQ s' hP⟩

theorem Answers.exists_iff (h : s.Answers m o P) (R : α → Prop) :
    (∃ r st v, m.exec s.st s.image = some (r, st, v) ∧ R r) ↔ ∃ r, o = some r ∧ R r := by
  cases o with
  | none =>
    have h : m.exec s.st s.image = none := h
    simp [h]
  | some r =>
    obtain ⟨s', hdoes, -⟩ := h
    have hdoes : m.exec s.st s.image = some (r, s'.st, s'.image) := hdoes
    simp [hdoes]

theorem Answers.pure (h : P s) (r : α) : s.Answers (pure r) (some r) P := ⟨s, .pure s r, h⟩

theorem Does.answers {o : Option β} (h : s.Does m r s') (h' : s'.Answers (f r) o Q) :
    s.Answers (m >>= f) o Q := by
  cases o with
  | none =>
    have h : m.exec s.st s.image = some (r, s'.st, s'.image) := h
    rw [Answers, Cmd.exec_bind, h]
    exact h'
  | some t =>
    obtain ⟨s'', hdoes, hQ⟩ := h'
    exact ⟨s'', h.bind hdoes, hQ⟩

theorem Answers.bind {g : α → Option β} (h : s.Answers m o P)
    (h' : ∀ r s', P s' → s'.Answers (f r) (g r) Q) : s.Answers (m >>= f) (o.bind g) Q := by
  cases o with
  | none =>
    have h : m.exec s.st s.image = none := h
    rw [Option.bind_none, Answers, Cmd.exec_bind, h]
    rfl
  | some r =>
    obtain ⟨s', hdoes, hP⟩ := h
    exact hdoes.answers (h' r s' hP)

end answers

/-- Only the free map, the sectors and the inodes in memory differ. -/
structure Beside (s s' : Session) : Prop where
  state : s'.st = { s.st with freeMap := s'.st.freeMap, openInodes := s'.st.openInodes }
  size : s'.st.freeMap.length = s.st.freeMap.length

namespace Beside

theorem refl (s : Session) : s.Beside s := ⟨rfl, rfl⟩

theorem trans (h : s.Beside s') (h' : s'.Beside s'') : s.Beside s'' :=
  ⟨by rw [h'.state, h.state], h'.size.trans h.size⟩

variable (h : s.Beside s')
include h

theorem freeMapFile : s'.st.freeMapFile = s.st.freeMapFile := by rw [h.state]

theorem files : s'.st.files = s.st.files := by rw [h.state]

theorem dirs : s'.st.dirs = s.st.dirs := by rw [h.state]

theorem cwd : s'.st.cwd = s.st.cwd := by rw [h.state]

theorem fileTable : s'.st.fileTable = s.st.fileTable := by rw [h.state]

theorem fileInfos : s'.st.fileInfos = s.st.fileInfos := by rw [h.state]

theorem fileListHead : s'.st.fileListHead = s.st.fileListHead := by rw [h.state]

end Beside

/-- A pointer is to one inode. -/
theorem Holds.unique {p : Ptr} {x y : BlockSector} (h : s.Holds p x) (h' : s.Holds p y) : x = y := by
  obtain ⟨i, hi, rfl⟩ := h
  obtain ⟨j, hj, rfl⟩ := h'
  rw [hi] at hj
  cases hj
  rfl

/-- There is room in the inode up to this length, or there are sectors to make room. -/
def Room (s : Session) (x : BlockSector) (end_ : Nat) : Prop :=
  (s.data x).Within end_ ∨ (s.data x).Fits s.image s.st.freeMap end_

end Session

namespace Volume

open Session

variable {s s' : Session} {a a' : BlockSector → Option Node} {n : Node} {p : Ptr} {x y : BlockSector}

theorem next (h : Volume s a) (hinv : ∃ q fm C, s'.Inv q fm C)
    (hkeep : ∀ y, y ≠ freeMapSector → s'.Present y →
      (s.Keeps s' y ∧ a' y = a y) ∨ ∀ n, a' y = some n → s'.Shows y n.bytes ∧
      (s'.data y).isDir = n.isDir) :
    Volume s' a' := by
  refine ⟨hinv, fun y n hy0 hy ha' => ?_⟩
  rcases hkeep y hy0 hy with ⟨hkeep, ha⟩ | hnew
  · obtain ⟨hshows, hdir⟩ := h.shows y n hy0 hkeep.present (ha ▸ ha')
    exact ⟨hkeep.shows hshows, hkeep.isDir.trans hdir⟩
  · exact hnew n ha'

/-- Handles may change, but for the free map's. -/
theorem handles (h : Volume s a) (himage : s'.image = s.image) (hlive : s'.live = s.live)
    (hspare : s'.spare = s.spare) (h₁ : s'.st.freeMap = s.st.freeMap)
    (h₂ : s'.st.freeMapFile = s.st.freeMapFile) (h₃ : s'.st.openInodes = s.st.openInodes)
    (h₄ : ∀ p, s.st.freeMapFile = some p → s'.st.files.get p = s.st.files.get p) : Volume s' a := by
  obtain ⟨st, v, live, spare⟩ := s'
  subst himage hlive hspare
  simp only at h₁ h₂ h₃ h₄
  obtain ⟨q, fm, C, hinv⟩ := h.inv
  have hdata : ∀ x, Session.data ⟨st, s.image, s.live, s.spare⟩ x = s.data x := fun x => by
    rw [Session.data, h₃]
    rfl
  refine ⟨⟨q, fm, C, ⟨⟨⟨?_, by rw [h₃]; exact hinv.mounted.map.inode⟩,
    by rw [h₁, h₃]; exact hinv.mounted.world,
    by rw [h₃]; exact hinv.mounted.shadow, by rw [h₃]; exact hinv.mounted.deny⟩, by
      rw [h₃]; exact hinv.once, hinv.nodup,
    by rw [h₃]; exact hinv.live⟩⟩, fun x n hx0 hx ha => ?_⟩
  · obtain ⟨p, f, hp, hf, hq⟩ := hinv.mounted.map.file
    exact ⟨p, f, h₂.trans hp, (h₄ p hp).trans hf, hq⟩
  · have hx : s.Present x := hx.imp_right fun hheld => by
      obtain ⟨p, i, hp, hi⟩ := hheld
      exact ⟨p, i, by rw [← h₃]; exact hp, hi⟩
    obtain ⟨hshows, hdir⟩ := h.shows x n hx0 hx ha
    exact ⟨⟨by rw [hdata]; exact hshows.length,
      fun pos => by rw [hdata]; exact hshows.content pos⟩, by rw [hdata]; exact hdir⟩

theorem nodup (h : Volume s a) : s.live.Nodup := by
  obtain ⟨q, fm, C, hinv⟩ := h.inv
  exact hinv.nodup

/-! ## Reading -/

/-- An inode in memory is live until it is removed. -/
theorem live_iff {q : Ptr} {fm : InodeDisk} {C : List BlockSector} {i : Inode} (hinv : s.Inv q fm C)
    (hi : s.st.openInodes.get p = some i) (hx : i.sector ≠ freeMapSector) :
    i.sector ∈ s.live ↔ i.removed = false := by
  rw [hinv.live]
  refine ⟨?_, fun hr => .inr ⟨p, i, hi, hinv.holds_ne hi hx, rfl, hr⟩⟩
  rintro (hC | ⟨p', j, hj, -, hjs, hjr⟩)
  · exact absurd ⟨i, hi, rfl⟩ (hinv.closed hC p)
  · obtain rfl := hinv.mounted.sector_inj hj hi hjs
    rw [hi] at hj
    cases hj
    exact hjr

section reading
variable (h : Volume s a) (hp : s.Holds p x)
include h hp

theorem held : ∃ q fm C i, s.Inv q fm C ∧ s.st.openInodes.get p = some i ∧ i.sector = x ∧
    s.data x = i.data := by
  obtain ⟨q, fm, C, hinv⟩ := h.inv
  obtain ⟨i, hi, rfl⟩ := hp
  exact ⟨q, fm, C, i, hinv, hi, rfl, hinv.data_open hi⟩

theorem inj {p' : Ptr} (hp' : s.Holds p' x) : p' = p := by
  obtain ⟨q, fm, C, i, hinv, hi, hx, -⟩ := h.held hp
  obtain ⟨j, hj, hjx⟩ := hp'
  exact hinv.mounted.sector_inj hj hi (hjx.trans hx.symm)

theorem open_hit : s.Does (inodeOpen x) p s := by
  obtain ⟨q, fm, C, i, hinv, hi, rfl, -⟩ := h.held hp
  exact hinv.mounted.exec_inodeOpen_hit hi

variable (hx : x ≠ freeMapSector)
include hx

theorem length_eq (ha : a x = some n) : s.Does (inodeLength p) n.bytes.length s := by
  obtain ⟨q, fm, C, i, hinv, hi, -, hdata⟩ := h.held hp
  have hlen := (h.shows x n hx (.inr ⟨p, hp⟩) ha).1.length
  rw [hdata] at hlen
  simp [Does, inodeLength, derefInode, hi, hlen]

theorem isDirectory (ha : a x = some n) : s.Does (inodeIsDirectory p) n.isDir s := by
  obtain ⟨q, fm, C, i, hinv, hi, -, hdata⟩ := h.held hp
  have hdir := (h.shows x n hx (.inr ⟨p, hp⟩) ha).2
  rw [hdata] at hdir
  simp [Does, inodeIsDirectory, derefInode, hi, hdir]

theorem isRemoved [Decidable (x ∈ s.live)] : s.Does (inodeIsRemoved p) (decide (x ∉ s.live)) s := by
  obtain ⟨q, fm, C, i, hinv, hi, rfl, -⟩ := h.held hp
  have hremoved : i.removed = decide (i.sector ∉ s.live) := by
    rw [Bool.eq_iff_iff, decide_eq_true_iff, live_iff hinv hi hx, Bool.not_eq_false]
  simp [Does, inodeIsRemoved, derefInode, hi, hremoved]

theorem readAt (ha : a x = some n) (size ofs : Nat) :
    s.Does (inodeReadAt p size ofs) (n.bytes.read size ofs) s := by
  obtain ⟨q, fm, C, i, hinv, hi, rfl, hdata⟩ := h.held hp
  obtain ⟨hlen, hcontent⟩ := (h.shows _ n hx (.inr ⟨p, hp⟩) ha).1
  rw [hdata] at hlen
  rw [Does, hinv.mounted.exec_inodeReadAt hi (hinv.holds_ne hi hx), hlen, Int.toNat_natCast,
    Growable.read]
  congr 2
  refine List.map_congr_left fun k _ => ?_
  rw [← hcontent, hdata]

end reading

/-! ## Opening and closing -/

/-- The inode is in memory as it was, or on the disk only, as it was. -/
theorem data_eq (h : Volume s a) (h' : Volume s' a') (himage : s'.image = s.image)
    (hget : ∀ p i, i.sector = y → (s'.st.openInodes.get p = some i ↔ s.st.openInodes.get p = some i)) :
    s'.data y = s.data y := by
  obtain ⟨q, fm, C, hinv⟩ := h.inv
  obtain ⟨q', fm', C', hinv'⟩ := h'.inv
  by_cases hopen : ∃ p, s.Holds p y
  · obtain ⟨p, i, hi, rfl⟩ := hopen
    rw [hinv.data_open hi, hinv'.data_open ((hget p i rfl).2 hi)]
  · have hclosed : ∀ p, ¬ s'.Holds p y := fun p ⟨i, hi, hy⟩ => hopen ⟨p, i, (hget p i hy).1 hi, hy⟩
    rw [data_closed hclosed, data_closed fun p hp => hopen ⟨p, hp⟩, himage]

/-- `inode_open` of an inode that is not open. -/
theorem openInode (h : Volume s a) (hx : x ∈ s.live) (hfree : ∀ p, ¬ s.Holds p x) :
    ∃ s', s.Does (inodeOpen x) s.st.openInodes.next s' ∧ Volume s' a ∧ s.Beside s' ∧
      (∀ p y, s'.Holds p y ↔ s.Holds p y ∨ p = s.st.openInodes.next ∧ y = x) ∧
      s'.live = s.live ∧ s'.spare = s.spare ∧ s'.st.freeMap = s.st.freeMap ∧ s'.image = s.image ∧
      ∀ y, s'.data y = s.data y := by
  obtain ⟨q, fm, C, hinv⟩ := h.inv
  have hC : x ∈ C :=
    ((hinv.live x).1 hx).resolve_right fun ⟨p, i, hp, _, hi, _⟩ => hfree p ⟨i, hp, hi⟩
  obtain ⟨st, hst, hexec, -⟩ :=
    hinv.mounted.inodeOpen (((List.perm_cons_erase hC).map _).append_right _)
  obtain ⟨hinv', hkeep⟩ := hinv.inodeOpen hx hfree hexec
  have hvol' : Volume ⟨st, s.image, s.live, s.spare⟩ a :=
    h.next ⟨q, fm, _, hinv'⟩ fun y hy0 hy => .inl ⟨hkeep y hy0 hy, rfl⟩
  refine ⟨⟨st, s.image, s.live, s.spare⟩, hexec, hvol', ⟨by rw [hst]; rfl, by rw [hst]; rfl⟩,
    fun p y => ?_, rfl, rfl, by rw [hst]; rfl, rfl, fun y => ?_⟩
  case refine_2 =>
    have hget : ∀ p, st.openInodes.get p = if p = s.st.openInodes.next then
        some ⟨x, 1, false, 0, .ofSector (s.image x)⟩ else s.st.openInodes.get p := fun p => by
      rw [hst, FsState.setInodes_openInodes, Heap.get_alloc]
    by_cases hyx : y = x
    · rw [hyx, data_closed hfree]
      exact hinv'.data_open ((hget _).trans (if_pos rfl))
    · refine h.data_eq hvol' rfl fun p i hi => ?_
      simp only [hget]
      split
      · next hp =>
        rw [hp, Heap.get_next]
        refine iff_of_false ?_ (by simp)
        rintro ⟨⟩
        exact hyx hi.symm
      · rfl
  constructor
  · rintro ⟨i, hi, rfl⟩
    rw [hst, FsState.setInodes_openInodes, Heap.get_alloc] at hi
    split at hi
    · cases hi
      exact .inr ⟨‹_›, rfl⟩
    · exact .inl ⟨i, hi, rfl⟩
  · rintro (⟨i, hi, rfl⟩ | ⟨rfl, rfl⟩)
    · have hne : p ≠ s.st.openInodes.next := by
        rintro rfl
        rw [Heap.get_next] at hi
        cases hi
      exact ⟨i, by rw [hst, FsState.setInodes_openInodes, Heap.get_alloc, if_neg hne, hi], rfl⟩
    · exact ⟨_, by rw [hst, FsState.setInodes_openInodes, Heap.get_alloc, if_pos rfl], rfl⟩

/-- `inode_open` of an inode that is open or not. -/
theorem openAny (h : Volume s a) (hx : x ∈ s.live) :
    ∃ p s', s.Does (inodeOpen x) p s' ∧ Volume s' a ∧ s.Beside s' ∧ s'.Holds p x ∧
      (∀ p' y, s.Holds p' y → s'.Holds p' y) ∧
      (∀ p' y, s'.Holds p' y → s.Holds p' y ∨ p' = p ∧ y = x) ∧
      s'.live = s.live ∧ s'.spare = s.spare ∧ s'.st.freeMap = s.st.freeMap ∧ s'.image = s.image ∧
      ∀ y, s'.data y = s.data y := by
  by_cases hopen : ∃ p, s.Holds p x
  · obtain ⟨p, hp⟩ := hopen
    exact ⟨p, s, h.open_hit hp, h, .refl s, hp, fun _ _ => id, fun _ _ => .inl, rfl, rfl, rfl, rfl,
      fun _ => rfl⟩
  · obtain ⟨s', hdoes, hvol, hbeside, hholds, hrest⟩ := h.openInode hx fun p hp => hopen ⟨p, hp⟩
    exact ⟨_, s', hdoes, hvol, hbeside, (hholds _ _).2 (.inr ⟨rfl, rfl⟩),
      fun _ _ hp => (hholds _ _).2 (.inl hp), fun _ _ => (hholds _ _).1, hrest⟩

/-- `inode_close` by the holder. -/
theorem closeInode (h : Volume s a) (hp : s.Holds p x) (hx : x ≠ freeMapSector) :
    ∃ s', s.Does (inodeClose (some p)) () s' ∧ Volume s' a ∧ s.Beside s' ∧
      (∀ p' y, s'.Holds p' y ↔ s.Holds p' y ∧ p' ≠ p) ∧ s'.live = s.live ∧ s'.spare = s.spare ∧
      (x ∈ s.live → s'.st.freeMap = s.st.freeMap ∧ s'.image = s.image ∧ ∀ y, y ≠ x →
        s'.data y = s.data y) ∧
      (x ∉ s.live → Gives s.st.freeMap s'.st.freeMap (x :: s.reached x)) := by
  obtain ⟨q, fm, C, i, hinv, hi, rfl, hdata⟩ := h.held hp
  have hq := hinv.holds_ne hi hx
  have hlive := live_iff hinv hi hx
  have hholds : ∀ {st : FsState}, st.openInodes = s.st.openInodes.free p → ∀ p' y,
      (∃ j, st.openInodes.get p' = some j ∧ j.sector = y) ↔ s.Holds p' y ∧ p' ≠ p :=
        fun hst p' y => by
    rw [hst]
    simp only [Heap.get_free]
    by_cases hpp : p' = p
    · simp [hpp]
    · simp [hpp, Session.Holds]
  cases hr : i.removed with
  | false =>
    obtain ⟨st, hst, hexec, -⟩ := hinv.mounted.inodeClose_last hi hq (hinv.once p i hi) hr
    obtain ⟨hinv', hkeep, -⟩ := hinv.inodeClose hi hx hexec
    have hvol' : Volume ⟨st, s.image, s.live, s.spare⟩ a :=
      h.next ⟨q, fm, _, hinv'⟩ fun y hy0 hy => .inl ⟨hkeep y hy0 hy, rfl⟩
    refine ⟨⟨st, s.image, s.live, s.spare⟩, hexec, hvol', ⟨by rw [hst]; rfl, by rw [hst]; rfl⟩,
      hholds (by rw [hst]; rfl),
      rfl, rfl, fun _ => ⟨by rw [hst]; rfl, rfl, fun y hy => h.data_eq hvol' rfl fun p' j hj => ?_⟩,
      fun hno => ?_⟩
    · rw [hst, FsState.setInodes_openInodes, Heap.get_free]
      split
      · next hp' =>
        rw [hp', hi]
        refine iff_of_false (by simp) ?_
        rintro ⟨⟩
        exact hy hj.symm
      · rfl
    · exact absurd (hlive.2 hr) hno
  | true =>
    obtain ⟨b', v', hexec, hrel, -, -⟩ := hinv.mounted.inodeClose_removed hi hq (hinv.once p i hi) hr
    obtain ⟨hinv', hkeep, hgive⟩ := hinv.inodeClose hi hx hexec
    refine ⟨⟨_, v', s.live, s.spare⟩, hexec, h.next ⟨q, fm, _, hinv'⟩ fun y hy0 hy =>
      .inl ⟨hkeep y hy0 hy, rfl⟩,
      ⟨rfl, (hgive hr).gives.length⟩, hholds rfl, rfl, rfl, fun hno => ?_, fun _ => (hgive hr).gives⟩
    rw [hlive, hr] at hno
    cases hno

theorem removeInode (h : Volume s a) (hp : s.Holds p x) (hx : x ≠ freeMapSector) :
    ∃ s', s.Does (inodeRemove p) () s' ∧ Volume s' a ∧ s.Beside s' ∧
      (∀ p' y, s'.Holds p' y ↔ s.Holds p' y) ∧
      s'.live = s.live.erase x ∧ s'.spare = s.spare ∧ s'.st.freeMap = s.st.freeMap ∧
      s'.image = s.image := by
  obtain ⟨q, fm, C, i, hinv, hi, rfl, hdata⟩ := h.held hp
  obtain ⟨st, hst, hexec, -⟩ := hinv.mounted.inodeRemove hi (hinv.holds_ne hi hx)
  obtain ⟨hinv', hkeep⟩ := hinv.inodeRemove hi hx hexec
  refine ⟨⟨st, s.image, s.live.erase i.sector, s.spare⟩, hexec,
    h.next ⟨q, fm, _, hinv'⟩ fun y hy0 hy => .inl ⟨hkeep y hy0 hy, rfl⟩,
    ⟨by rw [hst]; rfl, by rw [hst]; rfl⟩, fun p' y => ?_,
    rfl, rfl, by rw [hst]; rfl, rfl⟩
  simp only [Session.Holds, hst, FsState.setInodes_openInodes, Heap.get_modify]
  by_cases hpp : p' = p
  · simp [hpp, hi]
  · simp [hpp]

/-! ## Writing -/

/-- `inode_write_at`, and what it does to the inode. Whatever is known of the
inode after it can be added to what is known of the others. -/
theorem write_step (h : Volume s a) (hp : s.Holds p x) (hx : x ≠ freeMapSector)
    (buffer : List UInt8) (ofs : Nat) :
    ∃ s' k fm L i i', s.Does (inodeWriteAt p buffer ofs) k s' ∧ s.Beside s' ∧
      (∀ p' y, s'.Holds p' y ↔ s.Holds p' y) ∧ s'.live = s.live ∧ s'.spare = s.spare ∧
      Written fm s.image s.st.freeMap L i buffer ofs k i' s'.image s'.st.freeMap ∧ s.data x = i.data ∧
      s'.data x = i'.data ∧
      ∀ n', (∀ n, n' = some n → s'.Shows x n.bytes ∧ (s'.data x).isDir = n.isDir) →
        Volume s' (Function.update a x n') := by
  obtain ⟨q, fm, C, i, hinv, hi, rfl, hdata⟩ := h.held hp
  have hq := hinv.holds_ne hi hx
  obtain ⟨k, i', b', v', hexec, hw', hm⟩ := hinv.mounted.inodeWriteAt hi hq buffer ofs
  obtain ⟨hinv', hkeep, -⟩ := hinv.inodeWriteAt hi hx hexec
  let s' : Session :=
    ⟨(s.st.setFreeMap b').setInodes (s.st.openInodes.modify p fun _ => i'), v', s.live, s.spare⟩
  have hsec : i'.sector = i.sector := by rw [hw'.inode]
  have hget : (s.st.openInodes.modify p fun _ => i').get p = some i' := by
    rw [Heap.get_modify, if_pos rfl, hi]
    rfl
  have hdata' : s'.data i.sector = i'.data := by
    have hfind := hm.find_open (p := p) (i := i') hget
    rw [hsec] at hfind
    rw [Session.data, hfind]
  refine ⟨s', k, fm, _, i, i', hexec, ⟨rfl, hw'.size⟩, fun p' y => ?_, rfl, rfl, hw', hdata, hdata',
    fun n' hn' => ?_⟩
  · simp only [Session.Holds, s', FsState.setInodes_openInodes, Heap.get_modify]
    by_cases hpp : p' = p
    · simp [hpp, hi, hsec]
    · simp [hpp]
  · refine h.next ⟨q, fm, C, hinv'⟩ fun y hy0 hy => ?_
    by_cases hyx : y = i.sector
    · subst hyx
      rw [Function.update_self]
      exact .inr hn'
    · rw [Function.update_of_ne hyx]
      exact .inl ⟨hkeep y hy0 hy hyx, rfl⟩

/-- `inode_write_at` of at least one byte: all of it where there is room, and otherwise nothing. -/
theorem writeAt (h : Volume s a) (hp : s.Holds p x) (hx : x ≠ freeMapSector) (ha : a x = some n)
    (buffer : List UInt8) (ofs : Nat) (hne : buffer ≠ []) :
    ∃ s' k, s.Does (inodeWriteAt p buffer ofs) k s' ∧ s.Beside s' ∧
      (∀ p' y, s'.Holds p' y ↔ s.Holds p' y) ∧
      s'.live = s.live ∧ s'.spare = s.spare ∧
      (ofs + buffer.length ≤ n.bytes.length → s'.st.freeMap = s.st.freeMap) ∧
      (s.Room x (ofs + buffer.length) ∧ k = buffer.length ∧
          Volume s' (Function.update a x (some { n with bytes := n.bytes.write ofs buffer })) ∨
        ¬ s.Room x (ofs + buffer.length) ∧ k = 0 ∧ Volume s' a) := by
  obtain ⟨⟨hlen, hcontent⟩, hdir⟩ := h.shows _ n hx (.inr ⟨p, hp⟩) ha
  obtain ⟨s', k, fm, L, i, i', hdoes, hbeside, hholds, hlive, hspare, hw, hdata, hdata', hvol⟩ :=
    h.write_step hp hx buffer ofs
  rw [hdata] at hlen hcontent hdir
  obtain ⟨hlen', hcontent'⟩ := hw.shows hne hlen hcontent
  have hpos : 0 < buffer.length := List.length_pos_iff.2 hne
  have hshows : ∀ g : Growable UInt8, (i'.data.length = g.length ∧
    ∀ pos, i'.data.content s'.image pos = g.get pos) →
      Volume s' (Function.update a x (some { n with bytes := g })) := fun g hg => by
    refine hvol _ ?_
    rintro _ ⟨⟩
    exact ⟨⟨by rw [hdata']; exact hg.1, fun pos => by rw [hdata']; exact hg.2 pos⟩,
      by rw [hdata', hw.kind.1]; exact hdir⟩
  refine ⟨s', k, hdoes, hbeside, hholds, hlive, hspare,
    fun hle => (hw.place ⟨by omega, by omega⟩).2.1, ?_⟩
  simp only [Session.Room, hdata]
  by_cases hroom : i.data.Within (ofs + buffer.length) ∨
    i.data.Fits s.image s.st.freeMap (ofs + buffer.length)
  · obtain ⟨hn, -⟩ := hw.done hroom
    refine .inl ⟨hroom, hn, hshows _ ?_⟩
    rw [if_pos (show (⟨buffer, ofs, k⟩ : Write).Done from hn)] at hlen' hcontent'
    exact ⟨hlen', hcontent'⟩
  · obtain ⟨hn, -⟩ := hw.failed hroom
    have hdone : ¬ (⟨buffer, ofs, k⟩ : Write).Done := fun hd => by
      have hd : k = buffer.length := hd
      omega
    rw [if_neg hdone] at hlen' hcontent'
    have := hshows n.bytes ⟨hlen', hcontent'⟩
    rw [show some { n with bytes := n.bytes } = a x from ha.symm, Function.update_eq_self] at this
    exact .inr ⟨hroom, hn, this⟩

theorem length_le (h : Volume s a) (hx : x ≠ freeMapSector) (hp : s.Present x) (ha : a x = some n) :
    n.bytes.length ≤ InodeDisk.maxSectors * 512 := by
  obtain ⟨q, fm, C, hinv⟩ := h.inv
  have hsound := hinv.sound hp hx
  have hlen := (h.shows x n hx hp ha).1.length
  by_contra hlt
  have hcover := hsound.covers InodeDisk.maxSectors (by rw [hlen, Int.toNat_natCast]; omega)
  exact hcover (InodeDisk.sector_of_le hsound.direct (Nat.le_refl _))

theorem room_of_le (h : Volume s a) (hx : x ≠ freeMapSector) (hp : s.Present x) (ha : a x = some n)
    {end_ : Nat} (hpos : 0 < end_) (hend : end_ ≤ n.bytes.length) : s.Room x end_ := by
  have hlen := (h.shows x n hx hp ha).1.length
  exact .inl ⟨hpos, by rw [hlen]; exact_mod_cast hend⟩

/-! ## Sectors for new inodes -/

theorem spare_fresh (h : Volume s a) (hx : x ∈ s.spare) :
    x ≠ freeMapSector ∧ x ∉ s.live ∧ (∀ p, ¬ s.Holds p x) ∧ InUse s.st.freeMap x := by
  obtain ⟨q, fm, C, hinv⟩ := h.inv
  have hmem : (⟨x, newInodeDisk 0 false⟩ : Owner) ∈
      diskOwners s.image C ++ s.spare.map fun x => ⟨x, newInodeDisk 0 false⟩ :=
    List.mem_append_right _ (List.mem_map.2 ⟨x, hx, rfl⟩)
  have hown := hinv.mounted.world.owned (List.mem_append_right _ hmem) (occ_sector s.image _)
  have hclosed : ∀ p, ¬ s.Holds p x := by
    intro p ⟨i, hp, hi⟩
    exact hinv.mounted.not_open hmem p i hp hi
  refine ⟨hown.2.1, fun hlive => ?_, hclosed, hown.1⟩
  rcases (hinv.live x).1 hlive with hC | ⟨p, i, hp, -, hi, -⟩
  · have hw := (hinv.mounted.perm (spare_perm hx _)).world.perm List.perm_middle
    have hmem : (⟨x, .ofSector (s.image x)⟩ : Owner) ∈ openOwners s.st.openInodes q ++
        (diskOwners s.image C ++ (s.spare.erase x).map fun x => ⟨x, newInodeDisk 0 false⟩) :=
      List.mem_append_right _ (List.mem_append_left _ (List.mem_map.2 ⟨x, hC, rfl⟩))
    exact (hw.other_zero hmem (occ_sector s.image _)).2 rfl
  · exact hclosed p ⟨i, hp, hi⟩

/-- `free_map_allocate` of one sector. -/
theorem allocate (h : Volume s a) :
    freeCount s.st.freeMap = 0 ∧ s.Does (withFreeMap fun file => freeMapAllocate file 1) none s ∨
    ∃ x s', s.Does (withFreeMap fun file => freeMapAllocate file 1) (some x) s' ∧ Volume s' a ∧
      s.Beside s' ∧
      (∀ p y, s'.Holds p y ↔ s.Holds p y) ∧ s'.live = s.live ∧ s'.spare = x :: s.spare ∧
      Takes s.st.freeMap s'.st.freeMap [x] := by
  obtain ⟨q, fm, C, hinv⟩ := h.inv
  rcases hinv.mounted.freeMapAllocate with ⟨hfree, hexec⟩ | ⟨x, b', v', hexec, ht, -⟩
  · exact .inl ⟨hfree, hexec⟩
  · obtain ⟨hinv', hkeep⟩ := hinv.freeMapAllocate hexec
    exact .inr ⟨x, ⟨s.st.setFreeMap b', v', s.live, x :: s.spare⟩, hexec,
      h.next ⟨q, fm, C, hinv'⟩ fun y hy0 hy => .inl ⟨hkeep y hy0 hy, rfl⟩, ⟨rfl, ht.length⟩,
      fun _ _ => Iff.rfl, rfl, rfl, ht⟩

/-- There are sectors for a new inode of this length. -/
def RoomFor (b : Bitmap) (length : Int) : Prop :=
  0 ≤ length ∧ bytesToSectors length.toNat ≤ InodeDisk.maxSectors ∧
    sectorCost (bytesToSectors length.toNat) ≤ freeCount b

/-- `inode_create` on a sector taken for it. -/
theorem create (h : Volume s a) (hx : x ∈ s.spare) (length : Int) (hlen : length < 2 ^ 31)
    (isDir : Bool) : ∃ s', s.Beside s' ∧ (∀ p y, s'.Holds p y ↔ s.Holds p y) ∧
      (RoomFor s.st.freeMap length ∧ s.Does (inodeCreate x length isDir) true s' ∧
          Volume s' (Function.update a x (some ⟨.zeros length.toNat, isDir⟩)) ∧ s'.live = x :: s.live ∧
          s'.spare = s.spare.erase x ∧
          freeCount s'.st.freeMap + sectorCost (bytesToSectors length.toNat) = freeCount s.st.freeMap ∨
        ¬ RoomFor s.st.freeMap length ∧ s.Does (inodeCreate x length isDir) false s' ∧ Volume s' a ∧
          s'.live = s.live ∧ s'.spare = s.spare) := by
  obtain ⟨q, fm, C, hinv⟩ := h.inv
  have hm : Mounted s.st s.image q fm
      (⟨x, newInodeDisk 0 isDir⟩ :: (diskOwners s.image C ++ (s.spare.erase x).map
        fun x => ⟨x, newInodeDisk 0 false⟩)) :=
    (hinv.mounted.perm (spare_perm hx _)).shrink (.refl _) (newInodeDisk_sound _)
  obtain ⟨ok, b', v', d, hexec, hc, -⟩ := hm.inodeCreate hlen
  obtain ⟨hinv', hkeep, hnew⟩ := hinv.inodeCreate hx hlen hexec
  have hiff : ok = true ↔ RoomFor s.st.freeMap length := by
    rw [hc.ok_iff, RoomFor, newInodeDisk_fits]
  refine ⟨⟨s.st.setFreeMap b', v', if ok then x :: s.live else s.live,
    if ok then s.spare.erase x else s.spare⟩, ⟨rfl, hc.size⟩, fun _ _ => Iff.rfl, ?_⟩
  cases ok with
  | true =>
    have hroom := hiff.1 rfl
    obtain ⟨hl, hdir, hzero, -⟩ := hnew rfl
    refine .inl ⟨hroom, hexec, h.next ⟨q, fm, _, hinv'⟩ fun y hy0 hy => ?_, rfl, rfl, ?_⟩
    · by_cases hyx : y = x
      · subst hyx
        rw [Function.update_self]
        refine .inr ?_
        rintro _ ⟨⟩
        exact ⟨⟨by rw [hl]; exact (Int.toNat_of_nonneg hroom.1).symm, hzero⟩, hdir⟩
      · rw [Function.update_of_ne hyx]
        exact .inl ⟨hkeep y hy0 hy (.inl hyx), rfl⟩
    · have hleft := hc.left
      rw [if_pos hroom.1, length_newInodeDisk_lacking 0 isDir hroom.2.1] at hleft
      have := hroom.2.2
      simp only [FsState.setFreeMap_freeMap]
      omega
  | false =>
    have hno : ¬ RoomFor s.st.freeMap length := fun hroom => by
      have := hiff.2 hroom
      cases this
    exact .inr ⟨hno, hexec, h.next ⟨q, fm, _, hinv'⟩ fun y hy0 hy =>
      .inl ⟨hkeep y hy0 hy (.inr rfl), rfl⟩, rfl, rfl⟩

/-- `free_map_release` of a sector taken for an inode. -/
theorem release (h : Volume s a) (hx : x ∈ s.spare) :
    ∃ s', s.Does (withFreeMap fun file => freeMapRelease file x 1) () s' ∧ Volume s' a ∧ s.Beside s' ∧
      (∀ p y, s'.Holds p y ↔ s.Holds p y) ∧ s'.live = s.live ∧ s'.spare = s.spare.erase x ∧
      ∀ t, InUse s'.st.freeMap t ↔ InUse s.st.freeMap t ∧ t ≠ x := by
  obtain ⟨q, fm, C, hinv⟩ := h.inv
  obtain ⟨b', v', hexec, hr, -⟩ := (hinv.mounted.perm (spare_perm hx _)).releaseSector
  obtain ⟨hinv', hkeep⟩ := hinv.freeMapRelease hx hexec
  refine ⟨⟨s.st.setFreeMap b', v', s.live, s.spare.erase x⟩, hexec,
    h.next ⟨q, fm, C, hinv'⟩ fun y hy0 hy => .inl ⟨hkeep y hy0 hy, rfl⟩, ⟨rfl, hr.gives.length⟩,
    fun _ _ => Iff.rfl, rfl,
    rfl, fun t => ?_⟩
  rw [show (Session.mk (s.st.setFreeMap b') v' s.live (s.spare.erase x)).st.freeMap = b' from rfl,
    hr.gives.inUse]
  simp

/-- An inode that nobody has open is given up: its sector is as good as taken
for an inode, and its other sectors are lost. -/
theorem discard (h : Volume s a) (hx : x ∈ s.live) (hfree : ∀ p, ¬ s.Holds p x) :
    Volume ⟨s.st, s.image, s.live.erase x, x :: s.spare⟩ a := by
  obtain ⟨q, fm, C, hinv⟩ := h.inv
  have hC : x ∈ C :=
    ((hinv.live x).1 hx).resolve_right fun ⟨p, i, hp, _, hi, _⟩ => hfree p ⟨i, hp, hi⟩
  have hm := hinv.mounted.perm (((List.perm_cons_erase hC).map _).append_right _)
  have hw := hm.world.perm List.perm_middle
  have hsound : (InodeDisk.ofSector (s.image x)).Sound s.image := hw.sound ⟨x, _⟩ List.mem_cons_self
  have honce : x ∉ C.erase x := fun hmem => by
    have hmem : (⟨x, .ofSector (s.image x)⟩ : Owner) ∈ openOwners s.st.openInodes q ++
        ((C.erase x).map (fun x => ⟨x, .ofSector (s.image x)⟩) ++ s.spare.map
          fun x => ⟨x, newInodeDisk 0 false⟩) :=
      List.mem_append_right _ (List.mem_append_left _ (List.mem_map.2 ⟨x, hmem, rfl⟩))
    exact (hw.other_zero hmem (occ_sector s.image _)).2 rfl
  have hle : BlockTree.Le layout (newInodeDisk 0 false).roots
      (InodeDisk.ofSector (s.image x)).roots := by
    rw [newInodeDisk_bare 0 false hsound.direct]
    exact BlockTree.bare_le _
  have hm := (hm.shrink hle (newInodeDisk_sound _)).perm List.perm_middle.symm
  refine h.next ⟨q, fm, C.erase x, hm, hinv.once, hinv.nodup.erase _, fun y => ?_⟩ fun y hy0 hy =>
    .inl ⟨?_, rfl⟩
  · change y ∈ s.live.erase x ↔ _
    rw [hinv.nodup.mem_erase_iff, hinv.live y]
    constructor
    · rintro ⟨hne, hy | hy⟩
      · exact .inl ((List.mem_erase_of_ne hne).2 hy)
      · exact .inr hy
    · rintro (hy | ⟨p, i, hp, hq, rfl, hr⟩)
      · refine ⟨?_, .inl (List.mem_of_mem_erase hy)⟩
        rintro rfl
        exact honce hy
      · refine ⟨?_, .inr ⟨p, i, hp, hq, rfl, hr⟩⟩
        rintro rfl
        exact hfree p ⟨i, hp, rfl⟩
  · have hy : s.Present y := hy.imp_left List.mem_of_mem_erase
    exact .of hy rfl fun _ _ _ _ => rfl

end Volume

end MyShell.Fs

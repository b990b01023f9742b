/-
Runs of inode.c on a formatted device: any sequence of calls that take a
sector for an inode, create, open, write, remove and close inodes, each inode
held by at most one caller at a time, each call with whatever outcome it has.

`Inv` is what every run keeps, and `Inv.step` says besides what a call does to
the inodes it is not about: nothing that can be read. From it follow who owns
which sector (`sectors_owned`), that an inode is a byte array that grows
(Growable.lean), and how many sectors it has (Space.lean).
-/
import MyShell.Fs.Format

namespace MyShell.Fs

open Storage BlockTree

/-- A file system in use: its variables and the contents of its sectors, and
what the callers know, the sectors of the inodes created and not removed, and
those taken for an inode that is not created yet. -/
structure Session where
  st : FsState
  image : Image
  live : List BlockSector
  spare : List BlockSector

namespace Session

/-- The inode on sector `x` is open, under `p`. -/
def Holds (s : Session) (p : Ptr) (x : BlockSector) : Prop :=
  ∃ i, s.st.openInodes.get p = some i ∧ i.sector = x

theorem get_of_not_holds {s : Session} {p : Ptr} (h : ∀ x, ¬ s.Holds p x) :
    s.st.openInodes.get p = none := by
  cases hget : s.st.openInodes.get p with
  | none => rfl
  | some i => exact absurd ⟨i, hget, rfl⟩ (h i.sector)

/-- The inode on sector `x`, as it is in memory or else on the disk. -/
def data (s : Session) (x : BlockSector) : InodeDisk :=
  match s.st.openInodes.cells.find? (fun c => c.2.sector = x) with
  | some c => c.2.data
  | none => .ofSector (s.image x)

/-- The sectors on the way to the data of inode `x`, as far as its length goes:
data, indirect, doubly indirect and second-level sectors. -/
def reached (s : Session) (x : BlockSector) : List BlockSector :=
  visitedF layout s.image (s.data x).roots (bytesToSectors (s.data x).length.toNat)

/-- All sectors that inode `x` has a number for. -/
def sectors (s : Session) (x : BlockSector) : List BlockSector := (s.data x).blocks s.image

/-- The inode on sector `x` exists: it is not removed, or still open. -/
def Present (s : Session) (x : BlockSector) : Prop := x ∈ s.live ∨ ∃ p, s.Holds p x

end Session

/-- The calls, each with its answer. -/
inductive Call where
  | freeMapAllocate (sector : Option BlockSector)
  | inodeCreate (sector : BlockSector) (length : Int) (isDir ok : Bool)
  | freeMapRelease (sector : BlockSector)
  | inodeOpen (sector : BlockSector)
  | inodeWriteAt (sector : BlockSector) (buffer : List UInt8) (ofs : Nat) (written : Int)
  | inodeRemove (sector : BlockSector)
  | inodeClose (sector : BlockSector)

/-- The call neither creates nor writes inode `y`. -/
def Call.Spares (y : BlockSector) : Call → Prop
  | .inodeCreate x _ _ ok => ¬ (x = y ∧ ok = true)
  | .inodeWriteAt x _ _ _ => x ≠ y
  | _ => True

/-- One call. An inode is created on a sector taken for it, and opened where
nobody holds it; an inode is written, removed and closed by its holder. -/
inductive Step (s : Session) : Call → Session → Prop
  | freeMapAllocate {r st v}
      (h : (withFreeMap fun file => Fs.freeMapAllocate file 1).exec s.st s.image = some (r, st, v)) :
      Step s (.freeMapAllocate r) ⟨st, v, s.live, r.toList ++ s.spare⟩
  | inodeCreate {x length isDir ok st v} (hx : x ∈ s.spare) (hlen : length < 2 ^ 31)
      (h : (Fs.inodeCreate x length isDir).exec s.st s.image = some (ok, st, v)) :
      Step s (.inodeCreate x length isDir ok)
        ⟨st, v, if ok then x :: s.live else s.live, if ok then s.spare.erase x else s.spare⟩
  | freeMapRelease {x st v} (hx : x ∈ s.spare)
      (h : (withFreeMap fun file => Fs.freeMapRelease file x 1).exec s.st s.image = some ((), st, v)) :
      Step s (.freeMapRelease x) ⟨st, v, s.live, s.spare.erase x⟩
  | inodeOpen {x p st v} (hx : x ∈ s.live) (hfree : ∀ p, ¬ s.Holds p x)
      (h : (Fs.inodeOpen x).exec s.st s.image = some (p, st, v)) :
      Step s (.inodeOpen x) ⟨st, v, s.live, s.spare⟩
  | inodeWriteAt {p x buffer ofs n st v} (hp : s.Holds p x) (hx : x ≠ freeMapSector)
      (hend : ofs + buffer.length < 2 ^ 31)
      (h : (Fs.inodeWriteAt p buffer (ofs : Nat)).exec s.st s.image = some (n, st, v)) :
      Step s (.inodeWriteAt x buffer ofs n) ⟨st, v, s.live, s.spare⟩
  | inodeRemove {p x st v} (hp : s.Holds p x) (hx : x ≠ freeMapSector)
      (h : (Fs.inodeRemove p).exec s.st s.image = some ((), st, v)) :
      Step s (.inodeRemove x) ⟨st, v, s.live.erase x, s.spare⟩
  | inodeClose {p x st v} (hp : s.Holds p x) (hx : x ≠ freeMapSector)
      (h : (Fs.inodeClose (some p)).exec s.st s.image = some ((), st, v)) :
      Step s (.inodeClose x) ⟨st, v, s.live, s.spare⟩

/-- The calls `cs`, from `filesys_init` with `format` on, lead to the state. -/
inductive Run : List Call → Session → Prop
  | format {n : BlockSector} {v₀ st v}
      (h : (filesysInit n.toNat true).exec initialState v₀ = some (true, st, v)) :
      Run [] ⟨st, v, [rootDirSector], []⟩
  | step {cs s call s'} (hr : Run cs s) (h : Step s call s') : Run (cs ++ [call]) s'

/-! ## The invariant -/

/-- What runs keep: the file system is mounted with the inodes in memory, the
live inodes `C` that are closed, and the spare sectors. -/
structure Session.Inv (s : Session) (q : Ptr) (fm : InodeDisk) (C : List BlockSector) : Prop where
  mounted : Mounted s.st s.image q fm
    (diskOwners s.image C ++ s.spare.map fun x => ⟨x, newInodeDisk 0 false⟩)
  once : ∀ p i, s.st.openInodes.get p = some i → i.openCnt = 1
  nodup : s.live.Nodup
  live : ∀ x, x ∈ s.live ↔ x ∈ C ∨ ∃ p i, s.st.openInodes.get p = some i ∧ p ≠ q ∧
    i.sector = x ∧ i.removed = false

/-- Nothing that can be read of inode `y` changes. Its copy on the disk, which
counts once it is closed, may have fewer sectors. -/
structure Session.Keeps (s s' : Session) (y : BlockSector) : Prop where
  present : s.Present y
  length : (s'.data y).length = (s.data y).length
  isDir : (s'.data y).isDir = (s.data y).isDir
  content : ∀ pos : Nat, (s'.data y).content s'.image pos = (s.data y).content s.image pos ∨
    (s.data y).length ≤ pos ∧ (s'.data y).content s'.image pos = 0
  sectors : (s'.sectors y).length ≤ (s.sectors y).length

namespace Session

variable {s s' : Session} {q p : Ptr} {fm : InodeDisk} {C : List BlockSector} {x y : BlockSector}
  {i : Inode}

theorem data_closed (h : ∀ p, ¬ s.Holds p y) : s.data y = .ofSector (s.image y) := by
  have hnone : s.st.openInodes.cells.find? (fun c => c.2.sector = y) = none := by
    refine List.find?_eq_none.2 fun c hc hs => h c.1 ⟨c.2, Heap.get_of_mem hc, ?_⟩
    simpa using hs
  rw [data, hnone]

namespace Inv

variable (h : s.Inv q fm C)
include h

theorem data_open (hp : s.st.openInodes.get p = some i) : s.data i.sector = i.data := by
  rw [data, h.mounted.find_open hp]

theorem holds_ne (hp : s.st.openInodes.get p = some i) (hx : i.sector ≠ freeMapSector) : p ≠ q := by
  rintro rfl
  obtain ⟨j, hj, -, hj0⟩ := h.mounted.map.inode
  rw [hj] at hp
  cases hp
  exact hx hj0

/-- An inode is in memory or on the disk only. -/
theorem cases_present (hy : s.Present y) (hy0 : y ≠ freeMapSector) :
    (∃ p i, s.st.openInodes.get p = some i ∧ p ≠ q ∧ i.sector = y) ∨ (∀ p, ¬ s.Holds p y) ∧
    y ∈ C := by
  by_cases hopen : ∃ p, s.Holds p y
  · obtain ⟨p, i, hp, rfl⟩ := hopen
    exact .inl ⟨p, i, hp, h.holds_ne hp hy0, rfl⟩
  · simp only [not_exists] at hopen
    refine .inr ⟨hopen, ?_⟩
    rcases hy with hy | ⟨p, hp⟩
    · rcases (h.live y).1 hy with hC | ⟨p, i, hp, -, hi, -⟩
      · exact hC
      · exact absurd ⟨i, hp, hi⟩ (hopen p)
    · exact absurd hp (hopen p)

theorem owner_mem (hy : s.Present y) (hy0 : y ≠ freeMapSector) :
    (⟨y, s.data y⟩ : Owner) ∈ openOwners s.st.openInodes q ++ diskOwners s.image C := by
  rcases h.cases_present hy hy0 with ⟨p, i, hp, hq, rfl⟩ | ⟨hopen, hC⟩
  · rw [h.data_open hp]
    exact List.mem_append_left _ (mem_openOwners.2 ⟨p, i, hp, hq, rfl⟩)
  · rw [data_closed hopen]
    exact List.mem_append_right _ (List.mem_map.2 ⟨y, hC, rfl⟩)

theorem sound (hy : s.Present y) (hy0 : y ≠ freeMapSector) : (s.data y).Sound s.image := by
  have hmem := List.mem_append_left (s.spare.map fun x => (⟨x, newInodeDisk 0 false⟩ : Owner))
    (h.owner_mem hy hy0)
  rw [List.append_assoc] at hmem
  exact h.mounted.world.sound _ hmem

theorem owner_mem_free (hp : s.st.openInodes.get p = some i) (hq : p ≠ q) (hy : s.Present y)
    (hy0 : y ≠ freeMapSector) (hne : y ≠ i.sector) :
    (⟨y, s.data y⟩ : Owner) ∈ openOwners (s.st.openInodes.free p) q ++
      (diskOwners s.image C ++ s.spare.map fun x => ⟨x, newInodeDisk 0 false⟩) := by
  rcases List.mem_append.1 (h.owner_mem hy hy0) with ho | ho
  · refine List.mem_append_left _ ?_
    rcases List.mem_cons.1 ((openOwners_perm hp hq).mem_iff.1 ho) with he | ho
    · exact absurd (congrArg Owner.sector he) hne
    · exact ho
  · exact List.mem_append_right _ (List.mem_append_left _ ho)

end Inv

theorem Keeps.of (hy : s.Present y) (hd : s'.data y = s.data y)
    (hu : Untouched s.image s'.image [⟨y, s.data y⟩]) : s.Keeps s' y where
  present := hy
  length := by rw [hd]
  isDir := by rw [hd]
  content pos := by
    rw [hd]
    exact .inl (hu.content (x := ⟨y, s.data y⟩) (by simp) pos)
  sectors := by
    rw [Session.sectors, Session.sectors, hd,
      InodeDisk.blocks_congr fun t ht => hu.index (x := ⟨y, s.data y⟩) (by simp) t ht]

/-- A call that does not change the inodes in memory. -/
theorem Inv.still (h : s.Inv q fm C) {st : FsState} {v : Image} {live spare : List BlockSector}
    (hst : st.openInodes = s.st.openInodes)
    (hu : Untouched s.image v (openOwners s.st.openInodes q ++ diskOwners s.image C))
    (hy : s.Present y) (hy0 : y ≠ freeMapSector) : s.Keeps ⟨st, v, live, spare⟩ y := by
  have hu₁ : Untouched s.image v [⟨y, s.data y⟩] := hu.mono fun o ho => by
    rw [List.mem_singleton.1 ho]
    exact h.owner_mem hy hy0
  refine .of hy ?_ hu₁
  rcases h.cases_present hy hy0 with ⟨p, i, hp, hq, rfl⟩ | ⟨hopen, hC⟩
  · rw [h.data_open hp, data, hst, h.mounted.find_open hp]
  · have hclosed : ∀ p, ¬ (⟨st, v, live, spare⟩ : Session).Holds p y := by
      intro p ⟨i, hp, hi⟩
      rw [hst] at hp
      exact hopen p ⟨i, hp, hi⟩
    rw [data_closed hopen, data_closed hclosed]
    exact congrArg _ (hu₁.inode (x := ⟨y, s.data y⟩) (by simp))

/-! ## One call -/

theorem get_modify_other {m : Heap Inode} {p' : Ptr} {f : Inode → Inode} {j : Inode}
    (hp : m.get p = some i) (hf : (f i).sector = i.sector) (hj : j.sector ≠ i.sector) :
    (m.modify p f).get p' = some j ↔ m.get p' = some j := by
  rw [Heap.get_modify_iff hp]
  split
  · rename_i hp'
    subst hp'
    rw [hp]
    refine ⟨fun he => absurd ?_ hj, fun he => absurd ?_ hj⟩
    · rw [he, hf]
    · rw [Option.some.inj he]
  · rfl

/-- The spare sectors, as inodes without sectors of their own. -/
theorem spare_perm {l : List BlockSector} (hx : x ∈ l) (A : List Owner) :
    (A ++ l.map fun x => (⟨x, newInodeDisk 0 false⟩ : Owner)).Perm
      (⟨x, newInodeDisk 0 false⟩ :: (A ++ (l.erase x).map fun x => ⟨x, newInodeDisk 0 false⟩)) := by
  have hp := (List.perm_cons_erase hx).map fun x => (⟨x, newInodeDisk 0 false⟩ : Owner)
  exact (hp.append_left A).trans List.perm_middle

namespace Inv

theorem freeMapAllocate (h : s.Inv q fm C) {r : Option BlockSector} {st : FsState} {v : Image}
    (hrun : (withFreeMap fun file => Fs.freeMapAllocate file 1).exec s.st s.image = some (r, st, v)) :
    Session.Inv ⟨st, v, s.live, r.toList ++ s.spare⟩ q fm C ∧
      ∀ y, y ≠ freeMapSector → Session.Present ⟨st, v, s.live, r.toList ++ s.spare⟩ y →
        s.Keeps ⟨st, v, s.live, r.toList ++ s.spare⟩ y := by
  rcases h.mounted.freeMapAllocate with ⟨-, hfail⟩ | ⟨x, b', v', hok, ht, -, hu, hm⟩
  · rw [hrun] at hfail
    obtain ⟨rfl, rfl, hv⟩ : r = none ∧ st = s.st ∧ v = s.image := by simpa using hfail
    refine ⟨⟨?_, h.once, h.nodup, h.live⟩, fun y hy0 hy => h.still rfl
      (fun _ _ _ _ => by rw [hv]) hy hy0⟩
    have hm := h.mounted
    rw [← hv] at hm
    exact hm
  · rw [hrun] at hok
    obtain ⟨rfl, rfl, rfl⟩ : r = some x ∧ st = s.st.setFreeMap b' ∧ v = v' := by simpa using hok
    rw [← List.append_assoc] at hu
    have hu₁ := hu.mono (List.subset_append_left _ _)
    have hdisk := (hu₁.mono (List.subset_append_right _ _)).diskOwners
    refine ⟨⟨?_, h.once, h.nodup, h.live⟩, fun y hy0 hy => h.still rfl hu₁ hy hy0⟩
    have hm := (hm false).perm List.perm_middle.symm
    rw [← hdisk] at hm
    exact hm

theorem inodeCreate (h : s.Inv q fm C) {length : Int} {isDir ok : Bool} {st : FsState} {v : Image}
    (hx : x ∈ s.spare) (hlen : length < 2 ^ 31)
    (hrun : (Fs.inodeCreate x length isDir).exec s.st s.image = some (ok, st, v)) :
    let s' : Session :=
  ⟨st, v, if ok then x :: s.live else s.live, if ok then s.spare.erase x else s.spare⟩
    s'.Inv q fm (if ok then x :: C else C) ∧
      (∀ y, y ≠ freeMapSector → s'.Present y → y ≠ x ∨ ok = false → s.Keeps s' y) ∧
      (ok = true → (s'.data x).length = length ∧ (s'.data x).isDir = isDir ∧
        (∀ pos, (s'.data x).content s'.image pos = 0) ∧
        (s'.sectors x).length ≤ sectorCost (bytesToSectors length.toNat)) := by
  intro s'
  have hm₀ := h.mounted.perm (spare_perm hx _)
  have hm₁ : Mounted s.st s.image q fm
      (⟨x, newInodeDisk 0 isDir⟩ :: (diskOwners s.image C ++ (s.spare.erase x).map
        fun x => ⟨x, newInodeDisk 0 false⟩)) :=
    hm₀.shrink (.refl _) (newInodeDisk_sound _)
  obtain ⟨ok', b', v', d, hok, hc, hm, hgrown, hd⟩ := hm₁.inodeCreate hlen
  rw [hrun] at hok
  obtain ⟨rfl, rfl, rfl⟩ : ok = ok' ∧ st = s.st.setFreeMap b' ∧ v = v' := by simpa using hok
  have hu := hc.untouched
  rw [← List.append_assoc] at hu
  have hu₁ := hu.mono (List.subset_append_left _ _)
  have hdisk := (hu₁.mono (List.subset_append_right _ _)).diskOwners
  have hclosed : ∀ p, ¬ s'.Holds p x := by
    intro p ⟨i, hp, hi⟩
    exact hm₁.not_open (s := x) (d := newInodeDisk 0 isDir) (by simp) p i hp hi
  refine ⟨?inv, fun y hy0 hy hne => h.still rfl hu₁ ?old hy0, ?new⟩
  case old =>
    refine hy.imp_left fun hy => ?_
    cases ok with
    | true => exact (List.mem_cons.1 hy).resolve_left (hne.resolve_right (by simp))
    | false => exact hy
  case new =>
    rintro rfl
    obtain ⟨hv, hdlen, hdir, -, hzero⟩ := hd rfl
    have hdata : s'.data x = d := by
      rw [data_closed hclosed, show s'.image x = d.toSector from hv]
      exact InodeDisk.ofSector_toSector (hm.world.sound ⟨x, d⟩ (by simp)).storable
    rw [sectors, hdata]
    refine ⟨hdlen, hdir, hzero, ?_⟩
    obtain ⟨hpos, hfits⟩ := hc.ok_iff.1 rfl
    have hleft := hc.left
    rw [if_pos hpos, length_newInodeDisk_lacking 0 isDir hfits.2] at hleft
    have hcost := (newInodeDisk_fits.1 hfits).2
    change (d.blocks v).length ≤ _
    omega
  case inv =>
    cases ok with
    | true =>
      obtain ⟨hv, -⟩ := hd rfl
      have hsound := hm.world.sound ⟨x, d⟩ (by simp)
      have hx' : x ∉ s.live := by
        intro hlive
        rcases (h.live x).1 hlive with hC | ⟨p, i, hp, -, hi, -⟩
        · have hmem : (⟨x, .ofSector (s.image x)⟩ : Owner) ∈ openOwners s.st.openInodes q ++
            (diskOwners s.image C ++ (s.spare.erase x).map fun x => ⟨x, newInodeDisk 0 false⟩) :=
            List.mem_append_right _ (List.mem_append_left _ (List.mem_map.2 ⟨x, hC, rfl⟩))
          have hw := hm₁.world.perm List.perm_middle
          exact (hw.other_zero hmem (occ_sector s.image _)).2 rfl
        · exact hclosed p ⟨i, hp, hi⟩
      refine ⟨?_, h.once, List.nodup_cons.2 ⟨hx', h.nodup⟩, fun y => ?_⟩
      · have hkeep : InodeDisk.ofSector (v x) = d := by
          rw [hv]
          exact InodeDisk.ofSector_toSector hsound.storable
        have hcons : diskOwners v (x :: C) =
            ⟨x, d⟩ :: diskOwners v C := by
          rw [diskOwners, List.map_cons, hkeep, diskOwners]
        rw [← hdisk, ← List.cons_append, ← hcons] at hm
        exact hm
      · change y ∈ x :: s.live ↔ y ∈ x :: C ∨ _
        rw [List.mem_cons, List.mem_cons, h.live y, or_assoc]
        rfl
    | false =>
      refine ⟨?_, h.once, h.nodup, h.live⟩
      have hsound := hm.world.sound ⟨x, d⟩ (by simp)
      have hle : Le layout (newInodeDisk 0 false).roots d.roots := by
        rw [newInodeDisk_bare 0 false hsound.direct]
        exact bare_le _
      have hm := hm.shrink hle (newInodeDisk_sound _)
      rw [← hdisk] at hm
      exact hm.perm (spare_perm hx _).symm

theorem freeMapRelease (h : s.Inv q fm C) {st : FsState} {v : Image} (hx : x ∈ s.spare)
    (hrun : (withFreeMap fun file => Fs.freeMapRelease file x 1).exec s.st s.image = some ((), st, v)) :
    Session.Inv ⟨st, v, s.live, s.spare.erase x⟩ q fm C ∧
      ∀ y, y ≠ freeMapSector → Session.Present ⟨st, v, s.live, s.spare.erase x⟩ y →
        s.Keeps ⟨st, v, s.live, s.spare.erase x⟩ y := by
  obtain ⟨b', v', hok, -, hu, hm⟩ := (h.mounted.perm (spare_perm hx _)).releaseSector
  rw [hrun] at hok
  obtain ⟨rfl, rfl⟩ : st = s.st.setFreeMap b' ∧ v = v' := by simpa using hok
  rw [← List.append_assoc] at hu
  have hu₁ := hu.mono (List.subset_append_left _ _)
  have hdisk := (hu₁.mono (List.subset_append_right _ _)).diskOwners
  refine ⟨⟨?_, h.once, h.nodup, h.live⟩, fun y hy0 hy => h.still rfl hu₁ hy hy0⟩
  rw [← hdisk] at hm
  exact hm

/-- A call that changes in memory only the inode on sector `x`. -/
theorem other (h : s.Inv q fm C) {C' : List BlockSector} (h' : s'.Inv q fm C')
    (hget : ∀ p i, i.sector ≠ x → (s'.st.openInodes.get p = some i ↔
      s.st.openInodes.get p = some i))
    (hu : Untouched s.image s'.image [⟨y, s.data y⟩]) (hy : s.Present y) (hy0 : y ≠ freeMapSector)
    (hne : y ≠ x) : s.Keeps s' y := by
  refine .of hy ?_ hu
  rcases h.cases_present hy hy0 with ⟨p, i, hp, -, rfl⟩ | ⟨hopen, -⟩
  · rw [h.data_open hp, h'.data_open ((hget p i hne).2 hp)]
  · have hclosed : ∀ p, ¬ s'.Holds p y := by
      intro p ⟨i, hp, hi⟩
      exact hopen p ⟨i, (hget p i (by rw [hi]; exact hne)).1 hp, hi⟩
    rw [data_closed hopen, data_closed hclosed]
    exact congrArg _ (hu.inode (x := ⟨y, s.data y⟩) (by simp))

theorem inodeOpen (h : s.Inv q fm C) {st : FsState} {v : Image} (hx : x ∈ s.live)
    (hfree : ∀ p, ¬ s.Holds p x) (hrun : (Fs.inodeOpen x).exec s.st s.image = some (p, st, v)) :
    Session.Inv ⟨st, v, s.live, s.spare⟩ q fm (C.erase x) ∧
      ∀ y, y ≠ freeMapSector → Session.Present ⟨st, v, s.live, s.spare⟩ y →
        s.Keeps ⟨st, v, s.live, s.spare⟩ y := by
  have hC : x ∈ C := by
    rcases (h.live x).1 hx with hC | ⟨p, i, hp, -, hi, -⟩
    · exact hC
    · exact absurd ⟨i, hp, hi⟩ (hfree p)
  have hperm := List.perm_cons_erase hC
  obtain ⟨st', hst', hok, hm⟩ := h.mounted.inodeOpen ((hperm.map _).append_right _)
  rw [hrun] at hok
  obtain ⟨rfl, rfl, hv⟩ : p = s.st.openInodes.next ∧ st = st' ∧ v = s.image := by simpa using hok
  have hget : ∀ p i, st.openInodes.get p = some i ↔
      s.st.openInodes.get p = some i ∨ p = s.st.openInodes.next ∧
      i = ⟨x, 1, false, 0, .ofSector (s.image x)⟩ := by
    intro p i
    rw [hst', FsState.setInodes_openInodes, Heap.get_alloc]
    split
    · rename_i hp
      subst hp
      rw [Heap.get_next]
      simp [eq_comm]
    · simp [*]
  have hinv : Session.Inv ⟨st, v, s.live, s.spare⟩ q fm (C.erase x) := by
    refine ⟨?mounted, ?once, h.nodup, fun y => ?live⟩
    case mounted =>
      rw [← hv] at hm
      exact hm
    case once =>
      intro p i hp
      rcases (hget p i).1 hp with hp | ⟨-, rfl⟩
      · exact h.once p i hp
      · rfl
    case live =>
      rw [h.live y, hperm.mem_iff, List.mem_cons]
      constructor
      · intro hy
        rcases hy with (rfl | hy) | ⟨p, i, hp, hi⟩
        · have hq : s.st.openInodes.next ≠ q := by
            intro hq
            obtain ⟨j, hj, -⟩ := h.mounted.map.inode
            rw [← hq, Heap.get_next] at hj
            cases hj
          exact .inr ⟨_, _, (hget _ _).2 (.inr ⟨rfl, rfl⟩), hq, rfl, rfl⟩
        · exact .inl hy
        · exact .inr ⟨p, i, (hget p i).2 (.inl hp), hi⟩
      · intro hy
        rcases hy with hy | ⟨p, i, hp, hi⟩
        · exact .inl (.inr hy)
        · rcases (hget p i).1 hp with hp | ⟨-, rfl⟩
          · exact .inr ⟨p, i, hp, hi⟩
          · exact .inl (.inl hi.2.1.symm)
  refine ⟨hinv, fun y hy0 hy => ?_⟩
  have hy : s.Present y := by
    rcases hy with hy | ⟨p, i, hp, hi⟩
    · exact .inl hy
    · rcases (hget p i).1 hp with hp | ⟨-, rfl⟩
      · exact .inr ⟨p, i, hp, hi⟩
      · exact .inl (by rw [← hi]; exact hx)
  have hu : Untouched s.image v [⟨y, s.data y⟩] := fun _ _ _ _ => by rw [hv]
  by_cases hyx : y = x
  · subst hyx
    refine .of hy ?_ hu
    rw [data_closed hfree]
    exact hinv.data_open (i := ⟨y, 1, false, 0, .ofSector (s.image y)⟩) ((hget _ _).2 (.inr ⟨rfl, rfl⟩))
  · refine h.other hinv (fun p i hi => ?_) hu hy hy0 hyx
    rw [hget p i]
    refine ⟨fun hp => hp.resolve_right fun hn => hi ?_, .inl⟩
    rw [hn.2]

theorem inodeWriteAt (h : s.Inv q fm C) {buffer : List UInt8} {ofs : Nat} {n : Int} {st : FsState}
    {v : Image} (hp : s.st.openInodes.get p = some i) (hx : i.sector ≠ freeMapSector)
    (hrun : (Fs.inodeWriteAt p buffer (ofs : Nat)).exec s.st s.image = some (n, st, v)) :
    let s' : Session := ⟨st, v, s.live, s.spare⟩
    s'.Inv q fm C ∧ (∀ y, y ≠ freeMapSector → s'.Present y → y ≠ i.sector → s.Keeps s' y) ∧
      ∃ L i', Written fm s.image s.st.freeMap L i buffer ofs n i' s'.image st.freeMap ∧
        s'.data i.sector = i'.data := by
  intro s'
  have hq := h.holds_ne hp hx
  obtain ⟨n', i', b', v', hok, hw, hm⟩ := h.mounted.inodeWriteAt hp hq buffer ofs
  rw [hrun] at hok
  obtain ⟨rfl, rfl, rfl⟩ : n = n' ∧
      st = (s.st.setFreeMap b').setInodes (s.st.openInodes.modify p fun _ => i') ∧ v = v' := by
    simpa using hok
  have hi' := hw.inode
  have hsec : i'.sector = i.sector := by rw [hi']
  have hu := hw.untouched
  have hdisk : diskOwners v C = diskOwners s.image C :=
    Untouched.diskOwners (hu.mono fun o ho => List.mem_append_right _ (List.mem_append_left _ ho))
  have hget : ∀ p' j, s'.st.openInodes.get p' = some j ↔
      if p' = p then j = i' else s.st.openInodes.get p' = some j := by
    intro p' j
    change (s.st.openInodes.modify p fun _ => i').get p' = some j ↔ _
    exact Heap.get_modify_iff hp
  have hinv : s'.Inv q fm C := by
    refine ⟨?mounted, ?once, h.nodup, fun y => ?live⟩
    case mounted =>
      rw [← hdisk] at hm
      exact hm
    case once =>
      intro p' j hj
      have hj := (hget p' j).1 hj
      split at hj
      · rw [hj, hi']
        exact h.once p i hp
      · exact h.once p' j hj
    case live =>
      rw [h.live y]
      refine or_congr_right ⟨fun ⟨p', j, hj, hq', hjs, hjr⟩ => ?_,
        fun ⟨p', j, hj, hq', hjs, hjr⟩ => ?_⟩
      · by_cases hp' : p' = p
        · rw [hp', hp] at hj
          cases hj
          exact ⟨p, i', (hget p i').2 (by rw [if_pos rfl]), hq, hsec.trans hjs, by rw [hi']; exact hjr⟩
        · exact ⟨p', j, (hget p' j).2 (by rw [if_neg hp']; exact hj), hq', hjs, hjr⟩
      · have hj := (hget p' j).1 hj
        split at hj
        · subst hj
          exact ⟨p, i, hp, hq, hsec.symm.trans hjs, by rw [hi'] at hjr; exact hjr⟩
        · exact ⟨p', j, hj, hq', hjs, hjr⟩
  refine ⟨hinv, fun y hy0 hy hne => ?_, _, i', hw, ?_⟩
  · have hy : s.Present y := by
      refine hy.imp_right fun ⟨p', j, hj, hjs⟩ => ⟨p', j, ?_, hjs⟩
      exact (get_modify_other hp hsec (by rw [hjs]; exact hne)).1 hj
    have hmem := h.owner_mem_free hp hq hy hy0 hne
    exact h.other hinv (fun p' j hj => get_modify_other hp hsec hj)
      (hu.mono fun o ho => by rw [List.mem_singleton.1 ho]; exact hmem) hy hy0 hne
  · have := hinv.data_open ((hget p i').2 (by rw [if_pos rfl]))
    rwa [hsec] at this

theorem inodeRemove (h : s.Inv q fm C) {st : FsState} {v : Image} (hp : s.st.openInodes.get p = some i)
    (hx : i.sector ≠ freeMapSector) (hrun : (Fs.inodeRemove p).exec s.st s.image = some ((), st, v)) :
    let s' : Session := ⟨st, v, s.live.erase i.sector, s.spare⟩
    s'.Inv q fm C ∧ ∀ y, y ≠ freeMapSector → s'.Present y → s.Keeps s' y := by
  intro s'
  have hq := h.holds_ne hp hx
  obtain ⟨st', hst', hok, hm⟩ := h.mounted.inodeRemove hp hq
  rw [hrun] at hok
  obtain ⟨rfl, hv⟩ : st = st' ∧ v = s.image := by simpa using hok
  have hget : ∀ p' j, st.openInodes.get p' = some j ↔
      if p' = p then j = { i with removed := true } else s.st.openInodes.get p' = some j := by
    intro p' j
    rw [hst', FsState.setInodes_openInodes]
    exact Heap.get_modify_iff hp
  have hinv : s'.Inv q fm C := by
    refine ⟨?mounted, ?once, h.nodup.erase _, fun y => ?live⟩
    case mounted =>
      rw [← hv] at hm
      exact hm
    case once =>
      intro p' j hj
      have hj := (hget p' j).1 hj
      split at hj
      · rw [hj]
        exact h.once p i hp
      · exact h.once p' j hj
    case live =>
      change y ∈ s.live.erase i.sector ↔ _
      rw [h.nodup.mem_erase_iff, h.live y]
      constructor
      · rintro ⟨hne, hC | ⟨p', j, hj, hq', hjs, hjr⟩⟩
        · exact .inl hC
        · refine .inr ⟨p', j, (hget p' j).2 ?_, hq', hjs, hjr⟩
          rw [if_neg]
          · exact hj
          · rintro rfl
            rw [hp] at hj
            cases hj
            exact hne hjs.symm
      · rintro (hC | ⟨p', j, hj, hq', hjs, hjr⟩)
        · refine ⟨?_, .inl hC⟩
          rintro rfl
          exact h.mounted.not_open (s := i.sector) (d := .ofSector (s.image i.sector))
            (List.mem_append_left _ (List.mem_map.2 ⟨_, hC, rfl⟩)) p i hp rfl
        · have hj := (hget p' j).1 hj
          split at hj
          · rw [hj] at hjr
            cases hjr
          · rename_i hp'
            refine ⟨fun he => hp' (h.mounted.sector_inj hj hp (hjs.trans he)),
              .inr ⟨p', j, hj, hq', hjs, hjr⟩⟩
  refine ⟨hinv, fun y hy0 hy => ?_⟩
  have hy : s.Present y := by
    refine hy.imp List.mem_of_mem_erase fun ⟨p', j, hj, hjs⟩ => ?_
    have hj := (hget p' j).1 hj
    split at hj
    · exact ⟨p, i, hp, by rw [hj] at hjs; exact hjs⟩
    · exact ⟨p', j, hj, hjs⟩
  have hu : Untouched s.image v [⟨y, s.data y⟩] := fun _ _ _ _ => by rw [hv]
  by_cases hyx : y = i.sector
  · subst hyx
    refine .of hy ?_ hu
    rw [h.data_open hp]
    exact hinv.data_open (i := { i with removed := true }) ((hget p _).2 (by rw [if_pos rfl]))
  · refine h.other hinv (fun p' j hj => ?_) hu hy hy0 hyx
    change st.openInodes.get p' = some j ↔ _
    rw [hst']
    exact get_modify_other hp rfl hj

theorem inodeClose (h : s.Inv q fm C) {st : FsState} {v : Image}
    (hp : s.st.openInodes.get p = some i) (hx : i.sector ≠ freeMapSector)
    (hrun : (Fs.inodeClose (some p)).exec s.st s.image = some ((), st, v)) :
    let s' : Session := ⟨st, v, s.live, s.spare⟩
    s'.Inv q fm (if i.removed then C else i.sector :: C) ∧
      (∀ y, y ≠ freeMapSector → s'.Present y → s.Keeps s' y) ∧
      (i.removed = true → Released (some fm) (mapData fm s.image) s.image s.st.freeMap s'.image
        st.freeMap (i.sector :: s.reached i.sector)) := by
  intro s'
  have hq := h.holds_ne hp hx
  have hget : ∀ m : Heap Inode, m = s.st.openInodes.free p → ∀ p' j, m.get p' = some j ↔
      p' ≠ p ∧ s.st.openInodes.get p' = some j := by
    rintro m rfl p' j
    rw [Heap.get_free]
    split <;> simp [*]
  have hother : ∀ p' j, s.st.openInodes.get p' = some j → j.sector ≠ i.sector → p' ≠ p := by
    rintro p' j hj hne rfl
    rw [hp] at hj
    cases hj
    exact hne rfl
  cases hrem : i.removed with
  | false =>
    obtain ⟨st', hst', hok, hm⟩ := h.mounted.inodeClose_last hp hq (h.once p i hp) hrem
    rw [hrun] at hok
    obtain ⟨rfl, hv⟩ : st = st' ∧ v = s.image := by simpa using hok
    have hget := hget st.openInodes (by rw [hst', FsState.setInodes_openInodes])
    have hinv : s'.Inv q fm (i.sector :: C) := by
      refine ⟨?mounted, ?once, h.nodup, fun y => ?live⟩
      case mounted =>
        rw [← hv] at hm
        exact hm
      case once => exact fun p' j hj => h.once p' j ((hget p' j).1 hj).2
      case live =>
        rw [h.live y, List.mem_cons]
        constructor
        · rintro (hC | ⟨p', j, hj, hq', hjs, hjr⟩)
          · exact .inl (.inr hC)
          · by_cases hp' : p' = p
            · rw [hp', hp] at hj
              cases hj
              exact .inl (.inl hjs.symm)
            · exact .inr ⟨p', j, (hget p' j).2 ⟨hp', hj⟩, hq', hjs, hjr⟩
        · rintro ((rfl | hC) | ⟨p', j, hj, hq', hjs, hjr⟩)
          · exact .inr ⟨p, i, hp, hq, rfl, hrem⟩
          · exact .inl hC
          · exact .inr ⟨p', j, ((hget p' j).1 hj).2, hq', hjs, hjr⟩
    refine ⟨hinv, fun y hy0 hy => ?_, by simp⟩
    have hy : s.Present y := hy.imp_right fun ⟨p', j, hj, hjs⟩ => ⟨p', j, ((hget p' j).1 hj).2, hjs⟩
    by_cases hyx : y = i.sector
    · subst hyx
      -- the copy on the disk counts now
      have hshadow := h.mounted.shadow p i hp hq
      have hclosed : ∀ p', ¬ s'.Holds p' i.sector := by
        intro p' ⟨j, hj, hjs⟩
        have hj := (hget p' j).1 hj
        exact hj.1 (h.mounted.sector_inj hj.2 hp hjs)
      have himage : s'.image = s.image := hv
      rw [← himage] at hshadow
      have hdata := data_closed hclosed
      constructor
      case present => exact hy
      case length => rw [hdata, h.data_open hp, hshadow.length]
      case isDir => rw [hdata, h.data_open hp, hshadow.isDir]
      case content =>
        intro pos
        rw [hdata, h.data_open hp, ← himage]
        by_cases hpos : (pos : Int) < i.data.length
        · exact .inl (hshadow.content_eq hpos)
        · rcases hshadow.content pos with hc | hc
          · exact .inl hc
          · exact .inr ⟨by omega, hc⟩
      case sectors =>
        rw [Session.sectors, Session.sectors, hdata, h.data_open hp, ← himage]
        exact (hshadow.roots.blocksF).length_le
    · refine h.other hinv (fun p' j hj => ?_)
        (fun _ _ _ _ => by rw [show s'.image = s.image from hv]) hy hy0 hyx
      rw [hget]
      exact ⟨And.right, fun hj' => ⟨hother p' j hj' hj, hj'⟩⟩
  | true =>
    obtain ⟨b', v', hok, hr, hu, hm⟩ := h.mounted.inodeClose_removed hp hq (h.once p i hp) hrem
    rw [hrun] at hok
    obtain ⟨rfl, rfl⟩ : st = (s.st.setFreeMap b').setInodes (s.st.openInodes.free p) ∧
      v = v' := by simpa using hok
    have hget := hget s'.st.openInodes rfl
    have hdisk : diskOwners v C = diskOwners s.image C :=
      Untouched.diskOwners (hu.mono fun o ho => List.mem_append_right _ (List.mem_append_left _ ho))
    have hinv : s'.Inv q fm C := by
      refine ⟨?mounted, ?once, h.nodup, fun y => ?live⟩
      case mounted =>
        rw [← hdisk] at hm
        exact hm
      case once => exact fun p' j hj => h.once p' j ((hget p' j).1 hj).2
      case live =>
        rw [h.live y]
        refine or_congr_right ⟨fun ⟨p', j, hj, hq', hjs, hjr⟩ => ?_,
          fun ⟨p', j, hj, hq', hjs, hjr⟩ => ?_⟩
        · refine ⟨p', j, (hget p' j).2 ⟨?_, hj⟩, hq', hjs, hjr⟩
          rintro rfl
          rw [hp] at hj
          cases hj
          rw [hrem] at hjr
          cases hjr
        · exact ⟨p', j, ((hget p' j).1 hj).2, hq', hjs, hjr⟩
    refine ⟨hinv, fun y hy0 hy => ?_, fun _ => ?_⟩
    · have hne : y ≠ i.sector := by
        rintro rfl
        rcases hy with hy | ⟨p', j, hj, hjs⟩
        · rcases (h.live i.sector).1 hy with hC | ⟨p', j, hj, -, hjs, hjr⟩
          · exact h.mounted.not_open (s := i.sector) (d := .ofSector (s.image i.sector))
              (List.mem_append_left _ (List.mem_map.2 ⟨_, hC, rfl⟩)) p i hp rfl
          · obtain rfl := h.mounted.sector_inj hj hp hjs
            rw [hp] at hj
            cases hj
            rw [hrem] at hjr
            cases hjr
        · have hj := (hget p' j).1 hj
          exact hj.1 (h.mounted.sector_inj hj.2 hp hjs)
      have hy : s.Present y := hy.imp_right fun ⟨p', j, hj, hjs⟩ => ⟨p', j, ((hget p' j).1 hj).2, hjs⟩
      have hmem : (⟨y, s.data y⟩ : Owner) ∈ openOwners (s.st.openInodes.free p) q ++
          (diskOwners s.image C ++ s.spare.map fun x => ⟨x, newInodeDisk 0 false⟩) :=
            h.owner_mem_free hp hq hy hy0 hne
      refine h.other hinv (fun p' j hj => ?_)
        (hu.mono fun o ho => by rw [List.mem_singleton.1 ho]; exact hmem) hy hy0 hne
      rw [hget]
      exact ⟨And.right, fun hj' => ⟨hother p' j hj' hj, hj'⟩⟩
    · rw [reached, h.data_open hp]
      exact hr

end Inv

/-- What a call does to inode `y`: nothing that can be read, unless it writes
it or creates it. -/
inductive Effect (s : Session) (fm : InodeDisk) (c : Call) (s' : Session) (y : BlockSector) : Prop
  | keeps (hc : c.Spares y) (h : s.Keeps s' y)
  | written {L i i' buffer ofs n} (hc : c = .inodeWriteAt y buffer ofs n) (hy : s.Present y)
      (h : Written fm s.image s.st.freeMap L i buffer ofs n i' s'.image s'.st.freeMap)
      (hi : s.data y = i.data)
      (hi' : s'.data y = i'.data)
  | created {length isDir} (hc : c = .inodeCreate y length isDir true)
      (hlen : (s'.data y).length = length)
      (hdir : (s'.data y).isDir = isDir) (hzero : ∀ pos, (s'.data y).content s'.image pos = 0)
      (hsec : (s'.sectors y).length ≤ sectorCost (bytesToSectors length.toNat))

/-- **One call** keeps the invariant, and changes at most the inode it is
about. -/
theorem Inv.step {c : Call} (h : s.Inv q fm C) (hs : Step s c s') :
    ∃ C', s'.Inv q fm C' ∧ ∀ y, y ≠ freeMapSector → s'.Present y → s.Effect fm c s' y := by
  cases hs with
  | freeMapAllocate hrun =>
    obtain ⟨hinv, hkeep⟩ := h.freeMapAllocate hrun
    exact ⟨C, hinv, fun y hy0 hy => .keeps trivial (hkeep y hy0 hy)⟩
  | freeMapRelease hx hrun =>
    obtain ⟨hinv, hkeep⟩ := h.freeMapRelease hx hrun
    exact ⟨C, hinv, fun y hy0 hy => .keeps trivial (hkeep y hy0 hy)⟩
  | inodeOpen hx hfree hrun =>
    obtain ⟨hinv, hkeep⟩ := h.inodeOpen hx hfree hrun
    exact ⟨_, hinv, fun y hy0 hy => .keeps trivial (hkeep y hy0 hy)⟩
  | @inodeCreate x length isDir ok st disk hx hlen hrun =>
    obtain ⟨hinv, hkeep, hnew⟩ := h.inodeCreate hx hlen hrun
    refine ⟨_, hinv, fun y hy0 hy => ?_⟩
    by_cases hyx : y ≠ x ∨ ok = false
    · exact .keeps (fun ⟨he, hok⟩ => hyx.elim (fun hne => hne he.symm)
        fun hf => by simp [hf] at hok) (hkeep y hy0 hy hyx)
    · simp only [not_or, not_not, Bool.not_eq_false] at hyx
      obtain ⟨rfl, rfl⟩ := hyx
      obtain ⟨h₁, h₂, h₃, h₄⟩ := hnew rfl
      exact .created rfl h₁ h₂ h₃ h₄
  | inodeWriteAt hp hx _ hrun =>
    obtain ⟨i, hp, rfl⟩ := hp
    obtain ⟨hinv, hkeep, L, i', hw, hi'⟩ := h.inodeWriteAt hp hx hrun
    refine ⟨_, hinv, fun y hy0 hy => ?_⟩
    by_cases hyx : y = i.sector
    · subst hyx
      exact .written rfl (.inr ⟨_, i, hp, rfl⟩) hw (h.data_open hp) hi'
    · exact .keeps (Ne.symm hyx) (hkeep y hy0 hy hyx)
  | inodeRemove hp hx hrun =>
    obtain ⟨i, hp, rfl⟩ := hp
    obtain ⟨hinv, hkeep⟩ := h.inodeRemove hp hx hrun
    exact ⟨_, hinv, fun y hy0 hy => .keeps trivial (hkeep y hy0 hy)⟩
  | inodeClose hp hx hrun =>
    obtain ⟨i, hp, rfl⟩ := hp
    obtain ⟨hinv, hkeep, -⟩ := h.inodeClose hp hx hrun
    exact ⟨_, hinv, fun y hy0 hy => .keeps trivial (hkeep y hy0 hy)⟩

/-- The invariant of a formatted file system. -/
theorem Inv.format {n : BlockSector} {v₀ : Image} {st : FsState} {v : Image}
    (hrun : (filesysInit n.toNat true).exec initialState v₀ = some (true, st, v)) :
    ∃ q fm, Session.Inv ⟨st, v, [rootDirSector], []⟩ q fm [rootDirSector] ∧
      Formatted n.toNat v₀ st v q fm := by
  rcases exec_filesysInit (n := n.toNat) (v := v₀) n.toNat_lt.le with
    ⟨-, hfail⟩ | ⟨-, st', v', q, fm, hok, hf⟩
  · have := hfail _ hrun
    cases this
  · rw [hrun] at hok
    obtain ⟨rfl, rfl⟩ : st = st' ∧ v = v' := by simpa using hok
    have hget : ∀ p i, st.openInodes.get p = some i → p = q ∧
        i = ⟨freeMapSector, 1, false, 0, fm⟩ := by
      intro p i hp
      by_cases hq : p = q
      · rw [hq, hf.map] at hp
        exact ⟨hq, (Option.some.inj hp).symm⟩
      · have hfree : (st.openInodes.free q).get p = some i := by rw [Heap.get_free, if_neg hq, hp]
        have := Heap.mem_of_get hfree
        rw [hf.alone] at this
        cases this
    refine ⟨q, fm, ⟨?mounted, ?once, by simp, fun x => ?live⟩, hf⟩
    case mounted =>
      rw [List.map_nil, List.append_nil]
      exact hf.mounted
    case once =>
      intro p i hp
      rw [(hget p i hp).2]
    case live => exact ⟨.inl, fun hx => hx.resolve_right fun ⟨p, i, hp, hq, _⟩ => hq (hget p i hp).1⟩

end Session

/-! ## Runs -/

theorem Run.inv {cs : List Call} {s : Session} (h : Run cs s) : ∃ q fm C, s.Inv q fm C := by
  induction h with
  | format hrun =>
    obtain ⟨q, fm, h, -⟩ := Session.Inv.format hrun
    exact ⟨q, fm, _, h⟩
  | step _ hs ih =>
    obtain ⟨q, fm, C, h⟩ := ih
    obtain ⟨C', h', -⟩ := h.step hs
    exact ⟨q, fm, C', h'⟩

/-! ## A run that creates a file -/

theorem exists_format {n : BlockSector} (hn : Formattable n.toNat) (v₀ : Image) :
    ∃ s, Run [] s ∧ s.live = [rootDirSector] ∧ s.image freeMapSector ≠ Sector.zeros ∧
      freeCount s.st.freeMap + sectorCost (bytesToSectors (byteCnt (n.toNat - 1))) + 71 =
      n.toNat - 3 := by
  rcases exec_filesysInit (n := n.toNat) (v := v₀) n.toNat_lt.le with
    ⟨hno, -⟩ | ⟨-, st, v, q, fm, hexec, hf⟩
  · exact absurd hn hno
  · refine ⟨_, .format hexec, rfl, fun hz => ?_, hf.free⟩
    -- the free map's inode has a length
    have hmap := InodeDisk.ofSector_toSector hf.mounted.world.map.storable
    have hbits := hf.mounted.world.bits
    have hpos := hf.mounted.world.pos
    rw [← hf.disk, show v freeMapSector = Sector.zeros from hz] at hmap
    rw [← hmap, show (InodeDisk.ofSector Sector.zeros).length =
      0 by decide, byteCnt, divRoundUp] at hbits
    omega

namespace Session.Inv

variable {s : Session} {q : Ptr} {fm : InodeDisk} {C : List BlockSector} {x : BlockSector}

theorem closed (h : s.Inv q fm C) (hC : x ∈ C) (p : Ptr) : ¬ s.Holds p x := by
  intro ⟨i, hp, hi⟩
  exact h.mounted.not_open (s := x) (d := .ofSector (s.image x))
    (List.mem_append_left _ (List.mem_map.2 ⟨x, hC, rfl⟩)) p i hp hi

theorem exists_allocate (h : s.Inv q fm C) (hfree : 0 < freeCount s.st.freeMap) :
    ∃ x s', Step s (.freeMapAllocate (some x)) s' ∧ s'.spare = x :: s.spare ∧
      freeCount s'.st.freeMap + 1 = freeCount s.st.freeMap ∧
      s'.image freeMapSector = s.image freeMapSector := by
  rcases h.mounted.freeMapAllocate with ⟨hno, -⟩ | ⟨x, b, v, hexec, ht, hv, -⟩
  · omega
  · refine ⟨x, _, .freeMapAllocate hexec, rfl, ht.count, ?_⟩
    exact hv freeMapSector fun hm => hm.1 rfl

theorem exists_create (h : s.Inv q fm C) (hx : x ∈ s.spare) :
    ∃ s', Step s (.inodeCreate x 0 false true) s' ∧ x ∈ s'.live ∧ (∀ p, ¬ s'.Holds p x) ∧
      freeCount s'.st.freeMap = freeCount s.st.freeMap ∧ (s'.data x).length = 0 := by
  have hzero : ((0 : Int) : Int) < 2 ^ 31 := by omega
  obtain ⟨ok, b, v, d, hexec, hc, -⟩ := (h.mounted.perm (spare_perm hx _)).inodeCreate hzero
  have hcost : sectorCost (bytesToSectors (0 : Int).toNat) = 0 := by decide
  obtain rfl : ok = true :=
    hc.ok_iff.2 ⟨Int.le_refl _, newInodeDisk_fits.2 ⟨by decide, by rw [hcost]; exact Nat.zero_le _⟩⟩
  obtain ⟨hinv, -, hnew⟩ := h.inodeCreate hx hzero hexec
  refine ⟨_, .inodeCreate hx hzero hexec, List.mem_cons_self, hinv.closed List.mem_cons_self, ?_,
    (hnew rfl).1⟩
  have hleft := hc.left
  rw [if_pos (Int.le_refl _), length_newInodeDisk_lacking 0 false (by decide), hcost] at hleft
  exact hleft

theorem exists_open (h : s.Inv q fm C) (hx : x ∈ s.live) (hfree : ∀ p, ¬ s.Holds p x) :
    ∃ s', Step s (.inodeOpen x) s' ∧ (∃ p, s'.Holds p x) ∧ s'.live = s.live ∧
      s'.st.freeMap = s.st.freeMap ∧ s'.data x = s.data x := by
  have hC : x ∈ C := ((h.live x).1 hx).resolve_right fun ⟨p, i, hp, _, hi, _⟩ => hfree p ⟨i, hp, hi⟩
  obtain ⟨st, hst, hexec, -⟩ := h.mounted.inodeOpen (((List.perm_cons_erase hC).map _).append_right _)
  have hstep := Step.inodeOpen hx hfree hexec
  have hget : st.openInodes.get s.st.openInodes.next =
      some ⟨x, 1, false, 0, .ofSector (s.image x)⟩ := by
    rw [hst, FsState.setInodes_openInodes, Heap.get_alloc, if_pos rfl]
  obtain ⟨C', hinv', -⟩ := h.step hstep
  refine ⟨_, hstep, ⟨s.st.openInodes.next, _, hget, rfl⟩, rfl, by rw [hst]; rfl, ?_⟩
  rw [data_closed hfree]
  exact hinv'.data_open hget

theorem exists_write (h : s.Inv q fm C) {p : Ptr} (hp : s.Holds p x) (hx : x ≠ freeMapSector)
    (buffer : List UInt8) (ofs : Nat) (hne : buffer ≠ [])
    (hmax : bytesToSectors (ofs + buffer.length) ≤ InodeDisk.maxSectors)
    (hfree : sectorCost (bytesToSectors (ofs + buffer.length)) ≤ freeCount s.st.freeMap) :
    ∃ s', Step s (.inodeWriteAt x buffer ofs buffer.length) s' ∧ s'.Holds p x ∧ s'.live = s.live ∧
      freeCount s.st.freeMap ≤
        freeCount s'.st.freeMap + sectorCost (bytesToSectors (ofs + buffer.length)) ∧
      ((s.data x).length ≤ ofs → (s'.data x).length = (ofs + buffer.length : Nat)) := by
  obtain ⟨i, hi, rfl⟩ := hp
  have hq := h.holds_ne hi hx
  have hdata := h.data_open hi
  have hsound := h.sound (.inr ⟨p, i, hi, rfl⟩) hx
  rw [hdata] at hsound ⊢
  have hpos : 0 < buffer.length := List.length_pos_iff.2 hne
  have hend : ofs + buffer.length < 2 ^ 31 := by
    simp only [bytesToSectors, divRoundUp, blockSectorSize, InodeDisk.maxSectors] at hmax
    omega
  obtain ⟨n, i', b', v', hexec, hw, -⟩ := h.mounted.inodeWriteAt hi hq buffer ofs
  have hleft := hw.left
  have hlow := hsound.low
  -- what is lacking is no more than the longer length needs
  have hlacking : i.data.Within (ofs + buffer.length) ∨
      (i.data.lacking s.image (ofs + buffer.length)).length ≤
      sectorCost (bytesToSectors (ofs + buffer.length)) := by
    by_cases hle : ((ofs + buffer.length : Nat) : Int) ≤ i.data.length
    · exact .inl ⟨by omega, hle⟩
    · have := hsound.length_lacking (n := ofs + buffer.length) (by omega) hmax
      exact .inr (by omega)
  obtain ⟨rfl, hlen, -⟩ := hw.done (hlacking.imp_right fun hle => ⟨by omega, hmax⟩)
  have hget : (s.st.openInodes.modify p fun _ => i').get p = some i' := by
    rw [Heap.get_modify, if_pos rfl, hi]
    rfl
  have hstep := Step.inodeWriteAt ⟨i, hi, rfl⟩ hx hend hexec
  obtain ⟨C', hinv', -⟩ := h.step hstep
  have hsector : i'.sector = i.sector := by rw [hw.inode]
  refine ⟨_, hstep, ⟨i', hget, hsector⟩, rfl, ?_, fun hold => ?_⟩
  · change freeCount s.st.freeMap ≤ freeCount b' + _
    rcases hlacking with hwithin | hle
    · rw [if_pos hwithin] at hleft
      omega
    · split at hleft <;> omega
  · have hdata' := hinv'.data_open (p := p) (i := i') hget
    rw [hsector] at hdata'
    rw [hdata', hlen, if_neg fun hwithin => by have := hwithin.2; omega]

theorem exists_drop (h : s.Inv q fm C) {p : Ptr} (hp : s.Holds p x) (hx : x ≠ freeMapSector) :
    ∃ s₁ s₂, Step s (.inodeRemove x) s₁ ∧ Step s₁ (.inodeClose x) s₂ ∧
      s₂.live = s.live.erase x ∧ freeCount s.st.freeMap ≤ freeCount s₂.st.freeMap := by
  obtain ⟨i, hi, rfl⟩ := hp
  have hq := h.holds_ne hi hx
  obtain ⟨st, hst, hexec, -⟩ := h.mounted.inodeRemove hi hq
  obtain ⟨hinv, -⟩ := h.inodeRemove hi hx hexec
  have hi' : st.openInodes.get p = some { i with removed := true } := by
    rw [hst, FsState.setInodes_openInodes, Heap.get_modify, if_pos rfl, hi]
    rfl
  obtain ⟨b, v, hclose, hr, -⟩ := hinv.mounted.inodeClose_removed hi' hq (h.once p i hi) rfl
  refine ⟨_, _, .inodeRemove ⟨i, hi, rfl⟩ hx hexec, .inodeClose ⟨_, hi', rfl⟩ hx hclose, rfl, ?_⟩
  have hle := hr.gives.le
  rw [hst] at hle
  exact hle

end Session.Inv

theorem Run.exists_file {cs : List Call} {s : Session} (h : Run cs s)
    (hfree : 0 < freeCount s.st.freeMap) :
    ∃ s' x p, Run (cs ++ [.freeMapAllocate (some x), .inodeCreate x 0 false true, .inodeOpen x])
      s' ∧ s'.Holds p x ∧
      x ≠ freeMapSector ∧ x ∈ s'.live ∧ freeCount s'.st.freeMap + 1 = freeCount s.st.freeMap ∧
      (s'.data x).length = 0 := by
  obtain ⟨q, fm, C, h₀⟩ := h.inv
  obtain ⟨x, s₁, hs₁, hspare₁, hfree₁, -⟩ := h₀.exists_allocate hfree
  have hx₁ : x ∈ s₁.spare := hspare₁ ▸ List.mem_cons_self
  have hr₁ := h.step hs₁
  obtain ⟨q, fm, C, h₁⟩ := hr₁.inv
  have hx0 := (h₁.mounted.world.owned (x := ⟨x, newInodeDisk 0 false⟩)
    (List.mem_append_right _ (List.mem_append_right _ (List.mem_map.2 ⟨x, hx₁, rfl⟩)))
    (occ_sector s₁.image _)).2.1
  obtain ⟨s₂, hs₂, hx₂, hclosed₂, hfree₂, hlen₂⟩ := h₁.exists_create hx₁
  have hr₂ := hr₁.step hs₂
  obtain ⟨q, fm, C, h₂⟩ := hr₂.inv
  obtain ⟨s₃, hs₃, ⟨p, hp⟩, hlive₃, hfree₃, hdata₃⟩ := h₂.exists_open hx₂ hclosed₂
  have hr₃ := hr₂.step hs₃
  simp only [List.append_assoc, List.singleton_append] at hr₃
  exact ⟨s₃, x, p, hr₃, hp, hx0, by rw [hlive₃]; exact hx₂, by rw [hfree₃]; omega,
    by rw [hdata₃]; exact hlen₂⟩

/-- A run that creates a file on a formatted device and opens it. -/
theorem exists_file {n : BlockSector} (hn : Formattable n.toNat)
    (hfree : sectorCost (bytesToSectors (byteCnt (n.toNat - 1))) + 71 < n.toNat - 3) :
    ∃ s x p, Run [.freeMapAllocate (some x), .inodeCreate x 0 false true, .inodeOpen x] s ∧
      s.Holds p x ∧ x ≠ freeMapSector ∧ x ∈ s.live ∧
      freeCount s.st.freeMap + sectorCost (bytesToSectors (byteCnt (n.toNat - 1))) + 72 =
      n.toNat - 3 := by
  obtain ⟨s₀, hr₀, -, -, hfree₀⟩ := exists_format hn fun _ => Sector.zeros
  obtain ⟨s, x, p, hr, hp, hx0, hx, hfree', -⟩ := hr₀.exists_file (by omega)
  exact ⟨s, x, p, hr, hp, hx0, hx, by omega⟩

/-! ## Who owns which sector -/

namespace Session.Inv

variable {s : Session} {q : Ptr} {fm : InodeDisk} {C : List BlockSector} {x : BlockSector}

theorem count_sectors (t : BlockSector) :
    (x :: s.sectors x).count t = (⟨x, s.data x⟩ : Owner).occ s.image t := by
  rw [List.count_cons, Session.sectors, InodeDisk.blocks, count_blocksF, Owner.occ, InodeDisk.occ,
    Nat.add_comm]
  simp only [beq_iff_eq]

/-- The free-map file and the live inodes are among the owners. -/
theorem mem_owners (h : s.Inv q fm C) (hx : x ∈ freeMapSector :: s.live) :
    (⟨x, s.data x⟩ : Owner) ∈ mapOwner fm :: (openOwners s.st.openInodes q ++
      (diskOwners s.image C ++ s.spare.map fun x => ⟨x, newInodeDisk 0 false⟩)) := by
  by_cases hx0 : x = freeMapSector
  · obtain ⟨j, hj, rfl, hj0⟩ := h.mounted.map.inode
    have hdata := h.data_open hj
    rw [hj0] at hdata
    rw [hx0, show freeMapSector = 0 from rfl, hdata]
    exact List.mem_cons_self
  · have hy : s.Present x := .inl ((List.mem_cons.1 hx).resolve_left hx0)
    rw [← List.append_assoc]
    exact List.mem_cons_of_mem _ (List.mem_append_left _ (h.owner_mem hy hx0))

theorem reached_subperm (h : s.Inv q fm C) (hx : x ∈ freeMapSector :: s.live) :
    (s.reached x).Subperm (s.sectors x) := by
  have hsound : (s.data x).Sound s.image := by
    rcases List.mem_cons.1 (h.mem_owners hx) with he | hmem
    · have he : s.data x = fm := congrArg Owner.data he
      rw [he]
      exact h.mounted.world.map
    · exact h.mounted.world.sound _ hmem
  rw [List.subperm_ext_iff]
  intro t _
  rw [Session.reached, Session.sectors, InodeDisk.blocks, count_blocksF]
  exact count_visitedF (fun i hi _ => hsound.covers i (lt_bytesToSectors.1 hi)) t

end Session.Inv

/-- **No two inodes share a sector.** In every state a run reaches, the sectors
on the way to the data of the free-map file or of a live inode are sectors the
inode has a number for; these are not sector 0 and marked in the free map; and
together with the inodes' own sectors no sector is there twice. -/
theorem sectors_owned {cs : List Call} {s : Session} (h : Run cs s) :
    (∀ x ∈ freeMapSector :: s.live, (s.reached x).Subperm (s.sectors x) ∧
      ∀ t ∈ s.sectors x, t ≠ 0 ∧ InUse s.st.freeMap t) ∧
    ((freeMapSector :: s.live).flatMap fun x => x :: s.sectors x).Nodup := by
  obtain ⟨q, fm, C, h⟩ := h.inv
  have hone : ∀ x ∈ freeMapSector :: s.live, ∀ t, (x :: s.sectors x).count t ≤ 1 := by
    intro x hx t
    have h₁ := occ_le_total (v := s.image) (h.mem_owners hx) t
    have h₂ := h.mounted.world.once' t
    rw [total_cons] at h₁
    rw [Session.Inv.count_sectors]
    omega
  refine ⟨fun x hx => ⟨h.reached_subperm hx, fun t ht => ⟨?_, ?_⟩⟩, ?_⟩
  · rintro rfl
    have hocc := InodeDisk.mem_blocks.1 ht
    rw [InodeDisk.occ_zero] at hocc
    omega
  · refine h.mounted.world.inUse (le_trans ?_ (occ_le_total (h.mem_owners hx) t))
    exact occ_data (x := ⟨x, s.data x⟩) (InodeDisk.mem_blocks.1 ht)
  · rw [List.nodup_flatMap]
    refine ⟨fun x hx => List.nodup_iff_count_le_one.2 (hone x hx), ?_⟩
    have hnodup : (freeMapSector :: s.live).Nodup := by
      refine List.nodup_cons.2 ⟨fun hx => ?_, h.nodup⟩
      rcases (h.live _).1 hx with hC | ⟨p, i, hp, hq, hi, -⟩
      · obtain ⟨j, hj, -, hj0⟩ := h.mounted.map.inode
        exact h.mounted.not_open (s := freeMapSector) (d := .ofSector (s.image freeMapSector))
          (List.mem_append_left _ (List.mem_map.2 ⟨_, hC, rfl⟩)) q j hj hj0
      · exact h.mounted.sector_ne_zero hp hq hi
    refine hnodup.pairwise_of_forall_ne fun x hx y hy hne t ht ht' => ?_
    have hxy : (⟨x, s.data x⟩ : Owner) ≠ ⟨y, s.data y⟩ := fun he => hne (congrArg Owner.sector he)
    have h₁ := occ_add_le_total (v := s.image) (h.mem_owners hx) (h.mem_owners hy) hxy t
    have h₂ := h.mounted.world.once' t
    rw [total_cons] at h₁
    have h₃ := List.count_pos_iff.2 ht
    have h₄ := List.count_pos_iff.2 ht'
    rw [Session.Inv.count_sectors] at h₃ h₄
    omega

/-- On a device of 400 sectors one file is written far beyond its end, removed and
closed, and another one written in its place: this one has 131 data sectors and an
indirect sector. -/
theorem sectors_owned_run : ∃ s x y,
    Run [.freeMapAllocate (some x), .inodeCreate x 0 false true, .inodeOpen x,
      .inodeWriteAt x [7] 66560 1, .inodeRemove x,
      .inodeClose x, .freeMapAllocate (some y), .inodeCreate y 0 false true, .inodeOpen y,
      .inodeWriteAt y [8] 66560 1] s ∧
    y ∈ s.live ∧ (s.reached y).length = 132 ∧
    ((∀ x ∈ freeMapSector :: s.live, (s.reached x).Subperm (s.sectors x) ∧
      ∀ t ∈ s.sectors x, t ≠ 0 ∧ InUse s.st.freeMap t) ∧
    ((freeMapSector :: s.live).flatMap fun x => x :: s.sectors x).Nodup) := by
  have hcost : sectorCost (bytesToSectors (byteCnt ((400 : BlockSector).toNat - 1))) = 1 := by decide
  have hsize : (400 : BlockSector).toNat = 400 := rfl
  have hend : bytesToSectors (66560 + 1) = 131 ∧ sectorCost 131 = 132 := by decide
  obtain ⟨s₁, x, p, hr₁, hp₁, hx0, -, hfree₁⟩ := exists_file (n := 400) (by decide) (by decide)
  obtain ⟨q, fm, C, h₁⟩ := hr₁.inv
  obtain ⟨s₂, hs₂, hp₂, -, hfree₂, -⟩ := h₁.exists_write hp₁ hx0 [7] 66560 (by simp)
    (by simp only [List.length_singleton, hend]; decide)
    (by simp only [List.length_singleton, hend]; omega)
  simp only [List.length_singleton, hend] at hfree₂
  have hr₂ := hr₁.step hs₂
  obtain ⟨q, fm, C, h₂⟩ := hr₂.inv
  obtain ⟨s₃, s₄, hs₃, hs₄, -, hfree₄⟩ := h₂.exists_drop hp₂ hx0
  obtain ⟨s₅, y, p, hr₅, hp₅, hy0, hy, hfree₅, hlen₅⟩ :=
    ((hr₂.step hs₃).step hs₄).exists_file (by omega)
  obtain ⟨q, fm, C, h₅⟩ := hr₅.inv
  obtain ⟨s₆, hs₆, hp₆, hlive₆, -, hlen₆⟩ := h₅.exists_write hp₅ hy0 [8] 66560 (by simp)
    (by simp only [List.length_singleton, hend]; decide)
    (by simp only [List.length_singleton, hend]; omega)
  have hr₆ := hr₅.step hs₆
  obtain ⟨q, fm, C, h₆⟩ := hr₆.inv
  refine ⟨s₆, x, y, hr₆, by rw [hlive₆]; exact hy, ?_, sectors_owned hr₆⟩
  rw [Session.reached, (h₆.sound (.inr ⟨p, hp₆⟩) hy0).length_visited, hlen₆ (by rw [hlen₅]; omega),
    Int.toNat_natCast]
  simp only [List.length_singleton, hend]

end MyShell.Fs

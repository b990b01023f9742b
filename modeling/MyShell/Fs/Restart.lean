/-
Shutdown and restart. `filesys_done` gives up the free map's file, then the
buffer cache, then the other files, of which none is written any more. Where
sector 0 still holds the inode of the free map, `filesys_init` finds the same
free map and the same files on the device (`Volume.mount`).
-/
import MyShell.Fs.Layout
import MyShell.Fs.Cache
import MyShell.Lib.Silent

namespace MyShell.Fs

open Storage BlockTree Session

/-! ## From source -/

/-- The loop of `free_file_table`, over so many entries. To remove an entry again that has
been popped does nothing. -/
def freeEntries : Nat → FsM Unit
  | 0 => pure ()
  | fuel + 1 => do
    match (← Cmd.getState).fileTable with
    | [] => pure ()
    | entry :: rest => do
      Cmd.modifyState fun s => { s with fileTable := rest }
      fileClose (some entry.f)
      freeEntries fuel

def freeFileTable : FsM Unit := do freeEntries (← Cmd.getState).fileTable.length

/-- `buffer_cache_close` -/
def BufferCache.close (c : BufferCache) : BufferCache :=
  ⟨bufferCacheClose c.state, (Cache.closeSlots_inv c.inv (List.finRange bufferCacheSize)).1⟩

theorem BufferCache.close_contents (c : BufferCache) :
    c.close.state.fsDevice.contents = c.state.view := by
  have hstate : c.close.state = bufferCacheClose c.state := by rw [BufferCache.close]
  rw [hstate, Cache.close_contents c.inv]

/-- `filesys_done`: what is left in memory, and in the cache. -/
def filesysDone (st : FsState) (c : BufferCache) : Option (FsState × BufferCache) := do
  let (_, st, c) ← freeMapClose.run st c
  let (_, st, c) ← freeFileTable.run st c.close
  pure (st, c)

/-! ## Shutting down -/

section shutdown

variable {st : FsState} {f : Ptr} {file : File} {i : Inode}

/-- `file_close` of the only handle on an inode that is not removed. -/
theorem fileClose_silent (hf : st.files.get f = some file)
    (hi : st.openInodes.get file.inode = some i) (hcnt : i.openCnt = 1)
    (hremoved : i.removed = false) :
    ∃ st', Cmd.Silent (fileClose (some f)) st (some ((), st')) ∧ st'.freeMap = st.freeMap ∧
      st'.fileTable = st.fileTable ∧ (∀ q, q ≠ f → st'.files.get q = st.files.get q) ∧
      ∀ p, p ≠ file.inode → st'.openInodes.get p = st.openInodes.get p := by
  have hderef {st : FsState} {file : File} (hf : st.files.get f = some file) :
      Cmd.Silent (derefFile f) st (some (file, st)) :=
    .getState (.ofOption hf)
  have hinode {st : FsState} {p : Ptr} {i : Inode} (hi : st.openInodes.get p = some i) :
      Cmd.Silent (derefInode p) st (some (i, st)) := .getState (.ofOption hi)
  -- `file_allow_write`
  obtain ⟨st₁, file₁, i₁, hallow, hmap₁, htable₁, hf₁, hsame₁, hi₁, hcnt₁, hremoved₁,
    hfiles₁, hinodes₁⟩ :
      ∃ st₁ file₁ i₁, Cmd.Silent (fileAllowWrite f) st (some ((), st₁)) ∧
      st₁.freeMap = st.freeMap ∧
        st₁.fileTable = st.fileTable ∧ st₁.files.get f = some file₁ ∧ file₁.inode = file.inode ∧
        st₁.openInodes.get file.inode = some i₁ ∧ i₁.openCnt = 1 ∧ i₁.removed = false ∧
        (∀ q, q ≠ f → st₁.files.get q = st.files.get q) ∧
        ∀ p, p ≠ file.inode → st₁.openInodes.get p = st.openInodes.get p := by
    by_cases hdeny : file.denyWrite = true
    · let st' : FsState := { st with files := st.files.modify f fun f => { f with denyWrite := false } }
      have hi' : st'.openInodes.get file.inode = some i := hi
      let st₁ := st'.setInodes (st'.openInodes.modify file.inode
          fun i => { i with denyWriteCnt := i.denyWriteCnt - 1 })
      have hallow : Cmd.Silent (inodeAllowWrite file.inode) st' (some ((), st₁)) :=
        (hinode hi').bind (.modifyState _)
      refine ⟨st₁, { file with denyWrite := false }, { i with denyWriteCnt := i.denyWriteCnt - 1 },
        (hderef hf).bind ?_, rfl, rfl, ?_, rfl, ?_, hcnt, hremoved, fun q hq => ?_, fun p hp => ?_⟩
      · rw [if_pos hdeny]
        exact (Cmd.Silent.modifyState _).bind hallow
      · rw [FsState.setInodes_files, Heap.get_modify, if_pos rfl, hf]
        rfl
      · rw [FsState.setInodes_openInodes, Heap.get_modify, if_pos rfl, hi]
        rfl
      · rw [FsState.setInodes_files, Heap.get_modify, if_neg hq]
      · rw [FsState.setInodes_openInodes, Heap.get_modify, if_neg hp]
    · refine ⟨st, file, i, (hderef hf).bind ?_, rfl, rfl, hf, rfl, hi, hcnt, hremoved,
        fun _ _ => rfl, fun _ _ => rfl⟩
      rw [if_neg hdeny]
      exact .pure _ _
  -- `inode_close`
  have hclose : Cmd.Silent (inodeClose (some file.inode)) st₁ (some ((),
      st₁.setInodes (st₁.openInodes.free file.inode))) := by
    refine (hinode hi₁).bind ((Cmd.Silent.modifyState _).bind ?_)
    rw [hcnt₁, if_pos (sub_self 1), hremoved₁, if_neg Bool.false_ne_true]
    refine (Cmd.Silent.pure _ _).bind ?_
    rw [← Heap.free_modify st₁.openInodes file.inode fun i => { i with openCnt := 1 - 1 }]
    exact .modifyState _
  have hfree : Cmd.Silent (fileClose (some f)) st (some ((),
      (st₁.setInodes (st₁.openInodes.free file.inode)).setFiles (st₁.files.free f))) := by
    refine hallow.bind ((hderef hf₁).bind ?_)
    rw [hsame₁]
    exact hclose.bind (.modifyState _)
  refine ⟨_, hfree, ?_, ?_, fun q hq => ?_, fun p hp => ?_⟩
  · exact hmap₁
  · exact htable₁
  · change (st₁.files.free f).get q = _
    rw [Heap.get_free, if_neg hq, hfiles₁ q hq]
  · change (st₁.openInodes.free file.inode).get p = _
    rw [Heap.get_free, if_neg hp, hinodes₁ p hp]

end shutdown

/-- The handles can be given up one after the other: each is the only one on its inode,
which is not removed. -/
structure Closes (st : FsState) (handles : List Ptr) : Prop where
  held : ∀ f ∈ handles, ∃ file i, st.files.get f = some file ∧ st.openInodes.get file.inode =
    some i ∧ i.openCnt = 1 ∧ i.removed = false
  inodes : (handles.map fun f => (st.files.get f).map File.inode).Nodup

namespace Closes

variable {st : FsState} {f : Ptr} {handles : List Ptr}

theorem fileClose (h : Closes st (f :: handles)) :
    ∃ st', Cmd.Silent (Fs.fileClose (some f)) st (some ((), st')) ∧
    st'.freeMap = st.freeMap ∧ st'.fileTable = st.fileTable ∧ Closes st' handles := by
  obtain ⟨file, i, hf, hi, hcnt, hremoved⟩ := h.held f List.mem_cons_self
  obtain ⟨st', hclose, hmap, htable, hfiles, hinodes⟩ := fileClose_silent hf hi hcnt hremoved
  have hdistinct := h.inodes
  rw [List.map_cons, List.nodup_cons, hf] at hdistinct
  have hother : ∀ g ∈ handles, st'.files.get g = st.files.get g := by
    refine fun g hg => hfiles g ?_
    rintro rfl
    exact hdistinct.1 (List.mem_map.2 ⟨g, hg, by rw [hf]⟩)
  refine ⟨st', hclose, hmap, htable, fun g hg => ?_, ?_⟩
  · obtain ⟨file', j, hg', hj, hj'⟩ := h.held g (List.mem_cons_of_mem _ hg)
    refine ⟨file', j, (hother g hg).trans hg', (hinodes _ ?_).trans hj, hj'⟩
    intro heq
    exact hdistinct.1 (List.mem_map.2 ⟨g, hg, by rw [hg', Option.map_some, heq]; rfl⟩)
  · rw [List.map_congr_left fun g hg => by rw [hother g hg]]
    exact hdistinct.2

theorem freeEntries (h : Closes st (st.fileTable.map FileTableEntry.f)) :
    ∃ st', Cmd.Silent (Fs.freeEntries st.fileTable.length) st (some ((), st')) := by
  generalize htable : st.fileTable = table at h
  induction table generalizing st with
  | nil => exact ⟨st, .pure _ _⟩
  | cons entry rest ih =>
    have hrest : Closes (st.setFileTable rest) (entry.f :: rest.map FileTableEntry.f) :=
      ⟨h.held, h.inodes⟩
    obtain ⟨st', hclose, -, htable', h'⟩ := fileClose hrest
    obtain ⟨st'', hsilent⟩ := ih htable' h'
    refine ⟨st'', .getState ?_⟩
    rw [htable]
    exact (Cmd.Silent.modifyState _).bind (hclose.bind hsilent)

/-- **`filesys_done`** writes what the cache holds, and nothing else. -/
theorem filesysDone {p : Ptr} (h : Closes st (p :: st.fileTable.map FileTableEntry.f))
    (hmap : st.freeMapFile = some p) (c : BufferCache) :
    ∃ st', Fs.filesysDone st c = some (st', c.close) := by
  obtain ⟨st₁, hclose, -, htable, h₁⟩ := h.fileClose
  obtain ⟨st₂, hfree⟩ := freeEntries (htable ▸ h₁)
  have hmapClose : Cmd.Silent freeMapClose st (some ((), st₁)) := .getState (by rw [hmap]; exact hclose)
  have htableFree : Cmd.Silent freeFileTable st₁ (some ((), st₂)) := .getState hfree
  refine ⟨st₂, ?_⟩
  rw [Fs.filesysDone, hmapClose.run, Option.bind_eq_bind, Option.bind_some]
  dsimp only
  rw [htableFree.run]
  rfl

end Closes

/-! ## The device without the inodes in memory -/

namespace Volume

variable {s : Session} {a : BlockSector → Option Node}

theorem forgetInode (h : Volume s a) (hcalm : s.st.Calm) {p : Ptr} {i : Inode}
    (hp : s.st.openInodes.get p = some i) (hi : i.sector ≠ freeMapSector) :
    Volume ⟨s.st.setInodes (s.st.openInodes.free p), s.image, s.live, s.spare⟩ a := by
  obtain ⟨hcnt, hremoved⟩ := hcalm p i hp
  obtain ⟨⟨st, v, live, spare⟩, hclose, hvol, -, -, rfl, rfl, -⟩ := h.closeInode ⟨i, hp, rfl⟩ hi
  rw [Does, exec_inodeClose_once hp hcnt hremoved] at hclose
  simp only [Option.some.injEq, Prod.mk.injEq, true_and] at hclose
  obtain ⟨rfl, rfl⟩ := hclose
  exact hvol

/-- All of them are forgotten, but for that of the free map. -/
theorem forgetInodes (h : Volume s a) (hcalm : s.st.Calm) :
    ∃ m, Volume ⟨s.st.setInodes m, s.image, s.live, s.spare⟩ a ∧
      (∀ p i, m.get p = some i → i.sector = freeMapSector) ∧
      ∀ p i, i.sector = freeMapSector → (m.get p = some i ↔ s.st.openInodes.get p = some i) := by
  generalize hn : s.st.openInodes.cells.length = n
  induction n using Nat.strongRecOn generalizing s with
  | _ n ih =>
    by_cases hall : ∀ p i, s.st.openInodes.get p = some i → i.sector = freeMapSector
    · exact ⟨s.st.openInodes, h, hall, fun _ _ _ => Iff.rfl⟩
    · simp only [not_forall] at hall
      obtain ⟨p, i, hp, hi⟩ := hall
      have hless : (s.st.openInodes.free p).cells.length < n := by
        rw [← hn, (Heap.cells_perm hp).length_eq]
        exact Nat.lt_succ_self _
      have hfree (p' : Ptr) (j : Inode) (hj : (s.st.openInodes.free p).get p' = some j) :
          s.st.openInodes.get p' = some j := by
        rw [Heap.get_free] at hj
        split at hj
        · cases hj
        · exact hj
      obtain ⟨m, hm, hmap, hkept⟩ :=
        ih _ hless (h.forgetInode hcalm hp hi) (fun p' j hj => hcalm p' j (hfree p' j hj)) rfl
      refine ⟨m, hm, hmap, fun p' j hj => (hkept p' j hj).trans ⟨hfree p' j, fun hget => ?_⟩⟩
      rw [FsState.setInodes_openInodes, Heap.get_free, if_neg]
      · exact hget
      · rintro rfl
        rw [hp] at hget
        cases hget
        exact hi hj

/-- **Mounting** a device that was given up, where the inode of the free map is on it. -/
theorem mount (h : Volume s a) (hcalm : s.st.Calm)
    (hdisk : s.image freeMapSector = (s.data freeMapSector).toSector) {st₀ : FsState}
    (hopen : st₀.openInodes.cells = []) (hsize : st₀.freeMap.length = s.st.freeMap.length) :
    ∃ st, freeMapOpen.exec st₀ s.image = some (true, st, s.image) ∧
      st = (((st₀.setFreeMap s.st.freeMap).setFreeMapFile st.freeMapFile).setInodes
        st.openInodes).setFiles st.files ∧
      Volume ⟨st, s.image, s.live, s.spare⟩ a ∧
      ∀ p y, Session.Holds ⟨st, s.image, s.live, s.spare⟩ p y → y = freeMapSector := by
  obtain ⟨m, hm, honly, hkept⟩ := h.forgetInodes hcalm
  have hdata : Session.data ⟨s.st.setInodes m, s.image, s.live, s.spare⟩ freeMapSector =
      s.data freeMapSector :=
    h.data_eq hm rfl fun p i hi => hkept p i hi
  obtain ⟨q, fm, C, hinv⟩ := hm.inv
  -- no inode is in memory but the free map's
  have hq : ∀ p i, m.get p = some i → p = q := by
    intro p i hp
    obtain ⟨j, hj, -, hj0⟩ := hinv.mounted.map.inode
    exact hinv.mounted.sector_inj hp hj ((honly p i hp).trans hj0.symm)
  have hnil : openOwners m q = [] := by
    refine List.eq_nil_iff_forall_not_mem.2 fun o ho => ?_
    obtain ⟨p, i, hp, hne, -⟩ := mem_openOwners.1 ho
    exact hne (hq p i hp)
  have hworld := hinv.mounted.world
  rw [FsState.setInodes_openInodes, hnil, List.nil_append] at hworld
  have hfm : s.data freeMapSector = fm := by
    obtain ⟨j, hj, hjdata, hj0⟩ := hinv.mounted.map.inode
    rw [← hdata, ← hjdata, ← hinv.data_open hj, hj0]
    rfl
  obtain ⟨st, hexec, hst, hmounted⟩ := exec_freeMapOpen hworld (hfm ▸ hdisk) hopen hsize
  have hget : ∀ p i, st.openInodes.get p = some i → p = st₀.openInodes.next ∧
      i = ⟨freeMapSector, 1, false, 0, fm⟩ := by
    intro p i hp
    rw [hst] at hp
    simp only [FsState.setFiles_openInodes, FsState.setInodes_openInodes, Heap.get_alloc] at hp
    split at hp
    · next heq => exact ⟨heq, (Option.some.inj hp).symm⟩
    · have hmem := Heap.mem_of_get hp
      rw [hopen] at hmem
      cases hmem
  have hinv' : Session.Inv ⟨st, s.image, s.live, s.spare⟩ st₀.openInodes.next fm C := by
    refine ⟨hmounted, fun p i hp => by rw [(hget p i hp).2], hinv.nodup, fun x => ?_⟩
    rw [hinv.live x]
    refine or_congr_right ⟨?_, ?_⟩
    · rintro ⟨p, i, hp, hne, -⟩
      exact absurd (hq p i hp) hne
    · rintro ⟨p, i, hp, hne, -⟩
      exact absurd (hget p i hp).1 hne
  have honly' : ∀ p y, Session.Holds ⟨st, s.image, s.live, s.spare⟩ p y → y = freeMapSector := by
    rintro p y ⟨i, hp, rfl⟩
    rw [(hget p i hp).2]
  refine ⟨st, hexec, ?_, ⟨⟨_, _, _, hinv'⟩, fun x n hx0 hx ha => ?_⟩, honly'⟩
  · rw [hst]
    rfl
  · have hxlive : x ∈ s.live := hx.resolve_right fun ⟨p, hp⟩ => hx0 (honly' p x hp)
    have hclosed : ∀ p, ¬ Session.Holds ⟨s.st.setInodes m, s.image, s.live, s.spare⟩ p x :=
      fun p ⟨i, hp, hi⟩ =>
      hx0 (hi ▸ honly p i hp)
    obtain ⟨hshows, hdir⟩ := hm.shows x n hx0 (.inl hxlive) ha
    have hsame : Session.data ⟨st, s.image, s.live, s.spare⟩ x = Session.data ⟨s.st.setInodes m,
        s.image, s.live, s.spare⟩ x := by
      rw [data_closed hclosed, data_closed fun p hp => hx0 (honly' p x hp)]
    exact ⟨⟨by rw [hsame]; exact hshows.length,
      fun pos => by rw [hsame]; exact hshows.content pos⟩, by rw [hsame]; exact hdir⟩

end Volume

end MyShell.Fs

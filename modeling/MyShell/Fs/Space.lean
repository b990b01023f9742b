/-
How many sectors an inode has. An inode whose writes all wrote their whole
buffer has the sectors its length needs and no others, however it grew
(`space_exact`), and these are the sectors that removing it gives back.
-/
import MyShell.Fs.Growth

namespace MyShell.Fs

open Storage BlockTree

/-- No more sectors than the length needs: what a write of at least one byte
that wrote it all preserves. -/
theorem Written.sectors_le {fm : InodeDisk} {v v' : Image} {b b' : Bitmap} {L : List Owner}
    {i i' : Inode} {buffer : List UInt8} {ofs : Nat} {n : Int}
    (hw : Written fm v b L i buffer ofs n i' v' b') (hsound : i.data.Sound v) (hne : buffer ≠ [])
    (hn : n = buffer.length)
    (h : (i.data.blocks v).length ≤ sectorCost (bytesToSectors i.data.length.toNat)) :
    (i'.data.blocks v').length ≤ sectorCost (bytesToSectors i'.data.length.toNat) := by
  have hpos : 0 < buffer.length := List.length_pos_iff.2 hne
  have hgrown := hw.grown
  have hleft := hw.left
  by_cases hwithin : i.data.Within (ofs + buffer.length)
  · obtain ⟨rfl, -⟩ := hw.place hwithin
    rw [if_pos hwithin] at hleft
    omega
  · rw [if_neg hwithin] at hleft
    have hfits : i.data.Fits v b (ofs + buffer.length) := by
      by_contra hno
      have := (hw.failed (not_or.2 ⟨hwithin, hno⟩)).1
      omega
    obtain ⟨-, hlen, -⟩ := hw.done (.inr hfits)
    rw [if_neg hwithin] at hlen
    have hlow := hsound.low
    rw [InodeDisk.Within, not_and] at hwithin
    have hlt := hwithin (by omega)
    have hlacking := hsound.length_lacking (n := ofs + buffer.length) (by omega) hfits.2
    have hle := hfits.1
    rw [hlen, Int.toNat_natCast]
    omega

theorem Run.sectors_le {cs : List Call} {s : Session} {x : BlockSector} (h : Run cs s)
    (hx : s.Present x) (hx0 : x ≠ freeMapSector)
    (hw : ∀ w ∈ (history x cs).writes, w.Done ∧ w.buffer ≠ []) :
    (s.sectors x).length ≤ sectorCost (bytesToSectors (s.data x).length.toNat) := by
  induction h with
  | format hrun =>
    obtain ⟨rfl, hshows, hsec⟩ := (Run.format hrun).format_root hx hx0
    rw [hshows.length]
    exact hsec
  | @step cs s c s' hr hs ih =>
    obtain ⟨q, fm, C, hinv⟩ := hr.inv
    obtain ⟨C', hinv', heffect⟩ := hinv.step hs
    rw [history_append] at hw
    cases heffect x hx0 hx with
    | keeps hc hkeep =>
      rw [record_spares hc] at hw
      rw [hkeep.length]
      exact hkeep.sectors.trans (ih hkeep.present hw)
    | @written L i i' buffer ofs n hc hpresent hwritten hi hi' =>
      subst hc
      rw [Call.record, if_pos rfl] at hw
      have hold := ih hpresent fun w hw' => hw w (List.mem_append_left _ hw')
      obtain ⟨hdone, hne⟩ := hw ⟨buffer, ofs, n⟩ (List.mem_append_right _ (by simp))
      have hsound := hinv.sound hpresent hx0
      rw [Session.sectors, hi] at hold
      rw [hi] at hsound
      rw [Session.sectors, hi']
      exact hwritten.sectors_le hsound hne hdone hold
    | created hc hlen hdir hzero hsec =>
      rw [hlen]
      exact hsec

/-- The sectors of a file of `length` bytes: its inode, `n` data sectors, and
the index sectors for them. -/
def cost (length : Nat) : Nat :=
  let n := divRoundUp length 512
  1 + n + (if 123 < n then 1 else 0) + if 251 < n then 1 + divRoundUp (n - 251) 128 else 0

theorem cost_eq (length : Nat) : cost length = 1 + sectorCost (bytesToSectors length) := by
  simp only [cost, sectorCost, bytesToSectors, blockSectorSize, ← Nat.not_lt (a := 123),
    ← Nat.not_lt (a := 251), ite_not]
  omega

/-- Removing and then closing an inode gives back its sector and those on the
way to its data. -/
theorem Session.Inv.close_removed {s s₁ s₂ : Session} {q : Ptr} {fm : InodeDisk}
    {C : List BlockSector} {x : BlockSector} (h : s.Inv q fm C) (hs₁ : Step s (.inodeRemove x) s₁)
    (hs₂ : Step s₁ (.inodeClose x) s₂) (t : BlockSector) :
    InUse s₂.st.freeMap t ↔ InUse s.st.freeMap t ∧ t ∉ x :: s.reached x := by
  cases hs₁ with
  | @inodeRemove p _ st v hp hx0 hrun₁ =>
    obtain ⟨i, hp, rfl⟩ := hp
    have hq := h.holds_ne hp hx0
    obtain ⟨st', hst', hok, -⟩ := h.mounted.inodeRemove hp hq
    rw [hrun₁] at hok
    obtain ⟨rfl, himage⟩ : st = st' ∧ v = s.image := by simpa using hok
    obtain ⟨hinv₁, -⟩ := h.inodeRemove hp hx0 hrun₁
    have hp₁ : st.openInodes.get p = some { i with removed := true } := by
      rw [hst', FsState.setInodes_openInodes, Heap.get_modify, if_pos rfl, hp]
      rfl
    have hdata := (hinv₁.data_open hp₁).trans (h.data_open hp).symm
    have hreached : Session.reached ⟨st, v, s.live.erase i.sector, s.spare⟩ i.sector =
        s.reached i.sector := by
      rw [Session.reached, Session.reached, hdata]
      exact congrArg (fun v => visitedF layout v _ _) himage
    cases hs₂ with
    | inodeClose hp₂ _ hrun₂ =>
      obtain ⟨j, hp₂, hj⟩ := hp₂
      obtain rfl := hinv₁.mounted.sector_inj hp₂ hp₁ hj
      rw [hp₁] at hp₂
      cases hp₂
      have hr := (hinv₁.inodeClose hp₁ hx0 hrun₂).2.2 rfl
      rw [hreached] at hr
      have hfree : st.freeMap = s.st.freeMap := by rw [hst']; rfl
      rw [hr.gives.inUse]
      exact and_congr_left fun _ => by rw [← hfree]

/-- **Exact space.** In every state of a run, an inode whose writes since its
creation wrote at least one byte each and all of it has as many sectors as its
length needs, all different and marked in the free map; and when its holder
removes and closes it, these and no others are marked free. -/
theorem space_exact {cs : List Call} {s : Session} {x : BlockSector} (h : Run cs s) (hx : s.Present x)
    (hx0 : x ≠ freeMapSector) (hw : ∀ w ∈ (history x cs).writes, w.Done ∧ w.buffer ≠ []) :
    (x :: s.sectors x).length = cost (s.data x).length.toNat ∧ (x :: s.sectors x).Nodup ∧
    (∀ t ∈ x :: s.sectors x, InUse s.st.freeMap t) ∧
    ∀ s₁ s₂, Step s (.inodeRemove x) s₁ → Step s₁ (.inodeClose x) s₂ →
      ∀ t, InUse s₂.st.freeMap t ↔ InUse s.st.freeMap t ∧ t ∉ x :: s.sectors x := by
  obtain ⟨q, fm, C, hinv⟩ := h.inv
  have hsound := hinv.sound hx hx0
  have hle := h.sectors_le hx hx0 hw
  have hcovers : ∀ k < bytesToSectors (s.data x).length.toNat, k < capacity layout (s.data x).roots →
      dataF layout s.image (s.data x).roots k ≠ 0 :=
        fun k hk _ => hsound.covers k (lt_bytesToSectors.1 hk)
  -- the walk along the data meets all the inode's sectors
  have hperm : (s.reached x).Perm (s.sectors x) :=
    visitedF_perm hcovers (by rw [length_missingF_bare hsound.direct hsound.sectors_le]; exact hle)
  have howner := List.mem_append_left (s.spare.map fun x => (⟨x, newInodeDisk 0 false⟩ : Owner))
    (hinv.owner_mem hx hx0)
  rw [List.append_assoc] at howner
  refine ⟨?_, ?_, ?_, ?_⟩
  · rw [List.length_cons, ← hperm.length_eq, Session.reached, hsound.length_visited, cost_eq,
      Nat.add_comm]
  · refine List.nodup_iff_count_le_one.2 fun t => ?_
    have h₁ := occ_le_total (v := s.image) howner t
    have h₂ := hinv.mounted.world.once' t
    rw [Session.Inv.count_sectors]
    omega
  · intro t ht
    refine (hinv.mounted.world.owned howner ?_).1
    rw [← Session.Inv.count_sectors]
    exact List.count_pos_iff.2 ht
  · intro s₁ s₂ hs₁ hs₂ t
    have hgiven := hinv.close_removed hs₁ hs₂ t
    rw [hgiven, List.mem_cons, List.mem_cons, hperm.mem_iff]

/-- A file grown to 131 data sectors takes 133 with its inode and its indirect
sector; these are free again when it is removed and closed. -/
theorem space_exact_run : ∃ s x s₁ s₂,
    Run [.freeMapAllocate (some x), .inodeCreate x 0 false true, .inodeOpen x,
      .inodeWriteAt x [7] 66560 1] s ∧
    Step s (.inodeRemove x) s₁ ∧ Step s₁ (.inodeClose x) s₂ ∧
    (x :: s.sectors x).length = 133 ∧ (x :: s.sectors x).Nodup ∧
    (∀ t ∈ x :: s.sectors x, InUse s.st.freeMap t) ∧
    ∀ t, InUse s₂.st.freeMap t ↔ InUse s.st.freeMap t ∧ t ∉ x :: s.sectors x := by
  have hcost : sectorCost (bytesToSectors (byteCnt ((400 : BlockSector).toNat - 1))) = 1 := by decide
  have hsize : (400 : BlockSector).toNat = 400 := rfl
  have hend : sectorCost (bytesToSectors (66560 + 1)) = 132 := by decide
  obtain ⟨s, x, p, hr, hp, hx, -, hfree⟩ := exists_file (n := 400) (by decide) (by decide)
  obtain ⟨q, fm, C, hinv⟩ := hr.inv
  obtain ⟨s', hs', hp', -, -, -⟩ := hinv.exists_write hp hx [7] 66560 (by simp) (by decide)
    (by simp only [List.length_singleton, hend]; omega)
  have hr' : Run [.freeMapAllocate (some x), .inodeCreate x 0 false true, .inodeOpen x,
      .inodeWriteAt x [7] 66560 1] s' :=
    hr.step hs'
  obtain ⟨q, fm, C, hinv'⟩ := hr'.inv
  obtain ⟨s₁, s₂, hs₁, hs₂, -⟩ := hinv'.exists_drop hp' hx
  have hhistory : history x
      [.freeMapAllocate (some x), .inodeCreate x 0 false true, .inodeOpen x,
        .inodeWriteAt x [7] 66560 1] = ⟨.zeros 0, [⟨[7], 66560, 1⟩]⟩ := by
    simp [history, Call.record]
  have hlen := (hr'.shows (.inr ⟨p, hp'⟩) hx (by simp [hhistory])).length
  rw [hhistory] at hlen
  have hlen : (s'.data x).length = 66561 := hlen
  obtain ⟨hcount, hnodup, huse, hgiven⟩ :=
    space_exact hr' (.inr ⟨p, hp'⟩) hx (by simp [hhistory, Write.Done])
  rw [hlen] at hcount
  exact ⟨s', x, s₁, s₂, hr', hs₁, hs₂, hcount, hnodup, huse, hgiven s₁ s₂ hs₁ hs₂⟩

end MyShell.Fs

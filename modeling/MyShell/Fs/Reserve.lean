/-
Growing an inode (inode.c): `inode_reserve` walks the inode's data and index
sectors in order and takes a free sector for each that is missing.

`Reserved` says what such a walk does to a forest of sectors, and how walks
compose; `exec_inodeReserve` is the result for an inode. The walk succeeds
exactly when the free map has as many clear bits as sectors are missing. Else
it takes them all, and if the first sector it then lacks is an index sector it
fills sector 0 with zeros, since `inode_reserve_indirect` does not look at the
answer of `free_map_allocate` for an index sector.
-/
import MyShell.Fs.FreeMap

namespace MyShell.Fs

open Storage BlockTree

/-! ## From source -/

/-- The loop of `inode_reserve_indirect` over `l` entries, `unit` sectors to
an entry, up to the first that fails. -/
def reserveBlocks (reserve : BlockSector → Nat → Disk Bitmap (Bool × BlockSector)) (unit : Nat) :
    Nat → List BlockSector → Nat → Disk Bitmap (Bool × List BlockSector)
  | 0, blocks, _ => pure (true, blocks)
  | _ + 1, [], _ => Cmd.fault
  | l + 1, entry :: blocks, numSectors => do
    let subsize := min numSectors unit
    let (ok, entry) ← reserve entry subsize
    if !ok then pure (false, entry :: blocks)
    else do
      let (ok, blocks) ← reserveBlocks reserve unit l blocks (numSectors - subsize)
      pure (ok, entry :: blocks)

/-- `inode_reserve_indirect`: whether it succeeded, and `*p_entry`. -/
def inodeReserveIndirect (file : Option InodeDisk) :
    Nat → BlockSector → Nat → Disk Bitmap (Bool × BlockSector)
  | 0, entry, _ =>
    if entry = 0 then do
      match ← freeMapAllocate file 1 with
      | none => pure (false, entry)
      | some entry => do
        Cmd.write entry Sector.zeros
        pure (true, entry)
    else pure (true, entry)
  | level + 1, entry, numSectors => do
    let entry ← (if entry = 0 then do
        -- a failed allocation leaves 0
        let entry := (← freeMapAllocate file 1).getD entry
        Cmd.write entry Sector.zeros
        pure entry
      else pure entry)
    let indirectBlock ← Cmd.read entry
    let unit := if level = 0 then 1 else indirectBlocksPerSector
    let (ok, blocks) ← reserveBlocks (inodeReserveIndirect file level) unit (divRoundUp numSectors unit)
      indirectBlock.blocks numSectors
    if !ok then pure (false, entry)
    else do
      Cmd.write entry (Sector.ofBlocks blocks)
      pure (true, entry)

/-- `inode_reserve`: whether it succeeded, and `*disk_inode`. Its loop over
the direct blocks is that of `inode_reserve_indirect` at level 0. -/
def inodeReserve (file : Option InodeDisk) (diskInode : InodeDisk) (length : Int) :
    Disk Bitmap (Bool × InodeDisk) :=
  if length < 0 then pure (false, diskInode)
  else do
    let numSectors := bytesToSectors length.toNat
    let l := min numSectors directBlocksCount
    let (ok, directBlocks) ← reserveBlocks (inodeReserveIndirect file 0) 1 l diskInode.directBlocks l
    let diskInode := { diskInode with directBlocks }
    let numSectors := numSectors - l
    if !ok then pure (false, diskInode)
    else if numSectors = 0 then pure (true, diskInode)
    else do
      let l := min numSectors indirectBlocksPerSector
      let (ok, indirectBlock) ← inodeReserveIndirect file 1 diskInode.indirectBlock l
      let diskInode := { diskInode with indirectBlock }
      let numSectors := numSectors - l
      if !ok then pure (false, diskInode)
      else if numSectors = 0 then pure (true, diskInode)
      else do
        let l := min numSectors (indirectBlocksPerSector * indirectBlocksPerSector)
        let (ok, doublyIndirectBlock) ← inodeReserveIndirect file 2 diskInode.doublyIndirectBlock l
        let diskInode := { diskInode with doublyIndirectBlock }
        let numSectors := numSectors - l
        pure (ok && numSectors = 0, diskInode)

/-! ## The setting of a walk -/

/-- A file system in which sectors can be taken: the free-map file is in
order, its sectors and sector 0 are in use, and sector 0 is none of them. -/
structure Ready (file : Option InodeDisk) (F P : BlockSector → Prop) (v : Image) (b : Bitmap) :
    Prop where
  fileOk : FileOk file b.length F P v
  size : b.length < 2 ^ 32
  inUse : ∀ s, F s ∨ P s → InUse b s ∧ s ≠ 0
  zero : InUse b 0

/-- Each sector of the forest is in it once, is in use, and is not the
free-map file's. -/
structure Owned (F P : BlockSector → Prop) (v : Image) (b : Bitmap) (A : Forest BlockSector) :
    Prop where
  once : ∀ s, occF layout v A s ≤ 1
  inUse : ∀ s, 1 ≤ occF layout v A s → InUse b s ∧ ¬ F s ∧ ¬ P s

/-- What a walk for the first `n` data sectors of `A` does: it takes the
sectors `new`, puts some of them in `A`, zero-filled, and leaves all else. One
that takes none changes sector 0 at most. -/
structure Reserved (file : Option InodeDisk) (F : BlockSector → Prop) (v : Image) (b : Bitmap)
    (A : Forest BlockSector) (n : Nat) (ok : Bool) (A' : Forest BlockSector) (v' : Image) (b' : Bitmap)
    (new : List BlockSector) : Prop where
  takes : Takes b b' new
  frame : ∀ s, s ∉ new → ¬ F s → ¬ IsIndexF layout v A s → s ≠ 0 → v' s = v s
  holds : Holds file b v → Holds file b' v'
  roots : Le layout A A'
  occ : ∀ s, occF layout v' A' s ≤ occF layout v A s + if s ∈ new then 1 else 0
  index : ∀ s, IsIndexF layout v' A' s → IsIndexF layout v A s ∨ s ∈ new
  keep : ∀ i, dataF layout v A i ≠ 0 → dataF layout v' A' i = dataF layout v A i
  fresh : ∀ i, dataF layout v A i = 0 → dataF layout v' A' i ≠ 0 →
    dataF layout v' A' i ∈ new ∧ v' (dataF layout v' A' i) = Sector.zeros
  full : ok = true → ∀ i < n, i < capacity layout A → dataF layout v' A' i ≠ 0
  ok_iff : ok = true ↔ (missingF layout v A n).length ≤ freeCount b
  left : freeCount b' = freeCount b - (missingF layout v A n).length
  zero : v' 0 = if (missingF layout v A n)[freeCount b]? = some .index then Sector.zeros else v 0
  idle : new = [] → A' = A ∧ ∀ s, s ≠ 0 → v' s = v s

section walks

variable {file : Option InodeDisk} {F P : BlockSector → Prop} {v v' v₁ v₂ : Image}
  {b b' b₁ b₂ : Bitmap} {A A' B B' C C' : Forest BlockSector} {n : Nat} {ok : Bool}
  {new new' : List BlockSector}

theorem Owned.ne_zero (_h : Owned F P v b A) {s : BlockSector} (hs : 1 ≤ occF layout v A s) :
    s ≠ 0 := by
  rintro rfl
  have : occF layout v A 0 = 0 := occF_zero_null (L := layout)
  omega

theorem Owned.symm (h : Owned F P v b (A ++ C)) : Owned F P v b (C ++ A) := by
  constructor
  · intro s; have := h.once s; rw [occF_append] at this ⊢; omega
  · intro s hs; apply h.inUse; rw [occF_append] at hs ⊢; omega

theorem Owned.left (h : Owned F P v b (A ++ C)) : Owned F P v b A := by
  constructor
  · intro s; have := h.once s; rw [occF_append] at this; omega
  · intro s hs; apply h.inUse; rw [occF_append]; omega

theorem Owned.right (h : Owned F P v b (A ++ C)) : Owned F P v b C := h.symm.left

/-- A walk over `A` leaves alone whatever is in use elsewhere. -/
theorem Reserved.other (h : Reserved file F v b A n ok A' v' b' new) {s : BlockSector} (hu : InUse b s)
    (hF : ¬ F s) (hA : occF layout v A s = 0) (h0 : s ≠ 0) : v' s = v s := by
  refine h.frame s (fun hs => h.takes.clear s hs hu) hF (fun hs => ?_) h0
  have := indexF_occ hs
  omega

theorem Reserved.index_other (h : Reserved file F v b A n ok A' v' b' new)
    (hown : Owned F P v b (A ++ C)) : ∀ s, IsIndexF layout v C s → v' s = v s := by
  intro s hs
  have h₁ := indexF_occ hs
  have h₂ := hown.once s
  rw [occF_append] at h₂
  obtain ⟨hu, hF, -⟩ := hown.right.inUse s h₁
  exact h.other hu hF (by omega) (hown.right.ne_zero h₁)

theorem Reserved.ready (h : Reserved file F v b A n ok A' v' b' new) (hr : Ready file F P v b)
    (hown : Owned F P v b A) : Ready file F P v' b' where
  fileOk := by
    rw [h.takes.length]
    refine hr.fileOk.congr fun s hs => ?_
    obtain ⟨hu, h0⟩ := hr.inUse s (.inr hs)
    refine h.other hu (fun hF => hr.fileOk.disjoint s hF hs) ?_ h0
    by_contra hocc
    exact (hown.inUse s (by omega)).2.2 hs
  size := by rw [h.takes.length]; exact hr.size
  inUse s hs := ⟨h.takes.mono (hr.inUse s hs).1, (hr.inUse s hs).2⟩
  zero := h.takes.mono hr.zero

theorem Reserved.owned (h : Reserved file F v b A n ok A' v' b' new) (hr : Ready file F P v b)
    (hown : Owned F P v b (A ++ C)) : Owned F P v' b' (A' ++ C) := by
  have hC := occF_congr (h.index_other hown)
  have hocc : ∀ s, occF layout v' (A' ++ C) s ≤ occF layout v (A ++ C) s + if s ∈ new then 1 else
      0 := by
    intro s
    have := h.occ s
    rw [occF_append, occF_append, hC]
    omega
  have hnew : ∀ s ∈ new, occF layout v (A ++ C) s = 0 := by
    intro s hs
    by_contra hne
    exact h.takes.clear s hs (hown.inUse s (by omega)).1
  constructor
  · intro s
    have h₁ := hocc s
    have h₂ := hown.once s
    split at h₁
    · rename_i hs; have := hnew s hs; omega
    · omega
  · intro s hs
    have h₁ := hocc s
    split at h₁
    · rename_i hs'
      have hclear := h.takes.clear s hs'
      exact ⟨(h.takes.inUse s).2 (.inr hs'), fun hF => hclear (hr.inUse s (.inl hF)).1,
        fun hP => hclear (hr.inUse s (.inr hP)).1⟩
    · obtain ⟨hu, h₂⟩ := hown.inUse s (by omega)
      exact ⟨h.takes.mono hu, h₂⟩

/-! ## Composing walks -/

/-- There are no more blocks than before and the sectors taken. -/
theorem Reserved.grown (h : Reserved file F v b A n ok A' v' b' new) :
    (blocksF layout v' A').length + freeCount b' ≤ (blocksF layout v A).length + freeCount b := by
  have hsub : (blocksF layout v' A').Subperm (blocksF layout v A ++ new) := by
    rw [List.subperm_ext_iff]
    intro s _
    rw [List.count_append, count_blocksF, count_blocksF, h.takes.nodup.count]
    exact h.occ s
  have h₁ := hsub.length_le
  have h₂ := h.takes.count
  rw [List.length_append] at h₁
  omega

theorem Reserved.refl (hm : missingF layout v A n = [])
    (hfull : ∀ i < n, i < capacity layout A → dataF layout v A i ≠ 0) :
    Reserved file F v b A n true A v b [] where
  takes := .nil b
  frame _ _ _ _ _ := rfl
  holds h := h
  roots := .refl A
  occ s := by simp
  index s hs := .inl hs
  keep _ _ := rfl
  fresh i h h' := absurd h h'
  full _ := hfull
  ok_iff := by simp [hm]
  left := by simp [hm]
  zero := by simp [hm]
  idle _ := ⟨rfl, fun _ _ => rfl⟩

theorem Reserved.stop (A : Forest BlockSector) : Reserved file F v b A 0 true A v b [] :=
  .refl missingF_zero (by simp)

/-- A walk that fails in the first part does not come to the second. -/
theorem Reserved.fail_append (h : Reserved file F v b A n false A' v₁ b₁ new)
    (hown : Owned F P v b (A ++ C)) : Reserved file F v b (A ++ C) n false (A' ++ C) v₁ b₁ new := by
  have hidx := h.index_other hown
  have hlen : freeCount b < (missingF layout v A n).length := by
    have := h.ok_iff; simp only [Bool.false_eq_true, false_iff] at this; omega
  have hcap : capacity layout A' = capacity layout A := h.roots.capacity.symm
  constructor
  case takes => exact h.takes
  case frame =>
    intro s hs hF hi h0
    exact h.frame s hs hF (fun hi' => hi (indexF_append.2 (.inl hi'))) h0
  case holds => exact h.holds
  case roots => exact h.roots.append (.refl C)
  case occ =>
    intro s
    have := h.occ s
    rw [occF_append, occF_append, occF_congr hidx]; omega
  case index =>
    intro s hs
    rw [indexF_append, indexF_congr hidx] at hs
    rw [indexF_append]
    rcases hs with hs | hs
    · rcases h.index s hs with h' | h'
      · exact .inl (.inl h')
      · exact .inr h'
    · exact .inl (.inr hs)
  case keep =>
    intro i hi
    rw [dataF_append] at hi ⊢
    rw [dataF_append, hcap]
    split at hi
    · rename_i hlt; rw [if_pos hlt, if_pos hlt]; exact h.keep i hi
    · rename_i hlt; rw [if_neg hlt, if_neg hlt]; exact dataF_congr hidx _
  case fresh =>
    intro i hi hi'
    rw [dataF_append] at hi
    rw [dataF_append, hcap] at hi' ⊢
    split at hi
    · rename_i hlt; rw [if_pos hlt] at hi' ⊢; exact h.fresh i hi hi'
    · rename_i hlt
      rw [if_neg hlt, dataF_congr hidx] at hi'
      exact absurd hi hi'
  case full => exact fun hf => absurd hf (by decide)
  case ok_iff => simp only [Bool.false_eq_true, missingF_append, List.length_append, false_iff]; omega
  case left => rw [h.left, missingF_append, List.length_append]; omega
  case zero => rw [h.zero, missingF_append, List.getElem?_append_left hlen]
  case idle => exact fun hnew => ⟨by rw [(h.idle hnew).1], (h.idle hnew).2⟩

/-- A walk that succeeds in the first part goes on to the second. -/
theorem Reserved.append (h : Reserved file F v b A n true A' v₁ b₁ new) (hr : Ready file F P v b)
    (hown : Owned F P v b (A ++ C))
    (h' : Reserved file F v₁ b₁ C (n - capacity layout A) ok C' v₂ b₂ new') :
    Reserved file F v b (A ++ C) n ok (A' ++ C') v₂ b₂ (new ++ new') := by
  have hown₁ : Owned F P v₁ b₁ (A' ++ C) := h.owned hr hown
  -- neither walk moves the other's sectors
  have hC : ∀ s, IsIndexF layout v C s → v₁ s = v s := h.index_other hown
  have hA' : ∀ s, IsIndexF layout v₁ A' s → v₂ s = v₁ s := h'.index_other hown₁.symm
  have hcap : capacity layout A' = capacity layout A := h.roots.capacity.symm
  have hlen : (missingF layout v A n).length ≤ freeCount b := h.ok_iff.1 rfl
  have hmiss : missingF layout v (A ++ C) n =
      missingF layout v A n ++ missingF layout v₁ C (n - capacity layout A) := by
    rw [missingF_append, missingF_congr hC]
  have hfree : freeCount b₁ = freeCount b - (missingF layout v A n).length := h.left
  constructor
  case takes => exact h.takes.trans h'.takes
  case frame =>
    intro s hs hF hi h0
    rw [List.mem_append, not_or] at hs
    rw [indexF_append, not_or] at hi
    rw [h'.frame s hs.2 hF (fun hi' => hi.2 ((indexF_congr hC s).1 hi')) h0, h.frame s hs.1 hF hi.1 h0]
  case holds => exact fun hb => h'.holds (h.holds hb)
  case roots => exact h.roots.append h'.roots
  case occ =>
    intro s
    have h₁ := h.occ s
    have h₂ := h'.occ s
    rw [occF_append, occF_append, occF_congr hA']
    rw [occF_congr hC] at h₂
    by_cases hs : s ∈ new
    · have hs' : s ∉ new' := fun hs' => h'.takes.clear s hs' ((h.takes.inUse s).2 (.inr hs))
      simp only [List.mem_append, hs, hs', true_or, if_true, if_false] at h₁ h₂ ⊢
      omega
    · by_cases hs' : s ∈ new'
      · simp only [List.mem_append, hs, hs', or_true, if_true, if_false] at h₁ h₂ ⊢
        omega
      · simp only [List.mem_append, hs, hs', or_self, if_false] at h₁ h₂ ⊢
        omega
  case index =>
    intro s hs
    rw [indexF_append, indexF_congr hA'] at hs
    rw [indexF_append, List.mem_append]
    rcases hs with hs | hs
    · rcases h.index s hs with h₁ | h₁
      · exact .inl (.inl h₁)
      · exact .inr (.inl h₁)
    · rcases h'.index s hs with h₁ | h₁
      · exact .inl (.inr ((indexF_congr hC s).1 h₁))
      · exact .inr (.inr h₁)
  case keep =>
    intro i hi
    rw [dataF_append] at hi ⊢
    rw [dataF_append, hcap]
    split at hi
    · rename_i hlt
      rw [if_pos hlt, if_pos hlt, dataF_congr hA', h.keep i hi]
    · rename_i hlt
      rw [if_neg hlt, if_neg hlt, ← dataF_congr hC, h'.keep]
      rw [dataF_congr hC]; exact hi
  case fresh =>
    intro i hi hi'
    rw [dataF_append] at hi
    rw [dataF_append, hcap] at hi' ⊢
    split at hi
    · rename_i hlt
      rw [if_pos hlt, dataF_congr hA'] at hi' ⊢
      obtain ⟨hnew, hz⟩ := h.fresh i hi hi'
      have hocc : 1 ≤ occF layout v₁ A' (dataF layout v₁ A' i) := occF_dataF hi'
      have honce := hown₁.once (dataF layout v₁ A' i)
      rw [occF_append] at honce
      obtain ⟨hu, hF, -⟩ := hown₁.left.inUse _ hocc
      exact ⟨List.mem_append_left _ hnew, by rw [h'.other hu hF (by omega) hi', hz]⟩
    · rename_i hlt
      rw [if_neg hlt] at hi' ⊢
      obtain ⟨hnew, hz⟩ := h'.fresh _ (by rw [dataF_congr hC]; exact hi) hi'
      exact ⟨List.mem_append_right _ hnew, hz⟩
  case full =>
    intro hok i hi hic
    rw [dataF_append, hcap]
    split
    · rename_i hlt
      rw [dataF_congr hA']
      exact h.full rfl i hi hlt
    · rename_i hlt
      rw [capacity_append] at hic
      exact h'.full hok _ (by omega) (by omega)
  case ok_iff => rw [h'.ok_iff, hmiss, List.length_append, hfree]; omega
  case left => rw [h'.left, hfree, hmiss, List.length_append]; omega
  case zero =>
    rw [h'.zero, hmiss, List.getElem?_append_right hlen, hfree, h.zero]
    rw [List.getElem?_eq_none (l := missingF layout v A n) (by omega)]
    simp
  case idle =>
    intro hnew
    obtain ⟨hnew, hnew'⟩ := List.append_eq_nil_iff.1 hnew
    obtain ⟨rfl, hv⟩ := h.idle hnew
    obtain ⟨rfl, hv'⟩ := h'.idle hnew'
    exact ⟨rfl, fun s hs => (hv' s hs).trans (hv s hs)⟩

theorem Reserved.append_stop (h : Reserved file F v b A n true A' v₁ b₁ new) (hr : Ready file F P v b)
    (hown : Owned F P v b (A ++ C)) (hn : n ≤ capacity layout A) :
    Reserved file F v b (A ++ C) n true (A' ++ C) v₁ b₁ new := by
  have hstop : Reserved file F v₁ b₁ C (n - capacity layout A) true C v₁ b₁ [] := by
    rw [Nat.sub_eq_zero_of_le hn]; exact .stop C
  simpa using h.append hr hown hstop

/-! ## Walking a node -/

variable {l : Nat} {p : BlockSector} {qs : List BlockSector}

theorem occF_single : occF layout v [(l, p)] = occ layout v l p := by funext s; simp

theorem indexF_single {s : BlockSector} :
    IsIndexF layout v [(l, p)] s ↔ IsIndex layout v l p s := by
  simp

theorem missingF_single (hn : 0 < n) :
    missingF layout v [(l, p)] n = missing layout v l p (min n (128 ^ l)) := by
  simp [missingF, show n ≠ 0 by omega]

theorem dataF_single {i : Nat} :
    dataF layout v [(l, p)] i = if i < 128 ^ l then data layout v l p i else 0 :=
  rfl

theorem missingF_node (hp : p ≠ 0) (hn : 0 < n) : missingF layout v [(l + 1, p)] n =
    missingF layout v (level l (v p).blocks) (min n (128 ^ (l + 1))) := by
  rw [missingF_single hn, missing_ne (show p ≠ layout.null from hp)]; rfl

/-- The entries of an owned index sector are owned, and the sector is not
among them. -/
theorem Owned.children (h : Owned F P v b [(l + 1, p)]) (hp : p ≠ 0) :
    Owned F P v b (level l (v p).blocks) ∧ occF layout v (level l (v p).blocks) p = 0 ∧
      InUse b p ∧ ¬ F p ∧ ¬ P p := by
  have hocc : ∀ s, occF layout v [(l + 1, p)] s =
      (if p = s then 1 else 0) + occF layout v (level l (v p).blocks) s := by
    intro s; rw [occF_single, occ_succ hp]; rfl
  have hpp := hocc p
  rw [if_pos rfl] at hpp
  refine ⟨⟨fun s => ?_, fun s hs => ?_⟩, ?_, h.inUse p (by omega)⟩
  · have := h.once s; rw [hocc] at this; omega
  · exact h.inUse s (by rw [hocc]; omega)
  · have := h.once p; omega

/-- A walk over an index sector's entries that fails is not written back:
the sector keeps its entries. -/
theorem Reserved.node_fail (hp : p ≠ 0) (hn : 0 < n) (hown : Owned F P v b [(l + 1, p)])
    (h : Reserved file F v b (level l (v p).blocks) (min n (128 ^ (l + 1))) false
      (level l qs) v₁ b₁ new) :
    Reserved file F v b [(l + 1, p)] n false [(l + 1, p)] v₁ b₁ new := by
  obtain ⟨-, hocc, hu, hF, -⟩ := hown.children hp
  have hv : v₁ p = v p := h.other hu hF hocc hp
  have hmiss := missingF_node (v := v) (l := l) hp hn
  have hdata : ∀ {w : Image} {i}, w p = v p → dataF layout w [(l + 1, p)] i =
      if i < 128 ^ (l + 1) then dataF layout w (level l (v p).blocks) i else 0 := by
    intro w i hw; rw [dataF_single, data_succ hp, layout_children, hw]
  have hle : ∀ {w w' : Image} {i}, dataF layout w (level l (v p).blocks) i ≠ 0 →
      dataF layout w' (level l (v p).blocks) i = dataF layout w' (level l qs) i :=
        fun hi => h.roots.dataF_ne hi
  constructor
  case takes => exact h.takes
  case frame =>
    intro s hs hF hi h0
    refine h.frame s hs hF (fun hi' => hi ?_) h0
    rw [indexF_single, index_succ hp]; exact .inr hi'
  case holds => exact h.holds
  case roots => exact .refl _
  case occ =>
    intro s
    have h₁ := h.occ s
    have h₂ := h.roots.occF (v := v₁) s
    rw [occF_single, occF_single, occ_succ hp, occ_succ hp, layout_children, hv]
    omega
  case index =>
    intro s hs
    rw [indexF_single, index_succ hp, layout_children, hv] at hs
    rw [indexF_single, index_succ hp, layout_children]
    rcases hs with hs | hs
    · exact .inl (.inl hs)
    · rcases h.index s (h.roots.indexF hs) with h' | h'
      · exact .inl (.inr h')
      · exact .inr h'
  case keep =>
    intro i hi
    rw [hdata rfl] at hi ⊢
    rw [hdata hv]
    split at hi
    · rename_i hlt; rw [if_pos hlt, if_pos hlt, hle hi, h.keep i hi]
    · exact absurd rfl hi
  case fresh =>
    intro i hi hi'
    rw [hdata rfl] at hi
    rw [hdata hv] at hi' ⊢
    split at hi'
    · rename_i hlt
      rw [if_pos hlt] at hi
      rw [if_pos hlt, hle hi']
      exact h.fresh i hi (by rw [← hle hi']; exact hi')
    · exact absurd rfl hi'
  case full => exact fun hf => absurd hf (by decide)
  case ok_iff => rw [hmiss]; exact h.ok_iff
  case left => rw [hmiss]; exact h.left
  case zero => rw [hmiss]; exact h.zero
  case idle => exact fun hnew => ⟨rfl, (h.idle hnew).2⟩

/-- A walk over an index sector's entries that succeeds is written back. -/
theorem Reserved.node_ok (hp : p ≠ 0) (hn : 0 < n) (hr : Ready file F P v b)
    (hown : Owned F P v b [(l + 1, p)]) (hqs : qs.length = 128)
    (h : Reserved file F v b (level l (v p).blocks) (min n (128 ^ (l + 1))) true
      (level l qs) v₁ b₁ new) :
    Reserved file F v b [(l + 1, p)] n true [(l + 1, p)] (Function.update v₁ p (Sector.ofBlocks qs))
    b₁ new := by
  obtain ⟨hownA, hocc, hu, hF, hP⟩ := hown.children hp
  have hpnew : p ∉ new := fun hs => h.takes.clear p hs hu
  have hpidx : ¬ IsIndexF layout v₁ (level l qs) p := by
    intro hi
    rcases h.index p hi with hi | hi
    · have := indexF_occ hi; omega
    · exact hpnew hi
  have hidx : ∀ s, IsIndexF layout v₁ (level l qs) s →
      Function.update v₁ p (Sector.ofBlocks qs) s = v₁ s := by
    intro s hs
    refine Function.update_of_ne ?_ _ _
    rintro rfl
    exact hpidx hs
  have hblocks : (Function.update v₁ p (Sector.ofBlocks qs) p).blocks = qs := by
    rw [Function.update_self, Sector.blocks_ofBlocks hqs]
  have hmiss := missingF_node (v := v) (l := l) hp hn
  have hdata : ∀ i, dataF layout (Function.update v₁ p (Sector.ofBlocks qs)) [(l + 1, p)] i =
      if i < 128 ^ (l + 1) then dataF layout v₁ (level l qs) i else 0 := by
    intro i; rw [dataF_single, data_succ hp, layout_children, hblocks, dataF_congr hidx]
  have hdata₀ : ∀ i, dataF layout v [(l + 1, p)] i =
      if i < 128 ^ (l + 1) then dataF layout v (level l (v p).blocks) i else 0 := by
    intro i; rw [dataF_single, data_succ hp]; rfl
  constructor
  case takes => exact h.takes
  case frame =>
    intro s hs hF hi h0
    rw [indexF_single, index_succ hp, not_or] at hi
    rw [Function.update_of_ne hi.1, h.frame s hs hF hi.2 h0]
  case holds =>
    intro hb
    have hr₁ := h.ready hr hownA
    refine Holds.congr hr₁.fileOk (h.holds hb) fun s hs => Function.update_of_ne ?_ _ _
    rintro rfl
    rcases hs with hs | hs
    · exact hP hs
    · exact hF hs
  case roots => exact .refl _
  case occ =>
    intro s
    have h₁ := h.occ s
    rw [occF_single, occF_single, occ_succ hp, occ_succ hp, layout_children, hblocks, occF_congr hidx]
    omega
  case index =>
    intro s hs
    rw [indexF_single, index_succ hp, layout_children, hblocks, indexF_congr hidx] at hs
    rw [indexF_single, index_succ hp, layout_children]
    rcases hs with hs | hs
    · exact .inl (.inl hs)
    · rcases h.index s hs with h' | h'
      · exact .inl (.inr h')
      · exact .inr h'
  case keep =>
    intro i hi
    rw [hdata₀] at hi ⊢
    rw [hdata]
    split at hi
    · rename_i hlt; rw [if_pos hlt, if_pos hlt, h.keep i hi]
    · exact absurd rfl hi
  case fresh =>
    intro i hi hi'
    rw [hdata₀] at hi
    rw [hdata] at hi' ⊢
    split at hi'
    · rename_i hlt
      rw [if_pos hlt] at hi ⊢
      obtain ⟨hnew, hz⟩ := h.fresh i hi hi'
      have hne : dataF layout v₁ (level l qs) i ≠ p := by rintro rfl; exact hpnew hnew
      exact ⟨hnew, by rw [Function.update_of_ne hne, hz]⟩
    · exact absurd rfl hi'
  case full =>
    intro _ i hi hic
    rw [hdata]
    simp only [capacity_cons, capacity_nil, layout_width, Nat.add_zero] at hic
    rw [if_pos hic]
    exact h.full rfl i (by omega) (by rw [capacity_entries _ (Sector.length_blocks _)]; exact hic)
  case ok_iff => rw [hmiss]; exact h.ok_iff
  case left => rw [hmiss]; exact h.left
  case zero =>
    rw [Function.update_of_ne (Ne.symm hp), hmiss]; exact h.zero
  case idle =>
    intro hnew
    obtain ⟨hsame, hv⟩ := h.idle hnew
    have hqs : qs = (v p).blocks := List.map_injective_iff.2 (fun _ _ he => (Prod.mk.inj he).2) hsame
    refine ⟨rfl, fun s hs => ?_⟩
    by_cases hsp : s = p
    · rw [hsp, Function.update_self, hqs, Sector.ofBlocks_blocks]
    · rw [Function.update_of_ne hsp, hv s hs]

/-! ## A sector that is missing -/

/-- The tree under a sector of zeros is the sector alone. -/
theorem tree_zeros (hp : p ≠ 0) (hz : v p = Sector.zeros) :
    (∀ s, occF layout v [(l, p)] s = if p = s then 1 else 0) ∧
      (∀ s, IsIndexF layout v [(l, p)] s → s = p) ∧
      ∀ i, dataF layout v [(l, p)] i ≠ 0 → l = 0 ∧ dataF layout v [(l, p)] i = p := by
  cases l with
  | zero =>
    refine ⟨fun s => ?_, fun s hs => ?_, fun i hi => ⟨rfl, ?_⟩⟩
    · rw [occF_single, occ, if_neg (show p ≠ layout.null from hp)]
    · exact absurd (indexF_single.1 hs) id
    · rw [dataF_single] at hi ⊢
      split at hi
      · rename_i hlt; rw [if_pos hlt, data]
      · exact absurd rfl hi
  | succ l =>
    have hc : layout.children (v p) = List.replicate 128 layout.null := by
      rw [hz]; exact Sector.blocks_zeros
    refine ⟨fun s => ?_, fun s hs => ?_, fun i hi => absurd ?_ hi⟩
    · rw [occF_single, occ_succ hp, hc, occF_null]; rfl
    · rw [indexF_single, index_succ hp, hc] at hs
      exact hs.resolve_right (not_indexF_null _)
    · rw [dataF_single, data_succ hp, hc, dataF_null]; simp

/-- The kind of a root at level `l`. -/
def rootKind (l : Nat) : Kind := if l = 0 then .data else .index

theorem missingF_none (hp : p ≠ 0) (hz : v₁ p = Sector.zeros) (hn : 0 < n) :
    missingF layout v [(l, 0)] n = rootKind l :: missingF layout v₁ [(l, p)] n := by
  rw [missingF_single hn, missingF_single hn]
  cases l with
  | zero => simp [missing, rootKind, hp]
  | succ l =>
    have hc : layout.children (v₁ p) = List.replicate 128 layout.null := by
      rw [hz]; exact Sector.blocks_zeros
    rw [missing_ne (show p ≠ layout.null from hp), hc,
      show (0 : BlockSector) = layout.null from rfl, missing_null]
    exact congrArg (Kind.index :: ·)
      (missingF_congr (fun s hs => absurd hs (not_indexF_null _)) _)

/-- A missing sector that is supplied, and the walk from there. -/
theorem Reserved.alloc (hr : Ready file F P v b) (htakes : Takes b b₁ [p])
    (hv₁ : ∀ t, ¬ F t → v₁ t = v t) (hb : Holds file b₁ v₁) (hn : 0 < n)
    (h : Reserved file F (Function.update v₁ p Sector.zeros) b₁ [(l, p)] n ok [(l, p)] v₂ b₂ new) :
    Reserved file F v b [(l, 0)] n ok [(l, p)] v₂ b₂ (p :: new) := by
  have hclear : ¬ InUse b p := htakes.clear p (by simp)
  have hp : p ≠ 0 := by rintro rfl; exact hclear hr.zero
  have hpF : ¬ F p := fun hF => hclear (hr.inUse p (.inl hF)).1
  have hpP : ¬ P p := fun hP => hclear (hr.inUse p (.inr hP)).1
  have hpnew : p ∉ new := fun hs => h.takes.clear p hs ((htakes.inUse p).2 (.inr (by simp)))
  obtain ⟨hocc, hidx, hdata⟩ := tree_zeros (l := l) hp (Function.update_self p Sector.zeros v₁)
  have hmiss := missingF_none (v := v) (l := l) hp (Function.update_self p Sector.zeros v₁) hn
  have hcount : freeCount b = freeCount b₁ + 1 := by have := htakes.count; simpa using this.symm
  have hnull : ∀ i, dataF layout v [(l, 0)] i = 0 := by
    intro i; rw [dataF_single]; split
    · exact data_null
    · rfl
  constructor
  case takes => exact htakes.trans h.takes
  case frame =>
    intro s hs hF _ h0
    rw [List.mem_cons, not_or] at hs
    rw [h.frame s hs.2 hF (fun hi => hs.1 (hidx s hi)) h0, Function.update_of_ne hs.1, hv₁ s hF]
  case holds =>
    intro _
    have hok : FileOk file b₁.length F P v₁ := by
      rw [htakes.length]
      exact hr.fileOk.congr fun s hs => hv₁ s fun hF => hr.fileOk.disjoint s hF hs
    refine h.holds (Holds.congr hok hb fun s hs => Function.update_of_ne ?_ _ _)
    rintro rfl
    exact hs.elim hpP hpF
  case roots => exact .cons ⟨rfl, .inl rfl⟩ .nil
  case occ =>
    intro s
    have h₁ := h.occ s
    rw [hocc] at h₁
    simp only [List.mem_cons]
    by_cases hs : p = s
    · subst hs
      rw [if_pos rfl, if_neg hpnew] at h₁
      rw [if_pos (.inl rfl)]; omega
    · rw [if_neg hs] at h₁
      by_cases hs' : s ∈ new
      · rw [if_pos hs'] at h₁; rw [if_pos (.inr hs')]; omega
      · rw [if_neg hs'] at h₁; omega
  case index =>
    intro s hs
    rw [List.mem_cons]
    rcases h.index s hs with h' | h'
    · exact .inr (.inl (hidx s h'))
    · exact .inr (.inr h')
  case keep => exact fun i hi => absurd (hnull i) hi
  case fresh =>
    intro i _ hi
    by_cases h0 : dataF layout (Function.update v₁ p Sector.zeros) [(l, p)] i = 0
    · obtain ⟨hnew, hz⟩ := h.fresh i h0 hi
      exact ⟨List.mem_cons_of_mem _ hnew, hz⟩
    · -- the sector itself, if it is a data sector
      obtain ⟨rfl, he⟩ := hdata i h0
      rw [h.keep i h0, he]
      refine ⟨by simp, ?_⟩
      rw [h.frame p hpnew hpF (fun hi => absurd (indexF_single.1 hi) id) hp, Function.update_self]
  case full => exact h.full
  case ok_iff => rw [h.ok_iff, hmiss, List.length_cons, hcount]; omega
  case left => rw [h.left, hmiss, List.length_cons, hcount]; omega
  case zero =>
    rw [h.zero, hmiss, hcount, List.getElem?_cons_succ, Function.update_of_ne (Ne.symm hp)]
    rw [hv₁ 0 fun hF => (hr.inUse 0 (.inl hF)).2 rfl]
  case idle => exact fun hnew => absurd hnew (by simp)

/-- A missing data sector with no sector free. -/
theorem Reserved.leaf_fail (hfree : freeCount b = 0) (hn : 0 < n) :
    Reserved file F v b [(0, 0)] n false [(0, 0)] v b [] := by
  have hmiss : missingF layout v [(0, 0)] n = [.data] := by rw [missingF_single hn]; rfl
  have hnull : ∀ i, dataF layout v [(0, 0)] i = 0 := by
    intro i; rw [dataF_single]; split <;> rfl
  constructor
  case takes => exact .nil b
  case frame => exact fun _ _ _ _ _ => rfl
  case holds => exact id
  case roots => exact .refl _
  case occ => intro s; simp
  case index => exact fun s hs => .inl hs
  case keep => exact fun _ _ => rfl
  case fresh => exact fun i _ hi => absurd (hnull i) hi
  case full => exact fun hf => absurd hf (by decide)
  case ok_iff => rw [hmiss, hfree]; decide
  case left => rw [hmiss, hfree]; rfl
  case zero => rw [hmiss, hfree]; rfl
  case idle => exact fun _ => ⟨rfl, fun _ _ => rfl⟩

/-- A missing index sector with no sector free: sector 0 is filled with zeros
in its place, and the walk fails at the first entry. -/
theorem Reserved.node_none (hfree : freeCount b = 0) (hn : 0 < n)
    (h : Reserved file F (Function.update v 0 Sector.zeros) b (level l (List.replicate 128 0))
      (min n (128 ^ (l + 1))) ok (level l qs) v₁ b₁ new) (hr : Ready file F P v b) :
    ok = false ∧ Reserved file F v b [(l + 1, 0)] n false [(l + 1, 0)] v₁ b₁ [] := by
  have hnew : new = [] := List.eq_nil_of_length_eq_zero (by have := h.takes.le; omega)
  subst hnew
  have hpos : 0 < 128 ^ (l + 1) := Nat.pow_pos (by decide)
  have hok : ok = false := by
    by_contra hok
    rw [Bool.not_eq_false] at hok
    have hne := h.full hok 0 (by omega) (by rw [capacity_entries _ (by simp)]; exact hpos)
    have := (h.fresh 0 (dataF_null _) hne).1
    simp at this
  have hmiss : missingF layout v [(l + 1, 0)] n =
      .index :: missingF layout v (level l (List.replicate 128 0)) (min n (128 ^ (l + 1))) := by
    rw [missingF_single hn]; exact missing_null
  have hnull : ∀ {w : Image} i, dataF layout w [(l + 1, 0)] i = 0 := by
    intro w i; rw [dataF_single]; split
    · exact data_null
    · rfl
  have h0 : v₁ 0 = Sector.zeros := by rw [h.zero, Function.update_self]; split <;> rfl
  refine ⟨hok, ?_⟩
  constructor
  case takes => exact h.takes
  case frame =>
    intro s hs hF _ hs0
    rw [h.frame s hs hF (not_indexF_null _) hs0, Function.update_of_ne hs0]
  case holds =>
    intro hb
    refine h.holds (Holds.congr hr.fileOk hb fun s hs => Function.update_of_ne ?_ _ _)
    rintro rfl
    exact (hr.inUse 0 hs.symm).2 rfl
  case roots => exact .refl _
  case occ =>
    intro s
    rw [occF_single, show (0 : BlockSector) = layout.null from rfl, occ_null]
    exact Nat.zero_le _
  case index =>
    intro s hs
    exact absurd (indexF_single.1 hs) not_index_null
  case keep => exact fun i hi => absurd (hnull i) hi
  case fresh => exact fun i _ hi => absurd (hnull i) hi
  case full => exact fun hf => absurd hf (by decide)
  case ok_iff => rw [hmiss, hfree]; simp
  case left => rw [h.left, hmiss, hfree]; simp
  case zero => rw [hmiss, hfree, h0]; rfl
  case idle => exact fun _ => ⟨rfl, fun s hs => by rw [(h.idle rfl).2 s hs, Function.update_of_ne hs]⟩

/-! ## The walks of inode.c -/

theorem divRoundUp_zero {u : Nat} (hu : 0 < u) : divRoundUp 0 u = 0 := Nat.div_eq_of_lt (by omega)

theorem divRoundUp_pos {n u : Nat} (hu : 0 < u) (hn : 0 < n) :
    divRoundUp n u = divRoundUp (n - u) u + 1 := by
  simp only [divRoundUp]
  by_cases h : n ≤ u
  · rw [Nat.sub_eq_zero_of_le h, Nat.div_eq_of_lt (show 0 + u - 1 < u by omega),
      show n + u - 1 = (n - 1) + u by omega, Nat.add_div_right _ hu, Nat.div_eq_of_lt (by omega)]
  · rw [show n + u - 1 = (n - u + u - 1) + u by omega, Nat.add_div_right _ hu]

/-- The walk under each entry at level `l` does what it should. -/
def WalksAt (file : Option InodeDisk) (F P : BlockSector → Prop) (l : Nat) : Prop :=
  ∀ (v : Image) (b : Bitmap) (p : BlockSector) (n : Nat), Ready file F P v b →
    Owned F P v b [(l, p)] → 0 < n →
    ∃ ok p' v' b' new, (inodeReserveIndirect file l p (min n (128 ^ l))).exec b v =
    some ((ok, p'), b', v') ∧
      Reserved file F v b [(l, p)] n ok [(l, p')] v' b' new

/-- The loop over entries, given the walk under each. -/
theorem exec_reserveBlocks (hl : WalksAt file F P l) (hr : Ready file F P v b)
    (hown : Owned F P v b (level l qs)) (hn : n ≤ qs.length * 128 ^ l) :
    ∃ ok qs' v' b' new, (reserveBlocks (inodeReserveIndirect file l) (128 ^ l)
      (divRoundUp n (128 ^ l)) qs n).exec b v =
        some ((ok, qs'), b', v') ∧ qs'.length = qs.length ∧
      Reserved file F v b (level l qs) n ok (level l qs') v' b' new := by
  have hpos : 0 < 128 ^ l := Nat.pow_pos (by decide)
  induction qs generalizing v b n with
  | nil =>
    obtain rfl : n = 0 := by simpa using hn
    rw [divRoundUp_zero hpos]
    exact ⟨true, [], v, b, [], rfl, rfl, .stop _⟩
  | cons q qs ih =>
    by_cases hn0 : n = 0
    · subst hn0
      rw [divRoundUp_zero hpos]
      exact ⟨true, q :: qs, v, b, [], rfl, rfl, .stop _⟩
    rw [divRoundUp_pos hpos (by omega)]
    have hown' : Owned F P v b ([(l, q)] ++ level l qs) := hown
    obtain ⟨ok, q', v₁, b₁, new, hexec, hq⟩ := hl v b q n hr hown'.left (by omega)
    cases ok with
    | false =>
      refine ⟨false, q' :: qs, v₁, b₁, new, ?_, rfl, hq.fail_append hown'⟩
      simp [reserveBlocks, hexec]
    | true =>
      have hr₁ := hq.ready hr hown'.left
      have hown₁ := (hq.owned hr hown').right
      obtain ⟨ok, qs', v₂, b₂, new', hexec', hlen, hqs⟩ := ih (n := n - 128 ^ l) hr₁ hown₁ (by
        rw [List.length_cons, Nat.succ_mul] at hn; omega)
      refine ⟨ok, q' :: qs', v₂, b₂, new ++ new', ?_, by simp [hlen], ?_⟩
      · have hsub : n - min n (128 ^ l) = n - 128 ^ l := by omega
        simp [reserveBlocks, hexec, hsub, hexec']
      · have hcap : capacity layout [(l, q)] = 128 ^ l := by simp
        exact hq.append hr hown' (by rw [hcap]; exact hqs)

theorem walksAt_zero : WalksAt file F P 0 := by
  intro v b p n hr hown hn
  by_cases hp : p = 0
  · subst hp
    rcases exec_freeMapAllocate hr.fileOk hr.size with
      ⟨hfree, hexec⟩ | ⟨s, b₁, v₁, hexec, htakes, hv₁, hb⟩
    · refine ⟨false, 0, v, b, [], ?_, .leaf_fail hfree hn⟩
      simp [inodeReserveIndirect, hexec]
    · refine ⟨true, s, _, b₁, [s], ?_, .alloc hr htakes hv₁ hb hn (.refl ?_ ?_)⟩
      · simp [inodeReserveIndirect, hexec]
      all_goals
        have hs : s ≠ 0 := by rintro rfl; exact htakes.clear 0 (by simp) hr.zero
      · rw [missingF_single hn, missing, if_neg (show s ≠ layout.null from hs)]
      · intro i _ hi
        rw [dataF_single, if_pos (by simpa using hi)]
        exact hs
  · refine ⟨true, p, v, b, [], ?_, .refl ?_ ?_⟩
    · simp [inodeReserveIndirect, hp]
    · rw [missingF_single hn, missing, if_neg (show p ≠ layout.null from hp)]
    · intro i _ hi
      rw [dataF_single, if_pos (by simpa using hi)]
      exact hp

/-- An index sector that is there, with the walk under its entries. -/
theorem exec_reserveNode (hl : WalksAt file F P l) (hl1 : l ≤ 1) (hp : p ≠ 0) (hn : 0 < n)
    (hr : Ready file F P v b) (hown : Owned F P v b [(l + 1, p)]) :
    ∃ ok v' b' new, (inodeReserveIndirect file (l + 1) p (min n (128 ^ (l + 1)))).exec b v =
        some ((ok, p), b', v') ∧ Reserved file F v b [(l + 1, p)] n ok [(l + 1, p)] v' b' new := by
  obtain ⟨hownA, -⟩ := hown.children hp
  have hunit : (if l = 0 then 1 else indirectBlocksPerSector) = 128 ^ l := by
    rcases Nat.le_one_iff_eq_zero_or_eq_one.1 hl1 with rfl | rfl <;> rfl
  obtain ⟨ok, qs', v₁, b₁, new, hexec, hlen, hqs⟩ := exec_reserveBlocks
      (n := min n (128 ^ (l + 1))) hl hr hownA (by
    rw [Sector.length_blocks, Nat.pow_succ]; omega)
  cases ok with
  | false =>
    refine ⟨false, v₁, b₁, new, ?_, .node_fail hp hn hown hqs⟩
    simp [inodeReserveIndirect, hp, hunit, hexec]
  | true =>
    refine ⟨true, _, b₁, new, ?_, .node_ok hp hn hr hown (by rw [hlen, Sector.length_blocks]) hqs⟩
    simp [inodeReserveIndirect, hp, hunit, hexec]

theorem walksAt_succ (hl : WalksAt file F P l) (hl1 : l ≤ 1) : WalksAt file F P (l + 1) := by
  intro v b p n hr hown hn
  by_cases hp : p = 0
  · subst hp
    have hunit : (if l = 0 then 1 else indirectBlocksPerSector) = 128 ^ l := by
      rcases Nat.le_one_iff_eq_zero_or_eq_one.1 hl1 with rfl | rfl <;> rfl
    rcases exec_freeMapAllocate hr.fileOk hr.size with ⟨hfree, hexec⟩ | ⟨s, b₁, v₁, hexec, htakes,
      hv₁, hb⟩
    · -- no sector for the index sector: the walk goes on in sector 0
      have hr₀ : Ready file F P (Function.update v 0 Sector.zeros) b :=
        { hr with fileOk := hr.fileOk.congr fun t ht => Function.update_of_ne (hr.inUse t
          (.inr ht)).2 _ _ }
      have hblocks : (Function.update v 0 Sector.zeros 0).blocks = List.replicate 128 0 := by
        rw [Function.update_self, Sector.blocks_zeros]
      have hown₀ : Owned F P (Function.update v 0 Sector.zeros) b (level l (List.replicate 128 0)) :=
        have hocc (s) : occF layout (Function.update v 0 Sector.zeros)
            (level l (List.replicate 128 0)) s = 0 :=
          occF_null _
        ⟨fun s => by rw [hocc]; omega, fun s hs => by rw [hocc] at hs; omega⟩
      obtain ⟨ok, qs', v', b', new, hexec', -, hqs⟩ :=
        exec_reserveBlocks (n := min n (128 ^ (l + 1))) hl hr₀ hown₀
        (by rw [List.length_replicate, Nat.pow_succ]; omega)
      obtain ⟨rfl, h⟩ := hqs.node_none hfree hn hr
      refine ⟨false, 0, v', b', [], ?_, h⟩
      simp [inodeReserveIndirect, hexec, hunit, hexec', -List.reduceReplicate]
    · have hclear : ¬ InUse b s := htakes.clear s (by simp)
      have hs : s ≠ 0 := by rintro rfl; exact hclear hr.zero
      have hsP : ∀ t, P t → t ≠ s := by rintro t ht rfl; exact hclear (hr.inUse t (.inr ht)).1
      have hr₁ : Ready file F P (Function.update v₁ s Sector.zeros) b₁ := by
        refine ⟨?_, by rw [htakes.length]; exact hr.size,
          fun t ht => ⟨htakes.mono (hr.inUse t ht).1, (hr.inUse t ht).2⟩, htakes.mono hr.zero⟩
        rw [htakes.length]
        refine hr.fileOk.congr fun t ht => ?_
        rw [Function.update_of_ne (hsP t ht), hv₁ t fun hF => hr.fileOk.disjoint t hF ht]
      obtain ⟨hocc, -, -⟩ := tree_zeros (l := l + 1) hs (Function.update_self s Sector.zeros v₁)
      have hown₁ : Owned F P (Function.update v₁ s Sector.zeros) b₁ [(l + 1, s)] := by
        refine ⟨fun t => by rw [hocc]; split <;> omega, fun t ht => ?_⟩
        rw [hocc] at ht
        split at ht
        · rename_i he; subst he
          exact ⟨(htakes.inUse s).2 (.inr (by simp)), fun hF => hclear (hr.inUse s (.inl hF)).1,
            fun hP => hclear (hr.inUse s (.inr hP)).1⟩
        · omega
      obtain ⟨ok, v', b', new, hexec', h⟩ := exec_reserveNode hl hl1 hs hn hr₁ hown₁
      refine ⟨ok, s, v', b', s :: new, ?_, .alloc hr htakes hv₁ hb hn h⟩
      simp only [inodeReserveIndirect, hs, if_false] at hexec'
      simpa [inodeReserveIndirect, hexec] using hexec'
  · obtain ⟨ok, v', b', new, hexec, h⟩ := exec_reserveNode hl hl1 hp hn hr hown
    exact ⟨ok, p, v', b', new, hexec, h⟩

theorem walksAt (h : l ≤ 2) : WalksAt file F P l := by
  have h1 : WalksAt file F P 1 := walksAt_succ walksAt_zero (by omega)
  rcases l with _ | _ | l
  · exact walksAt_zero
  · exact h1
  · obtain rfl : l = 0 := by omega
    exact walksAt_succ h1 (by omega)

theorem Reserved.of_min (h : Reserved file F v b A (min n (capacity layout A)) ok A' v' b' new) :
    Reserved file F v b A n ok A' v' b' new := by
  have hm : missingF layout v A (min n (capacity layout A)) = missingF layout v A n := missingF_min
  exact { h with
    full := fun hok i hi hic => h.full hok i (by omega) hic
    ok_iff := hm ▸ h.ok_iff
    left := hm ▸ h.left
    zero := hm ▸ h.zero }

/-- **Growing an inode.** `inode_reserve` walks the inode's sectors for
`length` bytes. It succeeds when the walk does and an inode can be that long. -/
theorem exec_inodeReserve {d : InodeDisk} (length : Int) (hr : Ready file F P v b)
    (hd : d.directBlocks.length = 123) (hown : Owned F P v b d.roots) (hlen : 0 ≤ length) :
    ∃ ok d' v' b' new, (inodeReserve file d length).exec b v =
        some ((ok && decide (bytesToSectors length.toNat ≤ InodeDisk.maxSectors), d'), b', v') ∧
      (d'.directBlocks.length = 123 ∧ d'.isDir = d.isDir ∧ d'.length = d.length ∧ d'.magic = d.magic) ∧
      Reserved file F v b d.roots (bytesToSectors length.toNat) ok d'.roots v' b' new := by
  obtain ⟨n, hn⟩ : ∃ n, n = bytesToSectors length.toNat := ⟨_, rfl⟩
  rw [inodeReserve, if_neg (by omega), ← hn]
  have hown₀ : Owned F P v b (level 0 d.directBlocks ++ [(1, d.indirectBlock),
      (2, d.doublyIndirectBlock)]) := hown
  have hcap₀ : capacity layout (level 0 d.directBlocks) = 123 := by simp [hd]
  have hl : divRoundUp (min n 123) (128 ^ 0) = min n 123 := by simp [divRoundUp]
  -- the direct blocks
  obtain ⟨ok₀, direct, v₁, b₁, new₁, hexec₁, hlen₁, h₁⟩ :=
    exec_reserveBlocks (n := min n 123) walksAt_zero hr hown₀.left (by rw [hd]; omega)
  rw [hl] at hexec₁
  have hexec₁ : (reserveBlocks (inodeReserveIndirect file 0) 1 (min n directBlocksCount) d.directBlocks
    (min n directBlocksCount)).exec b v = some ((ok₀, direct), b₁, v₁) := hexec₁
  rw [← hcap₀] at h₁
  have h₁ := h₁.of_min
  simp only [Cmd.exec_bind, hexec₁, Option.bind_some]
  cases ok₀ with
  | false =>
    exact ⟨false, { d with directBlocks := direct }, v₁, b₁, new₁, rfl,
      ⟨hlen₁.trans hd, rfl, rfl, rfl⟩, h₁.fail_append hown₀⟩
  | true =>
  have hr₁ := h₁.ready hr hown₀.left
  have hown₁ : Owned F P v₁ b₁ ([(1, d.indirectBlock)] ++ [(2, d.doublyIndirectBlock)]) :=
    (h₁.owned hr hown₀).right
  by_cases hn₁ : n - min n 123 = 0
  · simp only [directBlocksCount, hn₁]
    refine ⟨true, { d with directBlocks := direct }, v₁, b₁, new₁, ?_,
      ⟨hlen₁.trans hd, rfl, rfl, rfl⟩, ?_⟩
    · simp [InodeDisk.maxSectors]; omega
    · exact h₁.append_stop hr hown₀ (by omega)
  -- the indirect block
  have hn₁' : n - min n 123 = n - 123 := by omega
  obtain ⟨ok₁, p₁, v₂, b₂, new₂, hexec₂, h₂⟩ :=
    walksAt (l := 1) (by omega) v₁ b₁ d.indirectBlock (n - 123) hr₁ hown₁.left (by omega)
  have hexec₂' : (inodeReserveIndirect file 1 d.indirectBlock (min (n - 123) 128)).exec b₁ v₁ =
    some ((ok₁, p₁), b₂, v₂) := hexec₂
  simp only [directBlocksCount, hn₁', show n - 123 ≠ 0 by omega, Bool.not_true, if_false,
    indirectBlocksPerSector, Bool.false_eq_true, Cmd.exec_bind, hexec₂', Option.bind_some]
  have hcap₁ : capacity layout [(1, d.indirectBlock)] = 128 := rfl
  cases ok₁ with
  | false =>
    exact ⟨false, { d with directBlocks := direct, indirectBlock := p₁ }, v₂, b₂, new₁ ++ new₂, rfl,
      ⟨hlen₁.trans hd, rfl, rfl, rfl⟩, h₁.append hr hown₀
      (by rw [hcap₀]; exact h₂.fail_append hown₁)⟩
  | true =>
  have hr₂ := h₂.ready hr₁ hown₁.left
  have hown₂ : Owned F P v₂ b₂ [(2, d.doublyIndirectBlock)] := (h₂.owned hr₁ hown₁).right
  by_cases hn₂ : n - 123 - min (n - 123) 128 = 0
  · simp only [hn₂]
    refine ⟨true, { d with directBlocks := direct, indirectBlock := p₁ }, v₂, b₂, new₁ ++ new₂, ?_,
      ⟨hlen₁.trans hd, rfl, rfl, rfl⟩, ?_⟩
    · simp [InodeDisk.maxSectors]; omega
    · exact h₁.append hr hown₀ (by rw [hcap₀]; exact h₂.append_stop hr₁ hown₁ (by omega))
  -- the doubly indirect block
  have hn₂' : n - 123 - min (n - 123) 128 = n - 123 - 128 := by omega
  obtain ⟨ok₂, p₂, v₃, b₃, new₃, hexec₃, h₃⟩ :=
    walksAt (l := 2) (by omega) v₂ b₂ d.doublyIndirectBlock (n - 123 - 128) hr₂ hown₂ (by omega)
  have hexec₃' : (inodeReserveIndirect file 2 d.doublyIndirectBlock
    (min (n - 123 - 128) (128 * 128))).exec b₂ v₂ = some ((ok₂, p₂), b₃, v₃) := hexec₃
  simp only [hn₂', show n - 123 - 128 ≠ 0 by omega, Bool.not_true, if_false, Bool.false_eq_true,
    Cmd.exec_bind, hexec₃', Option.bind_some]
  refine ⟨ok₂, { d with directBlocks := direct, indirectBlock := p₁, doublyIndirectBlock := p₂ },
    v₃, b₃, new₁ ++ (new₂ ++ new₃), ?_, ⟨hlen₁.trans hd, rfl, rfl, rfl⟩, ?_⟩
  · have hdec : decide (n - 123 - 128 - min (n - 123 - 128) (128 * 128) = 0) =
        decide (n ≤ InodeDisk.maxSectors) := by
      simp only [InodeDisk.maxSectors, decide_eq_decide]; omega
    rw [hdec]; rfl
  · exact h₁.append hr hown₀ (by rw [hcap₀]; exact h₂.append hr₁ hown₁ (by rw [hcap₁]; exact h₃))

end walks

end MyShell.Fs

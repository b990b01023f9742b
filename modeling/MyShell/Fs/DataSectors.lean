/-
The list of an inode's data sectors (`get_inode_data_sectors` in inode.c).
Where the length is covered it is what `byte_to_sector` finds, sector after
sector.
-/
import MyShell.Fs.Reserve

namespace MyShell.Fs

open Storage BlockTree

variable {S : Type}

/-! ## From source -/

/-- The loop over the doubly indirect block, for `l2` rounds. -/
def secondLevelSectors : Nat → List BlockSector → Nat → Disk S (List BlockSector)
  | 0, _, _ => pure []
  | _ + 1, [], _ => Cmd.fault
  | l2 + 1, entry :: blocks, numSectors2 => do
    let subsize := min numSectors2 indirectBlocksPerSector
    let indirectBlock2 ← Cmd.read entry
    let rest ← secondLevelSectors l2 blocks (numSectors2 - subsize)
    pure (indirectBlock2.blocks.take subsize ++ rest)

/-- `get_inode_data_sectors`, as the entries that it fills; there is always
memory. The array of a length past the doubly indirect block has more entries,
which stay as `malloc` left them: the ASSERT at the end prints a message. -/
def getInodeDataSectors (data : InodeDisk) : Disk S (Option (List BlockSector)) :=
  if data.length < 0 then pure none
  else do
    let numSectors := bytesToSectors data.length.toNat
    let l := min numSectors directBlocksCount
    let direct := data.directBlocks.take l
    let numSectors := numSectors - l
    let l := min numSectors indirectBlocksPerSector
    let indirect ← (if l > 0 then do
        let indirectBlock ← Cmd.read data.indirectBlock
        pure (indirectBlock.blocks.take l)
      else pure [])
    let numSectors := numSectors - l
    let l := min numSectors (indirectBlocksPerSector * indirectBlocksPerSector)
    let doubly ← (if l > 0 then do
        let indirectBlock ← Cmd.read data.doublyIndirectBlock
        secondLevelSectors (divRoundUp l indirectBlocksPerSector) indirectBlock.blocks l
      else pure [])
    pure (some (direct ++ indirect ++ doubly))

/-! ## What is listed -/

variable {d : InodeDisk} {v : Image} {n : Nat}

theorem take_blocks (s : Sector) {l : Nat} (hl : l ≤ 128) :
    s.blocks.take l = (List.range l).map s.word := by
  refine List.ext_getElem (by simpa using hl) fun i hi hi' => ?_
  simp [Sector.blocks]

theorem exec_secondLevelSectors (s : S) (blocks : List BlockSector) (hn : n ≤ 128 * blocks.length) :
    (secondLevelSectors (divRoundUp n 128) blocks n).exec s v =
      some ((List.range n).map fun i => (v (blocks.getD (i / 128) 0)).word (i % 128), s, v) := by
  induction blocks generalizing n with
  | nil =>
    obtain rfl : n = 0 := by simpa using hn
    rfl
  | cons entry blocks ih =>
    by_cases hn0 : n = 0
    · subst hn0
      rfl
    simp only [List.length_cons] at hn
    have hfirst : (List.range (min n 128)).map (v entry).word =
        (List.range (min n 128)).map fun i => (v ((entry :: blocks).getD (i / 128) 0)).word
        (i % 128) := by
      refine List.map_congr_left fun i hi => ?_
      have hi : i < 128 := by
        have := List.mem_range.1 hi
        omega
      rw [Nat.div_eq_of_lt hi, Nat.mod_eq_of_lt hi, List.getD_cons_zero]
    have hothers : ((List.range (n - 128)).map fun i => (v (blocks.getD (i / 128) 0)).word (i % 128)) =
        (List.range (n - 128)).map fun i =>
          (v ((entry :: blocks).getD ((min n 128 + i) / 128) 0)).word ((min n 128 + i) % 128) := by
      refine List.map_congr_left fun i hi => ?_
      have h128 : min n 128 = 128 := by
        have := List.mem_range.1 hi
        omega
      rw [h128, Nat.add_mod_left, Nat.add_div_left i (show 0 < 128 by decide), List.getD_cons_succ]
    have hsub : n - min n 128 = n - 128 := by omega
    have hrange : List.range n = List.range (min n 128) ++
        (List.range (n - 128)).map (min n 128 + ·) := by
      rw [← List.range_add, show min n 128 + (n - 128) = n by omega]
    rw [divRoundUp_pos (by decide) (by omega), secondLevelSectors]
    simp only [indirectBlocksPerSector, Cmd.exec_bind, Cmd.exec_read, Option.bind_some, hsub,
      ih (show n - 128 ≤ _ by omega), Cmd.exec_pure, take_blocks _ (Nat.min_le_right n 128)]
    rw [hfirst, hothers, hrange, List.map_append, List.map_map]
    rfl

/-- The list is what `index_to_sector` returns for each index. -/
theorem exec_getInodeDataSectors (s : S) (hd : d.directBlocks.length = 123) (hlen : 0 ≤ d.length)
    (hmax : bytesToSectors d.length.toNat ≤ InodeDisk.maxSectors) :
    (getInodeDataSectors d).exec s v = some (some
      ((List.range (bytesToSectors d.length.toNat)).map (sectorAt v d)), s, v) := by
  rw [getInodeDataSectors, if_neg (by omega)]
  generalize bytesToSectors d.length.toNat = n at *
  simp only [InodeDisk.maxSectors] at hmax
  simp only [directBlocksCount, indirectBlocksPerSector]
  -- the three parts
  have hdirect (l : Nat) (hl : l ≤ 123) : d.directBlocks.take l =
      (List.range l).map (sectorAt v d) := by
    refine List.ext_getElem (by simpa [hd] using hl) fun i hi hi' => ?_
    have hi : i < 123 := by
      rw [List.length_take] at hi
      omega
    rw [List.getElem_take, List.getElem_map, List.getElem_range, sectorAt, if_pos hi,
      List.getD_eq_getElem]
  have hindirect (l : Nat) (hl : l ≤ 128) :
      (v d.indirectBlock).blocks.take l = (List.range l).map fun i => sectorAt v d (123 + i) := by
    rw [take_blocks _ hl]
    refine List.map_congr_left fun i hi => ?_
    have hi := List.mem_range.1 hi
    rw [sectorAt, if_neg (by omega), if_pos (by omega), Nat.add_sub_cancel_left]
  have hdoubly (l : Nat) (hl : l ≤ 128 * 128) :
      (secondLevelSectors (divRoundUp l 128) (v d.doublyIndirectBlock).blocks l).exec s v =
        some ((List.range l).map fun i => sectorAt v d (123 + (128 + i)), s, v) := by
    rw [exec_secondLevelSectors s _ (by simpa using hl)]
    congr 2
    refine List.map_congr_left fun i hi => ?_
    have hi := List.mem_range.1 hi
    have hsub : 123 + (128 + i) - 251 = i := by omega
    have hlow : 123 + (128 + i) < InodeDisk.maxSectors := by
      simp only [InodeDisk.maxSectors]
      omega
    rw [getD_blocks _ (by omega), sectorAt, if_neg (by omega), if_neg (by omega), if_pos hlow, hsub]
  generalize hn₁ : min n 123 = n₁
  generalize hn₂ : min (n - n₁) 128 = n₂
  generalize hn₃ : min (n - n₁ - n₂) (128 * 128) = n₃
  obtain rfl : n = n₁ + (n₂ + n₃) := by omega
  have hread : (if n₂ > 0 then do
        let indirectBlock ← Cmd.read d.indirectBlock
        pure (indirectBlock.blocks.take n₂)
      else pure [] : Disk S _).exec s v =
      some ((List.range n₂).map fun i => sectorAt v d (123 + i), s, v) := by
    split
    · simp [hindirect n₂ (by omega)]
    · next hzero =>
      obtain rfl : n₂ = 0 := by omega
      rfl
  have hread' : (if n₃ > 0 then do
        let indirectBlock ← Cmd.read d.doublyIndirectBlock
        secondLevelSectors (divRoundUp n₃ 128) indirectBlock.blocks n₃
      else pure [] : Disk S _).exec s v = some ((List.range n₃).map fun i =>
        sectorAt v d (123 + (128 + i)), s, v) := by
    split
    · simp [hdoubly n₃ (by omega)]
    · next hzero =>
      obtain rfl : n₃ = 0 := by omega
      rfl
  rw [Cmd.exec_bind, hread, Option.bind_some, Cmd.exec_bind, hread', Option.bind_some,
    hdirect n₁ (by omega)]
  have hrange : List.range (n₁ + (n₂ + n₃)) = List.range n₁ ++ ((List.range n₂).map (n₁ + ·) ++
      (List.range n₃).map fun i => n₁ + (n₂ + i)) := by
    rw [List.range_add, List.range_add, List.map_append, List.map_map]
    rfl
  rw [Cmd.exec_pure, hrange, List.map_append, List.map_append, List.map_map, List.map_map,
    List.append_assoc]
  have hsecond : ((List.range n₂).map fun i => sectorAt v d (123 + i)) =
      (List.range n₂).map (sectorAt v d ∘ (n₁ + ·)) := by
    refine List.map_congr_left fun i hi => ?_
    have hi := List.mem_range.1 hi
    rw [Function.comp, show n₁ = 123 by omega]
  have hthird : ((List.range n₃).map fun i => sectorAt v d (123 + (128 + i))) =
      (List.range n₃).map (sectorAt v d ∘ fun i => n₁ + (n₂ + i)) := by
    refine List.map_congr_left fun i hi => ?_
    have hi := List.mem_range.1 hi
    rw [Function.comp, show n₁ = 123 by omega, show n₂ = 128 by omega]
  rw [hsecond, hthird]

/-! ## The array -/

/-- The array that `get_inode_data_sectors` fills, with what is not written yet
as `none`, and `cur_i`. -/
structure Filling where
  sectors : List (Option BlockSector)
  curI : Nat

/-- `sectors[cur_i] = block; cur_i += 1` for each of the blocks. -/
def putSectors : List BlockSector → Filling → Disk S Filling
  | [], a => pure a
  | block :: blocks, a =>
    if a.curI < a.sectors.length then
      putSectors blocks ⟨a.sectors.set a.curI (some block), a.curI + 1⟩
    else Cmd.fault

def fillSecondLevel : Nat → List BlockSector → Nat → Filling → Disk S Filling
  | 0, _, _, a => pure a
  | _ + 1, [], _, _ => Cmd.fault
  | l2 + 1, entry :: blocks, numSectors2, a => do
    let subsize := min numSectors2 indirectBlocksPerSector
    let indirectBlock2 ← Cmd.read entry
    let a ← putSectors (indirectBlock2.blocks.take subsize) a
    fillSecondLevel l2 blocks (numSectors2 - subsize) a

/-- `get_inode_data_sectors`, with the array that it allocates and returns. -/
def fillDataSectors (data : InodeDisk) : Disk S (Option (List (Option BlockSector))) :=
  if data.length < 0 then pure none
  else do
    let numSectors := bytesToSectors data.length.toNat
    let a : Filling := ⟨List.replicate numSectors none, 0⟩
    let l := min numSectors directBlocksCount
    let a ← putSectors (data.directBlocks.take l) a
    let numSectors := numSectors - l
    let l := min numSectors indirectBlocksPerSector
    let a ← (if l > 0 then do
        let indirectBlock ← Cmd.read data.indirectBlock
        putSectors (indirectBlock.blocks.take l) a
      else pure a)
    let numSectors := numSectors - l
    let l := min numSectors (indirectBlocksPerSector * indirectBlocksPerSector)
    let a ← (if l > 0 then do
        let indirectBlock ← Cmd.read data.doublyIndirectBlock
        fillSecondLevel (divRoundUp l indirectBlocksPerSector) indirectBlock.blocks l a
      else pure a)
    pure (some a.sectors)

variable {s s' : S} {v' : Image} {xs : List BlockSector}

/-- The array when `xs` has been written, with room for `r` more. -/
def filled (xs : List BlockSector) (r : Nat) : Filling :=
  ⟨xs.map some ++ List.replicate r none, xs.length⟩

theorem exec_putSectors (s : S) (v : Image) (xs blocks : List BlockSector) (r : Nat) :
    (putSectors blocks (filled xs (blocks.length + r))).exec s v = some (filled (xs ++ blocks) r, s,
      v) := by
  induction blocks generalizing xs with
  | nil => rw [List.append_nil, List.length_nil, Nat.zero_add, putSectors, Cmd.exec_pure]
  | cons block blocks ih =>
    have hnext : (⟨(filled xs ((block :: blocks).length + r)).sectors.set
      (filled xs ((block :: blocks).length + r)).curI
        (some block), (filled xs ((block :: blocks).length + r)).curI + 1⟩ : Filling) =
        filled (xs ++ [block]) (blocks.length + r) := by
      rw [List.length_cons, Nat.succ_add]
      simp [filled, List.replicate_succ]
    rw [putSectors, if_pos (by simp [filled]), hnext, ih, List.append_assoc, List.singleton_append]

theorem exec_fillSecondLevel {l2 : Nat} {blocks : List BlockSector} (written : List BlockSector)
    (r : Nat) (h : (secondLevelSectors l2 blocks n).exec s v = some (xs, s', v')) :
    (fillSecondLevel l2 blocks n (filled written (xs.length + r))).exec s v =
    some (filled (written ++ xs) r, s', v') := by
  induction l2 generalizing blocks n s v xs written with
  | zero =>
    cases h
    rw [List.append_nil, List.length_nil, Nat.zero_add]
    rfl
  | succ l2 ih =>
    cases blocks with
    | nil => cases h
    | cons entry blocks =>
      simp only [secondLevelSectors, Cmd.exec_bind, Cmd.exec_read, Option.bind_some,
        Option.bind_eq_some_iff, Cmd.exec_pure, Option.some.injEq, Prod.mk.injEq] at h
      obtain ⟨⟨rest, s₁, v₁⟩, hrest, rfl, rfl, rfl⟩ := h
      simp only [fillSecondLevel, Cmd.exec_bind, Cmd.exec_read, Option.bind_some]
      rw [List.length_append, Nat.add_assoc, exec_putSectors, Option.bind_some, ih _ hrest,
        List.append_assoc]

/-- What is listed is written into the array, in this order. -/
theorem exec_fillDataSectors (h : (getInodeDataSectors d).exec s v = some (some xs, s', v'))
    (hlength : xs.length = bytesToSectors d.length.toNat) :
    (fillDataSectors d).exec s v = some (some (xs.map some), s', v') := by
  rw [getInodeDataSectors] at h
  rw [fillDataSectors]
  split at h
  · cases h
  next hneg =>
  rw [if_neg hneg]
  rw [← hlength] at h ⊢
  dsimp only
  simp only [Cmd.exec_bind, Option.bind_eq_some_iff] at h
  obtain ⟨⟨indirect, s₁, v₁⟩, hindirect, ⟨doubly, s₂, v₂⟩, hdoubly, hend⟩ := h
  generalize hl₁ : min xs.length directBlocksCount = l₁ at *
  generalize hl₂ : min (xs.length - l₁) indirectBlocksPerSector = l₂ at *
  generalize hl₃ : min (xs.length - l₁ - l₂) (indirectBlocksPerSector * indirectBlocksPerSector) =
    l₃ at *
  obtain ⟨rfl, rfl, rfl⟩ : d.directBlocks.take l₁ ++ indirect ++ doubly = xs ∧ s₂ = s' ∧
      v₂ = v' := by
    simpa using hend
  have hempty : (⟨List.replicate (d.directBlocks.take l₁ ++ indirect ++ doubly).length none,
    0⟩ : Filling) =
      filled [] ((d.directBlocks.take l₁).length + (indirect.length + doubly.length)) := by
    rw [List.length_append, List.length_append, Nat.add_assoc]
    rfl
  have hsecond : (if l₂ > 0 then do
        let indirectBlock ← Cmd.read d.indirectBlock
        putSectors (indirectBlock.blocks.take l₂)
          (filled (d.directBlocks.take l₁) (indirect.length + doubly.length))
      else pure (filled (d.directBlocks.take l₁) (indirect.length + doubly.length)) :
        Disk S Filling).exec s v =
      some (filled (d.directBlocks.take l₁ ++ indirect) doubly.length, s₁, v₁) := by
    split at hindirect
    · next hpos =>
      rw [if_pos hpos]
      simp only [Cmd.exec_bind, Cmd.exec_read, Option.bind_some, Cmd.exec_pure, Option.some.injEq,
        Prod.mk.injEq] at hindirect
      obtain ⟨rfl, rfl, rfl⟩ := hindirect
      rw [Cmd.exec_bind, Cmd.exec_read, Option.bind_some, exec_putSectors]
    · next hzero =>
      rw [if_neg hzero]
      obtain ⟨rfl, rfl, rfl⟩ : [] = indirect ∧ s = s₁ ∧ v = v₁ := by simpa using hindirect
      rw [Cmd.exec_pure, List.append_nil, List.length_nil, Nat.zero_add]
  have hthird : (if l₃ > 0 then do
        let indirectBlock ← Cmd.read d.doublyIndirectBlock
        fillSecondLevel (divRoundUp l₃ indirectBlocksPerSector) indirectBlock.blocks l₃
          (filled (d.directBlocks.take l₁ ++ indirect) doubly.length)
      else pure (filled (d.directBlocks.take l₁ ++ indirect) doubly.length) :
        Disk S Filling).exec s₁ v₁ =
      some (filled (d.directBlocks.take l₁ ++ indirect ++ doubly) 0, s₂, v₂) := by
    split at hdoubly
    · next hpos =>
      rw [if_pos hpos]
      simp only [Cmd.exec_bind, Cmd.exec_read, Option.bind_some] at hdoubly
      rw [Cmd.exec_bind, Cmd.exec_read, Option.bind_some]
      exact exec_fillSecondLevel _ 0 hdoubly
    · next hzero =>
      rw [if_neg hzero]
      obtain ⟨rfl, rfl, rfl⟩ : [] = doubly ∧ s₁ = s₂ ∧ v₁ = v₂ := by simpa using hdoubly
      rw [Cmd.exec_pure, List.append_nil, List.length_nil]
  rw [hempty, Cmd.exec_bind, exec_putSectors, List.nil_append, Option.bind_some, Cmd.exec_bind,
    hsecond, Option.bind_some, Cmd.exec_bind, hthird, Option.bind_some, Cmd.exec_pure]
  simp [filled]

/-- **The two block maps agree**: the array has an entry for each sector, all are
written, and each is the sector that `index_to_sector` finds. -/
theorem data_sectors_agree (s : S) (v : Image) (hd : d.directBlocks.length = 123) (hlen : 0 ≤ d.length)
    (hmax : d.length ≤ (123 + 128 + 128 * 128) * 512) :
    ∃ sectors : List BlockSector, (fillDataSectors d).exec s v = some (some (sectors.map some), s, v) ∧
      sectors.length = bytesToSectors d.length.toNat ∧
      ∀ i (hi : i < sectors.length), (indexToSector d i).exec s v = some (sectors[i], s, v) := by
  have hmax : bytesToSectors d.length.toNat ≤ InodeDisk.maxSectors := by
    simp only [bytesToSectors, divRoundUp, blockSectorSize, InodeDisk.maxSectors]
    omega
  have hlist := exec_getInodeDataSectors s (v := v) hd hlen hmax
  have hlength : ((List.range (bytesToSectors d.length.toNat)).map (sectorAt v d)).length =
      bytesToSectors d.length.toNat := by
    simp
  refine ⟨_, exec_fillDataSectors hlist hlength, hlength, fun i hi => ?_⟩
  rw [exec_indexToSector, List.getElem_map, List.getElem_range]

/-- An inode of 124 sectors, the last of them found through the indirect block. -/
theorem data_sectors_agree_indirect : ∃ sectors : List BlockSector,
    (fillDataSectors ⟨List.replicate 123 7, 8, 9, false, 124 * 512, inodeMagic⟩).exec ()
    (fun _ => Sector.zeros) =
      some (some (sectors.map some), (), fun _ => Sector.zeros) ∧ sectors.length = 124 := by
  obtain ⟨sectors, hfill, hlength, -⟩ := data_sectors_agree () (fun _ => Sector.zeros)
    (d := ⟨List.replicate 123 7, 8, 9, false, 124 * 512, inodeMagic⟩) (List.length_replicate ..)
    (by decide) (by decide)
  exact ⟨sectors, hfill, hlength⟩

end MyShell.Fs

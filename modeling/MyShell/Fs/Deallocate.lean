/-
Releasing the sectors of a removed inode (inode.c): `inode_deallocate` walks
the sectors its length covers and clears the bit of each.

`exec_inodeDeallocate`: on an inode whose length is covered, exactly the
sectors on the way to its data are given back, and nothing but the free-map
file is written.
-/
import MyShell.Fs.Reserve

namespace MyShell.Fs

open Storage BlockTree

/-! ## From source -/

/-- The loop of `inode_deallocate_indirect` over `l` entries. -/
def deallocateBlocks (deallocate : BlockSector → Nat → Disk Bitmap Unit) (unit : Nat) :
    Nat → List BlockSector → Nat → Disk Bitmap Unit
  | 0, _, _ => pure ()
  | _ + 1, [], _ => Cmd.fault
  | l + 1, entry :: blocks, numSectors => do
    let subsize := min numSectors unit
    deallocate entry subsize
    deallocateBlocks deallocate unit l blocks (numSectors - subsize)

def inodeDeallocateIndirect (file : Option InodeDisk) : Nat → BlockSector → Nat → Disk Bitmap Unit
  | 0, entry, _ => freeMapRelease file entry 1
  | level + 1, entry, numSectors => do
    let indirectBlock ← Cmd.read entry
    let unit := if level = 0 then 1 else indirectBlocksPerSector
    deallocateBlocks (inodeDeallocateIndirect file level) unit
      (divRoundUp numSectors unit) indirectBlock.blocks numSectors
    freeMapRelease file entry 1

/-- `inode_deallocate`. Its loop over the direct blocks is that of
`inode_deallocate_indirect` at level 0. -/
def inodeDeallocate (file : Option InodeDisk) (data : InodeDisk) : Disk Bitmap Bool :=
  if data.length < 0 then pure false
  else do
    let numSectors := bytesToSectors data.length.toNat
    let l := min numSectors directBlocksCount
    deallocateBlocks (inodeDeallocateIndirect file 0) 1 l data.directBlocks l
    let numSectors := numSectors - l
    let l := min numSectors indirectBlocksPerSector
    (if l > 0 then inodeDeallocateIndirect file 1 data.indirectBlock l else pure ())
    let numSectors := numSectors - l
    let l := min numSectors (indirectBlocksPerSector * indirectBlocksPerSector)
    (if l > 0 then inodeDeallocateIndirect file 2 data.doublyIndirectBlock l else pure ())
    pure true

/-! ## What is given back -/

/-- The sectors `old` are given back, and at most the data sectors `F` of the
free-map file are written. -/
structure Released (file : Option InodeDisk) (F : BlockSector → Prop) (v : Image) (b : Bitmap)
    (v' : Image) (b' : Bitmap) (old : List BlockSector) : Prop where
  gives : Gives b b' old
  frame : ∀ t, ¬ F t → v' t = v t
  holds : Holds file b v → Holds file b' v'

section walks

variable {file : Option InodeDisk} {F P : BlockSector → Prop} {v v' v₁ v₂ : Image}
  {b b' b₁ b₂ : Bitmap} {A C : Forest BlockSector} {n l : Nat} {old old' : List BlockSector}
  {f : InodeDisk} {p : BlockSector}

theorem Released.nil : Released file F v b v b [] := ⟨.nil b, fun _ _ => rfl, id⟩

theorem Released.trans (h : Released file F v b v₁ b₁ old) (h' : Released file F v₁ b₁ v₂ b₂ old') :
    Released file F v b v₂ b₂ (old ++ old') :=
  ⟨h.gives.trans h'.gives, fun t ht => (h'.frame t ht).trans (h.frame t ht),
    fun hb => h'.holds (h.holds hb)⟩

theorem Released.fileOk (h : Released file F v b v' b' old) (hf : FileOk file b.length F P v) :
    FileOk file b'.length F P v' := by
  rw [h.gives.length]
  exact hf.congr fun s hs => h.frame s fun hF => hf.disjoint s hF hs

theorem exec_releaseOne (hok : FileOk file b.length F P v) (hf : f ∈ file) (hp : p.toNat < b.length) :
    ∃ v' b', (freeMapRelease file p 1).exec b v = some ((), b', v') ∧
      Released file F v b v' b' [p] := by
  obtain ⟨v', hexec, hframe, hholds⟩ := exec_freeMapRelease hok hf hp
  exact ⟨v', _, hexec, .one b p, hframe, fun _ => hholds⟩

/-- The walk under each entry at level `l` gives back what it meets. -/
def ReleasesAt (file : Option InodeDisk) (F P : BlockSector → Prop) (l : Nat) : Prop :=
  ∀ (v : Image) (b : Bitmap) (p : BlockSector) (n : Nat), FileOk file b.length F P v →
    (∀ s, IsIndex layout v l p s → ¬ F s) → 0 < n →
    (∀ i < n, i < 128 ^ l → data layout v l p i ≠ 0) →
    (∀ s ∈ visited layout v l p (min n (128 ^ l)), s.toNat < b.length) →
    ∃ v' b', (inodeDeallocateIndirect file l p (min n (128 ^ l))).exec b v = some ((), b', v') ∧
      Released file F v b v' b' (visited layout v l p (min n (128 ^ l)))

theorem exec_deallocateBlocks (qs : List BlockSector) (hl : ReleasesAt file F P l)
    (hok : FileOk file b.length F P v) (hidx : ∀ s, IsIndexF layout v (level l qs) s → ¬ F s)
    (hn : n ≤ qs.length * 128 ^ l) (hc : ∀ i < n, dataF layout v (level l qs) i ≠ 0)
    (hin : ∀ s ∈ visitedF layout v (level l qs) n, s.toNat < b.length) :
    ∃ v' b', (deallocateBlocks (inodeDeallocateIndirect file l) (128 ^ l)
      (divRoundUp n (128 ^ l)) qs n).exec b v =
        some ((), b', v') ∧ Released file F v b v' b' (visitedF layout v (level l qs) n) := by
  have hpos : 0 < 128 ^ l := Nat.pow_pos (by decide)
  induction qs generalizing v b n with
  | nil =>
    obtain rfl : n = 0 := by simpa using hn
    rw [divRoundUp_zero hpos, visitedF_zero]
    exact ⟨v, b, rfl, .nil⟩
  | cons q qs ih =>
    by_cases hn0 : n = 0
    · subst hn0
      rw [divRoundUp_zero hpos, visitedF_zero]
      exact ⟨v, b, rfl, .nil⟩
    rw [divRoundUp_pos hpos (by omega)]
    simp only [level_cons, visitedF, if_neg hn0, layout_width, List.mem_append] at hin ⊢
    obtain ⟨v₁, b₁, hexec, h⟩ :=
      hl v b q n hok (fun s hs => hidx s (indexF_cons.2 (.inl hs))) (by omega) (fun i hi hi' => by
        have := hc i hi
        rwa [level_cons, dataF, if_pos (show i < layout.width ^ (l, q).1 from hi')] at this)
      fun s hs => hin s (.inl hs)
    -- the entries left are where they were
    have hsame : ∀ s, IsIndexF layout v (level l qs) s → v₁ s = v s := fun s hs =>
      h.frame s (hidx s (indexF_cons.2 (.inr hs)))
    obtain ⟨v₂, b₂, hexec', h'⟩ := ih (n := n - 128 ^ l) (h.fileOk hok)
      (fun s hs => hidx s (indexF_cons.2 (.inr ((indexF_congr hsame s).1 hs))))
      (by rw [List.length_cons, Nat.succ_mul] at hn; omega)
      (fun i hi => by
        have := hc (i + 128 ^ l) (by omega)
        rw [level_cons, dataF, if_neg (by simp), layout_width, Nat.add_sub_cancel] at this
        rwa [dataF_congr hsame])
      (fun s hs => by
        rw [visitedF_congr hsame] at hs
        rw [h.gives.length]
        exact hin s (.inr hs))
    rw [visitedF_congr hsame] at h'
    refine ⟨v₂, b₂, ?_, h.trans h'⟩
    have hsub : n - min n (128 ^ l) = n - 128 ^ l := by omega
    simp [deallocateBlocks, hexec, hsub, hexec']

theorem releasesAt_zero (hf : f ∈ file) : ReleasesAt file F P 0 := by
  intro v b p n hok _ _ _ hin
  rw [visited] at hin ⊢
  exact exec_releaseOne hok hf (hin p (by simp))

theorem releasesAt_succ (hf : f ∈ file) (hl : ReleasesAt file F P l) (hl1 : l ≤ 1) :
    ReleasesAt file F P (l + 1) := by
  intro v b p n hok hidx hn hc hin
  have hp : p ≠ 0 := by
    rintro rfl
    exact hc 0 hn (Nat.pow_pos (by decide)) data_null
  have hunit : (if l = 0 then 1 else indirectBlocksPerSector) = 128 ^ l := by
    rcases Nat.le_one_iff_eq_zero_or_eq_one.1 hl1 with rfl | rfl <;> rfl
  rw [visited_succ hp] at hin ⊢
  simp only [List.mem_append] at hin
  obtain ⟨v₁, b₁, hexec, h⟩ := exec_deallocateBlocks (v p).blocks (n := min n (128 ^ (l + 1))) hl hok
    (fun s hs => hidx s ((index_succ hp).2 (.inr hs)))
    (by rw [Sector.length_blocks, Nat.pow_succ]; omega)
    (fun i hi => by
      have := hc i (by omega) (by omega)
      rwa [data_succ hp] at this)
    (fun s hs => hin s (.inl hs))
  obtain ⟨v₂, b₂, hexec', h'⟩ := exec_releaseOne (p := p) (h.fileOk hok) hf (by
    rw [h.gives.length]; exact hin p (.inr (by simp)))
  refine ⟨v₂, b₂, ?_, h.trans h'⟩
  simp [inodeDeallocateIndirect, hunit, hexec, hexec']

theorem releasesAt (hf : f ∈ file) (h : l ≤ 2) : ReleasesAt file F P l := by
  have h1 : ReleasesAt file F P 1 := releasesAt_succ hf (releasesAt_zero hf) (by omega)
  rcases l with _ | _ | l
  · exact releasesAt_zero hf
  · exact h1
  · obtain rfl : l = 0 := by omega
    exact releasesAt_succ hf h1 (by omega)

/-- A root with the data sectors from it on, if any. -/
theorem exec_releaseRoot (hf : f ∈ file) (hl : l ≤ 2) (hok : FileOk file b.length F P v)
    (hidx : ∀ s, IsIndexF layout v [(l, p)] s → ¬ F s)
    (hc : ∀ i < n, i < 128 ^ l → dataF layout v [(l, p)] i ≠ 0)
    (hin : ∀ s ∈ visitedF layout v [(l, p)] n, s.toNat < b.length) :
    ∃ v' b', (if min n (128 ^ l) > 0 then inodeDeallocateIndirect file l p (min n (128 ^ l))
        else pure ()).exec b v = some ((), b', v') ∧
      Released file F v b v' b' (visitedF layout v [(l, p)] n) := by
  have hpos : 0 < 128 ^ l := Nat.pow_pos (by decide)
  by_cases hn : n = 0
  · subst hn
    rw [visitedF_zero]
    exact ⟨v, b, by simp, .nil⟩
  · rw [if_pos (by omega)]
    have hvis : visitedF layout v [(l, p)] n = visited layout v l p (min n (128 ^ l)) := by
      simp [visitedF, hn]
    rw [hvis] at hin ⊢
    refine releasesAt hf hl v b p n hok (fun s hs => hidx s (indexF_single.2 hs)) (by omega)
      (fun i hi hi' => ?_) hin
    have := hc i hi hi'
    rwa [dataF_single, if_pos hi'] at this

/-- **Giving back.** `inode_deallocate` gives back the sectors on the way to
the data its length covers. -/
theorem exec_inodeDeallocate {d : InodeDisk} (hok : FileOk file b.length F P v) (hf : f ∈ file)
    (hd : d.directBlocks.length = 123) (hidx : ∀ s, d.IsIndex v s → ¬ F s) (hlen : 0 ≤ d.length)
    (hc : d.Covers v d.length.toNat)
    (hin : ∀ s ∈ visitedF layout v d.roots (bytesToSectors d.length.toNat), s.toNat < b.length) :
    ∃ v' b', (inodeDeallocate file d).exec b v = some (true, b', v') ∧
      Released file F v b v' b' (visitedF layout v d.roots (bytesToSectors d.length.toNat)) := by
  obtain ⟨n, hn⟩ : ∃ n, n = bytesToSectors d.length.toNat := ⟨_, rfl⟩
  rw [inodeDeallocate, if_neg (by omega), ← hn]
  rw [← hn] at hin
  have hc : ∀ i < n, dataF layout v d.roots i ≠ 0 := fun i hi => hc i (lt_bytesToSectors.1 (hn ▸ hi))
  have hcap₀ : capacity layout (level 0 d.directBlocks) = 123 := by simp [hd]
  have hl : divRoundUp (min n 123) (128 ^ 0) = min n 123 := by simp [divRoundUp]
  have hroots : d.roots = level 0 d.directBlocks ++ ([(1, d.indirectBlock)] ++ [(2,
      d.doublyIndirectBlock)]) := rfl
  have hcap₁ : capacity layout [(1, d.indirectBlock)] = 128 := rfl
  rw [hroots, visitedF_append, visitedF_append, hcap₀, hcap₁] at hin ⊢
  simp only [List.mem_append] at hin
  simp only [hroots, dataF_append, hcap₀, hcap₁] at hc
  have hidx' : ∀ s, IsIndexF layout v (level 0 d.directBlocks ++
      ([(1, d.indirectBlock)] ++ [(2, d.doublyIndirectBlock)])) s → ¬ F s := hidx
  simp only [indexF_append] at hidx'
  -- the direct blocks
  obtain ⟨v₁, b₁, hexec₁, h₁⟩ :=
    exec_deallocateBlocks d.directBlocks (n := min n 123) (releasesAt_zero hf) hok
    (fun s hs => hidx' s (.inl hs)) (by rw [hd]; omega)
    (fun i hi => by
      have := hc i (by omega)
      rwa [if_pos (by omega)] at this)
    (fun s hs => hin s (.inl (by rwa [← hcap₀, visitedF_min] at hs)))
  rw [hl] at hexec₁
  have hexec₁ : (deallocateBlocks (inodeDeallocateIndirect file 0) 1
    (min n directBlocksCount) d.directBlocks
    (min n directBlocksCount)).exec b v = some ((), b₁, v₁) := hexec₁
  rw [← hcap₀, visitedF_min] at h₁
  -- the indirect block
  have hsame₁ : ∀ s, IsIndexF layout v [(1, d.indirectBlock)] s → v₁ s = v s := fun s hs =>
    h₁.frame s (hidx' s (.inr (.inl hs)))
  obtain ⟨v₂, b₂, hexec₂, h₂⟩ :=
    exec_releaseRoot (l := 1) (p := d.indirectBlock) (n := n - 123) hf (by omega) (h₁.fileOk hok)
    (fun s hs => hidx' s (.inr (.inl ((indexF_congr hsame₁ s).1 hs))))
    (fun i hi hi' => by
      rw [dataF_congr hsame₁]
      have := hc (i + 123) (by omega)
      rwa [if_neg (by omega), Nat.add_sub_cancel, if_pos (by omega)] at this)
    (fun s hs => by
      rw [visitedF_congr hsame₁] at hs
      rw [h₁.gives.length]
      exact hin s (.inr (.inl hs)))
  rw [visitedF_congr hsame₁] at h₂
  -- the doubly indirect block
  have hsame₂ : ∀ s, IsIndexF layout v [(2, d.doublyIndirectBlock)] s → v₂ s = v s := fun s hs =>
    (h₂.frame s (hidx' s (.inr (.inr hs)))).trans (h₁.frame s (hidx' s (.inr (.inr hs))))
  obtain ⟨v₃, b₃, hexec₃, h₃⟩ :=
    exec_releaseRoot (l := 2) (p := d.doublyIndirectBlock) (n := n - 123 - 128) hf (by omega)
    (h₂.fileOk (h₁.fileOk hok))
    (fun s hs => hidx' s (.inr (.inr ((indexF_congr hsame₂ s).1 hs))))
    (fun i hi hi' => by
      rw [dataF_congr hsame₂]
      have := hc (i + 123 + 128) (by omega)
      rwa [if_neg (by omega), if_neg (by omega), show i + 123 + 128 - 123 - 128 = i by omega] at this)
    (fun s hs => by
      rw [visitedF_congr hsame₂] at hs
      rw [h₂.gives.length, h₁.gives.length]
      exact hin s (.inr (.inr hs)))
  rw [visitedF_congr hsame₂] at h₃
  refine ⟨v₃, b₃, ?_, h₁.trans (h₂.trans h₃)⟩
  have hn₁ : n - min n directBlocksCount = n - 123 := by simp only [directBlocksCount]; omega
  have hn₂ : n - 123 - min (n - 123) indirectBlocksPerSector = n - 123 - 128 := by
    simp only [indirectBlocksPerSector]; omega
  simp only [Cmd.exec_bind, hexec₁, Option.bind_some, hn₁, hn₂]
  have hexec₂ : (if min (n - 123) indirectBlocksPerSector > 0 then
    inodeDeallocateIndirect file 1 d.indirectBlock (min (n - 123) indirectBlocksPerSector)
    else pure ()).exec b₁ v₁ = some ((), b₂, v₂) := hexec₂
  have hexec₃ : (if min (n - 123 - 128) (indirectBlocksPerSector * indirectBlocksPerSector) > 0 then
    inodeDeallocateIndirect file 2 d.doublyIndirectBlock
      (min (n - 123 - 128) (indirectBlocksPerSector * indirectBlocksPerSector))
    else pure ()).exec b₂ v₂ = some ((), b₃, v₃) := hexec₃
  rw [hexec₂, Option.bind_some, hexec₃]
  rfl

end walks

end MyShell.Fs

/-
The sectors that first fit gives, where exactly those below a number are in
use: the next ones, one after the other, in the order in which `inode_reserve`
walks through a new inode (`exec_inodeReserve_packed`). And whatever is taken,
such a number there is again (`Compact`).
-/
import MyShell.Fs.Partition
import MyShell.Fs.Reserve
import MyShell.Lib.Preorder

namespace MyShell.Fs

open Storage BlockTree

/-- Exactly the sectors below `n` are in use. -/
structure Packed (b : Bitmap) (n : Nat) : Prop where
  le : n ≤ b.length
  inUse : ∀ s, InUse b s ↔ s.toNat < n

section walks

variable {file : Option InodeDisk} {F P : BlockSector → Prop} {v v' v₁ : Image} {b b' b₁ : Bitmap}
  {n m l : Nat} {r : Option BlockSector} {s : BlockSector}

/-- An allocation takes the first free sector, or leaves the map as it is. -/
theorem freeMapAllocate_first (hsize : b.length < 2 ^ 32)
    (hexec : (freeMapAllocate file 1).exec b v = some (r, b', v')) : match r with
    | none => b' = b
    | some s => b'.length = b.length ∧ ¬ InUse b s ∧ s.toNat < b.length ∧
      (∀ t : BlockSector, t.toNat < s.toNat → InUse b t) ∧ ∀ t, InUse b' t ↔ InUse b t ∨ t = s := by
  rcases bitmapScanAndFlip_one b with ⟨hscan, -⟩ | ⟨i, hscan, hi, hclear, hbefore⟩
  · simp only [freeMapAllocate, Cmd.exec_bind, Cmd.exec_getState, Option.bind_some, hscan,
      Cmd.exec_pure] at hexec
    cases hexec
    rfl
  · have hnat : (UInt32.ofNat i).toNat = i := by
      rw [UInt32.toNat_ofNat']
      exact Nat.mod_eq_of_lt (by omega)
    have htaken : (b.set i true).length = b.length ∧ ¬ InUse b (.ofNat i) ∧
      (UInt32.ofNat i).toNat < b.length ∧
        (∀ t : BlockSector, t.toNat < (UInt32.ofNat i).toNat → InUse b t) ∧
        ∀ t, InUse (b.set i true) t ↔ InUse b t ∨ t = .ofNat i := by
      have ht := Takes.one (Nat.le_of_lt hsize) hi hclear
      refine ⟨ht.length, ht.clear _ List.mem_cons_self, by rw [hnat]; exact hi,
        fun t hlt => hbefore _ (by omega), fun t => ?_⟩
      rw [ht.inUse, List.mem_singleton]
    -- the bit is cleared again where the free map cannot be written
    have hback : (b.set i true).set i false = b := by
      rw [List.set_set]
      refine List.ext_getElem (List.length_set ..) fun j hj hj' => ?_
      rw [List.getElem_set]
      split
      · next heq =>
        subst heq
        rw [bitmapTest, List.getD_eq_getElem _ _ hj'] at hclear
        exact hclear.symm
      · rfl
    simp only [freeMapAllocate, Cmd.exec_bind, Cmd.exec_getState, Option.bind_some, hscan,
      Cmd.exec_setState] at hexec
    cases file with
    | none =>
      cases hexec
      exact htaken
    | some f =>
      simp only [Cmd.exec_bind, Option.bind_eq_some_iff] at hexec
      obtain ⟨⟨written, b₁, v₁⟩, hwrite, hexec⟩ := hexec
      obtain rfl := bitmapWrite_keeps _ f _ _ _ _ _ hwrite
      cases written with
      | true =>
        cases hexec
        exact htaken
      | false =>
        simp only [Bool.false_eq_true, if_false, bitmapSetMultiple_one, hback, Cmd.exec_bind,
          Cmd.exec_setState, Option.bind_some, Cmd.exec_pure] at hexec
        cases hexec
        rfl

theorem Packed.take (h : Packed b n) (hsize : b.length < 2 ^ 32)
    (hexec : (freeMapAllocate file 1).exec b v = some (some s, b', v')) :
    s.toNat = n ∧ Packed b' (n + 1) := by
  obtain ⟨hlength, hclear, hs, hbefore, htaken⟩ := freeMapAllocate_first hsize hexec
  have hge : n ≤ s.toNat := by
    by_contra hlt
    exact hclear ((h.inUse s).2 (by omega))
  have hnat : (UInt32.ofNat n).toNat = n := by
    rw [UInt32.toNat_ofNat']
    exact Nat.mod_eq_of_lt (by omega)
  have hfirst : s.toNat = n := by
    by_contra hne
    have := (h.inUse (.ofNat n)).1 (hbefore _ (by omega))
    omega
  refine ⟨hfirst, by omega, fun t => ?_⟩
  rw [htaken, h.inUse, ← UInt32.toNat_inj, hfirst]
  omega

/-- A sector is taken, and filled with zeros. -/
theorem Ready.take (hr : Ready file F P v b) (ht : Takes b b' [s]) (hv : ∀ t, ¬ F t → v₁ t = v t) :
    Ready file F P (Function.update v₁ s Sector.zeros) b' := by
  have hclear : ¬ InUse b s := ht.clear s List.mem_cons_self
  refine ⟨?_, by rw [ht.length]; exact hr.size,
    fun t h => ⟨ht.mono (hr.inUse t h).1, (hr.inUse t h).2⟩, ht.mono hr.zero⟩
  rw [ht.length]
  refine hr.fileOk.congr fun t h => ?_
  have hts : t ≠ s := by
    rintro rfl
    exact hclear (hr.inUse t (.inr h)).1
  rw [Function.update_of_ne hts, hv t fun hF => hr.fileOk.disjoint t hF h]

/-- Nothing is owned by a forest without blocks. -/
theorem owned_null (k : Nat) : Owned F P v b (level l (List.replicate k 0)) :=
  have hocc (s) : occF layout v (level l (List.replicate k 0)) s = 0 := occF_null _
  ⟨fun s => by rw [hocc]; omega, fun s hs => by rw [hocc] at hs; omega⟩

/-- A walk through a new tree takes the next sectors in order. -/
def PacksAt (file : Option InodeDisk) (F P : BlockSector → Prop) (l : Nat) : Prop :=
  ∀ (v : Image) (b : Bitmap) (n m : Nat) (p' : BlockSector) (b' : Bitmap) (v' : Image),
    Ready file F P v b → Packed b n →
    0 < m → m ≤ 128 ^ l → (inodeReserveIndirect file l 0 m).exec b v = some ((true, p'), b', v') →
    ∃ n', Packed b' n' ∧ Laid layout UInt32.toNat v' l p' m n n'

/-- What later walks leave of an earlier one. -/
theorem Reserved.laid {k : Nat} {A : Forest BlockSector} {ok : Bool} {new : List BlockSector}
    {a c : Nat} (h : Reserved file F v b (level l (List.replicate k 0)) m ok A v' b' new)
    (hb : Packed b c) (hF : ∀ s, F s ∨ s = 0 → s.toNat < a) :
    ∀ s : BlockSector, a ≤ s.toNat → s.toNat < c → v' s = v s :=
  fun s hs hc =>
  h.other ((hb.inUse s).2 hc) (fun hFs => by have := hF s (.inl hFs); omega) (occF_null _)
    (fun h0 => by have := hF s (.inr h0); omega)

theorem exec_reserveBlocks_packed (hl : PacksAt file F P l) (hl2 : l ≤ 2) {k : Nat}
    {qs' : List BlockSector} (hr : Ready file F P v b) (hb : Packed b n) (hm : m ≤ k * 128 ^ l)
    (hexec : (reserveBlocks (inodeReserveIndirect file l) (128 ^ l) (divRoundUp m (128 ^ l))
      (List.replicate k 0) m).exec b v = some ((true, qs'), b', v')) :
    ∃ n', Packed b' n' ∧ LaidF layout UInt32.toNat v' (level l qs') m n n' := by
  have hpos : 0 < 128 ^ l := Nat.pow_pos (by decide)
  induction k generalizing v b n m qs' with
  | zero =>
    obtain rfl : m = 0 := by omega
    rw [divRoundUp_zero hpos] at hexec
    cases hexec
    exact ⟨n, hb, rfl⟩
  | succ k ih =>
    rw [List.replicate_succ] at hexec
    by_cases hm0 : m = 0
    · subst hm0
      rw [divRoundUp_zero hpos] at hexec
      cases hexec
      exact ⟨n, hb, laidF_zero.2 rfl⟩
    · rw [divRoundUp_pos hpos (by omega)] at hexec
      obtain ⟨ok, q', v₁, b₁, new, hfirst, hq⟩ := walksAt hl2 v b 0 m hr (owned_null 1) (by omega)
      cases ok with
      | false =>
        simp [reserveBlocks, hfirst] at hexec
      | true =>
        obtain ⟨c, hb₁, hlaid⟩ :=
          hl v b n (min m (128 ^ l)) q' b₁ v₁ hr hb (by omega) (Nat.min_le_right _ _) hfirst
        have hr₁ := hq.ready hr (owned_null 1)
        have hm₁ : m - 128 ^ l ≤ k * 128 ^ l := by
          rw [Nat.succ_mul] at hm
          omega
        obtain ⟨ok, rest, v₂, b₂, new', hrest, -, hqs⟩ :=
          exec_reserveBlocks (n := m - 128 ^ l) (walksAt hl2) hr₁ (owned_null k)
            (by rw [List.length_replicate]; exact hm₁)
        have hsub : m - min m (128 ^ l) = m - 128 ^ l := by omega
        simp [reserveBlocks, hfirst, hsub, hrest] at hexec
        obtain ⟨⟨rfl, rfl⟩, rfl, rfl⟩ := hexec
        obtain ⟨n', hb₂, hlaids⟩ := ih hr₁ hb₁ hm₁ hrest
        refine ⟨n', hb₂, ?_⟩
        rw [level_cons, LaidF, if_neg hm0]
        refine ⟨c, hlaid.congr (hqs.laid hb₁ fun s hs => ?_), hlaids⟩
        rcases hs with hF | rfl
        · exact (hb.inUse s).1 (hr.inUse s (.inl hF)).1
        · exact (hb.inUse 0).1 hr.zero

/-- The first block of a walk: it is there, or the walk fails. -/
theorem exec_freeMapAllocate_packed (hr : Ready file F P v b) (hb : Packed b n)
    (hfree : freeCount b ≠ 0) :
    ∃ s b₁ v₁, (freeMapAllocate file 1).exec b v = some (some s, b₁, v₁) ∧ s.toNat = n ∧
      s ≠ 0 ∧ Packed b₁ (n + 1) ∧ Ready file F P (Function.update v₁ s Sector.zeros) b₁ := by
  rcases exec_freeMapAllocate hr.fileOk hr.size with ⟨hnone, -⟩ | ⟨s, b₁, v₁, hexec, ht, hv, -⟩
  · exact absurd hnone hfree
  · obtain ⟨hs, hb₁⟩ := hb.take hr.size hexec
    refine ⟨s, b₁, v₁, hexec, hs, ?_, hb₁, hr.take ht hv⟩
    rintro rfl
    exact ht.clear 0 List.mem_cons_self hr.zero

theorem Reserved.freeCount_ne_zero {k : Nat} {A : Forest BlockSector} {new : List BlockSector}
    (hm : 0 < m) (h : Reserved file F v b [(l, 0)] m true A v' b' new) (hk : k = freeCount b) :
    k ≠ 0 := by
  have hle := h.ok_iff.1 rfl
  have hmissing : 0 < (missingF layout v [(l, 0)] m).length := by
    rw [missingF_single hm]
    cases l with
    | zero => exact Nat.one_pos
    | succ l =>
      rw [show (0 : BlockSector) = layout.null from rfl, missing_null]
      exact Nat.succ_pos _
  omega

theorem packsAt_zero : PacksAt file F P 0 := by
  intro v b n m p' b' v' hr hb hm hle hexec
  obtain ⟨ok, q, v₂, b₂, new, hwalk, hq⟩ := walksAt (l := 0) (by omega) v b 0 m hr (owned_null 1) hm
  rw [Nat.min_eq_left hle, hexec] at hwalk
  cases hwalk
  obtain ⟨s, b₁, v₁, halloc, hs, hs0, hb₁, -⟩ :=
    exec_freeMapAllocate_packed hr hb (hq.freeCount_ne_zero hm rfl)
  simp [inodeReserveIndirect, halloc] at hexec
  obtain ⟨rfl, rfl, rfl⟩ := hexec
  exact ⟨n + 1, hb₁, hs0, hs, rfl⟩

theorem packsAt_succ (hl : PacksAt file F P l) (hl1 : l ≤ 1) : PacksAt file F P (l + 1) := by
  intro v b n m p' b' v' hr hb hm hle hexec
  obtain ⟨ok, q, v₂, b₂, new, hwalk, hq⟩ := walksAt (l := l + 1) (by omega) v b 0 m hr (owned_null 1) hm
  rw [Nat.min_eq_left hle, hexec] at hwalk
  cases hwalk
  obtain ⟨s, b₁, v₁, halloc, hs, hs0, hb₁, hr₁⟩ :=
    exec_freeMapAllocate_packed hr hb (hq.freeCount_ne_zero hm rfl)
  have hunit : (if l = 0 then 1 else indirectBlocksPerSector) = 128 ^ l := by
    rcases Nat.le_one_iff_eq_zero_or_eq_one.1 hl1 with rfl | rfl <;> rfl
  have hblocks : (Function.update v₁ s Sector.zeros s).blocks = List.replicate 128 0 := by
    rw [Function.update_self, Sector.blocks_zeros]
  have hfit : m ≤ 128 * 128 ^ l := by rwa [Nat.pow_succ, Nat.mul_comm] at hle
  obtain ⟨ok, qs, v₂, b₂, new, hloop, hlen, hqs⟩ :=
    exec_reserveBlocks (l := l) (n := m) (walksAt (by omega)) hr₁ (owned_null 128)
      (by rw [List.length_replicate]; exact hfit)
  rw [List.length_replicate] at hlen
  cases ok with
  | false =>
    simp [inodeReserveIndirect, halloc, hunit, hloop, -List.reduceReplicate] at hexec
  | true =>
    obtain ⟨n', hb₂, hlaid⟩ := exec_reserveBlocks_packed hl (by omega) hr₁ hb₁ hfit hloop
    simp [inodeReserveIndirect, halloc, hunit, hloop, -List.reduceReplicate] at hexec
    obtain ⟨rfl, rfl, rfl⟩ := hexec
    refine ⟨n', hb₂, laid_succ.2 ⟨hs0, hs, ?_⟩⟩
    rw [Function.update_self, layout_children, Sector.blocks_ofBlocks hlen]
    refine hlaid.congr fun t ht _ => Function.update_of_ne ?_ _ _
    rintro rfl
    omega

theorem packsAt (h : l ≤ 2) : PacksAt file F P l := by
  have h1 : PacksAt file F P 1 := packsAt_succ packsAt_zero (by omega)
  rcases l with _ | _ | l
  · exact packsAt_zero
  · exact h1
  · obtain rfl : l = 0 := by omega
    exact packsAt_succ h1 (by omega)

/-- **Growing a new inode** where exactly the sectors below `n` are in use takes
the next ones, each index sector before the sectors under it. -/
theorem exec_inodeReserve_packed {d d' : InodeDisk} {length : Int} (hr : Ready file F P v b)
    (hb : Packed b n) (hdirect : d.directBlocks = List.replicate 123 0) (hind : d.indirectBlock = 0)
    (hdbl : d.doublyIndirectBlock = 0)
    (hexec : (inodeReserve file d length).exec b v = some ((true, d'), b', v')) :
    ∃ n', Packed b' n' ∧ LaidF layout UInt32.toNat v' d'.roots (bytesToSectors length.toNat) n n' := by
  generalize hm : bytesToSectors length.toNat = m
  have hlow {s : BlockSector} (hs : F s ∨ s = 0) : s.toNat < n := by
    rcases hs with hF | rfl
    · exact (hb.inUse s).1 (hr.inUse s (.inl hF)).1
    · exact (hb.inUse 0).1 hr.zero
  rw [inodeReserve] at hexec
  split at hexec
  · cases hexec
  rw [hm, hdirect, hind, hdbl] at hexec
  -- the direct blocks
  obtain ⟨ok, direct, v₁, b₁, new₁, hexec₁, hlen₁, hq₁⟩ :=
    exec_reserveBlocks (l := 0) (n := min m 123) walksAt_zero hr (owned_null 123)
      (by rw [List.length_replicate]; omega)
  have hl : divRoundUp (min m 123) (128 ^ 0) = min m 123 := by simp [divRoundUp]
  have hpacked₁ (h : ok = true) :=
    exec_reserveBlocks_packed packsAt_zero (Nat.zero_le 2) (k := 123) hr hb (by omega) (h ▸ hexec₁)
  rw [hl] at hexec₁
  have hexec₁ : (reserveBlocks (inodeReserveIndirect file 0) 1 (min m directBlocksCount)
    (List.replicate 123 0)
    (min m directBlocksCount)).exec b v = some ((ok, direct), b₁, v₁) := hexec₁
  simp only [Cmd.exec_bind, hexec₁, Option.bind_some] at hexec
  cases ok with
  | false => simp at hexec
  | true =>
  obtain ⟨n₁, hb₁, hlaid₁⟩ := hpacked₁ rfl
  have hr₁ := hq₁.ready hr (owned_null 123)
  have hcap₁ : capacity layout (level 0 direct) = 123 := by simp [hlen₁]
  by_cases hn₁ : m - min m 123 = 0
  · simp [hn₁] at hexec
    obtain ⟨rfl, rfl, rfl⟩ := hexec
    refine ⟨n₁, hb₁, laidF_append (c := n₁) (by rw [hcap₁]; exact hlaid₁) ?_⟩
    rw [hcap₁, show m - 123 = 0 by omega]
    exact laidF_zero.2 rfl
  -- the indirect block
  have hn₁' : m - min m 123 = m - 123 := by omega
  obtain ⟨ok, p₁, v₂, b₂, new₂, hexec₂, hq₂⟩ :=
    walksAt (l := 1) (by omega) v₁ b₁ 0 (m - 123) hr₁ (owned_null 1) (by omega)
  have hpacked₂ (h : ok = true) :=
    packsAt (l := 1) (by omega) v₁ b₁ n₁ (min (m - 123) (128 ^ 1)) p₁ b₂ v₂ hr₁ hb₁ (by omega)
    (Nat.min_le_right _ _) (h ▸ hexec₂)
  have hexec₂ : (inodeReserveIndirect file 1 0 (min (m - 123) 128)).exec b₁ v₁ =
      some ((ok, p₁), b₂, v₂) := hexec₂
  simp only [directBlocksCount, hn₁', show m - 123 ≠ 0 by omega, Bool.not_true, if_false,
    indirectBlocksPerSector, Bool.false_eq_true, Cmd.exec_bind, hexec₂, Option.bind_some] at hexec
  cases ok with
  | false => simp at hexec
  | true =>
  obtain ⟨n₂, hb₂, hlaid₂⟩ := hpacked₂ rfl
  have hr₂ := hq₂.ready hr₁ (owned_null 1)
  have hle₁ := hlaid₁.le
  have hle₂ := hlaid₂.lt
  -- the first part is not touched again
  have hkeep₁ : ∀ s : BlockSector, n ≤ s.toNat → s.toNat < n₁ → v₂ s = v₁ s :=
    Reserved.laid (l := 1) (k := 1) hq₂ hb₁ fun s hs => hlow hs
  by_cases hn₂ : m - 123 - min (m - 123) 128 = 0
  · simp [hn₂] at hexec
    obtain ⟨rfl, rfl, rfl⟩ := hexec
    refine ⟨n₂, hb₂, laidF_append (c := n₁) (by rw [hcap₁]; exact hlaid₁.congr hkeep₁) ?_⟩
    rw [hcap₁, LaidF, if_neg (by omega)]
    refine ⟨n₂, hlaid₂, ?_⟩
    rw [show m - 123 - layout.width ^ 1 = 0 by rw [layout_width]; omega]
    exact laidF_zero.2 rfl
  -- the doubly indirect block
  have hn₂' : m - 123 - min (m - 123) 128 = m - 123 - 128 := by omega
  obtain ⟨ok, p₂, v₃, b₃, new₃, hexec₃, hq₃⟩ :=
    walksAt (l := 2) (by omega) v₂ b₂ 0 (m - 123 - 128) hr₂ (owned_null 1) (by omega)
  have hpacked₃ (h : ok = true) :=
    packsAt (l := 2) (by omega) v₂ b₂ n₂ (min (m - 123 - 128) (128 ^ 2)) p₂ b₃ v₃ hr₂ hb₂
      (by omega)
    (Nat.min_le_right _ _) (h ▸ hexec₃)
  have hexec₃ : (inodeReserveIndirect file 2 0 (min (m - 123 - 128) (128 * 128))).exec b₂ v₂ =
      some ((ok, p₂), b₃, v₃) := hexec₃
  simp only [hn₂', show m - 123 - 128 ≠ 0 by omega, Bool.not_true, if_false, Bool.false_eq_true,
    Cmd.exec_bind, hexec₃, Option.bind_some] at hexec
  cases ok with
  | false => simp at hexec
  | true =>
  obtain ⟨n₃, hb₃, hlaid₃⟩ := hpacked₃ rfl
  simp at hexec
  obtain ⟨⟨-, rfl⟩, rfl, rfl⟩ := hexec
  have hkeep₂ : ∀ s : BlockSector, n ≤ s.toNat → s.toNat < n₂ → v₃ s = v₂ s :=
    Reserved.laid (l := 2) (k := 1) hq₃ hb₂ fun s hs => hlow hs
  have hold : LaidF layout UInt32.toNat v₃ (level 0 direct) (min m 123) n n₁ :=
    (hlaid₁.congr hkeep₁).congr fun s hs hs' => hkeep₂ s hs (by omega)
  have hrest : LaidF layout UInt32.toNat v₃ [(1, p₁), (2, p₂)] (m - 123) n₁ n₃ := by
    rw [LaidF, if_neg (by omega)]
    refine ⟨n₂, hlaid₂.congr fun s hs hs' => hkeep₂ s (by omega) hs', ?_⟩
    have hunit : layout.width ^ 1 = 128 := by rw [layout_width, Nat.pow_one]
    dsimp only
    rw [hunit, LaidF, if_neg (by omega)]
    exact ⟨n₃, hlaid₃, rfl⟩
  rw [← hcap₁] at hold hrest
  exact ⟨n₃, hb₃, laidF_append hold hrest⟩

/-- **A new inode** lies in the next sectors. -/
theorem exec_inodeCreate_packed {length : Int} {isDir : Bool} (hr : Ready file F P v b)
    (hb : Packed b n) (hs : InUse b s) (hlen : length < 2 ^ 31)
    (hexec : (Inode.create file s length isDir).exec b v = some (true, b', v')) :
    ∃ (d : InodeDisk) (n' : Nat), v' s = d.toSector ∧ d.Storable ∧ d.length = length ∧
      bytesToSectors length.toNat ≤ InodeDisk.maxSectors ∧
      Packed b' n' ∧ LaidF layout UInt32.toNat v' d.roots (bytesToSectors length.toNat) n n' := by
  rw [Inode.create] at hexec
  simp only [Cmd.exec_bind, Option.bind_eq_some_iff] at hexec
  obtain ⟨⟨⟨ok, d⟩, b₁, v₁⟩, hreserve, hexec⟩ := hexec
  cases ok with
  | false => cases hexec
  | true =>
  simp only [if_true, Cmd.exec_bind, Cmd.exec_write, Option.bind_some, Cmd.exec_pure,
    Option.some.injEq, Prod.mk.injEq, true_and] at hexec
  obtain ⟨rfl, rfl⟩ := hexec
  have hpos : 0 ≤ length := by
    by_contra hneg
    rw [inodeReserve, if_pos (by omega)] at hreserve
    cases hreserve
  have hocc (t) : occF layout v (newInodeDisk length isDir).roots t = 0 :=
    newInodeDisk_occ length isDir t
  have hown : Owned F P v b (newInodeDisk length isDir).roots :=
    ⟨fun t => by rw [hocc]; omega, fun t ht => by rw [hocc] at ht; omega⟩
  obtain ⟨ok', d', v₂, b₂, new, hspec, ⟨hdirect, -, hdlen, -⟩, -⟩ :=
    exec_inodeReserve length hr (newInodeDisk_direct length isDir) hown hpos
  rw [hspec] at hreserve
  simp only [Option.some.injEq, Prod.mk.injEq, Bool.and_eq_true, decide_eq_true_eq] at hreserve
  obtain ⟨⟨⟨rfl, hmax⟩, rfl⟩, rfl, rfl⟩ := hreserve
  rw [decide_eq_true hmax, Bool.true_and] at hspec
  obtain ⟨n', hb', hlaid⟩ := exec_inodeReserve_packed hr hb rfl rfl rfl hspec
  refine ⟨d', n', Function.update_self .., ⟨hdirect, ?_, ?_⟩, hdlen, hmax, hb',
    hlaid.congr fun t ht _ => Function.update_of_ne ?_ _ _⟩
  · rw [hdlen]
    exact (show -2 ^ 31 ≤ (0 : Int) by decide).trans hpos
  · rw [hdlen]
    exact hlen
  · rintro rfl
    have := (hb.inUse t).1 hs
    omega

end walks

/-! ## Whatever is taken -/

/-- Exactly the sectors below some number are in use. -/
def Compact (b : Bitmap) : Prop := b.length < 2 ^ 32 ∧ ∃ n, Packed b n

/-- As `Compact`, but that one of these sectors may be free. -/
def AlmostCompact (b : Bitmap) : Prop :=
  b.length < 2 ^ 32 ∧ ∃ n hole, n ≤ b.length ∧
    ∀ s : BlockSector, InUse b s ↔ s.toNat < n ∧ s ≠ hole

section compact

variable {file : Option InodeDisk} {v v' : Image} {b b' : Bitmap} {r : Option BlockSector}
  {s : BlockSector}

theorem Compact.almost (h : Compact b) : AlmostCompact b := by
  obtain ⟨hsize, n, hle, hinUse⟩ := h
  refine ⟨hsize, n, noSector, hle, fun s => ?_⟩
  rw [hinUse]
  refine ⟨fun hs => ⟨hs, ?_⟩, And.left⟩
  rintro rfl
  have : noSector.toNat = 2 ^ 32 - 1 := by decide
  omega

/-- Where a sector is taken there is no free sector any more below the others. -/
theorem AlmostCompact.take (h : AlmostCompact b)
    (hexec : (freeMapAllocate file 1).exec b v = some (some s, b', v')) : Compact b' := by
  obtain ⟨hsize, n, hole, hle, hinUse⟩ := h
  obtain ⟨hlength, hclear, hs, hbefore, htaken⟩ := freeMapAllocate_first hsize hexec
  rw [hinUse, not_and_or, not_not] at hclear
  refine ⟨by rw [hlength]; exact hsize, ?_⟩
  by_cases hhole : hole.toNat < n
  · -- the sector is the free one
    have hfree : ¬ InUse b hole := fun hu => ((hinUse hole).1 hu).2 rfl
    have hge : s.toNat ≤ hole.toNat := Nat.le_of_not_lt fun hlt => hfree (hbefore _ hlt)
    obtain rfl := hclear.resolve_left (by omega)
    refine ⟨n, by rw [hlength]; exact hle, fun t => ?_⟩
    rw [htaken, hinUse]
    constructor
    · rintro (ht | rfl)
      · exact ht.1
      · exact hhole
    · exact fun ht => (em (t = s)).elim .inr fun hne => .inl ⟨ht, hne⟩
  · -- there is no free one
    have hpacked : Packed b n := by
      refine ⟨hle, fun t => ?_⟩
      rw [hinUse]
      refine ⟨And.left, fun ht => ⟨ht, ?_⟩⟩
      rintro rfl
      exact hhole ht
    exact ⟨n + 1, (hpacked.take hsize hexec).2⟩

theorem Compact.give (h : Compact b) (hlength : b'.length = b.length)
    (hgive : ∀ t, InUse b' t ↔ InUse b t ∧ t ≠ s) : AlmostCompact b' := by
  obtain ⟨hsize, n, hle, hinUse⟩ := h
  exact ⟨by omega, n, s, by omega, fun t => by rw [hgive, hinUse]⟩

/-! Growing an inode takes sectors only. -/

theorem freeMapAllocate_compact : (freeMapAllocate file 1).Preserves Compact :=
  fun b v r b' v' h hexec => by
  cases r with
  | none => rw [show b' = b from freeMapAllocate_first h.1 hexec]; exact h
  | some s => exact h.almost.take hexec

theorem reserveBlocks_compact {reserve : BlockSector → Nat → Disk Bitmap (Bool × BlockSector)}
    (hreserve : ∀ entry n, (reserve entry n).Preserves Compact) (unit l : Nat)
    (blocks : List BlockSector) (n : Nat) :
    (reserveBlocks reserve unit l blocks n).Preserves Compact := by
  induction l generalizing blocks n with
  | zero => exact .pure _
  | succ l ih =>
    cases blocks with
    | nil => exact .fault
    | cons entry blocks =>
      refine (hreserve _ _).bind fun (ok, entry) => ?_
      cases ok with
      | false => exact .pure _
      | true => exact (ih _ _).bind fun _ => .pure _

theorem inodeReserveIndirect_compact (level : Nat) (entry : BlockSector) (n : Nat) :
    (inodeReserveIndirect file level entry n).Preserves Compact := by
  have hwrite (s : BlockSector) (c : Sector) :
      (Cmd.write s c : Disk Bitmap Unit).Preserves Compact := .keeps (.write s c)
  induction level generalizing entry n with
  | zero =>
    unfold inodeReserveIndirect
    split
    · refine freeMapAllocate_compact.bind fun r => ?_
      cases r with
      | none => exact .pure _
      | some s => exact (hwrite _ _).bind fun _ => .pure _
    · exact .pure _
  | succ level ih =>
    unfold inodeReserveIndirect
    refine .bind ?_ fun entry => (Cmd.Preserves.read _).bind fun _ =>
      .bind (reserveBlocks_compact ih _ _ _ _) fun r => ?_
    · split
      · exact freeMapAllocate_compact.bind fun _ => (hwrite _ _).bind fun _ => .pure _
      · exact .pure _
    · obtain ⟨ok, blocks⟩ := r
      cases ok with
      | false => exact .pure _
      | true => exact (hwrite _ _).bind fun _ => .pure _

theorem inodeReserve_compact (d : InodeDisk) (length : Int) :
    (inodeReserve file d length).Preserves Compact := by
  unfold inodeReserve
  split
  · exact .pure _
  refine (reserveBlocks_compact (inodeReserveIndirect_compact 0) _ _ _ _).bind fun (ok, _) => ?_
  dsimp only
  split
  · exact .pure _
  split
  · exact .pure _
  refine (inodeReserveIndirect_compact 1 _ _).bind fun (ok, _) => ?_
  dsimp only
  split
  · exact .pure _
  split
  · exact .pure _
  exact (inodeReserveIndirect_compact 2 _ _).bind fun _ => .pure _

theorem inodeCreate_compact (s : BlockSector) (length : Int) (isDir : Bool) :
    (Inode.create file s length isDir).Preserves Compact := by
  refine (inodeReserve_compact _ _).bind fun (ok, _) => ?_
  dsimp only
  split
  · exact (Cmd.Preserves.keeps (.write _ _)).bind fun _ => .pure _
  · exact .pure _

theorem inodeWriteAt_compact (i : Inode) (buffer : List UInt8) (offset : Int) :
    (i.writeAt file buffer offset).Preserves Compact := by
  unfold Inode.writeAt
  split
  · exact .pure _
  refine .bind ?_ fun (ok, _) => ?_
  · refine (Cmd.Preserves.keeps (byteToSector_keeps _ _)).bind fun _ => ?_
    split
    · refine (inodeReserve_compact _ _).bind fun (ok, _) => ?_
      dsimp only
      split
      · exact .pure _
      · exact (Cmd.Preserves.keeps (.write _ _)).bind fun _ => .pure _
    · exact .pure _
  · dsimp only
    split
    · exact .pure _
    · exact (Cmd.Preserves.keeps (writeLoop_keeps _ _ _ _)).bind fun _ => .pure _

end compact

end MyShell.Fs

/-
What calls that make an inode or an entry take from the free map, whether they
succeed or not. They set bits only (`Grows`), so the map is as it was where as
many bits are clear as before.
-/
import MyShell.Fs.Atomic
import MyShell.Fs.Folder

namespace MyShell.Fs

open Storage Session

/-! ## Maps that only grow -/

/-- No sector that is in use in `b` is free in `b'`. -/
structure Grows (b b' : Bitmap) : Prop where
  length : b'.length = b.length
  mono : ∀ s, InUse b s → InUse b' s

namespace Grows

variable {b b' b'' : Bitmap}

theorem refl (b : Bitmap) : Grows b b := ⟨rfl, fun _ => id⟩

theorem trans (h : Grows b b') (h' : Grows b' b'') : Grows b b'' :=
  ⟨h'.length.trans h.length, fun s hs => h'.mono s (h.mono s hs)⟩

/-- A map that grows and comes back has been the same throughout. -/
theorem antisymm (hb : b.length < 2 ^ 32) (h : Grows b b') (h' : Grows b' b) : b' = b :=
  bitmap_ext hb h.length fun s => ⟨h'.mono s, h.mono s⟩

/-- Bit by bit: the free bits are not more, and if they are as many then they are the same. -/
theorem count_bits : ∀ {b b' : Bitmap}, b'.length = b.length →
    (∀ i, bitmapTest b i = true → bitmapTest b' i = true) →
    freeCount b' ≤ freeCount b ∧ (freeCount b' = freeCount b → b' = b)
  | [], [], _, _ => ⟨Nat.le_refl _, fun _ => rfl⟩
  | [], _ :: _, hlength, _ => by cases hlength
  | _ :: _, [], hlength, _ => by cases hlength
  | c :: b, c' :: b', hlength, h => by
    obtain ⟨hle, heq⟩ := count_bits (Nat.succ.inj hlength) fun i => h (i + 1)
    have hfirst : c = true → c' = true := h 0
    have hcount : ∀ (c : Bool) (b : Bitmap), freeCount (c :: b) =
        freeCount b + if c then 0 else 1 := fun c b => by
      cases c <;> simp [freeCount]
    rw [hcount, hcount]
    cases c with
    | true =>
      rw [hfirst rfl]
      exact ⟨by simpa using hle, fun he => by rw [heq (by simpa using he)]⟩
    | false =>
      cases c' with
      | true =>
        exact ⟨by simp only [if_true]; omega, fun he => by simp only [if_true] at he; simp at he; omega⟩
      | false => exact ⟨by simpa using hle, fun he => by rw [heq (by simpa using he)]⟩

/-- A map that grows is the same where as many sectors are free. -/
theorem eq_iff (hb : b.length < 2 ^ 32) (h : Grows b b') : b' = b ↔ freeCount b' = freeCount b := by
  refine ⟨fun he => by rw [he], (count_bits h.length fun i hi => ?_).2⟩
  have hlt := lt_of_bitmapTest hi
  have hnat : (UInt32.ofNat i).toNat = i := by
    rw [UInt32.toNat_ofNat']
    exact Nat.mod_eq_of_lt (by omega)
  have := h.mono (UInt32.ofNat i) (by rw [InUse, hnat]; exact hi)
  rwa [InUse, hnat] at this

/-- Two steps leave the map as it was where each does. -/
theorem trans_eq_iff (hb : b.length < 2 ^ 32) (h : Grows b b') (h' : Grows b' b'') :
    b'' = b ↔ b' = b ∧ b'' = b' := by
  constructor
  · rintro rfl
    have heq := h.antisymm hb h'
    exact ⟨heq, heq.symm⟩
  · rintro ⟨rfl, rfl⟩
    rfl

/-- A sector is taken, the map grows, and the sector is given back. -/
theorem back_iff {s : BlockSector} {b₁ b₂ b₃ : Bitmap} (hb : b.length < 2 ^ 32)
    (ht : Takes b b₁ [s]) (h : Grows b₁ b₂) (hlength : b₃.length = b₂.length)
    (hgive : ∀ t, InUse b₃ t ↔ InUse b₂ t ∧ t ≠ s) : b₃ = b ↔ b₂ = b₁ := by
  have hclear : ¬ InUse b s := ht.clear s (List.mem_singleton_self s)
  have htaken : ∀ t, InUse b₁ t ↔ InUse b t ∨ t = s := fun t => by rw [ht.inUse, List.mem_singleton]
  constructor
  · rintro rfl
    refine bitmap_ext (by rw [ht.length]; exact hb) h.length fun t => ⟨fun hu => ?_, h.mono t⟩
    by_cases hts : t = s
    · exact (htaken t).2 (.inr hts)
    · exact (htaken t).2 (.inl ((hgive t).2 ⟨hu, hts⟩))
  · rintro rfl
    refine bitmap_ext hb (hlength.trans ht.length) fun t => ?_
    rw [hgive, htaken]
    constructor
    · rintro ⟨hu | rfl, hne⟩
      · exact hu
      · exact absurd rfl hne
    · intro hu
      refine ⟨.inl hu, ?_⟩
      rintro rfl
      exact hclear hu

end Grows

/-! ## The steps -/

section steps

variable {s s' : Session} {a : BlockSector → Option Node} {x : BlockSector} {length : Int}
  {isDir ok : Bool}

theorem Volume.map_size (h : Volume s a) : s.st.freeMap.length < 2 ^ 32 := by
  obtain ⟨q, fm, C, hinv⟩ := h.inv
  exact hinv.mounted.world.size

theorem newInodeDisk_lacking_eq_nil {v : Image} (length : Int) (isDir : Bool) (end_ : Nat) :
    (newInodeDisk length isDir).lacking v end_ = [] ↔ end_ = 0 := by
  constructor
  · intro hnil
    rw [newInodeDisk_lacking, List.append_eq_nil_iff, List.replicate_eq_nil_iff] at hnil
    have := hnil.1
    simp only [bytesToSectors, divRoundUp, blockSectorSize] at this
    omega
  · rintro rfl
    rw [newInodeDisk_lacking]
    rfl

/-- What `inode_create` takes, whether it fails or not. -/
theorem Volume.create_grows (h : Volume s a) (hx : x ∈ s.spare) (hlen : length < 2 ^ 31)
    (hdoes : s.Does (inodeCreate x length isDir) ok s') :
    Grows s.st.freeMap s'.st.freeMap ∧
      (s'.st.freeMap = s.st.freeMap ↔ length ≤ 0 ∨ freeCount s.st.freeMap = 0) := by
  obtain ⟨q, fm, C, hinv⟩ := h.inv
  have hm : Mounted s.st s.image q fm
      (⟨x, newInodeDisk 0 isDir⟩ :: (diskOwners s.image C ++ (s.spare.erase x).map
        fun x => ⟨x, newInodeDisk 0 false⟩)) :=
    (hinv.mounted.perm (spare_perm hx _)).shrink (.refl _) (newInodeDisk_sound _)
  obtain ⟨ok', b', v', d, hexec, hc, -⟩ := hm.inodeCreate hlen
  have hmap : s'.st.freeMap = b' := by rw [← hdoes.state_eq hexec]; rfl
  have hgrows : Grows s.st.freeMap b' := ⟨hc.size, hc.mono⟩
  have hleft := hc.left
  have hlacking := newInodeDisk_lacking_eq_nil (v := s.image) 0 isDir length.toNat
  rw [← List.length_eq_zero_iff] at hlacking
  rw [hmap, hgrows.eq_iff h.map_size]
  refine ⟨hgrows, ?_⟩
  split at hleft <;> omega

/-- An inode that cannot grow by these few bytes has all data sectors only if it is as long
as it can be. -/
theorem World.full_iff {fm d : InodeDisk} {v : Image} {b : Bitmap} {L : List Owner}
    (h : World fm v b (⟨x, d⟩ :: L)) {n m : Nat} (hlen : d.length = n) (hm : m ≤ 512)
    (hfail : ¬ d.Fits v b (n + m)) : d.Full v ↔ InodeDisk.maxSectors * 512 < n + m := by
  have hsound : d.Sound v := h.sound ⟨x, d⟩ (by simp)
  constructor
  · intro hfull
    have hnil := (h.lacking_eq_nil (n + m)).2 fun k _ hk => hfull k hk
    by_contra hle
    refine hfail ⟨by rw [hnil]; exact Nat.zero_le _, ?_⟩
    simp only [bytesToSectors, divRoundUp, blockSectorSize, InodeDisk.maxSectors] at hle ⊢
    omega
  · intro hlt k hk
    refine hsound.covers k ?_
    rw [hlen, Int.toNat_natCast]
    simp only [InodeDisk.maxSectors] at hlt hk
    omega

theorem Table.freeSlot_full {T : Table} (h : none ∉ T) : T.freeSlot = T.length := by
  have hnone : T.findIdx? Option.isNone = none := List.findIdx?_eq_none_iff.2 fun o ho => by
    cases o with
    | none => exact absurd ho h
    | some _ => rfl
  rw [Table.freeSlot, hnone, Option.getD_none]

/-- What the root directory, or another, takes for a name that is not entered. -/
theorem OpenDir.add_grows {d : Ptr} {dir : Dir} {parent y : BlockSector} {g : Growable UInt8}
    {T : Table} {name : CString} (hd : OpenDir s a d dir x parent g T) (h : Volume s a)
    (hdoes : s.Does (dirAdd d name y false) false s') : Grows s.st.freeMap s'.st.freeMap ∧
      (s'.st.freeMap = s.st.freeMap ↔ freeCount s.st.freeMap = 0 ∨ name = [] ∨ nameMax < name.length ∨
        SlotMap.lookup T name ≠ none ∨ InodeDisk.maxSectors * 512 < g.length + 36) := by
  by_cases hlen : name = [] ∨ nameMax < name.length
  · have hsame : s.Does (dirAdd d name y false) false s := by
      rw [dirAdd, if_pos hlen]
      exact .pure _ _
    rw [← hdoes.state_eq hsame]
    exact ⟨.refl _, iff_of_true rfl (.inr (or_assoc.1 (.inl hlen)))⟩
  rw [not_or, not_lt] at hlen
  by_cases hname : SlotMap.lookup T name = none
  · have hbytes := DirEntry.length_toBytes ⟨y, name, true⟩
    obtain ⟨q, fm, C, i, hinv, hi, rfl, hdata⟩ := h.held hd.holds
    have hq := hinv.holds_ne hi hd.sector
    obtain ⟨k, i', b', v', hexec, hw, -⟩ :=
      hinv.mounted.inodeWriteAt hi hq (DirEntry.toBytes ⟨y, name, true⟩) (36 * (T.freeSlot + 1))
    have hadd : s.Does (dirAdd d name y false) (decide (k = dirEntrySize)) ⟨_, v', s.live, s.spare⟩ :=
      hd.dirAdd_write h hlen hname hexec
    have hmap : s'.st.freeMap = b' := by rw [← hdoes.state_eq hadd]; rfl
    have hgrows : Grows s.st.freeMap b' := ⟨hw.size, hw.mono⟩
    have hk : k ≠ 36 := by
      rintro rfl
      rw [Does, hadd] at hdoes
      cases hdoes
    have hglen := hd.folder.length
    have hshown : i.data.length = g.length :=
      hdata ▸ (h.shows _ _ hd.sector (.inr ⟨_, hd.holds⟩) hd.node).1.length
    have hfail : ¬ (i.data.Within (36 * (T.freeSlot + 1) + 36) ∨
        i.data.Fits s.image s.st.freeMap (36 * (T.freeSlot + 1) + 36)) :=
      fun hroom => hk (by rw [(hw.done (by rw [hbytes]; exact hroom)).1, hbytes]; rfl)
    have hfull : none ∉ T := fun hslot => by
      have hlt := Table.freeSlot_lt hslot
      exact hfail (.inl ⟨by omega, by rw [hshown]; omega⟩)
    have hend : 36 * (T.freeSlot + 1) + 36 = g.length + 36 := by rw [Table.freeSlot_full hfull, hglen]
    have hworld := hinv.mounted.head hi hq
    have hsame : b' = s.st.freeMap ↔ freeCount s.st.freeMap = 0 ∨ i.data.Full s.image := by
      rw [← hw.unchanged_iff hworld (by rw [hbytes]; exact hfail)]
      refine ⟨fun hb => ⟨hb, ?_⟩, And.left⟩
      exact ((hw.idle (by rw [hbytes]; exact hfail)).2 (by rw [hb])).1
    rw [hmap, hsame, hworld.full_iff (m := 36) hshown (by decide) fun hfits => hfail
      (.inr (by rw [hend]; exact hfits))]
    exact ⟨hgrows, by simp [hlen.1, Nat.not_lt.2 hlen.2, hname]⟩
  · rw [← hdoes.state_eq (hd.dirAdd_bound h hlen hname)]
    exact ⟨.refl _, iff_of_true rfl (.inr (.inr (.inr (.inl hname))))⟩

end steps

end MyShell.Fs

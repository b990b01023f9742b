/-
Who owns which sector. A file system's inodes are a list of owners, each an
inode sector with the inode's data; `World` says that every sector in use by
the free-map file or an owner is marked in the free map and is in one place
only, and that every owner's length is covered by sectors.

Each theorem below is one thing that can happen to a world: an inode grows
(`World.reserve`), an inode is written (`World.frame`, `World.setInode`), an
inode comes (`World.add`) or goes (`World.release`), an inode is taken back to
an earlier version (`World.shrink`). `Untouched` is what happens to the other
owners: nothing.
-/
import MyShell.Fs.Deallocate

namespace MyShell.Fs

open Storage BlockTree

/-- An inode: its sector and its data. -/
structure Owner where
  sector : BlockSector
  data : InodeDisk

/-- The free map's inode. -/
def mapOwner (fm : InodeDisk) : Owner := ⟨0, fm⟩

/-- How often a sector is the owner's. -/
def Owner.occ (v : Image) (x : Owner) (s : BlockSector) : Nat :=
  (if x.sector = s then 1 else 0) + x.data.occ v s

/-- How often a sector is one of the owners'. -/
def total (v : Image) (L : List Owner) (s : BlockSector) : Nat := (L.map fun x => x.occ v s).sum

instance (b : Bitmap) (s : BlockSector) : Decidable (InUse b s) := inferInstanceAs (Decidable (_ = _))

/-- An inode whose length is covered by sectors. -/
structure InodeDisk.Sound (v : Image) (d : InodeDisk) : Prop where
  direct : d.directBlocks.length = 123
  low : 0 ≤ d.length
  high : d.length < 2 ^ 31
  covers : d.Covers v d.length.toNat

/-- A file system: the free map `b`, its file `fm`, and the inodes `L`. -/
structure World (fm : InodeDisk) (v : Image) (b : Bitmap) (L : List Owner) : Prop where
  size : b.length < 2 ^ 32
  pos : 0 < b.length
  bits : byteCnt b.length ≤ fm.length
  map : fm.Sound v
  sound : ∀ x ∈ L, x.data.Sound v
  once : ∀ s, total v (mapOwner fm :: L) s ≤ if InUse b s then 1 else 0
  holds : Holds (some fm) b v

/-- The owners' sectors hold what they held. -/
def Untouched (v v' : Image) (L : List Owner) : Prop := ∀ x ∈ L, ∀ t, 1 ≤ x.occ v t → v' t = v t

/-- The data sectors of the free-map file. -/
def mapData (fm : InodeDisk) (v : Image) (s : BlockSector) : Prop := s ≠ 0 ∧ ∃ i, s = fm.sector v i

/-- The index sectors of the free-map file. -/
def mapIndex (fm : InodeDisk) (v : Image) (s : BlockSector) : Prop := fm.IsIndex v s

section worlds

variable {fm d d' : InodeDisk} {v v' v₁ : Image} {b b' : Bitmap} {L : List Owner} {s : BlockSector}
  {x : Owner}

@[simp] theorem total_nil : total v [] s = 0 := rfl

@[simp] theorem total_cons : total v (x :: L) s = x.occ v s + total v L s := by simp [total]

theorem occ_le_total (h : x ∈ L) (s : BlockSector) : x.occ v s ≤ total v L s := by
  induction L with
  | nil => cases h
  | cons y L ih =>
    rw [total_cons]
    rcases List.mem_cons.1 h with rfl | h
    · omega
    · have := ih h; omega

theorem occ_add_le_total {y : Owner} (hx : x ∈ L) (hy : y ∈ L) (hne : x ≠ y) (s : BlockSector) :
    x.occ v s + y.occ v s ≤ total v L s := by
  induction L with
  | nil => cases hx
  | cons z L ih =>
    rw [total_cons]
    rcases List.mem_cons.1 hx with rfl | hxL
    · have := occ_le_total (v := v) ((List.mem_cons.1 hy).resolve_left (Ne.symm hne)) s
      omega
    · rcases List.mem_cons.1 hy with rfl | hyL
      · have := occ_le_total (v := v) hxL s
        omega
      · have := ih hxL hyL
        omega

theorem total_perm {L' : List Owner} (h : L.Perm L') (s : BlockSector) : total v L s = total v L' s :=
  (h.map _).sum_eq

theorem InodeDisk.occ_zero (d : InodeDisk) (v : Image) : d.occ v 0 = 0 := occF_zero_null (L := layout)

theorem InodeDisk.index_occ (h : d.IsIndex v s) : 1 ≤ d.occ v s := indexF_occ h

theorem InodeDisk.sector_occ {i : Nat} (h : d.sector v i ≠ 0) : 1 ≤ d.occ v (d.sector v i) :=
  occF_dataF h

theorem occ_mapOwner (s : BlockSector) :
    (mapOwner fm).occ v s = (if 0 = s then 1 else 0) + fm.occ v s :=
  rfl

theorem occ_sector (v : Image) (x : Owner) : 1 ≤ x.occ v x.sector := by
  rw [Owner.occ, if_pos rfl]; omega

theorem occ_data {t : BlockSector} (h : 1 ≤ x.data.occ v t) : 1 ≤ x.occ v t := by rw [Owner.occ]; omega

theorem mapData_occ (hs : mapData fm v s) : 1 ≤ fm.occ v s := by
  obtain ⟨h0, i, rfl⟩ := hs
  exact InodeDisk.sector_occ h0

theorem ne_noSector (hb : b.length < 2 ^ 32) (hs : InUse b s) : s ≠ noSector := by
  intro he
  have h₁ : s.toNat < b.length := lt_of_bitmapTest hs
  rw [he, noSector_toNat] at h₁
  omega

/-- A file with a place for the bitmap in sectors that are in use. -/
theorem mapFile_ok (hmap : fm.Sound v) (hbits : byteCnt b.length ≤ fm.length) (hpos : 0 < b.length)
    (hsize : b.length < 2 ^ 32) (honce : ∀ s, fm.occ v s ≤ if InUse b s then 1 else 0) :
    FileOk (some fm) b.length (mapData fm v) (mapIndex fm v) v := by
  have hdist : fm.Distinct v := fun s => by
    have := honce s
    split at this <;> omega
  refine ⟨?_, ?_, ?_, ?_, ?_, ?_, ?_, ?_, hpos⟩
  · intro f hf; cases hf; exact hmap.direct
  · intro f hf; cases hf; exact hdist
  · intro f hf; cases hf; exact hmap.covers
  · intro f hf; cases hf; exact hbits
  · intro f hf i hi; cases hf; exact ⟨hmap.covers i hi, i, rfl⟩
  · intro f hf s hs; cases hf; exact hs
  · rintro s ⟨h0, i, rfl⟩ hs
    exact hdist.not_index h0 hs
  · intro s hs
    have h₁ := honce s
    have h₂ := mapData_occ hs
    by_cases hu : InUse b s
    · exact ne_noSector hsize hu
    · rw [if_neg hu] at h₁; omega

/-! ## What a world gives -/

namespace World

theorem perm (h : World fm v b L) {L' : List Owner} (hp : L.Perm L') : World fm v b L' where
  size := h.size
  pos := h.pos
  bits := h.bits
  map := h.map
  sound x hx := h.sound x (hp.mem_iff.2 hx)
  once s := by rw [← total_perm (hp.cons _)]; exact h.once s
  holds := h.holds

theorem inUse (h : World fm v b L) (hs : 1 ≤ total v (mapOwner fm :: L) s) : InUse b s := by
  by_contra hn
  have := h.once s
  rw [if_neg hn] at this
  omega

theorem once' (h : World fm v b L) (s : BlockSector) : (mapOwner fm).occ v s + total v L s ≤ 1 := by
  have := h.once s
  rw [total_cons] at this
  split at this <;> omega

/-- An owner's sectors are in use, are not sector 0, and are no sectors of
the free-map file. -/
theorem owned (h : World fm v b L) (hx : x ∈ L) (hs : 1 ≤ x.occ v s) :
    InUse b s ∧ s ≠ 0 ∧ ¬ mapData fm v s ∧ ¬ mapIndex fm v s := by
  have h₁ := occ_le_total (v := v) hx s
  have h₂ := h.once' s
  have h₃ : (mapOwner fm).occ v s = 0 := by omega
  refine ⟨h.inUse (by rw [total_cons]; omega), ?_, ?_, ?_⟩
  · rintro rfl
    rw [occ_mapOwner, if_pos rfl] at h₃; omega
  · intro ⟨h0, i, hi⟩
    have := InodeDisk.sector_occ (d := fm) (v := v) (i := i) (hi ▸ h0)
    rw [← hi] at this
    rw [occ_mapOwner] at h₃; omega
  · intro hi
    have := InodeDisk.index_occ hi
    rw [occ_mapOwner] at h₃; omega

theorem zero (h : World fm v b L) : InUse b 0 :=
  h.inUse (by rw [total_cons, occ_mapOwner, if_pos rfl]; omega)

theorem ne_none (h : World fm v b L) (hs : InUse b s) : s ≠ noSector := ne_noSector h.size hs

theorem map_inUse (h : World fm v b L) (hs : 1 ≤ fm.occ v s) : InUse b s :=
  h.inUse (by rw [total_cons, occ_mapOwner]; omega)

theorem ready (h : World fm v b L) : Ready (some fm) (mapData fm v) (mapIndex fm v) v b where
  fileOk := mapFile_ok h.map h.bits h.pos h.size fun s => by
    have := h.once s
    rw [total_cons, occ_mapOwner] at this
    omega
  size := h.size
  inUse s hs := by
    have hocc : 1 ≤ fm.occ v s := hs.elim mapData_occ InodeDisk.index_occ
    refine ⟨h.map_inUse hocc, ?_⟩
    rintro rfl
    rw [InodeDisk.occ_zero] at hocc; omega
  zero := h.zero

theorem owned_roots (h : World fm v b L) (hx : x ∈ L) :
    Owned (mapData fm v) (mapIndex fm v) v b x.data.roots where
  once s := by
    have h₁ := occ_le_total (v := v) hx s
    have h₂ := h.once' s
    have h₃ : x.occ v s = (if x.sector = s then 1 else 0) + occF layout v x.data.roots s := rfl
    omega
  inUse s hs := by
    obtain ⟨hu, -, h₁, h₂⟩ := h.owned hx (s := s) (by
      have h₃ : x.occ v s = (if x.sector = s then 1 else 0) + occF layout v x.data.roots s := rfl
      omega)
    exact ⟨hu, h₁, h₂⟩

theorem distinct (h : World fm v b L) (hx : x ∈ L) : x.data.Distinct v := (h.owned_roots hx).once

end World

/-! ## Owners that are not touched -/

theorem Untouched.mono {L' : List Owner} (h : Untouched v v' L) (hs : L' ⊆ L) : Untouched v v' L' :=
  fun x hx => h x (hs hx)

theorem Untouched.index (h : Untouched v v' L) (hx : x ∈ L) :
    ∀ s, x.data.IsIndex v s → v' s = v s :=
  fun s hs => h x hx s (occ_data (InodeDisk.index_occ hs))

theorem Untouched.occ (h : Untouched v v' L) (hx : x ∈ L) (s : BlockSector) :
    x.occ v' s = x.occ v s := by
  rw [Owner.occ, Owner.occ, InodeDisk.occ_congr (h.index hx)]

theorem Untouched.sector (h : Untouched v v' L) (hx : x ∈ L) (i : Nat) :
    x.data.sector v' i = x.data.sector v i :=
  InodeDisk.sector_congr (h.index hx) i

theorem total_congr (h : ∀ x ∈ L, ∀ s, x.data.IsIndex v s → v' s = v s) (s : BlockSector) :
    total v' L s = total v L s := by
  have : (L.map fun x => x.occ v' s) = L.map fun x => x.occ v s :=
    List.map_congr_left fun x hx => by rw [Owner.occ, Owner.occ, InodeDisk.occ_congr (h x hx)]
  rw [total, this, total]

theorem Untouched.total (h : Untouched v v' L) (s : BlockSector) : total v' L s = Fs.total v L s :=
  total_congr (fun _ hx => h.index hx) s

theorem Untouched.byte (h : Untouched v v' L) (hx : x ∈ L) {pos : Nat}
    (hp : x.data.sector v (pos / 512) ≠ 0) : x.data.byte v' pos = x.data.byte v pos := by
  rw [InodeDisk.byte, h.sector hx, InodeDisk.byte, h x hx _ (occ_data (InodeDisk.sector_occ hp))]

theorem Untouched.inode (h : Untouched v v' L) (hx : x ∈ L) : v' x.sector = v x.sector :=
  h x hx x.sector (occ_sector v x)

theorem Untouched.trans (h : Untouched v v₁ L) (h' : Untouched v₁ v' L) : Untouched v v' L := by
  intro x hx t ht
  rw [h' x hx t (by rw [h.occ hx]; exact ht), h x hx t ht]

theorem InodeDisk.Sound.congr (h : d.Sound v) (hv : ∀ s, d.IsIndex v s → v' s = v s) : d.Sound v' :=
  { h with covers := fun i hi => by rw [InodeDisk.sector_congr hv]; exact h.covers i hi }

theorem Untouched.sound (h : Untouched v v' L) (hx : x ∈ L) (hs : x.data.Sound v) : x.data.Sound v' :=
  hs.congr (h.index hx)

/-! ## What happens to a world -/

namespace World

/-- A world again: the free-map file is where it was and up to date, and each
sector is still in one place. -/
theorem of (h : World fm v b L) {L' : List Owner} (hidx : ∀ s, fm.IsIndex v s → v' s = v s)
    (hlen : b'.length = b.length) (hholds : Holds (some fm) b' v')
    (hsound : ∀ x ∈ L', x.data.Sound v')
    (honce : ∀ s, (mapOwner fm).occ v s + total v' L' s ≤ if InUse b' s then 1 else 0) :
    World fm v' b' L' where
  size := by rw [hlen]; exact h.size
  pos := by rw [hlen]; exact h.pos
  bits := by rw [hlen]; exact h.bits
  map := h.map.congr hidx
  sound := hsound
  once s := by
    rw [total_cons, occ_mapOwner, InodeDisk.occ_congr hidx]
    exact honce s
  holds := hholds

theorem holds_frame (h : World fm v b L) (hidx : ∀ s, fm.IsIndex v s → v' s = v s)
    (hdata : ∀ s, mapData fm v s → v' s = v s) : Holds (some fm) b v' :=
  Holds.congr h.ready.fileOk h.holds fun s hs => hs.elim (hidx s) (hdata s)

/-- Sectors that no owner finds others through can be written. -/
theorem frame (h : World fm v b L) (hv : ∀ s, fm.IsIndex v s ∨ mapData fm v s → v' s = v s)
    (hL : ∀ x ∈ L, ∀ s, x.data.IsIndex v s → v' s = v s) : World fm v' b L := by
  refine h.of (fun s hs => hv s (.inl hs)) rfl
    (h.holds_frame (fun s hs => hv s (.inl hs)) fun s hs => hv s (.inr hs))
    (fun x hx => (h.sound x hx).congr (hL x hx)) fun s => ?_
  have := h.once s
  rw [total_cons] at this
  rw [total_congr hL]; exact this

theorem drop (h : World fm v b (x :: L)) : World fm v b L := by
  refine h.of (fun _ _ => rfl) rfl h.holds (fun y hy => h.sound y (List.mem_cons_of_mem _ hy))
    fun s => ?_
  have := h.once s
  rw [total_cons, total_cons] at this
  omega

/-- The inode can be taken to be any version with fewer sectors. -/
theorem shrink (h : World fm v b (⟨s, d⟩ :: L)) (hle : Le layout d'.roots d.roots) (hs : d'.Sound v) :
    World fm v b (⟨s, d'⟩ :: L) := by
  refine h.of (fun _ _ => rfl) rfl h.holds ?_ fun t => ?_
  · intro y hy
    rcases List.mem_cons.1 hy with rfl | hy
    · exact hs
    · exact h.sound y (List.mem_cons_of_mem _ hy)
  · have h₁ := h.once t
    have h₂ : d'.occ v t ≤ d.occ v t := hle.occF t
    simp only [total_cons, Owner.occ] at h₁ ⊢
    omega

theorem once_head (h : World fm v b (⟨s, d⟩ :: L)) (t : BlockSector) :
    (if 0 = t then 1 else 0) + fm.occ v t + ((if s = t then 1 else 0) + d.occ v t + total v L t) ≤
    1 := by
  have := h.once' t
  rw [total_cons] at this
  exact this

theorem other_zero (h : World fm v b (⟨s, d⟩ :: L)) {t : BlockSector} (hL : x ∈ L)
    (ht : 1 ≤ x.occ v t) : d.occ v t = 0 ∧ s ≠ t := by
  have h₁ := h.once_head t
  have h₂ := occ_le_total hL (v := v) t
  by_cases hst : s = t
  · rw [if_pos hst] at h₁; omega
  · exact ⟨by omega, hst⟩

theorem map_zero (h : World fm v b (⟨s, d⟩ :: L)) {t : BlockSector} (ht : 1 ≤ fm.occ v t) :
    d.occ v t = 0 ∧ s ≠ t := by
  have h₁ := h.once_head t
  by_cases hst : s = t
  · rw [if_pos hst] at h₁; omega
  · exact ⟨by omega, hst⟩

/-- An inode that grows: the free-map file, the inode's own sector and the
other inodes are left alone. -/
theorem reserve (h : World fm v b (⟨s, d⟩ :: L)) {n : Nat} {ok : Bool} {new : List BlockSector}
    (hr : Reserved (some fm) (mapData fm v) v b d.roots n ok d'.roots v' b' new)
    (hd : d'.directBlocks.length = 123) (hlen : d'.length = d.length) :
    World fm v' b' (⟨s, d'⟩ :: L) ∧ Untouched v v' L ∧ v' s = v s := by
  have hown := h.owned_roots (x := ⟨s, d⟩) (by simp)
  have hhead : ∀ {t}, 1 ≤ (⟨s, d⟩ : Owner).occ v t → InUse b t ∧ t ≠ 0 ∧ ¬ mapData fm v t ∧
      ¬ mapIndex fm v t :=
    fun ht => h.owned (by simp) ht
  have hL : Untouched v v' L := by
    intro x hx t ht
    obtain ⟨hu, h0, hF, -⟩ := h.owned (List.mem_cons_of_mem _ hx) ht
    exact hr.other hu hF (h.other_zero hx ht).1 h0
  have hs : v' s = v s := by
    obtain ⟨hu, h0, hF, -⟩ := hhead (t := s) (occ_sector v ⟨s, d⟩)
    have h₁ := h.once_head s
    rw [if_pos (show s = s from rfl)] at h₁
    exact hr.other hu hF (show d.occ v s = 0 by omega) h0
  have hidx : ∀ t, fm.IsIndex v t → v' t = v t := by
    intro t ht
    have hocc := InodeDisk.index_occ ht
    refine hr.other (h.map_inUse hocc) (fun hF => h.ready.fileOk.disjoint t hF ht)
      (h.map_zero hocc).1 ?_
    exact (h.ready.inUse t (.inr ht)).2
  refine ⟨h.of hidx hr.takes.length (hr.holds h.holds) ?_ fun t => ?_, hL, hs⟩
  · intro x hx
    rcases List.mem_cons.1 hx with rfl | hx
    · have hsound := h.sound ⟨s, d⟩ (by simp)
      refine ⟨hd, by rw [hlen]; exact hsound.low, by rw [hlen]; exact hsound.high, fun i hi => ?_⟩
      rw [hlen] at hi
      have := hsound.covers i hi
      rw [InodeDisk.sector, hr.keep i this]
      exact this
    · exact hL.sound hx (h.sound x (List.mem_cons_of_mem _ hx))
  · have h₁ := h.once t
    have h₂ := hr.occ t
    have h₃ : d'.occ v' t = occF layout v' d'.roots t := rfl
    have h₄ : d.occ v t = occF layout v d.roots t := rfl
    simp only [total_cons, Owner.occ, hL.total] at h₁ ⊢
    by_cases ht : t ∈ new
    · have hb := hr.takes.clear t ht
      have hb' : InUse b' t := (hr.takes.inUse t).2 (.inr ht)
      rw [if_pos ht] at h₂
      rw [if_neg hb] at h₁
      rw [if_pos hb']
      omega
    · rw [if_neg ht] at h₂
      have hb' : InUse b' t ↔ InUse b t := by rw [hr.takes.inUse]; simp [ht]
      simp only [hb']
      omega

/-- An inode's data can change where its sectors do not. -/
theorem setData (h : World fm v b (⟨s, d⟩ :: L)) (hroots : d'.roots = d.roots) (hs : d'.Sound v) :
    World fm v b (⟨s, d'⟩ :: L) := h.shrink (hroots ▸ .refl _) hs

/-- The inode's own sector is written. -/
theorem setInode (h : World fm v b (⟨s, d⟩ :: L)) (c : Sector) :
    World fm (Function.update v s c) b (⟨s, d⟩ :: L) ∧ Untouched v (Function.update v s c) L := by
  have hne : ∀ t, 1 ≤ d.occ v t → t ≠ s := by
    rintro t ht rfl
    have h₁ := h.once_head t
    rw [if_pos (show t = t from rfl)] at h₁
    omega
  have hL : Untouched v (Function.update v s c) L := fun x hx t ht =>
    Function.update_of_ne (Ne.symm (h.other_zero hx ht).2) _ _
  refine ⟨h.frame (fun t ht => Function.update_of_ne ?_ _ _) fun x hx t ht => ?_, hL⟩
  · have hocc : 1 ≤ fm.occ v t := ht.elim InodeDisk.index_occ mapData_occ
    exact Ne.symm (h.map_zero hocc).2
  · rcases List.mem_cons.1 hx with rfl | hx
    · exact Function.update_of_ne (hne t (InodeDisk.index_occ ht)) _ _
    · exact hL.index hx t ht

/-- The inode's data sectors are written. -/
theorem setBytes (h : World fm v b (⟨s, d⟩ :: L))
    (hv : ∀ t, (∀ i, d.sector v i ≠ 0 → t ≠ d.sector v i) → v' t = v t) :
    World fm v' b (⟨s, d⟩ :: L) ∧ Untouched v v' L ∧ v' s = v s := by
  have hdata : ∀ t, d.occ v t = 0 → v' t = v t := by
    intro t ht
    refine hv t fun i hi he => ?_
    have := InodeDisk.sector_occ hi
    rw [← he] at this; omega
  have hL : Untouched v v' L := fun x hx t ht => hdata t (h.other_zero hx ht).1
  have hs : v' s = v s := by
    refine hdata s ?_
    have h₁ := h.once_head s
    rw [if_pos (show s = s from rfl)] at h₁
    omega
  refine ⟨h.frame (fun t ht => ?_) fun x hx t ht => ?_, hL, hs⟩
  · have hocc : 1 ≤ fm.occ v t := ht.elim InodeDisk.index_occ mapData_occ
    exact hdata t (h.map_zero hocc).1
  · rcases List.mem_cons.1 hx with rfl | hx
    · refine hv t fun i hi he => ?_
      subst he
      exact InodeDisk.Distinct.not_index (h.distinct (x := ⟨s, d⟩) (by simp)) hi ht
    · exact hL.index hx t ht

theorem untouched_of_mapData (h : World fm v b L) (hv : ∀ t, ¬ mapData fm v t → v' t = v t) :
    Untouched v v' L :=
  fun _ hx t ht => hv t (h.owned hx ht).2.2.1

/-- A sector is taken for a new inode. -/
theorem add (h : World fm v b L) (ht : Takes b b' [s]) (hv : ∀ t, ¬ mapData fm v t → v' t = v t)
    (hb : Holds (some fm) b' v') (hd : ∀ t, d.occ v' t = 0) (hs : d.Sound v') :
    World fm v' b' (⟨s, d⟩ :: L) ∧ Untouched v v' L := by
  have hL := h.untouched_of_mapData hv
  have hclear : ¬ InUse b s := ht.clear s (by simp)
  refine ⟨h.of (fun t hi => hv t fun hF => h.ready.fileOk.disjoint t hF hi) ht.length hb ?_
    fun t => ?_, hL⟩
  · intro x hx
    rcases List.mem_cons.1 hx with rfl | hx
    · exact hs
    · exact hL.sound hx (h.sound x hx)
  · have h₁ := h.once t
    simp only [total_cons, Owner.occ, hd, hL.total] at h₁ ⊢
    by_cases hst : s = t
    · subst hst
      rw [if_neg hclear] at h₁
      rw [if_pos rfl, if_pos ((ht.inUse s).2 (.inr (by simp)))]
      omega
    · have hb' : InUse b' t ↔ InUse b t := by rw [ht.inUse]; simp [Ne.symm hst]
      simp only [hb', if_neg hst]
      omega

/-- Sectors that no inode has are given back. -/
theorem release (h : World fm v b L) {old : List BlockSector}
    (hr : Released (some fm) (mapData fm v) v b v' b' old)
    (hold : ∀ t ∈ old, total v (mapOwner fm :: L) t = 0) : World fm v' b' L ∧ Untouched v v' L := by
  have hL := h.untouched_of_mapData hr.frame
  refine ⟨h.of (fun t hi => hr.frame t fun hF => h.ready.fileOk.disjoint t hF hi) hr.gives.length
    (hr.holds h.holds) (fun x hx => hL.sound hx (h.sound x hx)) fun t => ?_, hL⟩
  have h₁ := h.once t
  have h₂ := hold t
  simp only [total_cons, hL.total] at h₁ h₂ ⊢
  by_cases ht : t ∈ old
  · have := h₂ ht; omega
  · have hb' : InUse b' t ↔ InUse b t := by rw [hr.gives.inUse]; simp [ht]
    simp only [hb']
    exact h₁

end World

end worlds

end MyShell.Fs

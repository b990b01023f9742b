/-
The buffer cache (cache.c) over the block device (block.c): 64 slots, write
back on eviction, victims chosen by a clock.

`bufferCache_transparent`: from `buffer_cache_init` on, whatever sequence of
reads and writes ran, a read answers with the last write to its sector (else
with what the device held), no sector is in two slots, and closing the cache
leaves exactly those contents on the device. `BufferCache`, a cache with its
invariant, is therefore a store with a `view`, and everything above cache.c
is a program over that store.
-/
import MyShell.Fs.Sector
import MyShell.Lib.Storage
import Mathlib.Data.Finset.Card
import Mathlib.Data.Fintype.Card

namespace MyShell.Fs

/-- `struct block`. `check_sector` is left out: PANIC prints and goes on. -/
structure Block where
  size : Nat
  contents : BlockSector → Sector

def blockRead (b : Block) (sector : BlockSector) : Sector := b.contents sector

def blockWrite (b : Block) (sector : BlockSector) (buffer : Sector) : Block :=
  { b with contents := Function.update b.contents sector buffer }

/-- `BUFFER_CACHE_SIZE` -/
abbrev bufferCacheSize : Nat := 64

/-- `struct buffer_cache_entry_t` -/
structure BufferCacheEntry where
  occupied : Bool
  diskSector : BlockSector
  buffer : Sector
  dirty : Bool
  access : Bool

/-- The static variables of cache.c, and the device under them. -/
structure Cache where
  cache : Fin bufferCacheSize → BufferCacheEntry
  clock : Fin bufferCacheSize
  fsDevice : Block

namespace Cache

def setSlot (c : Cache) (i : Fin bufferCacheSize) (e : BufferCacheEntry) : Cache :=
  { c with cache := Function.update c.cache i e }

@[simp] theorem setSlot_same (c : Cache) (i e) : (c.setSlot i e).cache i = e := by simp [setSlot]

theorem setSlot_other (c : Cache) {i j : Fin bufferCacheSize} (e) (h : j ≠ i) :
    (c.setSlot i e).cache j = c.cache j := by simp [setSlot, h]

@[simp] theorem setSlot_fsDevice (c : Cache) (i e) : (c.setSlot i e).fsDevice = c.fsDevice := rfl

end Cache

def bufferCacheInit (c : Cache) : Cache :=
  { c with cache := fun i => { c.cache i with occupied := false, dirty := false } }

def bufferCacheFlush (c : Cache) (i : Fin bufferCacheSize) : Cache :=
  let entry := c.cache i
  if entry.dirty then
    { c.setSlot i { entry with dirty := false } with
      fsDevice := blockWrite c.fsDevice entry.diskSector entry.buffer }
  else c

/-- The loop of `buffer_cache_close` over the slots of a list. -/
def closeSlots (slots : List (Fin bufferCacheSize)) (c : Cache) : Cache :=
  slots.foldl (fun c i => if (c.cache i).occupied then bufferCacheFlush c i else c) c

def bufferCacheClose (c : Cache) : Cache := closeSlots (List.finRange bufferCacheSize) c

def bufferCacheLookup (c : Cache) (sector : BlockSector) : Option (Fin bufferCacheSize) :=
  (List.finRange bufferCacheSize).find? fun i =>
    (c.cache i).occupied && (c.cache i).diskSector == sector

/-- The `while (true)` of `buffer_cache_evict`, for at most `fuel` slots: the
state in which it stops at `clock`. -/
def clockScan : Nat → Cache → Option Cache
  | 0, _ => none
  | fuel + 1, c =>
    let entry := c.cache c.clock
    if !entry.occupied then some c
    else if entry.access then
      -- give a second chance
      clockScan fuel { c.setSlot c.clock { entry with access := false } with clock := c.clock + 1 }
    else some c

/-- The unoccupied slot it returns, and the state. The loop always stops
within 65 slots (`clockScan_isSome`). -/
def bufferCacheEvict (c : Cache) : Cache × Fin bufferCacheSize :=
  let c := (clockScan (bufferCacheSize + 1) c).getD c
  if !(c.cache c.clock).occupied then (c, c.clock)
  else
    let c := bufferCacheFlush c c.clock
    (c.setSlot c.clock { c.cache c.clock with occupied := false }, c.clock)

/-- The slot of `sector`, filled from the device on a miss: the first half of
`buffer_cache_read` and of `buffer_cache_write`. -/
def bufferCacheSlot (c : Cache) (sector : BlockSector) : Cache × Fin bufferCacheSize :=
  match bufferCacheLookup c sector with
  | some i => (c, i)
  | none =>
    let (c, i) := bufferCacheEvict c
    (c.setSlot i { c.cache i with
      occupied := true, diskSector := sector, dirty := false,
      buffer := blockRead c.fsDevice sector }, i)

def bufferCacheRead (c : Cache) (sector : BlockSector) : Sector × Cache :=
  let (c, i) := bufferCacheSlot c sector
  ((c.cache i).buffer, c.setSlot i { c.cache i with access := true })

def bufferCacheWrite (c : Cache) (sector : BlockSector) (source : Sector) : Cache :=
  let (c, i) := bufferCacheSlot c sector
  c.setSlot i { c.cache i with access := true, dirty := true, buffer := source }

namespace Cache

/-! ## What a cache holds -/

/-- Slot `i` holds `sector`. -/
def Holds (c : Cache) (i : Fin bufferCacheSize) (sector : BlockSector) : Prop :=
  (c.cache i).occupied = true ∧ (c.cache i).diskSector = sector

/-- No sector is in two slots, and a slot that is not dirty is the device's
copy. -/
structure Inv (c : Cache) : Prop where
  distinct : ∀ {i j s}, c.Holds i s → c.Holds j s → i = j
  clean : ∀ {i s}, c.Holds i s → (c.cache i).dirty = false → (c.cache i).buffer = c.fsDevice.contents s

/-- The contents the cache stands for. -/
def view (c : Cache) (sector : BlockSector) : Sector :=
  match bufferCacheLookup c sector with
  | some i => (c.cache i).buffer
  | none => c.fsDevice.contents sector

theorem holds_of_lookup {c : Cache} {s i} (h : bufferCacheLookup c s = some i) : c.Holds i s := by
  have := List.find?_some h
  simpa [Holds] using this

theorem not_holds_of_lookup {c : Cache} {s} (h : bufferCacheLookup c s = none) (i) : ¬ c.Holds i s := by
  have := (List.find?_eq_none.1 h) i (List.mem_finRange i)
  simpa [Holds] using this

theorem view_of_holds {c : Cache} (hc : c.Inv) {i s} (h : c.Holds i s) :
    c.view s = (c.cache i).buffer := by
  rw [view]
  split
  · rename_i j hj; rw [hc.distinct (holds_of_lookup hj) h]
  · rename_i hn; exact absurd h (not_holds_of_lookup hn i)

theorem view_of_absent {c : Cache} {s} (h : ∀ i, ¬ c.Holds i s) : c.view s = c.fsDevice.contents s := by
  rw [view]
  split
  · rename_i j hj; exact absurd (holds_of_lookup hj) (h j)
  · rfl

/-- Caches that differ at most in reference bits and clock. -/
structure SameSlots (c c' : Cache) : Prop where
  occupied : ∀ i, (c'.cache i).occupied = (c.cache i).occupied
  diskSector : ∀ i, (c'.cache i).diskSector = (c.cache i).diskSector
  buffer : ∀ i, (c'.cache i).buffer = (c.cache i).buffer
  dirty : ∀ i, (c'.cache i).dirty = (c.cache i).dirty
  fsDevice : c'.fsDevice = c.fsDevice

theorem SameSlots.refl (c : Cache) : SameSlots c c := ⟨by simp, by simp, by simp, by simp, rfl⟩

theorem SameSlots.trans {a b c : Cache} (h : SameSlots a b) (h' : SameSlots b c) : SameSlots a c where
  occupied i := (h'.occupied i).trans (h.occupied i)
  diskSector i := (h'.diskSector i).trans (h.diskSector i)
  buffer i := (h'.buffer i).trans (h.buffer i)
  dirty i := (h'.dirty i).trans (h.dirty i)
  fsDevice := h'.fsDevice.trans h.fsDevice

theorem SameSlots.access {c : Cache} (i b) (k : Fin bufferCacheSize) :
    SameSlots c { c.setSlot i { c.cache i with access := b } with clock := k } := by
  constructor
  case fsDevice => rfl
  all_goals
    intro j
    by_cases hj : j = i
    · subst hj; simp
    · rw [show ({ c.setSlot i { c.cache i with access := b } with clock := k } : Cache).cache j =
        c.cache j from setSlot_other c _ hj]

theorem SameSlots.holds {c c' : Cache} (h : SameSlots c c') {i s} : c'.Holds i s ↔ c.Holds i s := by
  simp [Holds, h.occupied, h.diskSector]

theorem SameSlots.inv {c c' : Cache} (h : SameSlots c c') (hc : c.Inv) : c'.Inv where
  distinct hi hj := hc.distinct (h.holds.1 hi) (h.holds.1 hj)
  clean hi hd := by
    rw [h.buffer, h.fsDevice]
    exact hc.clean (h.holds.1 hi) ((h.dirty _).symm.trans hd)

theorem SameSlots.view {c c' : Cache} (h : SameSlots c c') : c'.view = c.view := by
  funext s
  have hl : bufferCacheLookup c' s = bufferCacheLookup c s := by
    simp only [bufferCacheLookup, h.occupied, h.diskSector]
  rw [Cache.view, Cache.view, hl]
  split
  · exact h.buffer _
  · rw [h.fsDevice]

/-! ## Eviction -/

theorem clockScan_same : ∀ {fuel : Nat} {c c' : Cache}, clockScan fuel c = some c' → SameSlots c c'
  | 0, _, _, h => by simp [clockScan] at h
  | fuel + 1, c, c', h => by
    simp only [clockScan] at h
    split at h
    · cases h; exact .refl c
    split at h
    · exact (SameSlots.access _ _ _).trans (clockScan_same h)
    · cases h; exact .refl c

/-- The slots with their reference bit set. -/
def referenced (c : Cache) : Finset (Fin bufferCacheSize) :=
  Finset.univ.filter fun i => (c.cache i).access

theorem clockScan_isSome_of_lt :
    ∀ {fuel : Nat} {c : Cache}, c.referenced.card < fuel → (clockScan fuel c).isSome
  | 0, _, h => by omega
  | fuel + 1, c, h => by
    simp only [clockScan]
    split
    · rfl
    split
    · rename_i hacc
      apply clockScan_isSome_of_lt
      -- the second chance takes one reference bit away
      have hmem : c.clock ∈ c.referenced := by simpa [referenced] using hacc
      have hsub : referenced { c.setSlot c.clock
          { c.cache c.clock with access := false } with clock := c.clock + 1 } ⊆
          c.referenced.erase c.clock := by
        intro j hj
        simp only [referenced, Finset.mem_filter, Finset.mem_univ, true_and] at hj
        by_cases hjc : j = c.clock
        · subst hjc; simp at hj
        · simp only [setSlot_other c _ hjc] at hj
          simp [referenced, hjc, hj]
      refine Nat.lt_of_le_of_lt (Finset.card_le_card hsub) ?_
      rw [Finset.card_erase_of_mem hmem]
      have := Finset.card_pos.2 ⟨_, hmem⟩
      omega
    · rfl

theorem clockScan_isSome (c : Cache) : (clockScan (bufferCacheSize + 1) c).isSome := by
  apply clockScan_isSome_of_lt
  have := Finset.card_le_univ c.referenced
  simp only [Fintype.card_fin] at this
  omega

theorem flush_inv {c : Cache} (hc : c.Inv) {i s} (hi : c.Holds i s) :
    (bufferCacheFlush c i).Inv ∧ (bufferCacheFlush c i).view = c.view ∧
      (bufferCacheFlush c i).fsDevice.contents s = c.view s ∧
      (∀ j t, (bufferCacheFlush c i).Holds j t ↔ c.Holds j t) ∧ (bufferCacheFlush c i).clock =
      c.clock := by
  have hv := view_of_holds hc hi
  by_cases hd : (c.cache i).dirty = true
  · have hfl : bufferCacheFlush c i =
        { c.setSlot i { c.cache i with dirty := false } with
          fsDevice := blockWrite c.fsDevice s (c.cache i).buffer } := by
      simp only [bufferCacheFlush, hd, if_true, hi.2]
    have hslot : ∀ j, ((bufferCacheFlush c i).cache j).occupied = (c.cache j).occupied ∧
        ((bufferCacheFlush c i).cache j).diskSector = (c.cache j).diskSector ∧
        ((bufferCacheFlush c i).cache j).buffer = (c.cache j).buffer := by
      intro j
      rw [hfl]
      by_cases hj : j = i
      · subst hj; simp
      · simp only [setSlot_other c _ hj, and_self]
    have hholds : ∀ j t, (bufferCacheFlush c i).Holds j t ↔ c.Holds j t := by
      intro j t
      simp only [Holds, (hslot j).1, (hslot j).2.1]
    have hdev : ∀ t, (bufferCacheFlush c i).fsDevice.contents t =
        if t = s then (c.cache i).buffer else c.fsDevice.contents t := by
      intro t
      rw [hfl]
      by_cases ht : t = s
      · subst ht; simp [blockWrite]
      · simp [blockWrite, ht]
    have hinv : (bufferCacheFlush c i).Inv := by
      refine ⟨fun h h' => hc.distinct ((hholds _ _).1 h) ((hholds _ _).1 h'), ?_⟩
      intro j t hj hdj
      rw [hdev, (hslot j).2.2]
      by_cases ht : t = s
      · subst ht; rw [if_pos rfl, hc.distinct ((hholds _ _).1 hj) hi]
      · rw [if_neg ht]
        have hji : j ≠ i := by rintro rfl; exact ht (((hholds _ _).1 hj).2.symm.trans hi.2)
        refine hc.clean ((hholds _ _).1 hj) ?_
        rw [hfl] at hdj
        simpa only [setSlot_other c _ hji] using hdj
    refine ⟨hinv, ?_, ?_, hholds, by rw [hfl]; rfl⟩
    · funext t
      by_cases ht : ∃ j, c.Holds j t
      · obtain ⟨j, hj⟩ := ht
        rw [view_of_holds hinv ((hholds _ _).2 hj), view_of_holds hc hj, (hslot j).2.2]
      · have ha : ∀ j, ¬ c.Holds j t := fun j hj => ht ⟨j, hj⟩
        rw [view_of_absent ha, view_of_absent fun j hj => ha j ((hholds _ _).1 hj), hdev, if_neg]
        rintro rfl
        exact ha i hi
    · rw [hdev, if_pos rfl, hv]
  · simp only [Bool.not_eq_true] at hd
    have hfl : bufferCacheFlush c i = c := by simp [bufferCacheFlush, hd]
    rw [hfl]
    exact ⟨hc, rfl, by rw [hv, hc.clean hi hd], fun _ _ => .rfl, rfl⟩

/-- A slot whose device copy is current can be given up. -/
theorem vacate_inv {c : Cache} (hc : c.Inv) {i s} (hi : c.Holds i s)
    (hs : c.fsDevice.contents s = c.view s) :
    (c.setSlot i { c.cache i with occupied := false }).Inv ∧
      (c.setSlot i { c.cache i with occupied := false }).view = c.view ∧
      ∀ j t, (c.setSlot i { c.cache i with occupied := false }).Holds j t ↔ j ≠ i ∧ c.Holds j t := by
  have hholds : ∀ j t, (c.setSlot i { c.cache i with occupied := false }).Holds j t ↔ j ≠ i ∧
      c.Holds j t := by
    intro j t
    by_cases hj : j = i
    · subst hj; simp [Holds]
    · simp [Holds, setSlot_other c _ hj, hj]
  have hinv : (c.setSlot i { c.cache i with occupied := false }).Inv := by
    refine ⟨fun h h' => hc.distinct ((hholds _ _).1 h).2 ((hholds _ _).1 h').2, fun {j t} hj hd => ?_⟩
    obtain ⟨hji, hjt⟩ := (hholds _ _).1 hj
    rw [setSlot_other c _ hji] at hd ⊢
    exact hc.clean hjt hd
  refine ⟨hinv, ?_, hholds⟩
  funext t
  by_cases ht : ∃ j, j ≠ i ∧ c.Holds j t
  · obtain ⟨j, hji, hj⟩ := ht
    rw [view_of_holds hinv ((hholds _ _).2 ⟨hji, hj⟩), view_of_holds hc hj, setSlot_other c _ hji]
  · rw [view_of_absent fun j hj => ht ⟨j, (hholds _ _).1 hj⟩, setSlot_fsDevice]
    by_cases hit : c.Holds i t
    · rw [← hit.2, hi.2, hs]
    · rw [view_of_absent]
      intro j hj
      by_cases hji : j = i
      · exact hit (hji ▸ hj)
      · exact ht ⟨j, hji, hj⟩

theorem evict_inv {c : Cache} (hc : c.Inv) :
    (bufferCacheEvict c).1.Inv ∧ (bufferCacheEvict c).1.view = c.view ∧
      ((bufferCacheEvict c).1.cache (bufferCacheEvict c).2).occupied = false ∧
      ∀ j t, (bufferCacheEvict c).1.Holds j t → c.Holds j t := by
  obtain ⟨c', hscan⟩ := Option.isSome_iff_exists.1 (clockScan_isSome c)
  have hsame := clockScan_same hscan
  have hc' := hsame.inv hc
  simp only [bufferCacheEvict, hscan, Option.getD_some]
  split
  · rename_i hocc
    exact ⟨hc', hsame.view, by simpa using hocc, fun _ _ => hsame.holds.1⟩
  · rename_i hocc
    have hi : c'.Holds c'.clock (c'.cache c'.clock).diskSector := ⟨by simpa using hocc, rfl⟩
    obtain ⟨hfinv, hfview, hfdev, hfholds, hfclock⟩ := flush_inv hc' hi
    rw [hfclock]
    obtain ⟨hvinv, hvview, hvholds⟩ := vacate_inv hfinv ((hfholds _ _).2 hi) (by rw [hfdev, hfview])
    exact ⟨hvinv, by rw [hvview, hfview, hsame.view], by simp,
      fun _ _ h => hsame.holds.1 ((hfholds _ _).1 ((hvholds _ _).1 h).2)⟩

/-- An unoccupied slot can take in the device's copy of a sector that is in
no slot. -/
theorem fill_inv {c : Cache} (hc : c.Inv) {i s} (hi : (c.cache i).occupied = false)
    (hs : ∀ j, ¬ c.Holds j s) :
    let c' := c.setSlot i { c.cache i with occupied := true, diskSector := s, dirty := false,
                                           buffer := blockRead c.fsDevice s }
    c'.Inv ∧ c'.view = c.view ∧ c'.Holds i s := by
  intro c'
  have hholds : ∀ j t, c'.Holds j t ↔ (j = i ∧ t = s) ∨ (j ≠ i ∧ c.Holds j t) := by
    intro j t
    by_cases hj : j = i
    · subst hj
      simp only [c', Holds, setSlot_same, true_and, ne_eq, not_true_eq_false, false_and, or_false]
      exact eq_comm
    · simp [c', Holds, setSlot_other c _ hj, hj]
  have hbuf : ∀ j, j ≠ i → c'.cache j = c.cache j := fun j hj => setSlot_other c _ hj
  have hinv : c'.Inv := by
    constructor
    · intro j k t hj hk
      rcases (hholds _ _).1 hj with ⟨hji, hts⟩ | ⟨-, hj'⟩ <;>
        rcases (hholds _ _).1 hk with ⟨hki, hts'⟩ | ⟨-, hk'⟩
      · exact hji.trans hki.symm
      · exact absurd hk' (hts ▸ hs k)
      · exact absurd hj' (hts' ▸ hs j)
      · exact hc.distinct hj' hk'
    · intro j t hj hd
      rcases (hholds _ _).1 hj with ⟨rfl, rfl⟩ | ⟨hji, hj⟩
      · simp [c', blockRead]
      · rw [hbuf j hji] at hd ⊢
        exact hc.clean hj hd
  refine ⟨hinv, ?_, (hholds _ _).2 (.inl ⟨rfl, rfl⟩)⟩
  funext t
  by_cases hts : t = s
  · subst hts
    rw [view_of_holds hinv ((hholds _ _).2 (.inl ⟨rfl, rfl⟩)), view_of_absent hs]
    simp [c', blockRead]
  · by_cases ht : ∃ j, c.Holds j t
    · obtain ⟨j, hj⟩ := ht
      have hji : j ≠ i := by rintro rfl; simp [Holds, hi] at hj
      rw [view_of_holds hinv ((hholds _ _).2 (.inr ⟨hji, hj⟩)), view_of_holds hc hj, hbuf j hji]
    · rw [view_of_absent fun j hj => ?_, view_of_absent fun j hj => ht ⟨j, hj⟩]
      · rfl
      · rcases (hholds _ _).1 hj with ⟨_, h⟩ | ⟨_, hj⟩
        · exact hts h
        · exact ht ⟨j, hj⟩

/-! ## Reads and writes -/

theorem slot_inv {c : Cache} (hc : c.Inv) (s : BlockSector) :
    (bufferCacheSlot c s).1.Inv ∧ (bufferCacheSlot c s).1.view = c.view ∧
      (bufferCacheSlot c s).1.Holds (bufferCacheSlot c s).2 s := by
  rw [bufferCacheSlot]
  split
  · rename_i i hi; exact ⟨hc, rfl, holds_of_lookup hi⟩
  · rename_i hn
    obtain ⟨hinv, hview, hocc, hholds⟩ := evict_inv hc
    obtain ⟨h1, h2, h3⟩ := fill_inv hinv hocc fun j hj => not_holds_of_lookup hn j (hholds j s hj)
    exact ⟨h1, h2.trans hview, h3⟩

theorem read_inv {c : Cache} (hc : c.Inv) (s : BlockSector) :
    (bufferCacheRead c s).2.Inv ∧ (bufferCacheRead c s).2.view =
    c.view ∧ (bufferCacheRead c s).1 = c.view s := by
  obtain ⟨hinv, hview, hi⟩ := slot_inv hc s
  have hsame : SameSlots (bufferCacheSlot c s).1 (bufferCacheRead c s).2 :=
    SameSlots.access _ _ (bufferCacheSlot c s).1.clock
  refine ⟨hsame.inv hinv, hsame.view.trans hview, ?_⟩
  rw [← hview, view_of_holds hinv hi]
  rfl

theorem write_inv {c : Cache} (hc : c.Inv) (s : BlockSector) (b : Sector) :
    (bufferCacheWrite c s b).Inv ∧ (bufferCacheWrite c s b).view = Function.update c.view s b := by
  obtain ⟨hinv, hview, hi⟩ := slot_inv hc s
  rw [← hview]
  have hw : bufferCacheWrite c s b = (bufferCacheSlot c s).1.setSlot (bufferCacheSlot c s).2
      { (bufferCacheSlot c s).1.cache (bufferCacheSlot c s).2 with
        access := true, dirty := true, buffer := b } := rfl
  generalize bufferCacheSlot c s = r at *
  obtain ⟨d, i⟩ := r
  rw [hw]
  clear hw hview
  simp only at *
  have hholds : ∀ j t,
      (d.setSlot i { d.cache i with access := true, dirty := true, buffer := b }).Holds j t ↔
        d.Holds j t := by
    intro j t
    by_cases hj : j = i
    · subst hj; simp [Holds]
    · simp [Holds, setSlot_other d _ hj]
  have hinv' : (d.setSlot i { d.cache i with access := true, dirty := true, buffer := b }).Inv := by
    refine ⟨fun h h' => hinv.distinct ((hholds _ _).1 h) ((hholds _ _).1 h'), fun {j t} hj hd => ?_⟩
    have hji : j ≠ i := by rintro rfl; simp at hd
    rw [setSlot_other d _ hji] at hd ⊢
    exact hinv.clean ((hholds _ _).1 hj) hd
  refine ⟨hinv', ?_⟩
  funext t
  by_cases hts : t = s
  · subst hts
    rw [view_of_holds hinv' ((hholds _ _).2 hi)]
    simp
  · rw [Function.update_of_ne hts]
    by_cases ht : ∃ j, d.Holds j t
    · obtain ⟨j, hj⟩ := ht
      have hji : j ≠ i := by rintro rfl; exact hts (hj.2.symm.trans hi.2)
      rw [view_of_holds hinv' ((hholds _ _).2 hj), view_of_holds hinv hj, setSlot_other d _ hji]
    · rw [view_of_absent fun j hj => ht ⟨j, (hholds _ _).1 hj⟩, view_of_absent fun j hj => ht ⟨j, hj⟩]
      rfl

theorem init_inv (c : Cache) : (bufferCacheInit c).Inv :=
  ⟨fun h => by simp [Holds, bufferCacheInit] at h, fun h => by simp [Holds, bufferCacheInit] at h⟩

theorem init_view (c : Cache) : (bufferCacheInit c).view = c.fsDevice.contents := by
  funext s
  exact view_of_absent fun i hi => by simp [Holds, bufferCacheInit] at hi

/-! ## Closing -/

/-- Flushing the slots of a list leaves the cache's contents alone and the
sectors of those slots on the device. -/
theorem closeSlots_inv {c : Cache} (hc : c.Inv) (l : List (Fin bufferCacheSize)) :
    (closeSlots l c).Inv ∧ (closeSlots l c).view = c.view ∧
      (∀ j t, (closeSlots l c).Holds j t ↔ c.Holds j t) ∧
      (∀ i ∈ l, ∀ t, c.Holds i t → (closeSlots l c).fsDevice.contents t = c.view t) ∧
      (∀ t, c.fsDevice.contents t = c.view t → (closeSlots l c).fsDevice.contents t = c.view t) := by
  induction l generalizing c with
  | nil => exact ⟨hc, rfl, fun _ _ => .rfl, by simp, fun _ h => h⟩
  | cons i l ih =>
    rw [show closeSlots (i :: l) c =
      closeSlots l (if (c.cache i).occupied then bufferCacheFlush c i else c) from rfl]
    by_cases hocc : (c.cache i).occupied = true
    · have hi : c.Holds i (c.cache i).diskSector := ⟨hocc, rfl⟩
      obtain ⟨hfinv, hfview, hfdev, hfholds, -⟩ := flush_inv hc hi
      rw [if_pos hocc]
      obtain ⟨h1, h2, h3, h4, h5⟩ := ih hfinv
      rw [hfview] at h2 h4 h5
      refine ⟨h1, h2, fun j t => (h3 j t).trans (hfholds j t), ?_, ?_⟩
      · intro k hk t hkt
        rcases List.mem_cons.1 hk with rfl | hk
        · exact h5 t (by rw [← hkt.2]; exact hfdev)
        · exact h4 k hk t ((hfholds _ _).2 hkt)
      · intro t ht
        refine h5 t ?_
        by_cases hit : t = (c.cache i).diskSector
        · rw [hit]; exact hfdev
        · rw [← ht, bufferCacheFlush]
          split
          · simp [blockWrite, hit]
          · rfl
    · rw [if_neg hocc]
      obtain ⟨h1, h2, h3, h4, h5⟩ := ih hc
      refine ⟨h1, h2, h3, fun k hk t hkt => ?_, h5⟩
      rcases List.mem_cons.1 hk with rfl | hk
      · exact absurd hkt.1 hocc
      · exact h4 k hk t hkt

/-- After `buffer_cache_close` the device holds what the cache stood for. -/
theorem close_contents {c : Cache} (hc : c.Inv) : (bufferCacheClose c).fsDevice.contents = c.view := by
  rw [bufferCacheClose]
  obtain ⟨-, -, -, h4, h5⟩ := closeSlots_inv hc (List.finRange bufferCacheSize)
  funext t
  by_cases ht : ∃ i, c.Holds i t
  · obtain ⟨i, hi⟩ := ht
    exact h4 i (List.mem_finRange i) t hi
  · exact h5 t (view_of_absent fun i hi => ht ⟨i, hi⟩).symm

end Cache

/-! ## The cache as a store -/

/-- A buffer cache in a state its own functions reach. -/
structure BufferCache where
  state : Cache
  inv : state.Inv

namespace BufferCache

def init (c : Cache) : BufferCache := ⟨bufferCacheInit c, Cache.init_inv c⟩

instance : Storage.Store BufferCache BlockSector Sector where
  read c s := ((bufferCacheRead c.state s).1,
    ⟨(bufferCacheRead c.state s).2, (Cache.read_inv c.inv s).1⟩)
  write c s b := ⟨bufferCacheWrite c.state s b, (Cache.write_inv c.inv s b).1⟩

def view : Storage.View BufferCache where
  view c := c.state.view
  read_fst c s := (Cache.read_inv c.inv s).2.2
  read_view c s := (Cache.read_inv c.inv s).2.1
  write_view c s b := (Cache.write_inv c.inv s b).2

end BufferCache

/-! ## Transparency -/

inductive CacheOp where
  | read (sector : BlockSector)
  | write (sector : BlockSector) (source : Sector)

def CacheOp.run : CacheOp → Cache → Cache
  | .read s, c => (bufferCacheRead c s).2
  | .write s b, c => bufferCacheWrite c s b

def runCache (ops : List CacheOp) (c : Cache) : Cache := ops.foldl (fun c op => op.run c) c

/-- The last contents `ops` write to a sector, else its contents in `device`. -/
def lastWrite (device : BlockSector → Sector) (ops : List CacheOp) (sector : BlockSector) : Sector :=
  ops.foldl (fun last op => match op with
    | .read _ => last
    | .write s b => if s = sector then b else last) (device sector)

theorem runCache_inv {c : Cache} (hc : c.Inv) (ops : List CacheOp) :
    (runCache ops c).Inv ∧ (runCache ops c).view = lastWrite c.view ops := by
  induction ops generalizing c with
  | nil => exact ⟨hc, rfl⟩
  | cons op ops ih =>
    cases op with
    | read s =>
      obtain ⟨h1, h2, -⟩ := Cache.read_inv hc s
      have := ih h1
      rw [h2] at this
      exact this
    | write s b =>
      obtain ⟨h1, h2⟩ := Cache.write_inv hc s b
      refine ⟨(ih h1).1, (ih h1).2.trans ?_⟩
      funext t
      rw [h2]
      simp only [lastWrite, List.foldl_cons, Function.update_apply, eq_comm]

/-- **The buffer cache is transparent.** After `buffer_cache_init` and any
sequence of reads and writes: a read of any sector answers with the last
write to it, or with what the device held; no two occupied slots hold one
sector; and closing the cache leaves exactly those contents on the device. -/
theorem bufferCache_transparent (c : Cache) (ops : List CacheOp) :
    let c' := runCache ops (bufferCacheInit c)
    (∀ s, (bufferCacheRead c' s).1 = lastWrite c.fsDevice.contents ops s) ∧
    (∀ i j s, c'.Holds i s → c'.Holds j s → i = j) ∧
    ∀ s, (bufferCacheClose c').fsDevice.contents s = lastWrite c.fsDevice.contents ops s := by
  intro c'
  obtain ⟨hinv, hview⟩ := runCache_inv (Cache.init_inv c) ops
  rw [Cache.init_view] at hview
  refine ⟨fun s => ?_, fun i j s => hinv.distinct, fun s => ?_⟩
  · rw [(Cache.read_inv hinv s).2.2, hview]
  · rw [Cache.close_contents hinv, hview]

end MyShell.Fs

/-
`buffer_cache_evict` (cache.c) from any state of the cache, also one that no
sequence of reads and writes leads to: the clock stops, and what it frees is
written back.
-/
import MyShell.Fs.Cache

namespace MyShell.Fs.Cache

/-- `c'` is `c` with the slot `i` given up. -/
structure Evicted (c c' : Cache) (i : Fin bufferCacheSize) : Prop where
  free : (c'.cache i).occupied = false
  writtenBack : (c.cache i).occupied = true → (c.cache i).dirty = true →
    c'.fsDevice = blockWrite c.fsDevice (c.cache i).diskSector (c.cache i).buffer
  device : (c.cache i).occupied = false ∨ (c.cache i).dirty = false → c'.fsDevice = c.fsDevice
  occupied : ∀ j ≠ i, (c'.cache j).occupied = (c.cache j).occupied
  diskSector : ∀ j ≠ i, (c'.cache j).diskSector = (c.cache j).diskSector
  buffer : ∀ j ≠ i, (c'.cache j).buffer = (c.cache j).buffer
  dirty : ∀ j ≠ i, (c'.cache j).dirty = (c.cache j).dirty

variable {c c₁ : Cache} {i : Fin bufferCacheSize}

/-- The clock leaves what a slot holds, and the device, as they are. -/
theorem Evicted.scanned (h : SameSlots c c₁) {c' : Cache} (hev : Evicted c₁ c' i) : Evicted c c' i where
  free := hev.free
  writtenBack hocc hdirty := by
    rw [hev.writtenBack ((h.occupied i).trans hocc) ((h.dirty i).trans hdirty), h.fsDevice,
      h.diskSector, h.buffer]
  device hclean := by
    rw [hev.device (by rwa [h.occupied, h.dirty]), h.fsDevice]
  occupied j hj := (hev.occupied j hj).trans (h.occupied j)
  diskSector j hj := (hev.diskSector j hj).trans (h.diskSector j)
  buffer j hj := (hev.buffer j hj).trans (h.buffer j)
  dirty j hj := (hev.dirty j hj).trans (h.dirty j)

theorem evicted_free (h : (c.cache i).occupied = false) : Evicted c c i where
  free := h
  writtenBack hocc := by
    rw [h] at hocc
    cases hocc
  device _ := rfl
  occupied _ _ := rfl
  diskSector _ _ := rfl
  buffer _ _ := rfl
  dirty _ _ := rfl

theorem flush_clean (h : (c.cache i).dirty = false) : bufferCacheFlush c i = c := by
  simp [bufferCacheFlush, h]

theorem flush_dirty (h : (c.cache i).dirty = true) : bufferCacheFlush c i =
    { c.setSlot i { c.cache i with dirty := false } with
      fsDevice := blockWrite c.fsDevice (c.cache i).diskSector (c.cache i).buffer } := by
  simp [bufferCacheFlush, h]

theorem flush_other {j : Fin bufferCacheSize} (hj : j ≠ i) :
    (bufferCacheFlush c i).cache j = c.cache j := by
  cases h : (c.cache i).dirty with
  | false => rw [flush_clean h]
  | true =>
    rw [flush_dirty h]
    exact setSlot_other c _ hj

theorem flush_clock (c : Cache) (i : Fin bufferCacheSize) : (bufferCacheFlush c i).clock = c.clock := by
  cases h : (c.cache i).dirty with
  | false => rw [flush_clean h]
  | true =>
    rw [flush_dirty h]
    rfl

theorem evicted_flush (hocc : (c.cache i).occupied = true) :
    Evicted c ((bufferCacheFlush c i).setSlot i
      { (bufferCacheFlush c i).cache i with occupied := false }) i := by
  have hother : ∀ j ≠ i, ((bufferCacheFlush c i).setSlot i
      { (bufferCacheFlush c i).cache i with occupied := false }).cache j = c.cache j := fun j hj => by
    rw [setSlot_other _ _ hj, flush_other hj]
  refine ⟨by rw [setSlot_same], fun _ hdirty => ?_, fun hclean => ?_, fun j hj => ?_,
    fun j hj => ?_, fun j hj => ?_, fun j hj => ?_⟩
  · rw [setSlot_fsDevice, flush_dirty hdirty]
  · rcases hclean with hfree | hclean
    · rw [hocc] at hfree
      cases hfree
    · rw [setSlot_fsDevice, flush_clean hclean]
  all_goals rw [hother j hj]

/-- **The clock stops** within 65 inspections, whatever slots are taken, dirty
or referenced and wherever it stands; the slot it frees is written back if it
was dirty, and no other slot changes but in its reference bit. -/
theorem clock_hand_stops (c : Cache) : (∃ c₁, clockScan (bufferCacheSize + 1) c = some c₁) ∧
    Evicted c (bufferCacheEvict c).1 (bufferCacheEvict c).2 := by
  obtain ⟨c₁, hscan⟩ := Option.isSome_iff_exists.1 (clockScan_isSome c)
  have hsame := clockScan_same hscan
  refine ⟨⟨c₁, hscan⟩, .scanned hsame ?_⟩
  simp only [bufferCacheEvict, hscan, Option.getD_some]
  cases hocc : (c₁.cache c₁.clock).occupied with
  | false => exact evicted_free hocc
  | true =>
    simp only [Bool.not_true, Bool.false_eq_true, if_false, flush_clock]
    exact evicted_flush hocc

end MyShell.Fs.Cache

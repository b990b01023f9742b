/-
Bitmaps (bitmap.c): arrays of bits, with a first-fit scan for clear ones and
the byte image that goes to a file.

`Takes` is what a run of successful one-bit allocations does: it sets bits
that were clear, each once. `bitmapScanAndFlip_one` is the allocation itself.
-/
import MyShell.Fs.Sector
import Mathlib.Data.List.Count
import Mathlib.Data.Nat.Bitwise

namespace MyShell.Fs

/-- `struct bitmap`; `bit_cnt` is the length. -/
abbrev Bitmap := List Bool

def bitmapCreate (bitCnt : Nat) : Bitmap := List.replicate bitCnt false

def bitmapSize (b : Bitmap) : Nat := b.length

def bitmapTest (b : Bitmap) (idx : Nat) : Bool := b.getD idx false

def bitmapMark (b : Bitmap) (idx : Nat) : Bitmap := b.set idx true

def bitmapReset (b : Bitmap) (idx : Nat) : Bitmap := b.set idx false

def bitmapFlip (b : Bitmap) (idx : Nat) : Bitmap := b.modify idx not

def bitmapSet (b : Bitmap) (idx : Nat) (value : Bool) : Bitmap :=
  if value then bitmapMark b idx else bitmapReset b idx

def bitmapSetMultiple (b : Bitmap) (start cnt : Nat) (value : Bool) : Bitmap :=
  (List.range cnt).foldl (fun b i => bitmapSet b (start + i) value) b

def bitmapCount (b : Bitmap) (start cnt : Nat) (value : Bool) : Nat :=
  ((List.range cnt).filter fun i => bitmapTest b (start + i) == value).length

def bitmapContains (b : Bitmap) (start cnt : Nat) (value : Bool) : Bool :=
  (List.range cnt).any fun i => bitmapTest b (start + i) == value

/-- `none` is `BITMAP_ERROR`. -/
def bitmapScan (b : Bitmap) (start cnt : Nat) (value : Bool) : Option Nat :=
  if cnt ≤ b.length then
    (List.range' start (b.length - cnt + 1 - start)).find? fun i => !bitmapContains b i cnt (!value)
  else none

def bitmapScanAndFlip (b : Bitmap) (start cnt : Nat) (value : Bool) : Option (Nat × Bitmap) :=
  (bitmapScan b start cnt value).map fun idx => (idx, bitmapSetMultiple b idx cnt (!value))

/-! ## The byte image -/

/-- `byte_cnt`: whole 64-bit elements. -/
def byteCnt (bitCnt : Nat) : Nat := 8 * divRoundUp bitCnt 64

def bitmapFileSize (b : Bitmap) : Nat := byteCnt b.length

/-- `b->bits`, as bytes. -/
def bitmapBytes (b : Bitmap) : List UInt8 :=
  (List.range (byteCnt b.length)).map fun k =>
    UInt8.ofNat (Nat.ofBits fun j : Fin 8 => bitmapTest b (8 * k + j))

/-- The first `bitCnt` bits of `bytes`. -/
def bitmapOfBytes (bitCnt : Nat) (bytes : List UInt8) : Bitmap :=
  (List.range bitCnt).map fun i => (bytes.getD (i / 8) 0).toNat.testBit (i % 8)

@[simp] theorem length_bitmapBytes (b : Bitmap) : (bitmapBytes b).length = bitmapFileSize b := by
  simp [bitmapBytes, bitmapFileSize]

theorem bitmapOfBytes_bitmapBytes (b : Bitmap) : bitmapOfBytes b.length (bitmapBytes b) = b := by
  apply List.ext_getElem (by simp [bitmapOfBytes])
  intro i hi hb
  have hbyte : i / 8 < byteCnt b.length := by simp only [byteCnt, divRoundUp]; omega
  have hlt := Nat.ofBits_lt_two_pow fun j : Fin 8 => bitmapTest b (8 * (i / 8) + j)
  simp only [bitmapOfBytes, List.getElem_map, List.getElem_range, bitmapBytes]
  rw [List.getD_eq_getElem _ _ (by simpa using hbyte)]
  simp only [List.getElem_map, List.getElem_range]
  rw [UInt8.toNat_ofNat', Nat.mod_eq_of_lt (by simpa using hlt),
    Nat.testBit_ofBits_lt _ _ (Nat.mod_lt _ (by omega))]
  simp only [bitmapTest, Nat.div_add_mod]
  exact List.getD_eq_getElem _ _ hb

/-! ## Single bits -/

theorem bitmapTest_set {b : Bitmap} {i j : Nat} {value : Bool} (hi : i < b.length) :
    bitmapTest (b.set i value) j = if j = i then value else bitmapTest b j := by
  simp only [bitmapTest, List.getD_eq_getElem?_getD, List.getElem?_set]
  by_cases hij : j = i
  · subst hij; simp [hi]
  · simp [hij, Ne.symm hij]

theorem bitmapTest_of_le {b : Bitmap} {i : Nat} (h : b.length ≤ i) : bitmapTest b i = false := by
  simp [bitmapTest, List.getD_eq_getElem?_getD, List.getElem?_eq_none h]

theorem lt_of_bitmapTest {b : Bitmap} {i : Nat} (h : bitmapTest b i = true) : i < b.length := by
  by_contra hn
  simp [bitmapTest_of_le (Nat.le_of_not_lt hn)] at h

@[simp] theorem bitmapSetMultiple_one (b : Bitmap) (i : Nat) (value : Bool) :
    bitmapSetMultiple b i 1 value = b.set i value := by
  simp [bitmapSetMultiple, bitmapSet, bitmapMark, bitmapReset]
  cases value <;> rfl

/-! ## Free bits -/

/-- The number of clear bits. -/
def freeCount (b : Bitmap) : Nat := b.count false

theorem bitmapCount_eq (b : Bitmap) : bitmapCount b 0 (bitmapSize b) false = freeCount b := by
  simp only [bitmapCount, bitmapSize, freeCount, Nat.zero_add, bitmapTest]
  induction b with
  | nil => rfl
  | cons a b ih =>
    rw [List.length_cons, List.range_succ_eq_map, List.filter_cons, List.filter_map,
      List.count_cons, ← ih]
    cases a <;> simp [Function.comp_def]

theorem freeCount_set {b : Bitmap} {i : Nat} (hi : i < b.length) (h : bitmapTest b i = false) :
    freeCount (b.set i true) + 1 = freeCount b := by
  induction b generalizing i with
  | nil => simp at hi
  | cons a b ih =>
    cases i with
    | zero => simp [bitmapTest] at h; subst h; simp [freeCount]
    | succ i =>
      simp only [List.length_cons, Nat.add_lt_add_iff_right] at hi
      have := ih hi (by simpa [bitmapTest] using h)
      simp only [freeCount, List.set_cons_succ, List.count_cons] at this ⊢
      omega

theorem freeCount_reset {b : Bitmap} {i : Nat} (hi : i < b.length) (h : bitmapTest b i = true) :
    freeCount (b.set i false) = freeCount b + 1 := by
  induction b generalizing i with
  | nil => simp at hi
  | cons a b ih =>
    cases i with
    | zero => simp [bitmapTest] at h; subst h; simp [freeCount]
    | succ i =>
      simp only [List.length_cons, Nat.add_lt_add_iff_right] at hi
      have := ih hi (by simpa [bitmapTest] using h)
      simp only [freeCount, List.set_cons_succ, List.count_cons] at this ⊢
      omega

theorem freeCount_eq_zero {b : Bitmap} : freeCount b = 0 ↔ ∀ i < b.length, bitmapTest b i = true := by
  simp only [freeCount, List.count_eq_zero, bitmapTest]
  constructor
  · intro h i hi
    rw [List.getD_eq_getElem _ _ hi]
    by_contra hne
    have hf : b[i] = false := by simpa using hne
    exact h (hf ▸ List.getElem_mem hi)
  · intro h hm
    obtain ⟨i, hi, he⟩ := List.getElem_of_mem hm
    have := h i hi
    rw [List.getD_eq_getElem _ _ hi, he] at this
    exact absurd this (by decide)

theorem bitmapScan_one_none {b : Bitmap} : bitmapScan b 0 1 false = none ↔ freeCount b = 0 := by
  rw [freeCount_eq_zero]
  simp only [bitmapScan, bitmapContains]
  split
  · rw [List.find?_eq_none]
    simp only [List.mem_range'_1, List.range_one, List.any_cons, List.any_nil, Bool.or_false,
      Nat.add_zero, Bool.not_false]
    constructor
    · intro h i hi
      simpa using h i (by omega)
    · intro h i hi
      simpa using h i (by omega)
  · simp only [true_iff]
    intro i hi; omega

theorem bitmapScan_one_some {b : Bitmap} {i : Nat} (h : bitmapScan b 0 1 false = some i) :
    i < b.length ∧ bitmapTest b i = false ∧ ∀ j < i, bitmapTest b j = true := by
  simp only [bitmapScan, bitmapContains] at h
  split at h
  · rename_i hlen
    rw [List.find?_eq_some_iff_getElem] at h
    obtain ⟨hi, k, hk, hget, hbefore⟩ := h
    simp only [List.length_range'] at hk
    simp only [List.getElem_range', Nat.zero_add, Nat.one_mul] at hget hbefore
    subst hget
    refine ⟨by omega, by simpa using hi, fun j hj => by simpa using hbefore j hj⟩
  · cases h

/-- The first-fit allocation of one bit: it fails exactly when no bit is
clear, and else takes the lowest clear bit. -/
theorem bitmapScanAndFlip_one (b : Bitmap) :
    (bitmapScanAndFlip b 0 1 false = none ∧ freeCount b = 0) ∨
    ∃ i, bitmapScanAndFlip b 0 1 false = some (i, b.set i true) ∧ i < b.length ∧
      bitmapTest b i = false ∧ ∀ j < i, bitmapTest b j = true := by
  rw [bitmapScanAndFlip]
  cases h : bitmapScan b 0 1 false with
  | none => exact .inl ⟨rfl, bitmapScan_one_none.1 h⟩
  | some i => exact .inr ⟨i, by simp, bitmapScan_one_some h⟩

/-! ## Sectors of a free map -/

/-- A free map with a bit for every sector number below its size. -/
def InUse (b : Bitmap) (s : BlockSector) : Prop := bitmapTest b s.toNat = true

/-- `b'` is `b` with the clear bits of the sectors `new` set. -/
structure Takes (b b' : Bitmap) (new : List BlockSector) : Prop where
  nodup : new.Nodup
  clear : ∀ s ∈ new, ¬ InUse b s
  length : b'.length = b.length
  inUse : ∀ s, InUse b' s ↔ InUse b s ∨ s ∈ new
  count : freeCount b' + new.length = freeCount b

theorem Takes.nil (b : Bitmap) : Takes b b [] := ⟨List.nodup_nil, by simp, rfl, by simp, rfl⟩

theorem Takes.trans {b b' b'' : Bitmap} {new new' : List BlockSector} (h : Takes b b' new)
    (h' : Takes b' b'' new') : Takes b b'' (new ++ new') where
  nodup := by
    refine List.nodup_append.2 ⟨h.nodup, h'.nodup, ?_⟩
    rintro s hs t ht rfl
    exact h'.clear s ht ((h.inUse s).2 (.inr hs))
  clear s hs := by
    rcases List.mem_append.1 hs with hs | hs
    · exact h.clear s hs
    · exact fun hu => h'.clear s hs ((h.inUse s).2 (.inl hu))
  length := h'.length.trans h.length
  inUse s := by rw [h'.inUse, h.inUse, List.mem_append, or_assoc]
  count := by rw [List.length_append, ← h.count, ← h'.count]; omega

theorem Takes.one {b : Bitmap} {i : Nat} (hb : b.length ≤ 2 ^ 32) (hi : i < b.length)
    (h : bitmapTest b i = false) : Takes b (b.set i true) [UInt32.ofNat i] := by
  have hnat : (UInt32.ofNat i).toNat = i := by
    rw [UInt32.toNat_ofNat']; exact Nat.mod_eq_of_lt (by omega)
  constructor
  case nodup => simp
  case clear => simp [InUse, hnat, h]
  case length => simp
  case inUse =>
    intro s
    rw [InUse, bitmapTest_set hi, List.mem_singleton, ← UInt32.toNat_inj, hnat]
    by_cases hs : s.toNat = i
    · simp [hs]
    · simp [hs, InUse]
  case count => simpa using freeCount_set hi h

/-- Two maps of one size are the same where the same sectors are in use. -/
theorem bitmap_ext {b b' : Bitmap} (hb : b.length < 2 ^ 32) (hlength : b'.length = b.length)
    (h : ∀ s, InUse b' s ↔ InUse b s) : b' = b := by
  refine List.ext_getElem hlength fun i hi hi' => ?_
  have hnat : (UInt32.ofNat i).toNat = i := by
    rw [UInt32.toNat_ofNat']; exact Nat.mod_eq_of_lt (by omega)
  have hsame := h (UInt32.ofNat i)
  simp only [InUse, bitmapTest, hnat, List.getD_eq_getElem _ _ hi,
    List.getD_eq_getElem _ _ hi'] at hsame
  exact Bool.eq_iff_iff.2 hsame

/-- The map is as it was where nothing is taken. -/
theorem Takes.eq_of_nil {b b' : Bitmap} (hb : b.length < 2 ^ 32) (h : Takes b b' []) : b' = b :=
  bitmap_ext hb h.length fun s => by rw [h.inUse, or_iff_left List.not_mem_nil]

theorem Takes.mono {b b' : Bitmap} {new : List BlockSector} (h : Takes b b' new) {s} (hs : InUse b s) :
    InUse b' s := (h.inUse s).2 (.inl hs)

theorem Takes.le {b b' : Bitmap} {new : List BlockSector} (h : Takes b b' new) :
    new.length ≤ freeCount b := by
  have := h.count; omega

/-- `b'` is `b` with the set bits of the sectors `old` cleared. -/
structure Gives (b b' : Bitmap) (old : List BlockSector) : Prop where
  length : b'.length = b.length
  inUse : ∀ s, InUse b' s ↔ InUse b s ∧ s ∉ old
  count : old.Nodup → (∀ s ∈ old, InUse b s) → freeCount b' = freeCount b + old.length
  le : freeCount b ≤ freeCount b'

theorem Gives.nil (b : Bitmap) : Gives b b [] := ⟨rfl, by simp, by simp, Nat.le_refl _⟩

theorem Gives.trans {b b' b'' : Bitmap} {old old' : List BlockSector} (h : Gives b b' old)
    (h' : Gives b' b'' old') : Gives b b'' (old ++ old') where
  length := h'.length.trans h.length
  inUse s := by rw [h'.inUse, h.inUse, List.mem_append, not_or, and_assoc]
  count hn hu := by
    obtain ⟨hn₁, hn₂, hd⟩ := List.nodup_append.1 hn
    rw [h'.count hn₂, h.count hn₁, List.length_append, Nat.add_assoc]
    · exact fun s hs => hu s (List.mem_append_left _ hs)
    · exact fun s hs => (h.inUse s).2 ⟨hu s (List.mem_append_right _ hs), fun hs' => hd s hs' s hs rfl⟩
  le := h.le.trans h'.le

theorem Gives.one (b : Bitmap) (s : BlockSector) : Gives b (b.set s.toNat false) [s] := by
  constructor
  case length => simp
  case inUse =>
    intro t
    by_cases hs : s.toNat < b.length
    · rw [InUse, bitmapTest_set hs, List.mem_singleton, ← UInt32.toNat_inj]
      by_cases ht : t.toNat = s.toNat
      · simp [ht]
      · simp [ht, InUse]
    · rw [List.set_eq_of_length_le (by omega)]
      refine ⟨fun hu => ⟨hu, ?_⟩, fun h => h.1⟩
      rw [List.mem_singleton]
      rintro rfl
      exact hs (lt_of_bitmapTest hu)
  case count =>
    intro _ hu
    exact freeCount_reset (lt_of_bitmapTest (hu s (by simp))) (hu s (by simp))
  case le =>
    by_cases hs : InUse b s
    · rw [freeCount_reset (lt_of_bitmapTest hs) hs]
      exact Nat.le_succ _
    · -- the bit is clear already
      refine Nat.le_of_eq (congrArg freeCount ?_)
      refine (List.ext_getElem (by simp) fun i hi hi' => ?_).symm
      rw [List.getElem_set]
      split
      · next heq =>
        have hclear : b.getD s.toNat false = false := by simpa [InUse, bitmapTest] using hs
        subst heq
        rw [List.getD_eq_getElem _ _ hi'] at hclear
        exact hclear.symm
      · rfl

end MyShell.Fs

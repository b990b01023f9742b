/-
bitmap.c as it is below `Bitmap`: `struct bitmap` holds elements of 64 bits,
and every call reaches a bit through a mask. `Holds` ties the elements to the
plain bits and keeps the unused bits of the last element clear, which the
bytes in the free map file rely on. It survives every call, and the answers
are those of `Bitmap` (`calls_refine`).
-/
import MyShell.Fs.Bitmap
import MyShell.Lib.BitArray

namespace MyShell.Fs

open BitArray

/-- `elem_type`, an `unsigned long`. -/
abbrev ElemType := BitVec 64

/-- `ELEM_BITS` -/
abbrev elemBits : Nat := 64

def elemIdx (bitIdx : Nat) : Nat := bitIdx / elemBits

def bitMask (bitIdx : Nat) : ElemType := 1#64 <<< (bitIdx % elemBits)

def elemCnt (bitCnt : Nat) : Nat := divRoundUp bitCnt elemBits

theorem elemCnt_eq (bitCnt : Nat) : elemCnt bitCnt = (bitCnt + 63) / 64 := rfl

theorem byteCnt_eq (bitCnt : Nat) : byteCnt bitCnt = 8 * elemCnt bitCnt := rfl

/-- `BITMAP_ERROR`, `UINT32_MAX` -/
def bitmapError : Nat := 2 ^ 32 - 1

/-- `struct bitmap`, with the elements `bits` points to. -/
structure BitmapWords where
  bitCnt : Nat
  bits : List ElemType
  length_bits : bits.length = elemCnt bitCnt

namespace BitmapWords

/-- Element `idx` changed by `f`. -/
def modifyElem (b : BitmapWords) (idx : Nat) (f : ElemType → ElemType) : BitmapWords :=
  ⟨b.bitCnt, b.bits.modify idx f, by rw [List.length_modify, b.length_bits]⟩

def mark (b : BitmapWords) (bitIdx : Nat) : BitmapWords :=
  b.modifyElem (elemIdx bitIdx) (· ||| bitMask bitIdx)

def reset (b : BitmapWords) (bitIdx : Nat) : BitmapWords :=
  b.modifyElem (elemIdx bitIdx) (· &&& ~~~bitMask bitIdx)

def flip (b : BitmapWords) (bitIdx : Nat) : BitmapWords :=
  b.modifyElem (elemIdx bitIdx) (· ^^^ bitMask bitIdx)

def set (b : BitmapWords) (idx : Nat) (value : Bool) : BitmapWords :=
  if value then b.mark idx else b.reset idx

def test (b : BitmapWords) (idx : Nat) : Bool := b.bits.getD (elemIdx idx) 0 &&& bitMask idx != 0

def setMultiple (b : BitmapWords) (start cnt : Nat) (value : Bool) : BitmapWords :=
  (List.range cnt).foldl (fun b i => b.set (start + i) value) b

def setAll (b : BitmapWords) (value : Bool) : BitmapWords := b.setMultiple 0 b.bitCnt value

/-- `bitmap_create`, when `malloc` succeeds. -/
def create (bitCnt : Nat) : BitmapWords :=
  setAll ⟨bitCnt, List.replicate (elemCnt bitCnt) 0, List.length_replicate⟩ false

def count (b : BitmapWords) (start cnt : Nat) (value : Bool) : Nat :=
  ((List.range cnt).filter fun i => b.test (start + i) == value).length

def contains (b : BitmapWords) (start cnt : Nat) (value : Bool) : Bool :=
  (List.range cnt).any fun i => b.test (start + i) == value

def any (b : BitmapWords) (start cnt : Nat) : Bool := b.contains start cnt true

def none (b : BitmapWords) (start cnt : Nat) : Bool := !b.contains start cnt true

def all (b : BitmapWords) (start cnt : Nat) : Bool := !b.contains start cnt false

def scan (b : BitmapWords) (start cnt : Nat) (value : Bool) : Nat :=
  if cnt ≤ b.bitCnt then
    let last := b.bitCnt - cnt
    ((List.range' start (last + 1 - start)).find? fun i => !b.contains i cnt (!value)).getD bitmapError
  else bitmapError

def scanAndFlip (b : BitmapWords) (start cnt : Nat) (value : Bool) : Nat × BitmapWords :=
  let idx := b.scan start cnt value
  if idx ≠ bitmapError then (idx, b.setMultiple idx cnt (!value)) else (idx, b)

def lastMask (b : BitmapWords) : ElemType :=
  let lastBits := b.bitCnt % elemBits
  if lastBits ≠ 0 then 1#64 <<< lastBits - 1#64 else -1

/-- `memcpy` of `buf` to `b->bits`. -/
def copyIn (b : BitmapWords) (buf : List UInt8) : BitmapWords :=
  ⟨b.bitCnt, overwrite 8 b.bits buf, by rw [length_overwrite, b.length_bits]⟩

def createFromBuf (bitCnt : Nat) (buf : List UInt8) : BitmapWords :=
  (create bitCnt).copyIn (buf.take (byteCnt bitCnt))

/-- `bitmap_read`, where `file_read_at` stores `bytes`. -/
def read (b : BitmapWords) (bytes : List UInt8) : Bool × BitmapWords :=
  if b.bitCnt > 0 then
    (bytes.length = byteCnt b.bitCnt,
      (b.copyIn bytes).modifyElem (elemCnt b.bitCnt - 1) (· &&& b.lastMask))
  else (true, b)

/-- The bytes at `bitmap_get_bits`, which `bitmap_write` writes. -/
def getBits (b : BitmapWords) : List UInt8 := toBytes 8 b.bits

end BitmapWords

/-! ## The same calls on the plain bits -/

def bitmapSetAll (b : Bitmap) (value : Bool) : Bitmap := bitmapSetMultiple b 0 b.length value

/-- The bits once `bytes` is copied over the first bytes of the image. -/
def bitmapCopyIn (b : Bitmap) (bytes : List UInt8) : Bitmap :=
  bitmapOfBytes b.length (bytes ++ (bitmapBytes b).drop bytes.length)

/-- A call of bitmap.c. -/
inductive BitmapCall
  | mark (bitIdx : Nat)
  | reset (bitIdx : Nat)
  | flip (bitIdx : Nat)
  | set (idx : Nat) (value : Bool)
  | setMultiple (start cnt : Nat) (value : Bool)
  | setAll (value : Bool)
  | test (idx : Nat)
  | count (start cnt : Nat) (value : Bool)
  | contains (start cnt : Nat) (value : Bool)
  | any (start cnt : Nat)
  | none (start cnt : Nat)
  | all (start cnt : Nat)
  | scan (start cnt : Nat) (value : Bool)
  | scanAndFlip (start cnt : Nat) (value : Bool)
  | read (bytes : List UInt8)
  | getBits

inductive BitmapAnswer
  | done
  | flag (value : Bool)
  | number (n : Nat)
  | bytes (bytes : List UInt8)

namespace BitmapCall

/-- What a call on a bitmap of `n` bits keeps to: the ASSERTs, and for `mark`, `reset` and `flip`,
which have none, a bit of the bitmap; a file gives no more bytes than it is asked for. -/
def InRange (n : Nat) : BitmapCall → Prop
  | mark i | reset i | flip i | set i _ | test i => i < n
  | setMultiple start cnt _ | count start cnt _ | contains start cnt _ | any start cnt
  | none start cnt | all start cnt =>
    start ≤ n ∧ start + cnt ≤ n
  | scan start _ _ | scanAndFlip start _ _ => start ≤ n
  | read bytes => bytes.length ≤ byteCnt n
  | setAll _ | getBits => True

/-- The call on the elements. -/
def run (b : BitmapWords) : BitmapCall → BitmapAnswer × BitmapWords
  | mark i => (.done, b.mark i)
  | reset i => (.done, b.reset i)
  | flip i => (.done, b.flip i)
  | set i value => (.done, b.set i value)
  | setMultiple start cnt value => (.done, b.setMultiple start cnt value)
  | setAll value => (.done, b.setAll value)
  | test i => (.flag (b.test i), b)
  | count start cnt value => (.number (b.count start cnt value), b)
  | contains start cnt value => (.flag (b.contains start cnt value), b)
  | any start cnt => (.flag (b.any start cnt), b)
  | none start cnt => (.flag (b.none start cnt), b)
  | all start cnt => (.flag (b.all start cnt), b)
  | scan start cnt value => (.number (b.scan start cnt value), b)
  | scanAndFlip start cnt value =>
    (.number (b.scanAndFlip start cnt value).1, (b.scanAndFlip start cnt value).2)
  | read bytes => (.flag (b.read bytes).1, (b.read bytes).2)
  | getBits => (.bytes b.getBits, b)

/-- The call on the plain bits. -/
def plain (l : Bitmap) : BitmapCall → BitmapAnswer × Bitmap
  | mark i => (.done, bitmapMark l i)
  | reset i => (.done, bitmapReset l i)
  | flip i => (.done, bitmapFlip l i)
  | set i value => (.done, bitmapSet l i value)
  | setMultiple start cnt value => (.done, bitmapSetMultiple l start cnt value)
  | setAll value => (.done, bitmapSetAll l value)
  | test i => (.flag (bitmapTest l i), l)
  | count start cnt value => (.number (bitmapCount l start cnt value), l)
  | contains start cnt value => (.flag (bitmapContains l start cnt value), l)
  | any start cnt => (.flag (bitmapContains l start cnt true), l)
  | none start cnt => (.flag (!bitmapContains l start cnt true), l)
  | all start cnt => (.flag (!bitmapContains l start cnt false), l)
  | scan start cnt value => (.number ((bitmapScan l start cnt value).getD bitmapError), l)
  | scanAndFlip start cnt value =>
    match bitmapScanAndFlip l start cnt value with
    | some (idx, l') => (.number idx, l')
    | .none => (.number bitmapError, l)
  | read bytes => (.flag (bytes.length = bitmapFileSize l), bitmapCopyIn l bytes)
  | getBits => (.bytes (bitmapBytes l), l)

/-- Calls one after the other. -/
def runAll (b : BitmapWords) : List BitmapCall → List BitmapAnswer × BitmapWords
  | [] => ([], b)
  | c :: cs => ((c.run b).1 :: (runAll (c.run b).2 cs).1, (runAll (c.run b).2 cs).2)

def plainAll (l : Bitmap) : List BitmapCall → List BitmapAnswer × Bitmap
  | [] => ([], l)
  | c :: cs => ((c.plain l).1 :: (plainAll (c.plain l).2 cs).1, (plainAll (c.plain l).2 cs).2)

end BitmapCall

/-! ## Single bits -/

namespace BitmapWords

variable {b : BitmapWords} {l : Bitmap} {i j n : Nat}

/-- The elements hold the bits `l`, and no bit after them is set. -/
structure Holds (b : BitmapWords) (l : Bitmap) : Prop where
  bits : toBits b.bitCnt b.bits = l
  clean : Clean b.bitCnt b.bits

theorem Holds.length (h : b.Holds l) : l.length = b.bitCnt := by
  rw [← h.bits, length_toBits]

theorem elemIdx_lt (hi : i < b.bitCnt) : i / 64 < b.bits.length := by
  rw [b.length_bits, elemCnt_eq]
  omega

theorem getBit_mark (hi : i < b.bitCnt) (j : Nat) :
    getBit (b.mark i).bits j = (getBit b.bits j || decide (j = i)) :=
  getBit_or_mask (by decide) (elemIdx_lt hi) j

theorem getBit_reset (hi : i < b.bitCnt) (j : Nat) :
    getBit (b.reset i).bits j = (getBit b.bits j && !decide (j = i)) :=
  getBit_and_not_mask (by decide) (elemIdx_lt hi) j

theorem getBit_flip (hi : i < b.bitCnt) (j : Nat) :
    getBit (b.flip i).bits j = (getBit b.bits j ^^ decide (j = i)) :=
  getBit_xor_mask (by decide) (elemIdx_lt hi) j

theorem getBit_set (hi : i < b.bitCnt) (value : Bool) (j : Nat) :
    getBit (b.set i value).bits j = if j = i then value else getBit b.bits j := by
  cases value with
  | true =>
    refine (getBit_mark hi j).trans ?_
    split <;> simp [*]
  | false =>
    refine (getBit_reset hi j).trans ?_
    split <;> simp [*]

theorem test_eq (b : BitmapWords) (i : Nat) : b.test i = getBit b.bits i :=
  and_mask_ne_zero (by decide) _ i

/-- A call that sets one bit of `b`, and no other. -/
theorem Holds.update (h : b.Holds l) {b' : BitmapWords} {value : Bool} (hi : i < b.bitCnt)
    (hcnt : b'.bitCnt = b.bitCnt)
    (hget : ∀ j, getBit b'.bits j = if j = i then value else getBit b.bits j) :
    b'.Holds (l.set i value) where
  bits := by rw [hcnt, ← h.bits, toBits_set hi hget]
  clean j hj := by
    rw [hcnt] at hj
    rw [hget, if_neg (by omega), h.clean j hj]

theorem Holds.set (h : b.Holds l) (hi : i < b.bitCnt) (value : Bool) :
    (b.set i value).Holds (bitmapSet l i value) := by
  have hset : bitmapSet l i value = l.set i value := by cases value <;> rfl
  rw [hset]
  refine h.update hi ?_ (getBit_set hi value)
  cases value <;> rfl

theorem bitmapFlip_eq (hi : i < l.length) : bitmapFlip l i = l.set i (!bitmapTest l i) := by
  rw [bitmapFlip, List.modify_eq_set_getElem?, List.getElem?_eq_getElem hi, bitmapTest,
    List.getD_eq_getElem _ _ hi]
  rfl

theorem Holds.test (h : b.Holds l) (i : Nat) : b.test i = bitmapTest l i := by
  rw [test_eq]
  by_cases hi : i < b.bitCnt
  · rw [bitmapTest, ← h.bits, getD_toBits hi]
  · rw [h.clean i (Nat.le_of_not_lt hi), bitmapTest_of_le]
    rw [h.length]
    exact Nat.le_of_not_lt hi

theorem Holds.flip (h : b.Holds l) (hi : i < b.bitCnt) : (b.flip i).Holds (bitmapFlip l i) := by
  rw [bitmapFlip_eq (h.length ▸ hi)]
  refine h.update hi rfl fun j => ?_
  rw [getBit_flip hi, ← h.test, test_eq]
  split
  · next hj => rw [hj, decide_eq_true rfl, Bool.xor_true]
  · next hj => rw [decide_eq_false hj, Bool.xor_false]

/-! ## Runs of bits -/

theorem bitCnt_set (b : BitmapWords) (i : Nat) (value : Bool) : (b.set i value).bitCnt = b.bitCnt := by
  cases value <;> rfl

theorem Holds.setMultiple (h : b.Holds l) {start cnt : Nat} (hin : start + cnt ≤ b.bitCnt)
    (value : Bool) : (b.setMultiple start cnt value).Holds (bitmapSetMultiple l start cnt value) ∧
      (b.setMultiple start cnt value).bitCnt = b.bitCnt := by
  induction cnt with
  | zero => exact ⟨h, rfl⟩
  | succ cnt ih =>
    obtain ⟨hheld, hcnt⟩ := ih (by omega)
    simp only [BitmapWords.setMultiple, bitmapSetMultiple, List.range_succ, List.foldl_append,
      List.foldl_cons, List.foldl_nil]
    refine ⟨hheld.set ?_ value, (bitCnt_set _ _ _).trans hcnt⟩
    rw [hcnt]
    omega

/-- The answers about the bits go through `bitmap_test`. -/
theorem Holds.contains (h : b.Holds l) (start cnt : Nat) (value : Bool) :
    b.contains start cnt value = bitmapContains l start cnt value := by
  simp only [BitmapWords.contains, bitmapContains, h.test]

theorem Holds.count (h : b.Holds l) (start cnt : Nat) (value : Bool) :
    b.count start cnt value = bitmapCount l start cnt value := by
  simp only [BitmapWords.count, bitmapCount, h.test]

theorem Holds.scan (h : b.Holds l) (start cnt : Nat) (value : Bool) :
    b.scan start cnt value = (bitmapScan l start cnt value).getD bitmapError := by
  simp only [BitmapWords.scan, bitmapScan, h.contains, h.length]
  split <;> rfl

/-- A group found ends before the bitmap does. -/
theorem bitmapScan_le {start cnt idx : Nat} {value : Bool}
    (hscan : bitmapScan l start cnt value = some idx) : idx + cnt ≤ l.length := by
  rw [bitmapScan] at hscan
  split at hscan
  · have hmem := List.mem_of_find?_eq_some hscan
    rw [List.mem_range'_1] at hmem
    omega
  · cases hscan

theorem create_holds (n : Nat) : (create n).Holds (bitmapCreate n) ∧ (create n).bitCnt = n := by
  have hzero (j : Nat) : getBit (List.replicate (elemCnt n) (0 : ElemType)) j = false := by
    rw [getBit, List.getD_eq_getElem?_getD, List.getElem?_replicate]
    split <;> exact BitVec.getLsbD_zero
  have hzeros : Holds ⟨n, List.replicate (elemCnt n) 0, List.length_replicate⟩ (bitmapCreate n) := by
    refine ⟨List.ext_getElem (by simp [bitmapCreate]) fun i hi hi' => ?_, fun j _ => hzero j⟩
    simp only [toBits, List.getElem_map, hzero, bitmapCreate, List.getElem_replicate]
  obtain ⟨hheld, hcnt⟩ := hzeros.setMultiple (Nat.le_of_eq (Nat.zero_add n)) false
  refine ⟨?_, hcnt⟩
  -- clearing clear bits
  have hclear (k : Nat) : bitmapSetMultiple (bitmapCreate n) 0 k false = bitmapCreate n := by
    induction k with
    | zero => rfl
    | succ k ih =>
      rw [bitmapSetMultiple] at ih
      rw [bitmapSetMultiple, List.range_succ, List.foldl_append, ih, List.foldl_cons, List.foldl_nil]
      exact List.set_replicate_self
  rw [hclear] at hheld
  exact hheld

/-! ## The bytes -/

theorem getLsbD_lastMask (hpos : 0 < b.bitCnt) (hi : i / 64 = elemCnt b.bitCnt - 1) :
    b.lastMask.getLsbD (i % 64) = decide (i < b.bitCnt) := by
  rw [elemCnt_eq] at hi
  dsimp only [lastMask, elemBits]
  split
  · next hne =>
    rw [getLsbD_low (Nat.mod_lt _ (by decide))]
    refine decide_eq_decide.2 ?_
    omega
  · next hzero =>
    have hones : (-1 : ElemType) = BitVec.allOnes 64 := by decide
    rw [hones, BitVec.getLsbD_allOnes]
    refine decide_eq_decide.2 ?_
    omega

theorem byteBit_bitmapBytes (l : Bitmap) (i : Nat) : byteBit (bitmapBytes l) i = bitmapTest l i := by
  by_cases hi : i / 8 < byteCnt l.length
  · rw [byteBit, List.getD_eq_getElem _ _ (by rwa [length_bitmapBytes])]
    simp only [bitmapBytes, List.getElem_map, List.getElem_range]
    have hlt := Nat.ofBits_lt_two_pow fun j : Fin 8 => bitmapTest l (8 * (i / 8) + j)
    rw [← BitVec.testBit_toNat, UInt8.toNat_toBitVec, UInt8.toNat_ofNat', Nat.mod_eq_of_lt hlt,
      Nat.testBit_ofBits_lt _ _ (Nat.mod_lt i (by decide))]
    simp only [Nat.div_add_mod]
  · rw [byteBit, List.getD_eq_default _ _ (by rw [length_bitmapBytes]; exact Nat.le_of_not_lt hi),
      bitmapTest_of_le]
    · exact BitVec.getLsbD_zero
    · simp only [byteCnt, divRoundUp] at hi
      omega

theorem Holds.getBits (h : b.Holds l) : b.getBits = bitmapBytes l := by
  have hlen : b.getBits.length = (bitmapBytes l).length := by
    rw [BitmapWords.getBits, length_toBytes, b.length_bits, length_bitmapBytes, bitmapFileSize,
      h.length]
    rfl
  have hbit (i : Nat) : byteBit b.getBits i = byteBit (bitmapBytes l) i := by
    rw [BitmapWords.getBits, byteBit_toBytes rfl, byteBit_bitmapBytes, ← test_eq, h.test]
  exact bytes_ext hlen fun i _ => hbit i

theorem getBit_copyIn {bytes : List UInt8} (hlen : bytes.length ≤ byteCnt b.bitCnt) (i : Nat) :
    getBit (b.copyIn bytes).bits i =
      if i / 8 < bytes.length then byteBit bytes i else getBit b.bits i :=
  getBit_overwrite (m := 8) rfl (by rw [b.length_bits]; exact hlen) i

theorem bitmapTest_copyIn {bytes : List UInt8} (hi : i < l.length) :
    bitmapTest (bitmapCopyIn l bytes) i =
      if i / 8 < bytes.length then byteBit bytes i else bitmapTest l i := by
  rw [bitmapTest, bitmapCopyIn, List.getD_eq_getElem _ _ (by simpa [bitmapOfBytes] using hi)]
  simp only [bitmapOfBytes, List.getElem_map, List.getElem_range]
  split
  · next hin => rw [List.getD_append _ _ _ _ hin, byteBit, ← BitVec.testBit_toNat, UInt8.toNat_toBitVec]
  · next hout =>
    rw [List.getD_append_right _ _ _ _ (Nat.le_of_not_lt hout), List.getD_eq_getElem?_getD,
      List.getElem?_drop,
      ← List.getD_eq_getElem?_getD, Nat.add_sub_cancel' (Nat.le_of_not_lt hout),
      ← byteBit_bitmapBytes, byteBit,
      ← BitVec.testBit_toNat, UInt8.toNat_toBitVec]

/-- **`bitmap_create_from_buf`** does not mask the last element: the bits are
those of the buffer, and the unused ones are clear only if they are so there. -/
theorem createFromBuf_holds {n : Nat} {buf : List UInt8} (hlen : byteCnt n ≤ buf.length) :
    (createFromBuf n buf).Holds (bitmapOfBytes n buf) ↔
    buf.take (byteCnt n) = bitmapBytes (bitmapOfBytes n buf) := by
  obtain ⟨-, hcnt⟩ := create_holds n
  have htake : (buf.take (byteCnt n)).length = byteCnt n := by
    rw [List.length_take, Nat.min_eq_left hlen]
  have hbits (i : Nat) : getBit (createFromBuf n buf).bits i = byteBit (buf.take (byteCnt n)) i := by
    refine (getBit_copyIn (Nat.le_of_eq (by rw [htake, hcnt])) i).trans ?_
    split
    · rfl
    · next hout =>
      rw [byteBit, List.getD_eq_default _ _ (Nat.le_of_not_lt hout), getBit_of_le]
      · exact BitVec.getLsbD_zero.symm
      · rw [(create n).length_bits, hcnt]
        rw [htake, byteCnt_eq] at hout
        omega
  constructor
  · intro h
    rw [← h.getBits]
    refine bytes_ext ?_ fun i _ => by rw [BitmapWords.getBits, byteBit_toBytes rfl, hbits]
    rw [htake, h.getBits, length_bitmapBytes, bitmapFileSize, bitmapOfBytes, List.length_map,
      List.length_range]
  · intro h
    have hlength : (bitmapOfBytes n buf).length = n := by
      rw [bitmapOfBytes, List.length_map, List.length_range]
    have hplain (i : Nat) : getBit (createFromBuf n buf).bits i =
        bitmapTest (bitmapOfBytes n buf) i := by
      rw [hbits, h, byteBit_bitmapBytes]
    have hsize : (createFromBuf n buf).bitCnt = n := hcnt
    refine ⟨List.ext_getElem (by rw [length_toBits, hsize, hlength]) fun i hi hi' => ?_, fun i hi => ?_⟩
    · simp only [toBits, List.getElem_map, List.getElem_range]
      rw [hplain, bitmapTest, List.getD_eq_getElem _ _ hi']
    · rw [hplain, bitmapTest_of_le (by rw [hlength, ← hsize]; exact hi)]

/-- **`bitmap_read`** masks the last element, so that the unused bits of the file do not come in. -/
theorem Holds.read (h : b.Holds l) {bytes : List UInt8} (hlen : bytes.length ≤ byteCnt b.bitCnt) :
    (b.read bytes).1 = decide (bytes.length = bitmapFileSize l) ∧
    (b.read bytes).2.Holds (bitmapCopyIn l bytes) ∧
      (b.read bytes).2.bitCnt = b.bitCnt := by
  rw [BitmapWords.read, bitmapFileSize, h.length]
  split
  · next hpos =>
    refine ⟨rfl, ?_, rfl⟩
    let c := (b.copyIn bytes).modifyElem (elemCnt b.bitCnt - 1) (· &&& b.lastMask)
    have helems : elemCnt b.bitCnt - 1 < (b.copyIn bytes).bits.length := by
      rw [(b.copyIn bytes).length_bits, copyIn, elemCnt_eq]
      omega
    have hget (i : Nat) : getBit c.bits i = (decide (i < b.bitCnt) &&
        getBit (b.copyIn bytes).bits i) := by
      refine (getBit_modify helems _ i).trans ?_
      split
      · next hlast => rw [BitVec.getLsbD_and, getLsbD_lastMask hpos hlast, Bool.and_comm, getBit, hlast]
      · next hother =>
        by_cases hi : i < b.bitCnt
        · rw [decide_eq_true hi, Bool.true_and]
        · -- past the last element
          rw [decide_eq_false hi, Bool.false_and, getBit_of_le]
          rw [(b.copyIn bytes).length_bits]
          simp only [copyIn, elemCnt_eq] at hother ⊢
          omega
    have hclean : Clean b.bitCnt c.bits :=
      fun i hi => by rw [hget, decide_eq_false (Nat.not_lt.2 hi), Bool.false_and]
    refine ⟨?_, hclean⟩
    have hcopied : (bitmapCopyIn l bytes).length = l.length := by simp [bitmapCopyIn, bitmapOfBytes]
    refine List.ext_getElem (by rw [length_toBits, hcopied, h.length]; rfl) fun i hi hi' => ?_
    have hil : i < l.length := hcopied ▸ hi'
    have hib : i < b.bitCnt := h.length ▸ hil
    have hplain : bitmapTest (bitmapCopyIn l bytes) i =
        if i / 8 < bytes.length then byteBit bytes i else bitmapTest l i :=
      bitmapTest_copyIn hil
    rw [bitmapTest, List.getD_eq_getElem _ _ hi'] at hplain
    rw [hplain, ← h.test, test_eq, ← getBit_copyIn hlen]
    simp only [toBits, List.getElem_map, List.getElem_range]
    rw [hget, decide_eq_true hib, Bool.true_and]
  · next hpos =>
    have hzero : b.bitCnt = 0 := Nat.eq_zero_of_not_pos hpos
    have hnil : l = [] := List.length_eq_zero_iff.1 (h.length.trans hzero)
    have hbytes : bytes.length = 0 := by
      rw [hzero] at hlen
      exact Nat.le_zero.1 hlen
    subst hnil
    refine ⟨?_, h, rfl⟩
    rw [hzero, hbytes]
    rfl

end BitmapWords

/-! ## Calls -/

namespace BitmapWords

variable {b : BitmapWords} {l : Bitmap}

/-- The index of a group is an error only where the group is empty. -/
theorem Holds.scanAndFlip (h : b.Holds l) (hn : b.bitCnt ≤ bitmapError) (start cnt : Nat)
    (value : Bool) :
    BitmapAnswer.number (b.scanAndFlip start cnt value).1 =
    ((BitmapCall.scanAndFlip start cnt value).plain l).1 ∧
      (b.scanAndFlip start cnt value).2.Holds ((BitmapCall.scanAndFlip start cnt value).plain l).2 ∧
      (b.scanAndFlip start cnt value).2.bitCnt = b.bitCnt := by
  rw [BitmapWords.scanAndFlip, h.scan, BitmapCall.plain, bitmapScanAndFlip]
  cases hscan : bitmapScan l start cnt value with
  | none => exact ⟨rfl, h, rfl⟩
  | some idx =>
    have hin : idx + cnt ≤ b.bitCnt := h.length ▸ bitmapScan_le hscan
    simp only [Option.getD_some, Option.map_some]
    split
    · obtain ⟨hheld, hcnt⟩ := h.setMultiple hin (!value)
      exact ⟨rfl, hheld, hcnt⟩
    · next herror =>
      have hidx : idx = bitmapError := not_not.1 herror
      have hcnt : cnt = 0 := by omega
      subst hcnt
      exact ⟨rfl, h, rfl⟩

/-- **One call** answers as it does on the plain bits, and leaves them held. -/
theorem Holds.run (h : b.Holds l) (hn : b.bitCnt ≤ bitmapError) {c : BitmapCall}
    (hc : c.InRange b.bitCnt) :
    (c.run b).1 = (c.plain l).1 ∧ (c.run b).2.Holds (c.plain l).2 ∧ (c.run b).2.bitCnt = b.bitCnt := by
  cases c with
  | mark i => exact ⟨rfl, h.set hc true, rfl⟩
  | reset i => exact ⟨rfl, h.set hc false, rfl⟩
  | flip i => exact ⟨rfl, h.flip hc, rfl⟩
  | set i value => exact ⟨rfl, h.set hc value, bitCnt_set b i value⟩
  | setMultiple start cnt value => exact ⟨rfl, h.setMultiple hc.2 value⟩
  | setAll value =>
    have hall : 0 + b.bitCnt ≤ b.bitCnt := Nat.le_of_eq (Nat.zero_add _)
    have hset := h.setMultiple hall value
    rw [← h.length] at hset
    refine ⟨rfl, ?_⟩
    rw [BitmapCall.run, BitmapCall.plain, BitmapWords.setAll, bitmapSetAll, ← h.length]
    exact hset
  | test i => exact ⟨congrArg _ (h.test i), h, rfl⟩
  | count start cnt value => exact ⟨congrArg _ (h.count start cnt value), h, rfl⟩
  | contains start cnt value => exact ⟨congrArg _ (h.contains start cnt value), h, rfl⟩
  | any start cnt => exact ⟨congrArg _ (h.contains start cnt true), h, rfl⟩
  | none start cnt =>
    exact ⟨congrArg (fun r => BitmapAnswer.flag (!r)) (h.contains start cnt true), h, rfl⟩
  | all start cnt =>
    exact ⟨congrArg (fun r => BitmapAnswer.flag (!r)) (h.contains start cnt false), h, rfl⟩
  | scan start cnt value => exact ⟨congrArg _ (h.scan start cnt value), h, rfl⟩
  | scanAndFlip start cnt value => exact h.scanAndFlip hn start cnt value
  | read bytes =>
    obtain ⟨hflag, hheld, hcnt⟩ := h.read hc
    exact ⟨congrArg _ hflag, hheld, hcnt⟩
  | getBits => exact ⟨congrArg _ h.getBits, h, rfl⟩

theorem Holds.runAll (h : b.Holds l) (hn : b.bitCnt ≤ bitmapError) {cs : List BitmapCall}
    (hcs : ∀ c ∈ cs, c.InRange b.bitCnt) :
    (BitmapCall.runAll b cs).1 = (BitmapCall.plainAll l cs).1 ∧
    (BitmapCall.runAll b cs).2.Holds (BitmapCall.plainAll l cs).2 := by
  induction cs generalizing b l with
  | nil => exact ⟨rfl, h⟩
  | cons c cs ih =>
    obtain ⟨hanswer, hheld, hcnt⟩ := h.run hn (hcs c List.mem_cons_self)
    obtain ⟨hanswers, hend⟩ :=
      ih hheld (hcnt ▸ hn) fun c' hc' => hcnt ▸ hcs c' (List.mem_cons_of_mem _ hc')
    exact ⟨congrArg₂ List.cons hanswer hanswers, hend⟩

end BitmapWords

/-- **Any calls on a bitmap** answer as they do on the plain bits, and its
elements are in the end the bytes of those bits: no call sets an unused bit. -/
theorem calls_refine {n : Nat} (hn : n ≤ bitmapError) {cs : List BitmapCall}
    (hcs : ∀ c ∈ cs, c.InRange n) :
    (BitmapCall.runAll (.create n) cs).1 = (BitmapCall.plainAll (bitmapCreate n) cs).1 ∧
      (BitmapCall.runAll (.create n) cs).2.getBits =
      bitmapBytes (BitmapCall.plainAll (bitmapCreate n) cs).2 := by
  obtain ⟨hheld, hcnt⟩ := BitmapWords.create_holds n
  obtain ⟨hanswers, hend⟩ := hheld.runAll (hcnt.symm ▸ hn) fun c hc => hcnt.symm ▸ hcs c hc
  exact ⟨hanswers, hend.getBits⟩

/-- The free map of a device of 200 sectors: the two sectors in use, an allocation and a read. -/
theorem calls_refine_199 :
    (BitmapCall.runAll (.create 199) [.mark 0, .mark 1, .scanAndFlip 0 1 false, .read [255],
      .getBits]).1 =
        (BitmapCall.plainAll (bitmapCreate 199) [.mark 0, .mark 1, .scanAndFlip 0 1 false,
          .read [255], .getBits]).1 ∧
      (BitmapCall.runAll (.create 199) [.mark 0, .mark 1, .scanAndFlip 0 1 false, .read [255],
        .getBits]).2.getBits =
        bitmapBytes (BitmapCall.plainAll (bitmapCreate 199) [.mark 0, .mark 1,
          .scanAndFlip 0 1 false, .read [255], .getBits]).2 := by
  refine calls_refine (by decide) ?_
  simp only [List.mem_cons, List.not_mem_nil, or_false, forall_eq_or_imp, forall_eq, BitmapCall.InRange]
  decide

end MyShell.Fs

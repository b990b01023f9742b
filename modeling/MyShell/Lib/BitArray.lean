/-
Arrays of bits kept in words of `w` bits: bit `i` of the array is bit `i % w`
of word `i / w`. A bit is set, cleared, flipped and tested through a mask with
that one bit; `getBit_or_mask` and its siblings say that no other bit changes.
`toBytes` is the memory the words take, least significant byte first, and
`overwrite` a copy over a prefix of it.
-/
import Mathlib.Data.List.GetD
import Mathlib.Data.Nat.Bitwise
import Mathlib.Data.UInt
import Mathlib.Tactic.Ring

namespace BitArray

variable {w : Nat} {ws : List (BitVec w)} {i j : Nat}

def getBit (ws : List (BitVec w)) (i : Nat) : Bool := (ws.getD (i / w) 0).getLsbD (i % w)

/-- The word with bit `i % w` set and no other. -/
def mask (w i : Nat) : BitVec w := 1#w <<< (i % w)

theorem getLsbD_mask (hw : 0 < w) (i j : Nat) : (mask w i).getLsbD j = decide (j = i % w) := by
  have hlt : i % w < w := Nat.mod_lt i hw
  rw [Bool.eq_iff_iff, mask, BitVec.getLsbD_shiftLeft, BitVec.getLsbD_one]
  simp only [Bool.and_eq_true, decide_eq_true_eq, Bool.not_eq_true', decide_eq_false_iff_not]
  omega

/-- Bits in one word are told apart by their places in it. -/
theorem eq_of_div_mod (hdiv : j / w = i / w) (hmod : j % w = i % w) : j = i := by
  rw [← Nat.div_add_mod j w, ← Nat.div_add_mod i w, hdiv, hmod]

theorem getBit_modify {k : Nat} (hk : k < ws.length) (f : BitVec w → BitVec w) (j : Nat) :
    getBit (ws.modify k f) j =
      if j / w = k then (f (ws.getD k 0)).getLsbD (j % w) else getBit ws j := by
  simp only [getBit, List.getD_eq_getElem?_getD, List.getElem?_modify]
  split
  · next hjk =>
    subst hjk
    rw [if_pos rfl, List.getElem?_eq_getElem hk]
    rfl
  · next hjk => rw [if_neg (Ne.symm hjk), id_map']

theorem getBit_modify_mask (hw : 0 < w) (hi : i / w < ws.length) (f : BitVec w → BitVec w)
    (g : Bool → Bool → Bool)
    (hf : ∀ x k, k < w → (f x).getLsbD k = g (x.getLsbD k) (decide (k = i % w)))
    (hg : ∀ b, g b false = b) (j : Nat) :
    getBit (ws.modify (i / w) f) j = g (getBit ws j) (decide (j = i)) := by
  rw [getBit_modify hi]
  split
  · next hdiv =>
    have hsame : decide (j % w = i % w) = decide (j = i) :=
      decide_eq_decide.2 ⟨eq_of_div_mod hdiv, fun h => h ▸ rfl⟩
    rw [hf _ _ (Nat.mod_lt j hw), hsame, getBit, hdiv]
  · next hdiv =>
    have hne : ¬ j = i := fun h => hdiv (h ▸ rfl)
    rw [decide_eq_false hne, hg]

theorem getBit_or_mask (hw : 0 < w) (hi : i / w < ws.length) (j : Nat) :
    getBit (ws.modify (i / w) (· ||| mask w i)) j = (getBit ws j || decide (j = i)) := by
  refine getBit_modify_mask hw hi _ or (fun x k _ => ?_) Bool.or_false j
  rw [BitVec.getLsbD_or, getLsbD_mask hw]

theorem getBit_and_not_mask (hw : 0 < w) (hi : i / w < ws.length) (j : Nat) :
    getBit (ws.modify (i / w) (· &&& ~~~mask w i)) j = (getBit ws j && !decide (j = i)) := by
  refine getBit_modify_mask hw hi _ (fun b c => b && !c) (fun x k hk => ?_) (fun b => Bool.and_true b) j
  rw [BitVec.getLsbD_and, BitVec.getLsbD_not, getLsbD_mask hw, decide_eq_true hk, Bool.true_and]

theorem getBit_xor_mask (hw : 0 < w) (hi : i / w < ws.length) (j : Nat) :
    getBit (ws.modify (i / w) (· ^^^ mask w i)) j = (getBit ws j ^^ decide (j = i)) := by
  refine getBit_modify_mask hw hi _ Bool.xor (fun x k _ => ?_) Bool.xor_false j
  rw [BitVec.getLsbD_xor, getLsbD_mask hw]

/-- A word has a bit of the mask when it has the mask's one bit. -/
theorem and_mask_ne_zero (hw : 0 < w) (x : BitVec w) (i : Nat) :
    (x &&& mask w i != 0) = x.getLsbD (i % w) := by
  have hbit (k : Nat) : (x &&& mask w i).getLsbD k = (x.getLsbD k && decide (k = i % w)) := by
    rw [BitVec.getLsbD_and, getLsbD_mask hw]
  cases hx : x.getLsbD (i % w) with
  | true =>
    refine bne_iff_ne.2 fun hzero => ?_
    have hat := hbit (i % w)
    rw [hzero, hx, decide_eq_true rfl] at hat
    simp at hat
  | false =>
    have hzero : x &&& mask w i = 0 := by
      refine BitVec.eq_of_getLsbD_eq fun k _ => ?_
      rw [hbit k]
      by_cases hk : k = i % w
      · simp [hk, hx]
      · simp [hk]
    simp [hzero]

/-- The word with its `k` low bits set. -/
theorem getLsbD_low {k : Nat} (hk : k < w) (j : Nat) :
    (1#w <<< k - 1#w).getLsbD j = decide (j < k) := by
  have hpow : 2 ^ k < 2 ^ w := Nat.pow_lt_pow_right (by decide) hk
  have hpos : 0 < 2 ^ k := Nat.two_pow_pos k
  have hone : 1 % 2 ^ w = 1 := Nat.mod_eq_of_lt (Nat.one_lt_two_pow (by omega))
  have hval : (1#w <<< k - 1#w).toNat = 2 ^ k - 1 := by
    rw [BitVec.toNat_sub_of_le]
    · rw [BitVec.toNat_shiftLeft, BitVec.toNat_ofNat, hone, Nat.shiftLeft_eq, Nat.one_mul,
        Nat.mod_eq_of_lt hpow]
    · rw [BitVec.le_def, BitVec.toNat_shiftLeft, BitVec.toNat_ofNat, hone, Nat.shiftLeft_eq,
        Nat.one_mul, Nat.mod_eq_of_lt hpow]
      exact hpos
  rw [← BitVec.testBit_toNat, hval, Nat.testBit_two_pow_sub_one]

/-! ## The first bits -/

/-- The first `n` bits. -/
def toBits (n : Nat) (ws : List (BitVec w)) : List Bool := (List.range n).map (getBit ws)

@[simp] theorem length_toBits (n : Nat) (ws : List (BitVec w)) : (toBits n ws).length = n := by
  rw [toBits, List.length_map, List.length_range]

theorem getElem?_toBits (n : Nat) (ws : List (BitVec w)) (i : Nat) :
    (toBits n ws)[i]? = if i < n then some (getBit ws i) else none := by
  split
  · next hi => rw [toBits, List.getElem?_map, List.getElem?_range hi, Option.map_some]
  · next hi => exact List.getElem?_eq_none (by rw [length_toBits]; exact Nat.le_of_not_lt hi)

theorem getD_toBits {n : Nat} (hi : i < n) : (toBits n ws).getD i false = getBit ws i := by
  rw [List.getD_eq_getElem?_getD, getElem?_toBits, if_pos hi]
  rfl

theorem toBits_set {n : Nat} {ws' : List (BitVec w)} {value : Bool} (hi : i < n)
    (h : ∀ j, getBit ws' j = if j = i then value else getBit ws j) :
    toBits n ws' = (toBits n ws).set i value := by
  refine List.ext_getElem? fun j => ?_
  rw [List.getElem?_set, getElem?_toBits, length_toBits, h j]
  by_cases hj : i = j
  · subst hj
    rw [if_pos hi, if_pos rfl, if_pos rfl, if_pos hi]
  · rw [if_neg (Ne.symm hj), if_neg hj, getElem?_toBits]

/-- No bit from `n` on is set. -/
def Clean (n : Nat) (ws : List (BitVec w)) : Prop := ∀ i, n ≤ i → getBit ws i = false

theorem getBit_of_le (h : w * ws.length ≤ i) : getBit ws i = false := by
  rcases Nat.eq_zero_or_pos w with rfl | hw
  · exact BitVec.getLsbD_of_ge _ _ (Nat.zero_le _)
  · rw [getBit, List.getD_eq_default _ _ ((Nat.le_div_iff_mul_le hw).2 (by rwa [Nat.mul_comm]))]
    exact BitVec.getLsbD_zero

/-! ## Bytes -/

/-- The bytes of the words, each of `m` bytes. -/
def toBytes (m : Nat) (ws : List (BitVec w)) : List UInt8 :=
  (List.range (m * ws.length)).map fun k =>
    UInt8.ofBitVec ((ws.getD (k / m) 0).extractLsb' (8 * (k % m)) 8)

/-- The bit `i` of some bytes. -/
def byteBit (bytes : List UInt8) (i : Nat) : Bool := (bytes.getD (i / 8) 0).toBitVec.getLsbD (i % 8)

/-- `n` words from their bytes. -/
def ofBytes (w m n : Nat) (bytes : List UInt8) : List (BitVec w) :=
  (List.range n).map fun k => BitVec.ofNat w (Nat.ofBits fun j : Fin w => byteBit bytes (8 * m * k + j))

/-- `bytes` copied over the start of the words. -/
def overwrite (m : Nat) (ws : List (BitVec w)) (bytes : List UInt8) : List (BitVec w) :=
  ofBytes w m ws.length (bytes ++ (toBytes m ws).drop bytes.length)

@[simp] theorem length_toBytes (m : Nat) (ws : List (BitVec w)) :
    (toBytes m ws).length = m * ws.length := by
  rw [toBytes, List.length_map, List.length_range]

@[simp] theorem length_overwrite (m : Nat) (ws : List (BitVec w)) (bytes : List UInt8) :
    (overwrite m ws bytes).length = ws.length := by
  rw [overwrite, ofBytes, List.length_map, List.length_range]

/-- Bytes are told apart by their bits. -/
theorem bytes_ext {bytes bytes' : List UInt8} (hlen : bytes.length = bytes'.length)
    (h : ∀ i < 8 * bytes.length, byteBit bytes i = byteBit bytes' i) : bytes = bytes' := by
  refine List.ext_getElem hlen fun k hk hk' => ?_
  refine UInt8.eq_of_toBitVec_eq (BitVec.eq_of_getLsbD_eq fun j hj => ?_)
  have hat := h (8 * k + j) (by omega)
  have hdiv : (8 * k + j) / 8 = k := by omega
  have hmod : (8 * k + j) % 8 = j := by omega
  rwa [byteBit, byteBit, hdiv, hmod, List.getD_eq_getElem _ _ hk, List.getD_eq_getElem _ _ hk'] at hat

theorem byteBit_toBytes {m : Nat} (hw : w = 8 * m) (i : Nat) :
    byteBit (toBytes m ws) i = getBit ws i := by
  subst hw
  by_cases hi : i / 8 < m * ws.length
  · have hdiv : i / (8 * m) = i / 8 / m := (Nat.div_div_eq_div_mul i 8 m).symm
    have hmod : i % (8 * m) = 8 * (i / 8 % m) + i % 8 := by rw [Nat.mod_mul, Nat.add_comm]
    have hlt : i % 8 < 8 := Nat.mod_lt i (by decide)
    rw [byteBit, List.getD_eq_getElem _ _ (by rwa [length_toBytes])]
    simp only [toBytes, List.getElem_map, List.getElem_range]
    rw [BitVec.getLsbD_extractLsb', decide_eq_true hlt, Bool.true_and, getBit, hdiv, hmod]
  · rw [byteBit, List.getD_eq_default _ _ (by rw [length_toBytes]; omega), getBit_of_le]
    · exact BitVec.getLsbD_zero
    · have hle := Nat.mul_le_mul_left 8 (Nat.le_of_not_lt hi)
      have hdiv : 8 * (i / 8) ≤ i := Nat.mul_div_le i 8
      rw [Nat.mul_assoc]
      omega

theorem getBit_ofBytes {m n : Nat} (hw : w = 8 * m) (bytes : List UInt8) (hi : i < w * n) :
    getBit (ofBytes w m n bytes) i = byteBit bytes i := by
  subst hw
  have hpos : 0 < 8 * m := Nat.pos_of_ne_zero fun hzero => by
    rw [hzero, Nat.zero_mul] at hi
    exact Nat.not_lt_zero _ hi
  have hdiv : i / (8 * m) < n := (Nat.div_lt_iff_lt_mul hpos).2 (by rwa [Nat.mul_comm])
  have hlen : i / (8 * m) < (ofBytes (8 * m) m n bytes).length := by
    rwa [ofBytes, List.length_map, List.length_range]
  rw [getBit, List.getD_eq_getElem _ _ hlen]
  simp only [ofBytes, List.getElem_map, List.getElem_range]
  rw [BitVec.getLsbD_ofNat, decide_eq_true (Nat.mod_lt i hpos), Bool.true_and,
    Nat.testBit_ofBits_lt _ _ (Nat.mod_lt i hpos)]
  simp only [Nat.div_add_mod]

/-- A copy over the start leaves the bits after it. -/
theorem getBit_overwrite {m : Nat} (hw : w = 8 * m) {bytes : List UInt8}
    (hlen : bytes.length ≤ m * ws.length) (i : Nat) :
    getBit (overwrite m ws bytes) i =
      if i / 8 < bytes.length then byteBit bytes i else getBit ws i := by
  by_cases hi : i < w * ws.length
  · rw [overwrite, getBit_ofBytes hw _ hi, byteBit]
    split
    · next hin => rw [List.getD_append _ _ _ _ hin, byteBit]
    · next hin =>
      rw [List.getD_append_right _ _ _ _ (Nat.le_of_not_lt hin), ← byteBit_toBytes hw, byteBit,
        List.getD_eq_getElem?_getD, List.getElem?_drop, ← List.getD_eq_getElem?_getD,
        Nat.add_sub_cancel' (Nat.le_of_not_lt hin)]
  · have hge : ws.length * m * 8 ≤ i := by
      subst hw
      have : ws.length * m * 8 = 8 * m * ws.length := by ring
      omega
    have hover : w * (overwrite m ws bytes).length ≤ i := by rw [length_overwrite]; omega
    have hout : ¬ i / 8 < bytes.length := by
      have := (Nat.le_div_iff_mul_le (by decide : 0 < 8)).2 hge
      have := Nat.mul_comm m ws.length
      omega
    rw [getBit_of_le hover, if_neg hout, getBit_of_le (by omega)]

end BitArray

/-
A directory's file as a list of 36-byte entries (`entries`): what the loops of
directory.c find in it, and what writing one entry makes of it. An entry in
use binds its name to a sector (`slot`).
-/
import MyShell.Fs.Volume

namespace MyShell.Fs

open Storage

namespace DirEntry

variable {e : DirEntry} {name : CString} {y : BlockSector}

/-- The name and the sector of an entry in use. -/
def slot (e : DirEntry) : Option (CString × BlockSector) :=
  if e.inUse then some (e.cname, e.inodeSector) else none

theorem map_getD_range (l : List UInt8) (n : Nat) :
    (List.range n).map (fun i => l.getD i 0) = l.take n ++ List.replicate (n - l.length) 0 := by
  refine List.ext_getElem (by simp; omega) fun i hi hi' => ?_
  simp only [List.length_map, List.length_range] at hi
  rw [List.getElem_map, List.getElem_range]
  by_cases h : i < l.length
  · rw [List.getElem_append_left (by simp; omega), List.getElem_take, List.getD_eq_getElem _ _ h]
  · rw [List.getElem_append_right (by simp; omega), List.getElem_replicate,
      List.getD_eq_default _ _ (by omega)]

/-- What is read back of an entry: its name is filled up with NULs. -/
theorem ofBytes_toBytes (e : DirEntry) :
    ofBytes e.toBytes = { e with
      name := e.name.take (nameMax + 1) ++ List.replicate (nameMax + 1 - e.name.length) 0 } := by
  have hinUse : ((if e.inUse then 1 else 0 : UInt8) != 0) = e.inUse := by cases e.inUse <;> rfl
  have hname := map_getD_range e.name (nameMax + 1)
  rw [← hname, ← hinUse]
  simp [ofBytes, toBytes, List.range_succ]

theorem cname_ofBytes (hlen : e.name.length ≤ nameMax) (h0 : 0 ∉ e.name) :
    (ofBytes e.toBytes).cname = e.name := by
  have hall : ∀ c ∈ e.name, decide (c ≠ 0) = true := fun c hc => by
    have : c ≠ 0 := by
      rintro rfl
      exact h0 hc
    simpa using this
  have hpad : nameMax + 1 - e.name.length = nameMax - e.name.length + 1 := by omega
  rw [ofBytes_toBytes, cname, List.take_of_length_le (by omega),
    List.takeWhile_append_of_pos hall, hpad,
    List.replicate_succ, List.takeWhile_cons_of_neg (by simp), List.append_nil]

theorem slot_ofBytes (hlen : name.length ≤ nameMax) (h0 : 0 ∉ name) :
    (ofBytes (toBytes ⟨y, name, true⟩)).slot = some (name, y) := by
  have hname := cname_ofBytes (e := ⟨y, name, true⟩) hlen h0
  rw [slot, hname, ofBytes_toBytes]
  rfl

theorem slot_unused (e : DirEntry) : (ofBytes { e with inUse := false }.toBytes).slot = none := by
  rw [slot, ofBytes_toBytes]
  rfl

end DirEntry

/-- The entries of a directory's file. -/
def entries (g : Growable UInt8) : List DirEntry :=
  (List.range (g.length / dirEntrySize)).map fun k => .ofBytes (g.read dirEntrySize (dirEntrySize * k))

section entries

variable {g : Growable UInt8} {k : Nat} {e : DirEntry}

@[simp] theorem length_entries (g : Growable UInt8) : (entries g).length = g.length / 36 := by
  simp [entries]

theorem getElem?_entries (g : Growable UInt8) (k : Nat) :
    (entries g)[k]? = if 36 * (k + 1) ≤ g.length then some (.ofBytes (g.read 36 (36 * k))) else
    none := by
  rw [entries, dirEntrySize, List.getElem?_map]
  split
  · rw [List.getElem?_range (by omega)]
    rfl
  · rw [List.getElem?_eq_none (by simp; omega)]
    rfl

/-- The entries after entry `k` is written. -/
theorem getElem?_entries_write (hk : 36 * k ≤ g.length) (hmod : 36 ∣ g.length) (j : Nat) :
    (entries (g.write (36 * k) e.toBytes))[j]? = if j = k then some (.ofBytes e.toBytes) else
    (entries g)[j]? := by
  have hlen : (g.write (36 * k) e.toBytes).length = max g.length (36 * (k + 1)) := by
    rw [Growable.length_write, DirEntry.length_toBytes, Nat.mul_succ]
  rw [getElem?_entries, hlen]
  split
  · by_cases hj : j = k
    · have hread := g.read_write (36 * k) e.toBytes
      rw [DirEntry.length_toBytes] at hread
      rw [if_pos hj, hj, hread]
    · rw [if_neg hj, getElem?_entries, if_pos (by omega),
        Growable.read_write_of_disjoint (by omega) (by rw [DirEntry.length_toBytes]; omega)]
  · rw [if_neg (by omega), getElem?_entries, if_neg (by omega)]

theorem entries_set (hk : 36 * (k + 1) ≤ g.length) (hmod : 36 ∣ g.length) :
    entries (g.write (36 * k) e.toBytes) = (entries g).set k (.ofBytes e.toBytes) := by
  refine List.ext_getElem? fun j => ?_
  rw [getElem?_entries_write (by omega) hmod, List.getElem?_set, length_entries]
  by_cases hj : j = k
  · rw [if_pos hj, if_pos hj.symm, if_pos (by omega)]
  · rw [if_neg hj, if_neg (Ne.symm hj)]

theorem entries_append (hk : g.length = 36 * k) :
    entries (g.write (36 * k) e.toBytes) = entries g ++ [.ofBytes e.toBytes] := by
  refine List.ext_getElem? fun j => ?_
  rw [getElem?_entries_write (by omega) ⟨k, hk⟩, List.getElem?_append, length_entries, hk,
    Nat.mul_div_cancel_left _ (by decide)]
  by_cases hj : j < k
  · rw [if_neg (by omega), if_pos hj]
  · rw [if_neg hj]
    by_cases hjk : j = k
    · subst hjk
      simp
    · rw [if_neg hjk, List.getElem?_eq_none (by simp; omega), List.getElem?_eq_none (by simp; omega)]

end entries

/-! ## The loops -/

/-- The loop's answer: the first entry `want`ed from entry `k` on, and where it ends. -/
def firstEntry (want : DirEntry → Bool) : List DirEntry → Nat → Option DirEntry × Nat
  | [], k => (none, k)
  | e :: es, k => if want e then (some e, k) else firstEntry want es (k + 1)

namespace Volume

variable {s : Session} {a : BlockSector → Option Node} {n : Node} {p : Ptr} {x : BlockSector}
variable (h : Volume s a) (hp : s.Holds p x) (hx : x ≠ freeMapSector) (ha : a x = some n)
include h hp hx ha

theorem readEntry (k : Nat) : s.Does (readEntry p (36 * k : Nat)) (entries n.bytes)[k]? s := by
  refine (h.readAt hp hx ha 36 (36 * k)).bind ?_
  have hlen : (n.bytes.read 36 (36 * k)).length = dirEntrySize ↔ 36 * (k + 1) ≤ n.bytes.length := by
    rw [Growable.length_read, dirEntrySize]
    omega
  rw [getElem?_entries, if_congr hlen rfl rfl]
  exact .pure _ _

theorem scanEntries (want : DirEntry → Bool) {fuel k : Nat} (hk : k ≤ (entries n.bytes).length)
    (hfuel : (entries n.bytes).length < k + fuel) :
    s.Does (scanEntries p want fuel (36 * k : Nat)) ((firstEntry want ((entries n.bytes).drop k) k).1,
      ((36 * (firstEntry want ((entries n.bytes).drop k) k).2 : Nat) : Int)) s := by
  induction fuel generalizing k with
  | zero => omega
  | succ fuel ih =>
    refine (h.readEntry hp hx ha k).bind ?_
    cases hget : (entries n.bytes)[k]? with
    | none =>
      rw [List.getElem?_eq_none_iff] at hget
      rw [List.drop_eq_nil_of_le hget]
      exact .pure _ _
    | some e =>
      obtain ⟨hlt, rfl⟩ := List.getElem?_eq_some_iff.1 hget
      rw [List.drop_eq_getElem_cons hlt]
      simp only [firstEntry]
      split
      · exact .pure _ _
      · exact ih hlt (by omega)

theorem dirFuel : s.Does (dirFuel p) (n.bytes.length / 36 + 2) s :=
  (h.length_eq hp hx ha).bind (.pure _ _)

end Volume

end MyShell.Fs

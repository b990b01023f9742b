/-
Tables of slots. A slot holds a key with its value, or it is free. A new key
goes to the first free slot, or to a new slot at the end; a removed key leaves
its slot free. Where no key is there twice, such a table is a finite map.
-/
import Mathlib.Data.List.ReduceOption
import Mathlib.Data.List.Nodup

namespace SlotMap

variable {κ α : Type} {l l' : List (Option (κ × α))} {x : κ × α} {k : κ} {a : α} {i : Nat}

/-- No key is there twice. -/
def Distinct (l : List (Option (κ × α))) : Prop := (l.reduceOption.map Prod.fst).Nodup

/-- A new key in the first free slot, or at the end. -/
def put (l : List (Option (κ × α))) (x : κ × α) : List (Option (κ × α)) :=
  match l.findIdx? Option.isNone with
  | some i => l.set i (some x)
  | none => l ++ [some x]

/-! ## Bindings -/

theorem split_at (h : l[i]? = some o) : l = l.take i ++ o :: l.drop (i + 1) ∧
    ∀ o', l.set i o' = l.take i ++ o' :: l.drop (i + 1) := by
  obtain ⟨hi, rfl⟩ := List.getElem?_eq_some_iff.1 h
  exact ⟨by simp, fun o' => List.set_eq_take_append_cons_drop .. |>.trans (if_pos hi)⟩

/-- A free slot is filled. -/
theorem fill_perm (h : l[i]? = some none) :
    (l.set i (some x)).reduceOption.Perm (x :: l.reduceOption) := by
  obtain ⟨hl, hset⟩ := split_at h
  have hold : l.reduceOption = (l.take i).reduceOption ++ (l.drop (i + 1)).reduceOption := by
    conv_lhs => rw [hl]
    rw [List.reduceOption_append, List.reduceOption_cons_of_none]
  rw [hset, hold, List.reduceOption_append, List.reduceOption_cons_of_some]
  exact List.perm_middle

/-- A slot is freed. -/
theorem free_perm (h : l[i]? = some (some x)) :
    l.reduceOption.Perm (x :: (l.set i none).reduceOption) := by
  obtain ⟨hl, hset⟩ := split_at h
  rw [hset]
  conv_lhs => rw [hl]
  rw [List.reduceOption_append, List.reduceOption_append, List.reduceOption_cons_of_some,
    List.reduceOption_cons_of_none]
  exact List.perm_middle

theorem put_perm : (put l x).reduceOption.Perm (x :: l.reduceOption) := by
  unfold put
  cases hfree : l.findIdx? Option.isNone with
  | none =>
    simp only [List.reduceOption_append, List.reduceOption_cons_of_some, List.reduceOption_nil]
    exact List.perm_append_singleton _ _
  | some i =>
    obtain ⟨hi, hnone, -⟩ := List.findIdx?_eq_some_iff_getElem.1 hfree
    refine fill_perm ?_
    rw [List.getElem?_eq_getElem hi, Option.isNone_iff_eq_none.1 hnone]

theorem Distinct.free (h : Distinct l) (hx : l[i]? = some (some x)) : Distinct (l.set i none) :=
  (List.nodup_cons.1 (((free_perm hx).map Prod.fst).nodup_iff.1 h)).2

variable [DecidableEq κ]

/-- The value of a key. -/
def lookup (l : List (Option (κ × α))) (k : κ) : Option α :=
  (l.reduceOption.find? fun x => x.1 = k).map Prod.snd

/-- The slot of a key. -/
def slotOf (l : List (Option (κ × α))) (k : κ) : Option Nat :=
  l.findIdx? fun o => o.any fun x => x.1 = k

/-! ## Finite maps -/

theorem lookup_eq_none : lookup l k = none ↔ ∀ x ∈ l.reduceOption, x.1 ≠ k := by
  simp [lookup]

theorem lookup_eq_some (h : Distinct l) : lookup l k = some a ↔ (k, a) ∈ l.reduceOption := by
  refine ⟨fun hl => ?_, fun hm => ?_⟩
  · obtain ⟨x, hx, rfl⟩ := Option.map_eq_some_iff.1 hl
    have hk : x.1 = k := by simpa using List.find?_some hx
    rw [← hk]
    exact List.mem_of_find?_eq_some hx
  · cases hl : lookup l k with
    | none => exact absurd rfl (lookup_eq_none.1 hl _ hm)
    | some b =>
      obtain ⟨x, hx, rfl⟩ := Option.map_eq_some_iff.1 hl
      have hk : x.1 = k := by simpa using List.find?_some hx
      rw [List.inj_on_of_nodup_map h (List.mem_of_find?_eq_some hx) hm hk]

theorem Distinct.put (h : Distinct l) (hk : lookup l x.1 = none) : Distinct (put l x) := by
  refine ((put_perm (l := l) (x := x)).map Prod.fst).nodup_iff.2 (List.nodup_cons.2 ⟨fun hm => ?_, h⟩)
  obtain ⟨y, hy, he⟩ := List.mem_map.1 hm
  exact lookup_eq_none.1 hk y hy he

theorem lookup_put (h : Distinct l) (hk : lookup l x.1 = none) (k : κ) :
    lookup (put l x) k = if k = x.1 then some x.2 else lookup l k := by
  have hput := h.put hk
  refine Option.ext fun a => ?_
  rw [lookup_eq_some hput, put_perm.mem_iff, List.mem_cons, ← lookup_eq_some h]
  split
  · subst_vars
    simp [hk, Prod.ext_iff, eq_comm]
  · rename_i hne
    simp [Prod.ext_iff, hne]

theorem lookup_free (h : Distinct l) (hx : l[i]? = some (some x)) (k : κ) :
    lookup (l.set i none) k = if k = x.1 then none else lookup l k := by
  have hfree := h.free hx
  have hnot : ∀ a, (x.1, a) ∉ (l.set i none).reduceOption := fun a hm =>
    (List.nodup_cons.1 (((free_perm hx).map Prod.fst).nodup_iff.1 h)).1 (List.mem_map.2 ⟨_, hm, rfl⟩)
  refine Option.ext fun a => ?_
  rw [lookup_eq_some hfree]
  split
  · subst_vars
    simp [hnot a]
  · rename_i hne
    rw [lookup_eq_some h, (free_perm hx).mem_iff, List.mem_cons]
    simp [Prod.ext_iff, hne]

/-- The slot of a key holds it. -/
theorem slotOf_eq_some (h : slotOf l k = some i) : ∃ a, l[i]? = some (some (k, a)) := by
  obtain ⟨hi, hany, -⟩ := List.findIdx?_eq_some_iff_getElem.1 h
  cases hx : l[i] with
  | none =>
    rw [hx] at hany
    cases hany
  | some x =>
    have hk : x.1 = k := by simpa [hx] using hany
    exact ⟨x.2, by rw [List.getElem?_eq_getElem hi, hx, ← hk]⟩

theorem slotOf_eq_none : slotOf l k = none ↔ lookup l k = none := by
  rw [slotOf, List.findIdx?_eq_none_iff, lookup_eq_none]
  simp only [List.reduceOption_mem_iff]
  refine ⟨fun h x hx hk => by simpa [hk] using h _ hx, fun h o ho => ?_⟩
  cases o with
  | none => rfl
  | some x => simpa using h x ho

theorem lookup_of_slot (h : Distinct l) (hi : l[i]? = some (some (k, a))) : lookup l k = some a := by
  rw [lookup_eq_some h, List.reduceOption_mem_iff]
  exact List.mem_of_getElem? hi

end SlotMap

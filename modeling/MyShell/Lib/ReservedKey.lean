/-
Tables whose free rows bear a key of their own. A key is set in its row, or
else in the first free one. For every other key such a table is a map as long
as it has rows enough (`Table.lookup_key`). The reserved key finds the first free
row, and what it is set to stays there until that row is taken
(`Table.lookup_free`).
-/
import Mathlib.Data.Finset.Card
import Mathlib.Tactic.Common

namespace ReservedKey

variable {κ α : Type} {k free : κ} {a w v₀ : α} {x : κ × α} {l rows h pre post : List (κ × α)}
  {n : Nat}

def keys (rows : List (κ × α)) : List κ := rows.map Prod.fst

/-- `n` free rows; only the first of them may hold something. -/
def freeRows (free : κ) (v₀ w : α) : Nat → List (κ × α)
  | 0 => []
  | n + 1 => (free, w) :: List.replicate n (free, v₀)

theorem mem_keys_freeRows (hk : k ∈ keys (freeRows free v₀ w n)) : k = free := by
  cases n with
  | zero => cases hk
  | succ n =>
    rcases List.mem_cons.1 hk with rfl | hk
    · rfl
    · rw [List.map_replicate] at hk
      exact List.eq_of_mem_replicate hk

theorem replicate_eq_freeRows : List.replicate n (free, v₀) = freeRows free v₀ v₀ n := by
  cases n <;> rfl

variable [DecidableEq κ]

/-- The rows with the first one under `k` replaced. -/
def replaceFirst (k : κ) (x : κ × α) : List (κ × α) → Option (List (κ × α))
  | [] => none
  | y :: rows => if y.1 = k then some (x :: rows) else (replaceFirst k x rows).map (y :: ·)

/-- Sets a key; without a row for it the rows stay as they are. -/
def put (free : κ) (rows : List (κ × α)) (x : κ × α) : List (κ × α) :=
  match replaceFirst x.1 x rows with
  | some rows => rows
  | none => (replaceFirst free x rows).getD rows

/-- The value of the first row under a key. -/
def lookup (rows : List (κ × α)) (k : κ) : Option α := (rows.find? fun y => y.1 = k).map Prod.snd

/-- The distinct keys. -/
def names (rows : List (κ × α)) : Finset κ := (keys rows).toFinset

/-! ## One row after the other -/

theorem replaceFirst_none (hk : k ∉ keys l) : replaceFirst k x l = none := by
  induction l with
  | nil => rfl
  | cons y l ih =>
    rw [keys, List.map_cons, List.mem_cons, not_or] at hk
    rw [replaceFirst, if_neg (Ne.symm hk.1), ih hk.2, Option.map_none]

theorem replaceFirst_append (hk : k ∉ keys l) :
    replaceFirst k x (l ++ rows) = (replaceFirst k x rows).map (l ++ ·) := by
  induction l with
  | nil => simp
  | cons y l ih =>
    rw [keys, List.map_cons, List.mem_cons, not_or] at hk
    rw [List.cons_append, replaceFirst, if_neg (Ne.symm hk.1), ih hk.2, Option.map_map]
    rfl

theorem replaceFirst_append_left (hk : k ∈ keys l) :
    replaceFirst k x (l ++ rows) = (replaceFirst k x l).map (· ++ rows) := by
  induction l with
  | nil => cases hk
  | cons y l ih =>
    rw [List.cons_append, replaceFirst, replaceFirst]
    split
    · rfl
    · next hy =>
      rw [ih ((List.mem_cons.1 hk).resolve_left (Ne.symm hy)), Option.map_map, Option.map_map]
      rfl

/-- A key that has a row keeps its place among the keys. -/
theorem replaceFirst_some (hk : k ∈ keys l) :
    ∃ l', replaceFirst k (k, a) l = some l' ∧ keys l' = keys l ∧
    ∀ k', lookup l' k' = if k' = k then some a else lookup l k' := by
  induction l with
  | nil => cases hk
  | cons y l ih =>
    rw [replaceFirst]
    split
    · next hy =>
      subst hy
      refine ⟨_, rfl, rfl, fun k' => ?_⟩
      by_cases hk' : k' = y.1
      · simp [lookup, hk']
      · simp [lookup, hk', Ne.symm hk']
    · next hy =>
      obtain ⟨l', hl', hkeys, hget⟩ := ih ((List.mem_cons.1 hk).resolve_left (Ne.symm hy))
      refine ⟨y :: l', by rw [hl', Option.map_some],
        by rw [keys, List.map_cons, ← keys, hkeys]; rfl, fun k' => ?_⟩
      by_cases hk' : y.1 = k'
      · subst hk'
        simp [lookup, hy]
      · have hrest := hget k'
        simp only [lookup] at hrest
        simp [lookup, hk', hrest]

theorem lookup_none (hk : k ∉ keys l) : lookup l k = none := by
  rw [lookup, Option.map_eq_none_iff, List.find?_eq_none]
  intro y hy
  rw [decide_eq_true_iff]
  rintro rfl
  exact hk (List.mem_map_of_mem hy)

theorem lookup_append (hk : k ∉ keys l) : lookup (l ++ rows) k = lookup rows k := by
  have hnone := lookup_none hk
  rw [lookup, Option.map_eq_none_iff] at hnone
  rw [lookup, List.find?_append, hnone, Option.none_or]
  rfl

theorem lookup_append_left (hk : k ∉ keys rows) : lookup (l ++ rows) k = lookup l k := by
  have hnone := lookup_none hk
  rw [lookup, Option.map_eq_none_iff] at hnone
  rw [lookup, List.find?_append, hnone, Option.or_none]
  rfl

/-! ## Tables -/

/-- What the reserved key was set to last, unless a free row was taken since. The latest set
comes first. -/
def pending (free : κ) (v₀ : α) : List (κ × α) → α
  | [] => v₀
  | x :: h => if x.1 = free then x.2 else if x.1 ∈ keys h then pending free v₀ h else v₀

/-- The table of `n` rows after the sets of `h`, latest first. -/
structure Table (free : κ) (v₀ : α) (n : Nat) (h rows : List (κ × α)) : Prop where
  rows : ∃ l, rows = l ++ freeRows free v₀ (pending free v₀ h) (n - l.length) ∧ l.length ≤ n ∧
    (keys l).Nodup ∧ (∀ k, k ∈ keys l ↔ k ≠ free ∧ k ∈ keys h) ∧
    ∀ k ≠ free, lookup l k = lookup h k

theorem Table.nil : Table free v₀ n [] (List.replicate n (free, v₀)) :=
  ⟨[], replicate_eq_freeRows, Nat.zero_le n, List.nodup_nil, by simp [keys], fun _ _ => rfl⟩

theorem card_names (hl : (keys l).Nodup) (hmem : ∀ k, k ∈ keys l ↔ k ≠ free ∧ k ∈ keys h) :
    l.length = ((names h).erase free).card := by
  have hset : (keys l).toFinset = (names h).erase free := by
    ext k
    rw [List.mem_toFinset, hmem, Finset.mem_erase, names, List.mem_toFinset]
  rw [← hset, List.toFinset_card_of_nodup hl, keys, List.length_map]

theorem names_cons (x : κ × α) (h : List (κ × α)) : names (x :: h) = insert x.1 (names h) := by
  rw [names, keys, List.map_cons, List.toFinset_cons]
  rfl

/-- There is room for every key but the reserved one. -/
theorem card_erase_le (h : List (κ × α)) : ((names h).erase free).card ≤ (names h).card :=
  Finset.card_le_card (Finset.erase_subset _ _)

theorem lookup_cons (x : κ × α) (h : List (κ × α)) (k : κ) :
    lookup (x :: h) k = if k = x.1 then some x.2 else lookup h k := by
  by_cases hk : k = x.1
  · simp [lookup, hk]
  · simp [lookup, hk, Ne.symm hk]

/-- The reserved key is set in the first free row. -/
theorem Table.put_free (ht : Table free v₀ n h rows) :
    Table free v₀ n ((free, a) :: h) (put free rows (free, a)) := by
  obtain ⟨l, rfl, hle, hnodup, hmem, hget⟩ := ht.rows
  have hfree : free ∉ keys l := fun hm => ((hmem free).1 hm).1 rfl
  have hput : put free (l ++ freeRows free v₀ (pending free v₀ h) (n - l.length)) (free, a) =
      l ++ freeRows free v₀ a (n - l.length) := by
    rw [put, replaceFirst_append hfree]
    cases n - l.length with
    | zero => simp [freeRows, replaceFirst]
    | succ m => simp [freeRows, replaceFirst]
  refine ⟨l, by rw [hput, pending, if_pos rfl], hle, hnodup, fun k => ?_, fun k hk => ?_⟩
  · rw [hmem, keys, keys, List.map_cons, List.mem_cons]
    simp +contextual
  · rw [hget k hk, lookup_cons, if_neg hk]

/-- A key that has a row is set there, and the free rows stay as they are. -/
theorem Table.put_old (ht : Table free v₀ n h rows) (hk : k ≠ free) (hold : k ∈ keys h) :
    Table free v₀ n ((k, a) :: h) (put free rows (k, a)) := by
  obtain ⟨l, rfl, hle, hnodup, hmem, hget⟩ := ht.rows
  have hkl : k ∈ keys l := (hmem k).2 ⟨hk, hold⟩
  obtain ⟨l', hl', hkeys, hget'⟩ := replaceFirst_some (a := a) hkl
  have hlength : l'.length = l.length := by simpa [keys] using congrArg List.length hkeys
  refine ⟨l', ?_, hlength ▸ hle, hkeys ▸ hnodup, fun k' => ?_, fun k' hk' => ?_⟩
  · rw [put, replaceFirst_append_left hkl, hl', hlength, pending, if_neg hk, if_pos hold]
    rfl
  · rw [hkeys, hmem, keys, keys, List.map_cons, List.mem_cons]
    refine and_congr_right fun _ => ⟨.inr, fun hk' => hk'.elim (fun he => ?_) id⟩
    rw [he]
    exact hold
  · rw [hget', lookup_cons, hget k' hk']

theorem Table.put_new (ht : Table free v₀ n h rows) (hk : k ≠ free) (hnew : k ∉ keys h)
    (hn : (names ((k, a) :: h)).card ≤ n) : Table free v₀ n ((k, a) :: h) (put free rows (k, a)) := by
  obtain ⟨l, rfl, hle, hnodup, hmem, hget⟩ := ht.rows
  have hfree : free ∉ keys l := fun hm => ((hmem free).1 hm).1 rfl
  have hkl : k ∉ keys l := fun hm => hnew ((hmem k).1 hm).2
  have hroom : l.length < n := by
    have hcard := card_names hnodup hmem
    have hle : ((names h).erase free).card ≤ (names h).card := card_erase_le h
    rw [names_cons, Finset.card_insert_of_notMem (by simpa [names] using hnew)] at hn
    omega
  obtain ⟨m, hm⟩ := Nat.exists_eq_add_of_lt hroom
  have hrows : n - l.length = m + 1 := by omega
  have hput : put free (l ++ freeRows free v₀ (pending free v₀ h) (n - l.length)) (k, a) =
      (l ++ [(k, a)]) ++ freeRows free v₀ v₀ m := by
    have hnone : replaceFirst k (k, a) (freeRows free v₀ (pending free v₀ h) (m + 1)) = none :=
      replaceFirst_none fun hmem => hk (mem_keys_freeRows hmem)
    rw [hrows, put, replaceFirst_append hkl, hnone, Option.map_none, replaceFirst_append hfree,
      freeRows, replaceFirst, if_pos rfl, replicate_eq_freeRows]
    simp
  have hkeys : keys (l ++ [(k, a)]) = keys l ++ [k] := by simp [keys]
  refine ⟨l ++ [(k, a)], ?_, by simp; omega, ?_, fun k' => ?_, fun k' hk' => ?_⟩
  · rw [hput, pending, if_neg hk, if_neg hnew]
    congr 2
    simp
    omega
  · rw [hkeys, ← List.concat_eq_append]
    exact hnodup.concat hkl
  · rw [hkeys, List.mem_append, hmem, List.mem_singleton]
    simp only [keys, List.map_cons, List.mem_cons]
    constructor
    · rintro (⟨hne, hold⟩ | rfl)
      · exact ⟨hne, .inr hold⟩
      · exact ⟨hk, .inl rfl⟩
    · rintro ⟨hne, rfl | hold⟩
      · exact .inr rfl
      · exact .inl ⟨hne, hold⟩
  · rw [lookup_cons]
    split
    · next heq =>
      subst heq
      rw [lookup_append hkl]
      simp [lookup]
    · next hne => rw [lookup_append_left (by simpa [keys] using hne), hget k' hk']

/-- **Every set** keeps the table, while there are rows for the keys. -/
theorem Table.put (ht : Table free v₀ n h rows) (hn : (names (x :: h)).card ≤ n) :
    Table free v₀ n (x :: h) (put free rows x) := by
  obtain ⟨k, a⟩ := x
  by_cases hk : k = free
  · subst hk
    exact ht.put_free
  · by_cases hold : k ∈ keys h
    · exact ht.put_old hk hold
    · exact ht.put_new hk hold hn

/-! ## Looking up -/

theorem Table.lookup_key (ht : Table free v₀ n h rows) (hk : k ≠ free) :
    lookup rows k = lookup h k := by
  obtain ⟨l, rfl, -, -, -, hget⟩ := ht.rows
  rw [lookup_append_left fun hm => hk (mem_keys_freeRows hm), hget k hk]

/-- The reserved key is found while a row is free. -/
theorem Table.lookup_free (ht : Table free v₀ n h rows) :
    lookup rows free = if ((names h).erase free).card < n then some (pending free v₀ h) else none := by
  obtain ⟨l, rfl, hle, hnodup, hmem, -⟩ := ht.rows
  rw [← card_names hnodup hmem, lookup_append fun hm => ((hmem free).1 hm).1 rfl]
  cases hrows : n - l.length with
  | zero =>
    rw [if_neg (by omega)]
    rfl
  | succ m =>
    rw [if_pos (by omega)]
    simp [lookup, freeRows]

theorem pending_eq_of_notMem (hfree : free ∉ keys h) : pending free v₀ h = v₀ := by
  induction h with
  | nil => rfl
  | cons x h ih =>
    rw [keys, List.map_cons, List.mem_cons, not_or] at hfree
    rw [pending, if_neg (Ne.symm hfree.1), ih hfree.2, ite_self]

/-- The last value of the reserved key stays while no new key is set. -/
theorem pending_append (hfree : free ∉ keys post) : pending free v₀ (post ++ (free, a) :: pre) =
    if ∀ k ∈ keys post, k ∈ keys pre then a else v₀ := by
  induction post with
  | nil => simp [pending, keys]
  | cons x post ih =>
    have hkeys : keys (post ++ (free, a) :: pre) = keys post ++ free :: keys pre := by simp [keys]
    rw [keys, List.map_cons, List.mem_cons, not_or] at hfree
    rw [List.cons_append, pending, if_neg (Ne.symm hfree.1), ih hfree.2, hkeys]
    simp only [List.mem_append, List.mem_cons, keys, List.map_cons, forall_eq_or_imp,
      Ne.symm hfree.1, false_or]
    by_cases hpre : x.1 ∈ pre.map Prod.fst
    · rw [if_pos (.inr hpre)]
      exact if_congr (and_iff_right hpre).symm rfl rfl
    · simp only [hpre, or_false, false_and, if_false]
      split
      · next hpost => exact if_neg fun hall => hpre (hall _ hpost)
      · rfl

/-- A lookup answers with the last set: the key is not the reserved one; or the
reserved one was not set and no row is free; or it was, and no new key was set
since, or it was set to what free rows hold anyway. -/
def Recalled (free : κ) (v₀ : α) (n : Nat) (h : List (κ × α)) (k : κ) : Prop :=
  k ≠ free ∨ (free ∉ keys h ∧ (names h).card = n) ∨
    ∃ post a pre, h = post ++ (free, a) :: pre ∧ free ∉ keys post ∧
    ((∀ k ∈ keys post, k ∈ keys pre) ∨ a = v₀)

theorem exists_last (hk : k ∈ keys h) : ∃ post a pre, h = post ++ (k, a) :: pre ∧ k ∉ keys post := by
  induction h with
  | nil => cases hk
  | cons x h ih =>
    by_cases hx : x.1 = k
    · exact ⟨[], x.2, h, by rw [← hx]; rfl, List.not_mem_nil⟩
    · obtain ⟨post, a, pre, rfl, hpost⟩ := ih ((List.mem_cons.1 hk).resolve_left (Ne.symm hx))
      refine ⟨x :: post, a, pre, rfl, ?_⟩
      rw [keys, List.map_cons, List.mem_cons, not_or]
      exact ⟨Ne.symm hx, hpost⟩

theorem lookup_last (hk : k ∉ keys post) : lookup (post ++ (k, a) :: pre) k = some a := by
  rw [lookup_append hk]
  simp [lookup]

theorem Table.lookup_free_last (ht : Table free v₀ n h rows) (hn : (names h).card ≤ n)
    (hh : h = post ++ (free, a) :: pre) (hpost : free ∉ keys post) :
    lookup rows free = some (if ∀ k ∈ keys post, k ∈ keys pre then a else v₀) ∧
    lookup h free = some a := by
  subst hh
  have hmem : free ∈ names (post ++ (free, a) :: pre) := by simp [names, keys]
  have hcard := Finset.card_erase_of_mem hmem
  have hpos := Finset.card_pos.2 ⟨_, hmem⟩
  rw [ht.lookup_free, if_pos (by omega), pending_append hpost, lookup_last hpost]
  exact ⟨rfl, rfl⟩

/-- **Exactly then** a lookup answers as the sets say. An answer `f` tells
values apart, and what free rows hold from nothing. -/
theorem Table.recalled {β : Type} {f : Option α → β} (hsome : ∀ a b, f (some a) = f (some b) → a = b)
    (hnone : f (some v₀) ≠ f none) (ht : Table free v₀ n h rows) (hn : (names h).card ≤ n) :
    f (lookup rows k) = f (lookup h k) ↔ Recalled free v₀ n h k := by
  by_cases hkf : k = free
  · subst hkf
    by_cases hmem : k ∈ keys h
    · constructor
      · intro hf
        obtain ⟨post, a, pre, hh, hpost⟩ := exists_last hmem
        obtain ⟨hrows, hget⟩ := ht.lookup_free_last hn hh hpost
        rw [hrows, hget] at hf
        have hlast := hsome _ _ hf
        refine .inr (.inr ⟨post, a, pre, hh, hpost, ?_⟩)
        split at hlast
        · next hall => exact .inl hall
        · exact .inr hlast.symm
      · rintro (hne | ⟨hnot, -⟩ | ⟨post, a, pre, hh, hpost, hlast⟩)
        · exact absurd rfl hne
        · exact absurd hmem hnot
        · obtain ⟨hrows, hget⟩ := ht.lookup_free_last hn hh hpost
          rw [hrows, hget]
          rcases hlast with hall | rfl
          · rw [if_pos hall]
          · rw [ite_self]
    · have hcard : ((names h).erase k).card = (names h).card := by
        rw [Finset.erase_eq_of_notMem (by simpa [names] using hmem)]
      rw [ht.lookup_free, pending_eq_of_notMem hmem, lookup_none hmem, hcard]
      constructor
      · intro hf
        refine .inr (.inl ⟨hmem, ?_⟩)
        split at hf
        · exact absurd hf hnone
        · omega
      · rintro (hne | ⟨-, hfull⟩ | ⟨post, a, pre, rfl, -⟩)
        · exact absurd rfl hne
        · rw [if_neg (by omega)]
        · exact absurd (by simp [keys]) hmem
  · exact iff_of_true (congrArg f (ht.lookup_key hkf)) (.inl hkf)

end ReservedKey

/-
What holds of the memory in every state of a session: stamps come from one
clock, and the used lines of a frame are its first ones, each with a name and
a line of its own. So a frame is free exactly if its first line is.
-/
import MyShell.Backing.Loading
import MyShell.Backing.Reached
import MyShell.Lib.Clock

namespace MyShell.Backing

open Paging (Text)

/-! ## Slots and stamps -/

/-- The slot holds a line of a file. -/
structure Slot.Loaded (s : Slot) : Prop where
  var : ∃ filename, s.var = some filename ∧ filename ≠ "none".toList
  value : ∃ line, s.value = some line
  accessed : 0 < s.accessed
  age : 0 < s.age

/-- The slot holds nothing of its own. -/
def Slot.Bare (s : Slot) : Prop := s.var = none ∧ s.value = none

theorem Slot.Loaded.var_ne {s : Slot} (h : s.Loaded) : str s.var ≠ "none".toList := by
  obtain ⟨filename, hvar, hne⟩ := h.var
  rw [hvar]
  exact hne

theorem Slot.Bare.var_eq {s : Slot} (h : s.Bare) : str s.var = "none".toList := by rw [h.1]; rfl

namespace Store

/-- The stamp of line `i`. -/
def stamp (f : Slot → Nat) (m : Store) (i : Nat) : Nat := (m.lines[i]?.map f).getD 0

/-- Line `i` holds a line of a file. -/
def Holds (m : Store) (i : Nat) : Prop := ∃ s, m.lines[i]? = some s ∧ s.Loaded

/-- The stamps come from the clock. -/
structure Stamped (m : Store) : Prop where
  accessed : Clock.Given m.globalAccessTime (m.stamp Slot.accessed)
  age : Clock.Given m.globalAccessTime (m.stamp Slot.age)

/-- What a session keeps true of the memory. -/
structure Sound (threshold : Nat) (m : Store) : Prop extends Stamped m where
  frames : ∀ i s, i < threshold → m.lines[i]? = some s → s.Loaded ∨ s.Bare
  first : ∀ i, i < threshold → ¬ 3 ∣ i → m.Holds i → m.Holds (i - 1)

variable {threshold : Nat} {m m' : Store} {i : Nat}

theorem stamp_of_get {f : Slot → Nat} {s : Slot} (h : m.lines[i]? = some s) : m.stamp f i = f s := by
  rw [stamp, h]
  rfl

theorem Holds.congr (h : m'.lines[i]? = m.lines[i]?) : m'.Holds i ↔ m.Holds i := by rw [Holds, Holds, h]

theorem Holds.lt (h : m.Holds i) : i < m.lines.length := by
  obtain ⟨s, hs, -⟩ := h
  exact (List.getElem?_eq_some_iff.1 hs).1

/-! ## What the operations keep -/

/-- The variables change, and no stamps. -/
theorem Sound.variables (h : m.Sound threshold) (hclock : m'.globalAccessTime = m.globalAccessTime)
    (hstamp : ∀ j, m'.stamp Slot.accessed j = m.stamp Slot.accessed j ∧
      m'.stamp Slot.age j = m.stamp Slot.age j)
    (hlines : ∀ j, j < threshold → m'.lines[j]? = m.lines[j]?) : m'.Sound threshold where
  accessed := by
    rw [hclock, show m'.stamp Slot.accessed = m.stamp Slot.accessed from funext fun j => (hstamp j).1]
    exact h.accessed
  age := by
    rw [hclock, show m'.stamp Slot.age = m.stamp Slot.age from funext fun j => (hstamp j).2]
    exact h.age
  frames j s hj hs := h.frames j s hj (by rwa [← hlines j hj])
  first j hj hdvd hold := by
    obtain ⟨s, hs, hloaded⟩ := hold
    rw [hlines j hj] at hs
    obtain ⟨s', hs', hloaded'⟩ := h.first j hj hdvd ⟨s, hs, hloaded⟩
    exact ⟨s', by rwa [hlines (j - 1) (by omega)], hloaded'⟩

theorem stamp_memInit {threshold n : Nat} {f : Slot → Nat} (hf : f Slot.literal = 0) :
    (memInit threshold n).stamp f = fun _ => 0 := by
  funext j
  rw [stamp, memInit, List.getElem?_replicate]
  split
  · simp [hf]
  · rfl

theorem sound_memInit (threshold n : Nat) : (memInit threshold n).Sound threshold := by
  have hbare : ∀ j s, (memInit threshold n).lines[j]? = some s → s = Slot.literal := fun j s hs => by
    rw [memInit, List.getElem?_replicate] at hs
    split at hs
    · exact (Option.some.inj hs).symm
    · cases hs
  refine ⟨⟨?_, ?_⟩, fun j s _ hs => Or.inr ?_, fun j _ _ hold => ?_⟩
  · rw [stamp_memInit rfl]
    exact .zero _
  · rw [stamp_memInit rfl]
    exact .zero _
  · rw [hbare j s hs]
    exact ⟨rfl, rfl⟩
  · obtain ⟨s, hs, hloaded⟩ := hold
    have := hloaded.accessed
    rw [hbare j s hs] at this
    exact absurd this (Nat.lt_irrefl 0)

theorem getElem?_memInitVariable (m : Store) (j : Nat) : (m.memInitVariable threshold).lines[j]? =
    m.lines[j]?.map fun s => if threshold ≤ j then { s with var := none, value := none } else s := by
  rw [Store.memInitVariable, List.getElem?_mapIdx]

theorem stamp_memInitVariable (m : Store) {f : Slot → Nat}
    (hf : ∀ s, f { s with var := none, value := none } = f s) :
    (m.memInitVariable threshold).stamp f = m.stamp f := by
  funext j
  rw [stamp, stamp, getElem?_memInitVariable]
  cases m.lines[j]? with
  | none => rfl
  | some s =>
    simp only [Option.map_some, Option.getD_some]
    split
    · exact hf s
    · rfl

theorem Sound.memInitVariable (h : m.Sound threshold) :
    (m.memInitVariable threshold).Sound threshold := by
  refine h.variables rfl (fun j => ?_) fun j hj => ?_
  · rw [stamp_memInitVariable m fun _ => rfl, stamp_memInitVariable m fun _ => rfl]
    exact ⟨rfl, rfl⟩
  · rw [getElem?_memInitVariable]
    cases m.lines[j]? with
    | none => rfl
    | some s => rw [Option.map_some, if_neg (by omega)]

theorem varIndex_ge {name : Text} (h : m.varIndex threshold name = some i) :
    threshold ≤ i ∧ i < m.lines.length := by
  have hfound := List.find?_some h
  have hmem := List.mem_of_find?_eq_some h
  rw [decide_eq_true_eq] at hfound
  exact ⟨hfound.1, List.mem_range.1 hmem⟩

theorem stamp_modify (m : Store) (i : Nat) {f : Slot → Nat} {g : Slot → Slot}
    (hg : ∀ s, f (g s) = f s) :
    ({ m with lines := m.lines.modify i g } : Store).stamp f = m.stamp f := by
  funext j
  simp only [stamp, List.getElem?_modify]
  cases m.lines[j]? with
  | none => rfl
  | some s =>
    simp only [Option.map_some, Option.map_eq_map, Option.getD_some]
    split
    · exact hg s
    · rfl

theorem stamp_memSetValue (m : Store) (var value : Text) {f : Slot → Nat}
    (hf : ∀ s var value, f { s with var := var, value := value } = f s) :
    (m.memSetValue threshold var value).stamp f = m.stamp f := by
  unfold Store.memSetValue
  split
  · exact stamp_modify _ _ fun s => hf s s.var _
  · split
    · exact stamp_modify _ _ fun s => hf s _ _
    · rfl

theorem Sound.modify (h : m.Sound threshold) (hi : threshold ≤ i) {f : Slot → Slot}
    (hf : ∀ s, (f s).accessed = s.accessed ∧ (f s).age = s.age) :
    Sound threshold { m with lines := m.lines.modify i f } := by
  refine h.variables rfl (fun j => ?_) fun j hj => ?_
  · rw [stamp_modify m i fun s => (hf s).1, stamp_modify m i fun s => (hf s).2]
    exact ⟨rfl, rfl⟩
  · have hne : i ≠ j := by omega
    simp [hne]

theorem Sound.memSetValue (h : m.Sound threshold) (var value : Text) :
    (m.memSetValue threshold var value).Sound threshold := by
  unfold Store.memSetValue
  split
  · next i hi => exact h.modify (varIndex_ge hi).1 fun _ => ⟨rfl, rfl⟩
  · split
    · next i hi => exact h.modify (varIndex_ge hi).1 fun _ => ⟨rfl, rfl⟩
    · exact h

/-- Line `i` becomes `s`, and the clock goes on. -/
structure Touched (m : Store) (i : Nat) (s : Slot) (m' : Store) : Prop where
  clock : m'.globalAccessTime = m.globalAccessTime + 1
  size : m'.lines.length = m.lines.length
  policy : m'.currentPolicy = m.currentPolicy
  get : ∀ j, m'.lines[j]? = if i = j then some s else m.lines[j]?

namespace Touched

variable {s : Slot}

theorem stamp (h : m.Touched i s m') (f : Slot → Nat) :
    m'.stamp f = Function.update (m.stamp f) i (f s) := by
  funext j
  rw [Store.stamp, h.get]
  by_cases hj : i = j
  · subst hj
    rw [if_pos rfl, Function.update_self]
    rfl
  · rw [if_neg hj, Function.update_of_ne (Ne.symm hj)]
    rfl

theorem stamped (h : m.Touched i s m') (hm : m.Stamped)
    (haccessed : s.accessed = m.globalAccessTime + 1)
    (hage : s.age = m.globalAccessTime + 1 ∨ s.age = m.stamp Slot.age i) : m'.Stamped where
  accessed := by
    rw [h.clock, h.stamp, haccessed]
    exact hm.accessed.tick i
  age := by
    rw [h.clock, h.stamp]
    obtain hage | hage := hage
    · rw [hage]
      exact hm.age.tick i
    · rw [hage, Function.update_eq_self]
      exact hm.age.later

theorem holds (h : m.Touched i s m') (j : Nat) :
    m'.Holds j ↔ if i = j then s.Loaded else m.Holds j := by
  rw [Holds, h.get]
  split
  · exact ⟨fun ⟨s', hs', hl⟩ => Option.some.inj hs' ▸ hl, fun hl => ⟨s, rfl, hl⟩⟩
  · rfl

end Touched

theorem touched_access {s : Slot} (hs : m.lines[i]? = some s) :
    m.Touched i { s with accessed := m.globalAccessTime + 1 } (m.access i) where
  clock := rfl
  size := List.length_modify ..
  policy := rfl
  get j := by
    rw [Store.access, List.getElem?_modify]
    split
    · next hj =>
      subst hj
      rw [hs]
      rfl
    · cases m.lines[j]? <;> rfl

theorem touched_putLine {filename line : Text} (h : m.putLine filename line i = some m') :
    m.Touched i ⟨some filename, some line, m.globalAccessTime + 1, m.globalAccessTime + 1⟩ m' ∧
    i < m.lines.length := by
  unfold Store.putLine at h
  split at h
  · next hi =>
    cases h
    refine ⟨⟨rfl, List.length_set .., rfl, fun j => ?_⟩, hi⟩
    rw [List.getElem?_set]
    by_cases hj : i = j
    · rw [if_pos hj, if_pos hj, if_pos hi]
    · rw [if_neg hj, if_neg hj]
  · cases h

theorem touched_freeLine (h : m.freeLine i = some m') :
    m.Touched i ⟨none, none, m.globalAccessTime + 1, m.globalAccessTime + 1⟩ m' ∧
      ∃ s, m.lines[i]? = some s ∧ s.var.isSome ∧ s.value.isSome := by
  unfold Store.freeLine at h
  obtain ⟨s, hs, h⟩ := Option.bind_eq_some_iff.1 h
  split at h
  · next hsome =>
    cases h
    refine ⟨⟨rfl, List.length_set .., rfl, fun j => ?_⟩, s, hs, hsome⟩
    rw [List.getElem?_set]
    by_cases hj : i = j
    · rw [if_pos hj, if_pos hj, if_pos (List.getElem?_eq_some_iff.1 hs).1]
    · rw [if_neg hj, if_neg hj]
  · cases h

theorem Sound.access {s : Slot} (h : m.Sound threshold) (hs : m.lines[i]? = some s) :
    (m.access i).Sound threshold := by
  have ht := touched_access hs
  have hkind (hi : i < threshold) : ({ s with accessed := m.globalAccessTime + 1 } : Slot).Loaded ∧
    s.Loaded ∨
      ({ s with accessed := m.globalAccessTime + 1 } : Slot).Bare ∧ ¬ s.Loaded := by
    obtain hloaded | hbare := h.frames i s hi hs
    · exact .inl ⟨⟨hloaded.var, hloaded.value, Nat.succ_pos _, hloaded.age⟩, hloaded⟩
    · exact .inr ⟨hbare, fun hloaded => hloaded.var_ne hbare.var_eq⟩
  have hholds (j : Nat) (hj : j < threshold) : (m.access i).Holds j ↔ m.Holds j := by
    rw [ht.holds]
    split
    · next hij =>
      subst hij
      have hold : m.Holds i ↔ s.Loaded :=
        ⟨fun ⟨s', hs', hl⟩ => Option.some.inj (hs.symm.trans hs') ▸ hl, fun hl => ⟨s, hs, hl⟩⟩
      rw [hold]
      obtain ⟨hnew, hloaded⟩ | ⟨hbare, hnot⟩ := hkind hj
      · exact iff_of_true hnew hloaded
      · exact iff_of_false (fun hnew => hnew.var_ne hbare.var_eq) hnot
    · rfl
  refine ⟨ht.stamped h.toStamped rfl (.inr (stamp_of_get (f := Slot.age) hs).symm),
    fun j s' hj hs' => ?_, fun j hj hdvd hold => ?_⟩
  · rw [ht.get] at hs'
    split at hs'
    · next hij =>
      subst hij
      cases hs'
      exact (hkind hj).imp And.left And.left
    · exact h.frames j s' hj hs'
  · rw [hholds _ (by omega)] at hold ⊢
    exact h.first j hj hdvd hold

theorem Sound.memGetValue (h : m.Sound threshold) (var : Text) :
    (m.memGetValue threshold var).2.Sound threshold := by
  unfold Store.memGetValue
  split
  · next i hi => exact h.access (List.getElem?_eq_getElem (varIndex_ge hi).2)
  · exact h

theorem Sound.memGetValueAtLine {line : Text} (h : m.Sound threshold)
    (hget : m.memGetValueAtLine i = some (line, m')) : m'.Sound threshold := by
  obtain ⟨s, hs, hget⟩ := Option.bind_eq_some_iff.1 hget
  cases hget
  exact h.access hs

/-- A line of a file is stored in a line that the first line of its frame is before, if it
is not that. -/
theorem Sound.putLine {filename line : Text} (h : m.Sound threshold) (hname : filename ≠ "none".toList)
    (hprev : i < threshold → ¬ 3 ∣ i → m.Holds (i - 1)) (hput : m.putLine filename line i = some m') :
    m'.Sound threshold ∧ m'.Holds i := by
  obtain ⟨ht, -⟩ := touched_putLine hput
  have hnew : (⟨some filename, some line, m.globalAccessTime + 1,
      m.globalAccessTime + 1⟩ : Slot).Loaded :=
    ⟨⟨filename, rfl, hname⟩, ⟨line, rfl⟩, Nat.succ_pos _, Nat.succ_pos _⟩
  have hself : m'.Holds i := by rw [ht.holds, if_pos rfl]; exact hnew
  refine ⟨⟨ht.stamped h.toStamped rfl (.inl rfl), fun j s hj hs => ?_, fun j hj hdvd hold => ?_⟩, hself⟩
  · rw [ht.get] at hs
    split at hs
    · cases hs
      exact .inl hnew
    · exact h.frames j s hj hs
  · rw [ht.holds] at hold ⊢
    by_cases hij : i = j - 1
    · rw [if_pos hij]
      exact hnew
    · rw [if_neg hij]
      by_cases hji : i = j
      · subst hji
        exact hprev hj hdvd
      · rw [if_neg hji] at hold
        exact h.first j hj hdvd hold

/-- The lines of a page. -/
theorem Sound.putLines {filename : Text} (hname : filename ≠ "none".toList) :
    ∀ {ls : List Text} {i : Nat} {m m' : Store},
    m.Sound threshold → (i < threshold → ¬ 3 ∣ i → m.Holds (i - 1)) →
    m.putLines filename ls i = some m' → m'.Sound threshold
  | [], _, _, _, h, _, hput => by
    cases hput
    exact h
  | _ :: _, _, _, _, h, hprev, hput => by
    obtain ⟨m₁, hfirst, hput⟩ := Option.bind_eq_some_iff.1 hput
    obtain ⟨h₁, hself⟩ := h.putLine hname hprev hfirst
    exact Sound.putLines hname h₁ (fun _ _ => by rwa [Nat.add_sub_cancel]) hput

theorem Stamped.memFreeLines :
    ∀ {is : List Nat} {m m' : Store}, m.Stamped → (∀ i ∈ is, i < m.lines.length) →
    m.memFreeLines is = some m' → m'.Stamped ∧ m'.lines.length = m.lines.length ∧
    m'.currentPolicy = m.currentPolicy ∧
      ∀ j, if j ∈ is then ∃ s, m'.lines[j]? = some s ∧ s.Bare else m'.lines[j]? = m.lines[j]?
  | [], _, _, h, _, hfree => by
    cases hfree
    exact ⟨h, rfl, rfl, fun j => by simp⟩
  | i :: is, m, m', h, hrange, hfree => by
    rw [Store.memFreeLines, if_pos (hrange i List.mem_cons_self)] at hfree
    obtain ⟨m₁, hline, hfree⟩ := Option.bind_eq_some_iff.1 hfree
    obtain ⟨ht, -⟩ := touched_freeLine hline
    have h₁ := ht.stamped h rfl (.inl rfl)
    obtain ⟨h', hsize, hpolicy, hget⟩ := h₁.memFreeLines
      (fun j hj => by rw [ht.size]; exact hrange j (List.mem_cons_of_mem _ hj)) hfree
    refine ⟨h', hsize.trans ht.size, hpolicy.trans ht.policy, fun j => ?_⟩
    have hj := hget j
    by_cases hmem : j ∈ is
    · rw [if_pos hmem] at hj
      rwa [if_pos (List.mem_cons_of_mem _ hmem)]
    · rw [if_neg hmem, ht.get] at hj
      by_cases hij : i = j
      · subst hij
        rw [if_pos rfl] at hj
        rw [if_pos List.mem_cons_self]
        exact ⟨_, hj, rfl, rfl⟩
      · rw [if_neg hij] at hj
        rwa [if_neg (by simp [Ne.symm hij, hmem])]

/-- Lines can be freed exactly if they are allocated. -/
theorem memFreeLines_isSome :
    ∀ (is : List Nat) {m : Store}, is.Nodup → (∀ i ∈ is, i < m.lines.length) →
    ((m.memFreeLines is).isSome ↔ ∀ i ∈ is, ∃ s, m.lines[i]? = some s ∧ s.var.isSome ∧
      s.value.isSome)
  | [], _, _, _ => iff_of_true rfl fun _ hi => absurd hi List.not_mem_nil
  | i :: is, m, hnodup, hrange => by
    rw [Store.memFreeLines, if_pos (hrange i List.mem_cons_self), List.forall_mem_cons]
    obtain ⟨hnot, hnodup⟩ := List.nodup_cons.1 hnodup
    cases hline : m.freeLine i with
    | none =>
      refine iff_of_false (by simp) fun ⟨⟨s, hs, hsome⟩, _⟩ => ?_
      simp [Store.freeLine, hs, hsome] at hline
    | some m₁ =>
      obtain ⟨ht, hself⟩ := touched_freeLine hline
      rw [Option.bind_eq_bind, Option.bind_some, memFreeLines_isSome is hnodup
        fun j hj => by rw [ht.size]; exact hrange j (List.mem_cons_of_mem _ hj), and_iff_right hself]
      refine forall₂_congr fun j hj => ?_
      rw [ht.get, if_neg (ne_of_mem_of_not_mem hj hnot).symm]

/-- A whole frame is freed. -/
theorem Sound.freeFrame (h : m.Sound threshold) (hdvd : 3 ∣ i) (hrange : i + 2 < m.lines.length)
    (hfree : m.memFreeLines [i, i + 1, i + 2] = some m') : m'.Sound threshold := by
  obtain ⟨hstamped, -, -, hget⟩ := h.toStamped.memFreeLines (fun j hj => by simp at hj; omega) hfree
  have hout {j : Nat} (hj : j < i ∨ i + 3 ≤ j) : m'.lines[j]? = m.lines[j]? := by
    have := hget j
    rwa [if_neg (by simp; omega)] at this
  have hin {j : Nat} (hle : i ≤ j) (hlt : j < i + 3) : ∃ s, m'.lines[j]? = some s ∧ s.Bare := by
    have := hget j
    rwa [if_pos (by simp; omega)] at this
  refine ⟨hstamped, fun j s hj hs => ?_, fun j hj hnot hold => ?_⟩
  · by_cases hframe : i ≤ j ∧ j < i + 3
    · obtain ⟨s', hs', hbare⟩ := hin hframe.1 hframe.2
      obtain rfl := Option.some.inj (hs.symm.trans hs')
      exact .inr hbare
    · rw [hout (by omega)] at hs
      exact h.frames j s hj hs
  · obtain ⟨s, hs, hloaded⟩ := hold
    by_cases hframe : i ≤ j ∧ j < i + 3
    · obtain ⟨s', hs', hbare⟩ := hin hframe.1 hframe.2
      obtain rfl := Option.some.inj (hs.symm.trans hs')
      exact absurd hbare.var_eq hloaded.var_ne
    · -- the line before it is in its own frame
      rw [hout (by omega)] at hs
      obtain ⟨s', hs', hloaded'⟩ := h.first j hj hnot ⟨s, hs, hloaded⟩
      exact ⟨s', by rwa [hout (by omega)], hloaded'⟩

/-! ## Slots -/

theorem mem_frameStarts : i ∈ frameStarts threshold ↔ i < threshold ∧ 3 ∣ i := by
  simp [frameStarts]

theorem frameFree_true (h : m.frameFree i = some true) :
    ∀ d, d < 3 → ∃ s, m.lines[i + d]? = some s ∧ str s.var = "none".toList := by
  unfold frameFree at h
  simp only [Option.bind_eq_bind, Option.bind_eq_some_iff] at h
  obtain ⟨s₀, hs₀, h⟩ := h
  split at h
  · cases h
  next h₀ =>
  obtain ⟨s₁, hs₁, h⟩ := Option.bind_eq_some_iff.1 h
  split at h
  · cases h
  next h₁ =>
  obtain ⟨s₂, hs₂, h⟩ := Option.bind_eq_some_iff.1 h
  have h₂ : str s₂.var = "none".toList := by simpa using h
  intro d hd
  match d, hd with
  | 0, _ => exact ⟨s₀, hs₀, not_not.1 h₀⟩
  | 1, _ => exact ⟨s₁, hs₁, not_not.1 h₁⟩
  | 2, _ => exact ⟨s₂, hs₂, h₂⟩

theorem frameFree_false (h : m.frameFree i = some false) :
    ∃ d s, d < 3 ∧ m.lines[i + d]? = some s ∧ str s.var ≠ "none".toList := by
  unfold frameFree at h
  simp only [Option.bind_eq_bind, Option.bind_eq_some_iff] at h
  obtain ⟨s₀, hs₀, h⟩ := h
  split at h
  · next h₀ => exact ⟨0, s₀, by decide, hs₀, h₀⟩
  obtain ⟨s₁, hs₁, h⟩ := Option.bind_eq_some_iff.1 h
  split at h
  · next h₁ => exact ⟨1, s₁, by decide, hs₁, h₁⟩
  obtain ⟨s₂, hs₂, h⟩ := Option.bind_eq_some_iff.1 h
  exact ⟨2, s₂, by decide, hs₂, by simpa using h⟩

theorem firstFree_some :
    ∀ (is : List Nat), m.firstFree is = some (some i) → i ∈ is ∧ m.frameFree i = some true
  | j :: is, h => by
    obtain ⟨free, hfree, h⟩ := Option.bind_eq_some_iff.1 h
    cases free with
    | true =>
      cases h
      exact ⟨List.mem_cons_self, hfree⟩
    | false =>
      obtain ⟨hmem, hi⟩ := firstFree_some is h
      exact ⟨List.mem_cons_of_mem _ hmem, hi⟩

theorem firstFree_none :
    ∀ (is : List Nat), m.firstFree is = some none → ∀ i ∈ is, m.frameFree i = some false
  | [], _ => fun _ hi => by cases hi
  | j :: is, h => by
    obtain ⟨free, hfree, h⟩ := Option.bind_eq_some_iff.1 h
    cases free with
    | true => cases h
    | false => exact List.forall_mem_cons.2 ⟨hfree, firstFree_none is h⟩

theorem findAvailableSlot_some (h : m.findAvailableSlot threshold = some (some i)) :
    i < threshold ∧ 3 ∣ i ∧ ∀ d, d < 3 → ∃ s, m.lines[i + d]? = some s ∧
    str s.var = "none".toList := by
  obtain ⟨hmem, hfree⟩ := firstFree_some _ h
  exact ⟨(mem_frameStarts.1 hmem).1, (mem_frameStarts.1 hmem).2, frameFree_true hfree⟩

theorem findOldest_eq {f : Slot → Nat} : ∀ {is : List Nat} {time : Nat} {index : Option Nat},
    (∀ i ∈ is, i < m.lines.length) → m.findOldest f is time index =
    some (Clock.search (m.stamp f) is time index)
  | [], _, _, _ => rfl
  | i :: is, time, index, hrange => by
    have hs := List.getElem?_eq_getElem (hrange i List.mem_cons_self)
    have hrest := fun j hj => hrange j (List.mem_cons_of_mem i hj)
    rw [findOldest, hs, Clock.search, stamp_of_get hs]
    simp only [Option.bind_eq_bind, Option.bind_some]
    split
    · exact findOldest_eq hrest
    · exact findOldest_eq hrest

/-- The stamp that the policy looks at. -/
def policyStamp (m : Store) : Nat → Nat :=
  match m.currentPolicy with
  | .lru => m.stamp Slot.accessed
  | .fifo => m.stamp Slot.age

/-- **The victim** is the oldest frame, if its stamp is below 9999. -/
theorem findReplacementSlot_eq (h : threshold ≤ m.lines.length) :
    m.findReplacementSlot threshold =
      some (Clock.oldest m.policyStamp 9999 (frameStarts threshold)) := by
  have hrange : ∀ i ∈ frameStarts threshold, i < m.lines.length := fun i hi => by
    have := (mem_frameStarts.1 hi).1
    omega
  unfold findReplacementSlot policyStamp
  cases m.currentPolicy with
  | lru => exact (findOldest_eq hrange).trans (by rw [Clock.search_eq])
  | fifo => exact (findOldest_eq hrange).trans (by rw [Clock.search_eq])

/-- What `putLines` leaves. -/
theorem putLines_get {filename : Text} :
    ∀ {ls : List Text} {i : Nat} {m m' : Store}, m.putLines filename ls i = some m' →
    m'.lines.length = m.lines.length ∧ m'.currentPolicy = m.currentPolicy ∧
      m'.globalAccessTime = m.globalAccessTime + ls.length ∧
      ∀ j, m'.lines[j]? = if i ≤ j ∧ j < i + ls.length then
        some ⟨some filename, ls[j - i]?, m.globalAccessTime + (j - i) + 1,
          m.globalAccessTime + (j - i) + 1⟩ else m.lines[j]?
  | [], i, m, m', h => by
    cases h
    refine ⟨rfl, rfl, rfl, fun j => ?_⟩
    rw [if_neg]
    simp
  | l :: ls, i, m, m', h => by
    obtain ⟨m₁, hput, h⟩ := Option.bind_eq_some_iff.1 h
    obtain ⟨ht, -⟩ := touched_putLine hput
    obtain ⟨hsize, hpolicy, hclock, hget⟩ := putLines_get h
    refine ⟨hsize.trans ht.size, hpolicy.trans ht.policy, ?_, fun j => ?_⟩
    · rw [hclock, ht.clock, List.length_cons]
      omega
    · rw [hget, ht.get, ht.clock, List.length_cons]
      by_cases hij : i = j
      · subst hij
        rw [if_neg (by omega), if_pos rfl, if_pos (by omega), Nat.sub_self]
        rfl
      · by_cases hin : i + 1 ≤ j ∧ j < i + 1 + ls.length
        · obtain ⟨d, rfl⟩ : ∃ d, j = i + (d + 1) := ⟨j - (i + 1), by omega⟩
          rw [if_pos hin, if_pos (by omega), Nat.add_sub_cancel_left, List.getElem?_cons_succ,
            show i + (d + 1) - (i + 1) = d by
              omega, show m.globalAccessTime + 1 + d + 1 = m.globalAccessTime + (d + 1) + 1 by
                omega]
        · rw [if_neg hin, if_neg hij, if_neg (by omega)]

/-! ## `load_file`, `load_frame`, `remove_frame` -/

theorem pagesCounted_le_room (ls : List Text) (room : Nat) : 3 * pagesCounted ls room ≤ room + 2 := by
  unfold pagesCounted
  split
  · next hlast =>
    have hmod : min room ls.length % 3 ≠ 0 := by
      simp only [ne_eq, decide_not, Bool.and_eq_true, Bool.not_eq_eq_eq_not, Bool.not_true,
        decide_eq_false_iff_not] at hlast
      exact hlast.1
    omega
  · omega

theorem pagesCounted_le {threshold i : Nat} (ls : List Text) :
    pagesCounted ls (room threshold i) ≤ 2 := by
  have hroom : room threshold i ≤ 6 := by
    unfold room
    split
    · decide
    · split
      · exact Nat.le_refl 6
      · split <;> decide
  have := pagesCounted_le_room ls (room threshold i)
  omega

/-- `load_file` finds no free frame, or fills frames from a free one on. -/
theorem loadFile_cases {content filename : Text} {pid r : Nat} {pcb : PCB}
    (hload : loadFile threshold content filename (makePCB pid) m = some (r, pcb, m')) :
    m.findAvailableSlot threshold = some none ∧ r = 21 ∧ m' = m ∨
      ∃ i, m.findAvailableSlot threshold = some (some i) ∧
        r = (if threshold < i + min (room threshold i) (reads content).length then 21 else 0) ∧
        pcb = loadedPCB pid i filename (reads content) (room threshold i) ∧
        m.putLines filename ((reads content).take (room threshold i)) i = some m' := by
  cases hslot : m.findAvailableSlot threshold with
  | none =>
    unfold Backing.loadFile at hload
    rw [hslot] at hload
    cases hload
  | some slot =>
    cases slot with
    | none =>
      unfold Backing.loadFile at hload
      rw [hslot] at hload
      cases hload
      exact .inl ⟨rfl, rfl, rfl⟩
    | some i =>
      rw [loadFile_eq (findAvailableSlot_some hslot).1 hslot, Option.map_eq_some_iff] at hload
      obtain ⟨store, hput, hload⟩ := hload
      cases hload
      exact .inr ⟨i, rfl, rfl, rfl, hput⟩

theorem Sound.loadFile {content filename : Text} {pid : Nat} {r : Nat} {pcb : PCB}
    (h : m.Sound threshold) (hname : filename ≠ "none".toList)
    (hload : loadFile threshold content filename (makePCB pid) m = some (r, pcb, m')) :
    m'.Sound threshold ∧ m'.lines.length = m.lines.length ∧
    (r = 0 → pcb.filename = filename ∧ pcb.pageCounter ≤ 2) := by
  obtain ⟨-, rfl, rfl⟩ | ⟨i, hslot, -, rfl, hput⟩ := loadFile_cases hload
  · exact ⟨h, rfl, fun h => by cases h⟩
  · obtain ⟨hi, hdvd, -⟩ := findAvailableSlot_some hslot
    exact ⟨h.putLines hname (fun _ hnot => absurd hdvd hnot) hput, (putLines_get hput).1,
      fun _ => ⟨rfl, pagesCounted_le _⟩⟩

theorem PCB.countPage_some {pcb pcb' : PCB} (h : pcb.countPage = some pcb') :
    pcb.pageCounter < maxPages ∧ pcb'.pageCounter = pcb.pageCounter + 1 ∧
    pcb'.filename = pcb.filename := by
  unfold PCB.countPage at h
  split at h
  · next hlt =>
    cases h
    exact ⟨hlt, rfl, rfl⟩
  · cases h

theorem Sound.loadFrame {content : Text} {r : Int} {pcb pcb' : PCB} (h : m.Sound threshold)
    (hname : pcb.filename ≠ "none".toList)
    (hload : loadFrame threshold (some content) pcb m = some (r, pcb', m')) :
    m'.Sound threshold ∧ m'.lines.length = m.lines.length ∧ pcb'.filename = pcb.filename ∧
      (pcb'.pageCounter = pcb.pageCounter ∨ pcb.pageCounter < maxPages ∧
        pcb'.pageCounter = pcb.pageCounter + 1) := by
  rw [loadFrame_eq] at hload
  split at hload
  · cases hload
    exact ⟨h, rfl, rfl, .inl rfl⟩
  obtain ⟨slot, hslot, hload⟩ := Option.bind_eq_some_iff.1 hload
  cases slot with
  | none =>
    cases hload
    exact ⟨h, rfl, rfl, .inl rfl⟩
  | some i =>
    obtain ⟨hi, hdvd, -⟩ := findAvailableSlot_some hslot
    obtain ⟨store, hput, hload⟩ := Option.bind_eq_some_iff.1 hload
    obtain ⟨pcb₁, hcount, hload⟩ := Option.map_eq_some_iff.1 hload
    obtain ⟨hlt, hcounter, hfile⟩ := PCB.countPage_some hcount
    cases hload
    exact ⟨h.putLines hname (fun _ hnot => absurd hdvd hnot) hput, (putLines_get hput).1, hfile,
      .inr ⟨hlt, hcounter⟩⟩

theorem Sound.removeFrame {content : Text} {r : Int} {pcb pcb' : PCB} (h : m.Sound threshold)
    (hsize : threshold ≤ m.lines.length)
    (hremove : removeFrame threshold (some content) pcb m = some (r, pcb', m')) :
    m'.Sound threshold ∧ m'.lines.length = m.lines.length ∧ pcb'.filename = pcb.filename ∧
      pcb'.pageCounter = pcb.pageCounter := by
  obtain ⟨i, hslot, hrange, hfree, -, rfl⟩ := removeFrame_cases hremove
  rw [findReplacementSlot_eq hsize, Option.some.injEq] at hslot
  have hdvd := (mem_frameStarts.1 (Clock.oldest_spec hslot).1).2
  exact ⟨h.freeFrame hdvd hrange hfree,
    (h.toStamped.memFreeLines (fun j hj => by simp at hj; omega) hfree).2.1, rfl, rfl⟩

end Store

/-! ## The shell -/

variable {σ : Type} {ho : Host σ} {k k' : Kernel σ}

/-- What a session keeps true of the shell. -/
structure Kernel.Sound (ho : Host σ) (k : Kernel σ) : Prop where
  store : k.store.Sound ho.frameStoreSize
  size : k.store.lines.length = ho.frameStoreSize + ho.varStoreSize
  pcbs : ∀ c pcb, k.pcbs.get c = some pcb → pcb.filename ≠ "none".toList ∧ pcb.pageCounter ≤ maxPages

/-- The frame store is part of the memory. -/
theorem Kernel.Sound.frames_le (h : k.Sound ho) : ho.frameStoreSize ≤ k.store.lines.length := by
  rw [h.size]
  exact Nat.le_add_right _ _

theorem backingName_ne (host : σ) : backingName ho host ≠ "none".toList := by
  intro h
  have := congrArg List.head? h
  unfold backingName at this
  rw [List.head?_append_of_ne_nil _ (by decide)] at this
  exact absurd this (by decide)

/-- Nothing changes but the memory. -/
theorem Kernel.Sound.congr (h : k.Sound ho) (hstore : k'.store.Sound ho.frameStoreSize)
    (hsize : k'.store.lines.length = k.store.lines.length)
    (hpcbs : ∀ c pcb', k'.pcbs.get c = some pcb' → ∃ c' pcb, k.pcbs.get c' = some pcb ∧
      pcb'.filename = pcb.filename ∧
      (pcb'.pageCounter = pcb.pageCounter ∨ pcb'.pageCounter ≤ maxPages)) : k'.Sound ho where
  store := hstore
  size := hsize.trans h.size
  pcbs c pcb' hget := by
    obtain ⟨c', pcb, hpcb, hfile, hcounter⟩ := hpcbs c pcb' hget
    obtain ⟨hname, hle⟩ := h.pcbs c' pcb hpcb
    rw [hfile]
    exact ⟨hname, hcounter.elim (fun heq => heq ▸ hle) id⟩

theorem Kernel.Sound.start (host : σ) : (start ho host).Sound ho where
  store := Store.sound_memInit _ _
  size := List.length_replicate ..
  pcbs _ _ hget := by cases hget

/-- A process is changed to one with the same file. -/
theorem Kernel.Sound.modify {c : Ptr} {f : PCB → PCB} (h : k.Sound ho)
    (hpcbs : k'.pcbs = k.pcbs.modify c f) (hstore : k'.store.Sound ho.frameStoreSize)
    (hsize : k'.store.lines.length = k.store.lines.length)
    (hf : ∀ pcb, k.pcbs.get c = some pcb → (f pcb).filename = pcb.filename ∧
      ((f pcb).pageCounter = pcb.pageCounter ∨ (f pcb).pageCounter ≤ maxPages)) : k'.Sound ho := by
  refine h.congr hstore hsize fun c' pcb' hget => ?_
  rw [hpcbs, Heap.get_modify] at hget
  split at hget
  · next hc =>
    subst hc
    obtain ⟨pcb, hpcb, rfl⟩ := Option.map_eq_some_iff.1 hget
    exact ⟨c', pcb, hpcb, hf pcb hpcb⟩
  · exact ⟨c', pcb', hget, rfl, .inl rfl⟩

theorem Act.sound (h : k.Sound ho) (hact : Act ho k k') : k'.Sound ho := by
  cases hact with
  | load hact =>
    obtain ⟨-, rfl, -⟩ | ⟨_, _, copy, error, pcb, store, -, -, -, hload, hdone⟩ :=
      processInitialize_cases hact
    · exact h
    obtain ⟨hstore, hsize, hpcb⟩ := h.store.loadFile (backingName_ne k.host) hload
    obtain ⟨-, -, rfl⟩ | ⟨herror, -, queue, -, rfl⟩ := hdone
    · exact ⟨hstore, hsize.trans h.size, h.pcbs⟩
    · obtain ⟨hfile, hcounter⟩ := hpcb herror
      refine ⟨hstore, hsize.trans h.size, fun c pcb' hget => ?_⟩
      dsimp only at hget
      rw [Heap.get_alloc] at hget
      split at hget
      · cases hget
        exact ⟨by rw [hfile]; exact backingName_ne k.host, Nat.le_trans hcounter (by decide)⟩
      · exact h.pcbs c pcb' hget
  | set var value =>
    refine ⟨h.store.memSetValue var value, ?_, h.pcbs⟩
    rw [← h.size]
    dsimp only
    unfold Store.memSetValue
    split
    · exact List.length_modify ..
    · split
      · exact List.length_modify ..
      · rfl
  | get var =>
    refine ⟨h.store.memGetValue var, ?_, h.pcbs⟩
    rw [← h.size]
    dsimp only
    unfold Store.memGetValue
    split
    · exact List.length_modify ..
    · rfl
  | reset => exact ⟨h.store.memInitVariable, by rw [← h.size]; exact List.length_mapIdx .., h.pcbs⟩
  | policy policy =>
    have hstore : ({ k.store with currentPolicy := policy } : Store).Sound ho.frameStoreSize :=
      h.store.variables rfl (fun _ => ⟨rfl, rfl⟩) fun _ _ => rfl
    exact ⟨hstore, h.size, h.pcbs⟩
  | system | chdir => exact ⟨h.store, h.size, h.pcbs⟩

/-! ## Steps -/

/-- A process has another score, if there is one. -/
def Rescored (pcbs pcbs' : Heap PCB) : Prop :=
  ∀ c, ∃ score, pcbs'.get c = (pcbs.get c).map fun pcb => { pcb with jobLengthScore := score }

theorem Rescored.refl (pcbs : Heap PCB) : Rescored pcbs pcbs := fun c => by
  cases hpcb : pcbs.get c with
  | none => exact ⟨0, rfl⟩
  | some pcb => exact ⟨pcb.jobLengthScore, rfl⟩

theorem Rescored.trans {pcbs pcbs' pcbs'' : Heap PCB} (h : Rescored pcbs pcbs')
    (h' : Rescored pcbs' pcbs'') : Rescored pcbs pcbs'' := fun c => by
  obtain ⟨score, hget⟩ := h c
  obtain ⟨score', hget'⟩ := h' c
  rw [hget, Option.map_map] at hget'
  exact ⟨score', hget'⟩

/-- The other processes age: their scores change and nothing else. -/
theorem decrementJobLengthScore_rescored {q : ReadyQueue} {pcbs pcbs' : Heap PCB}
    (h : q.decrementJobLengthScore pcbs = some pcbs') : Rescored pcbs pcbs' := by
  unfold ReadyQueue.decrementJobLengthScore at h
  obtain ⟨ps, -, hfold⟩ := Option.bind_eq_some_iff.1 h
  clear h
  induction ps generalizing pcbs with
  | nil =>
    cases hfold
    exact .refl _
  | cons p ps ih =>
    rw [List.foldlM_cons] at hfold
    obtain ⟨pcbs₁, hfirst, hfold⟩ := Option.bind_eq_some_iff.1 hfold
    refine Rescored.trans ?_ (ih hfold)
    simp only [Option.bind_eq_bind, Option.bind_eq_some_iff] at hfirst
    obtain ⟨node, -, pcb, hpcb, hfirst⟩ := hfirst
    split at hfirst
    · cases hfirst
      intro c
      by_cases hc : c = node.val
      · subst hc
        exact ⟨pcb.jobLengthScore - 1, by rw [Heap.get_modify, if_pos rfl, hpcb]; rfl⟩
      · obtain ⟨score, hget⟩ := Rescored.refl pcbs c
        exact ⟨score, by rw [Heap.get_modify, if_neg hc]; exact hget⟩
    · cases hfirst
      exact .refl _

/-- A scheduler that picks a process leaves the memory as it is, and the nodes but for their links. -/
theorem Policy.pick_store {policy : Policy} {cur : Ptr} (h : policy.pick k = some (cur, k')) :
    k'.store = k.store ∧ Rescored k.pcbs k'.pcbs ∧ Linked.Relinked k.queue.nodes k'.queue.nodes := by
  have hhead {k k' : Kernel σ} {cur : Ptr} (h : pickHead k = some (cur, k')) :
      k'.store = k.store ∧ k'.pcbs = k.pcbs ∧ k'.queue.nodes = k.queue.nodes := by
    unfold pickHead at h
    simp only [Option.bind_eq_bind, Option.bind_eq_some_iff] at h
    obtain ⟨⟨top, queue⟩, hpop, cur', -, h⟩ := h
    cases h
    exact ⟨rfl, rfl, ReadyQueue.popHead_nodes hpop⟩
  cases policy with
  | fcfs | rr | rr30 =>
    obtain ⟨hstore, hpcbs, hnodes⟩ := hhead h
    exact ⟨hstore, hpcbs ▸ .refl _, hnodes ▸ .refl _⟩
  | sjf =>
    change pickShortest k = some (cur, k') at h
    unfold pickShortest ReadyQueue.popShortestJob at h
    simp only [Option.bind_eq_bind, Option.bind_eq_some_iff] at h
    obtain ⟨⟨top, queue⟩, ⟨sorted, hsort, hpop⟩, cur', -, h⟩ := h
    cases h
    refine ⟨rfl, .refl _, ?_⟩
    dsimp only
    rw [ReadyQueue.popHead_nodes hpop]
    exact ReadyQueue.sortReadyQueue_relinked hsort
  | aging =>
    change pickAging k = some (cur, k') at h
    unfold pickAging at h
    simp only [Option.bind_eq_bind, Option.bind_eq_some_iff] at h
    obtain ⟨⟨cur₁, k₁⟩, hpick, shortest, -, node, -, pcb, -, h⟩ := h
    obtain ⟨hstore₁, hpcbs₁, hnodes₁⟩ := hhead hpick
    split at h
    · simp only [Option.bind_eq_some_iff] at h
      obtain ⟨promoted, hpromote, queue, hadd, ⟨cur₂, k₂⟩, hchosen, pcbs, hage, h⟩ := h
      obtain ⟨hstore₂, hpcbs₂, hnodes₂⟩ := hhead hchosen
      cases h
      refine ⟨hstore₂.trans hstore₁, ?_, ?_⟩
      · have := decrementJobLengthScore_rescored hage
        rwa [hpcbs₂, hpcbs₁] at this
      · dsimp only
        rw [hnodes₂, ← hnodes₁]
        exact (ReadyQueue.promote_relinked hpromote).trans (ReadyQueue.addToTail_relinked hadd)
    · simp only [Option.pure_def, Option.bind_some, Option.bind_eq_some_iff] at h
      obtain ⟨pcbs, hage, h⟩ := h
      cases h
      refine ⟨hstore₁, ?_, hnodes₁ ▸ .refl _⟩
      have := decrementJobLengthScore_rescored hage
      rwa [hpcbs₁] at this

theorem pageFault_sound {c : Ptr} {r : Int} (h : k.Sound ho)
    (hfault : pageFault ho c k = some (r, k')) : k'.Sound ho := by
  obtain ⟨pcb, content, pcb₁, store₁, pcb', store', hpcb, -, hload, rfl, hdone⟩ :=
    pageFault_cases hfault
  obtain ⟨hname, hle⟩ := h.pcbs c pcb hpcb
  obtain ⟨hstore₁, hsize₁, hfile₁, hcounter₁⟩ := h.store.loadFrame hname hload
  have hkept : store'.Sound ho.frameStoreSize ∧ store'.lines.length = k.store.lines.length ∧
      pcb'.filename = pcb.filename ∧ pcb'.pageCounter ≤ maxPages := by
    obtain ⟨-, rfl, rfl⟩ | ⟨-, r₂, pcb₂, store₂, r₃, hremove, hagain⟩ := hdone
    · exact ⟨hstore₁, hsize₁, hfile₁, by omega⟩
    · obtain ⟨hstore₂, hsize₂, hfile₂, hcounter₂⟩ :=
        hstore₁.removeFrame (by rw [hsize₁]; exact h.frames_le) hremove
      obtain ⟨hstore₃, hsize₃, hfile₃, hcounter₃⟩ :=
        hstore₂.loadFrame (by rwa [hfile₂, hfile₁]) hagain
      exact ⟨hstore₃, hsize₃.trans (hsize₂.trans hsize₁),
        hfile₃.trans (hfile₂.trans hfile₁), by omega⟩
  obtain ⟨hstore', hsize', hfile', hcounter'⟩ := hkept
  refine h.modify (f := fun _ => pcb') rfl hstore' hsize' fun pcb₀ hpcb₀ => ?_
  obtain rfl := Option.some.inj (hpcb.symm.trans hpcb₀)
  exact ⟨hfile', .inr hcounter'⟩

theorem PCB.advance_fields (pcb : PCB) :
    pcb.advance.filename = pcb.filename ∧ pcb.advance.pageCounter = pcb.pageCounter := by
  unfold PCB.advance
  split <;> exact ⟨rfl, rfl⟩

theorem fetch_sound {c : Ptr} {line : Text} (h : k.Sound ho)
    (hfetch : fetch c k = some (line, k')) : k'.Sound ho := by
  obtain ⟨pcb, store, hpcb, hget, rfl⟩ := fetch_cases hfetch
  refine h.modify (f := fun pcb => { pcb with pc := pcb.pc + 1, priority := false }) rfl
    (h.store.memGetValueAtLine hget) ?_ fun pcb' _ => ⟨rfl, .inl rfl⟩
  obtain ⟨s, -, hget⟩ := Option.bind_eq_some_iff.1 hget
  cases hget
  exact List.length_modify ..

theorem finish_sound {p : Ptr} (h : k.Sound ho) (hfinish : finish p k = some k') : k'.Sound ho := by
  obtain ⟨queue, -, rfl⟩ := finish_cases hfinish
  exact ⟨h.store, h.size, h.pcbs⟩

/-- **One step** keeps it. -/
theorem Step.sound {place place' : Place} (h : k.Sound ho) (hstep : Step ho place k place' k') :
    k'.Sound ho := by
  cases hstep with
  | command hact | act hact => exact hact.sound h
  | @enter policy _ _ henter =>
    cases policy with
    | aging =>
      obtain ⟨queue, -, henter⟩ := Option.bind_eq_some_iff.1 henter
      cases henter
      exact ⟨h.store, h.size, h.pcbs⟩
    | fcfs | sjf | rr | rr30 =>
      cases henter
      exact h
  | leave | spent | dropped => exact h
  | pick hpick =>
    obtain ⟨hstore, hpcbs, -⟩ := Policy.pick_store hpick
    refine h.congr (hstore ▸ h.store) (by rw [hstore]) fun c pcb' hget => ?_
    obtain ⟨score, hscore⟩ := hpcbs c
    rw [hscore] at hget
    obtain ⟨pcb, hpcb, rfl⟩ := Option.map_eq_some_iff.1 hget
    exact ⟨c, pcb, hpcb, rfl, .inl rfl⟩
  | noPage _ _ hfault hfinish => exact finish_sound (pageFault_sound h hfault) hfinish
  | fault _ _ hfault => exact pageFault_sound h hfault
  | noLine _ _ hfetch hfinish => exact finish_sound (fetch_sound h hfetch) hfinish
  | fetch _ _ hfetch =>
    have h' := fetch_sound h hfetch
    exact ⟨h'.store, h'.size, h'.pcbs⟩
  | advance =>
    exact h.modify (f := PCB.advance) rfl h.store rfl fun pcb _ =>
      ⟨pcb.advance_fields.1, .inl pcb.advance_fields.2⟩
  | back => exact ⟨h.store, h.size, h.pcbs⟩

/-- **Every state of a session.** -/
theorem Reached.sound {place : Place} (h : Reached ho place k) : k.Sound ho := by
  induction h with
  | start host => exact .start host
  | step _ hstep ih => exact hstep.sound ih

end MyShell.Backing

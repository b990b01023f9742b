/-
Whole runs of list.c. `ListCall.Step` says what each call is for, on lists of elements;
the links are not mentioned. From lists set up by `LIST_INITIALIZER`, any calls
that keep to it are answered by the code so, leave links that show the same
lists from either end, and fail no assertion (`list_calls`).
-/
import MyShell.Fs.ListSort

namespace MyShell.Fs

open Sentinel (Links Holds Distinct backOf frontOf)

/-- A call of list.c on the lists `ι` of elements `α`. -/
inductive ListCall (ι α : Type)
  | init (list : ι)
  | begin (list : ι)
  | next (e : α)
  | rbegin (list : ι)
  | prev (e : α)
  | rend (list : ι)
  | insert (before : ListElem ι α) (e : α)
  | splice (before first last : ListElem ι α)
  | pushFront (list : ι) (e : α)
  | pushBack (list : ι) (e : α)
  | remove (e : α)
  | popFront (list : ι)
  | popBack (list : ι)
  | front (list : ι)
  | back (list : ι)
  | size (list : ι)
  | empty (list : ι)
  | reverse (list : ι)
  | sort (list : ι)
  | insertOrdered (list : ι) (e : α)
  | unique (list : ι) (duplicates : Option ι)
  | max (list : ι)
  | min (list : ι)

inductive ListAnswer (ι α : Type)
  | done
  | elem (e : ListElem ι α)
  | number (n : Nat)
  | flag (b : Bool)

variable {ι α : Type} [DecidableEq ι] [DecidableEq α] {less : α → α → Bool}

/-- The call, where a loop may make `fuel` turns. -/
def ListCall.run (less : α → α → Bool) (fuel : Nat) : ListCall ι α → ListM ι α (ListAnswer ι α)
  | init l => do llistInit l; pure .done
  | begin l => do pure (.elem (← listBegin l))
  | next e => do pure (.elem (← listNext (.elem e)))
  | rbegin l => do pure (.elem (← listRbegin l))
  | prev e => do pure (.elem (← listPrev (.elem e)))
  | rend l => pure (.elem (listRend l))
  | insert before e => do listInsert before (.elem e); pure .done
  | splice before first last => do listSplice before first last; pure .done
  | pushFront l e => do listPushFront l (.elem e); pure .done
  | pushBack l e => do listPushBack l (.elem e); pure .done
  | remove e => do pure (.elem (← listRemove (.elem e)))
  | popFront l => do pure (.elem (← listPopFront l))
  | popBack l => do pure (.elem (← listPopBack l))
  | front l => do pure (.elem (← listFront l))
  | back l => do pure (.elem (← listBack l))
  | size l => do pure (.number (← listSize fuel l))
  | empty l => do pure (.flag (← listEmpty l))
  | reverse l => do listReverse fuel l; pure .done
  | sort l => do listSort less fuel l; pure .done
  | insertOrdered l e => do listInsertOrdered less fuel l (.elem e); pure .done
  | unique l d => do listUnique less fuel l d; pure .done
  | max l => do pure (.elem (← listMax less fuel l))
  | min l => do pure (.elem (← listMin less fuel l))

/-- Calls one after the other. -/
def ListCall.runAll (less : α → α → Bool) (fuel : Nat) :
    List (ListCall ι α) → ListM ι α (List (ListAnswer ι α))
  | [] => pure []
  | c :: cs => do
    let a ← c.run less fuel
    pure (a :: (← runAll less fuel cs))

/-- What a call is for: the lists before it, its answer, and the lists after it. -/
inductive ListCall.Step (less : α → α → Bool) : (ι → List α) → ListCall ι α →
    ListAnswer ι α → (ι → List α) → Prop
  | init (σ l) : Step less σ (.init l) .done (Function.update σ l [])
  | begin (σ l) : Step less σ (.begin l) (.elem (frontOf l (σ l))) σ
  | next {σ l us x vs} (h : σ l = us ++ x :: vs) : Step less σ (.next x) (.elem (frontOf l vs)) σ
  | rbegin (σ l) : Step less σ (.rbegin l) (.elem (backOf l (σ l))) σ
  | prev {σ l us x vs} (h : σ l = us ++ x :: vs) : Step less σ (.prev x) (.elem (backOf l us)) σ
  | rend (σ l) : Step less σ (.rend l) (.elem (backOf l [])) σ
  | insert {σ l us vs x} (h : σ l = us ++ vs) (hx : ∀ k, x ∉ σ k) :
    Step less σ (.insert (frontOf l vs) x) .done (Function.update σ l (us ++ x :: vs))
  | splice {σ l us ms vs k xs ys} (h : σ l = us ++ ms ++ vs)
      (hk : Function.update σ l (us ++ vs) k = xs ++ ys) :
    Step less σ (.splice (frontOf k ys) (frontOf l (ms ++ vs)) (frontOf l vs)) .done
      (Function.update (Function.update σ l (us ++ vs)) k (xs ++ ms ++ ys))
  | pushFront {σ l x} (hx : ∀ k, x ∉ σ k) : Step less σ (.pushFront l x) .done
      (Function.update σ l (x :: σ l))
  | pushBack {σ l x} (hx : ∀ k, x ∉ σ k) : Step less σ (.pushBack l x) .done
      (Function.update σ l (σ l ++ [x]))
  | remove {σ l us x vs} (h : σ l = us ++ x :: vs) :
    Step less σ (.remove x) (.elem (frontOf l vs)) (Function.update σ l (us ++ vs))
  | popFront {σ l x vs} (h : σ l = x :: vs) :
      Step less σ (.popFront l) (.elem (.elem x)) (Function.update σ l vs)
  | popBack {σ l us x} (h : σ l = us ++ [x]) :
      Step less σ (.popBack l) (.elem (.elem x)) (Function.update σ l us)
  | front {σ l x vs} (h : σ l = x :: vs) : Step less σ (.front l) (.elem (.elem x)) σ
  | back {σ l us x} (h : σ l = us ++ [x]) : Step less σ (.back l) (.elem (.elem x)) σ
  | size (σ l) : Step less σ (.size l) (.number (σ l).length) σ
  | empty (σ l) : Step less σ (.empty l) (.flag (decide (σ l = []))) σ
  | reverse (σ l) : Step less σ (.reverse l) .done (Function.update σ l (σ l).reverse)
  | sort (σ l) : Step less σ (.sort l) .done
      (Function.update σ l ((σ l).mergeSort fun a b => !less b a))
  | insertOrdered {σ l x} (hx : ∀ k, x ∉ σ k) : Step less σ (.insertOrdered l x) .done
      (Function.update σ l
        ((σ l).takeWhile (fun y => !less x y) ++ x :: (σ l).dropWhile fun y => !less x y))
  | unique {σ l d x ys} (h : σ l = x :: ys) (hd : d ≠ some l) : Step less σ (.unique l d) .done
      (appendTo (Function.update σ l (x :: (splitUnique less x ys).1)) d (splitUnique less x ys).2)
  | uniqueNil {σ l d} (h : σ l = []) : Step less σ (.unique l d) .done σ
  | max {σ l us x vs} (h : σ l = us ++ x :: vs) (hbefore : ∀ y ∈ us, less y x = true)
      (hafter : ∀ y ∈ vs, less x y = false) :
    Step less σ (.max l) (.elem (.elem x)) σ
  | maxNil {σ l} (h : σ l = []) : Step less σ (.max l) (.elem (listEnd l)) σ
  | min {σ l us x vs} (h : σ l = us ++ x :: vs) (hbefore : ∀ y ∈ us, less x y = true)
      (hafter : ∀ y ∈ vs, less y x = false) :
    Step less σ (.min l) (.elem (.elem x)) σ
  | minNil {σ l} (h : σ l = []) : Step less σ (.min l) (.elem (listEnd l)) σ

/-- Steps one after the other. -/
inductive ListCall.Steps (less : α → α → Bool) : (ι → List α) → List (ListCall ι α) →
    List (ListAnswer ι α) → (ι → List α) → Prop
  | nil (σ) : Steps less σ [] [] σ
  | cons {σ c a σ' cs as σ''} (h : Step less σ c a σ') (hs : Steps less σ' cs as σ'') :
      Steps less σ (c :: cs) (a :: as) σ''

section run

variable {σ σ' : ι → List α} {c : ListCall ι α} {a : ListAnswer ι α} {cs : List (ListCall ι α)}
  {as : List (ListAnswer ι α)}

/-- **One call** does what it is for, once its loops may make turns enough. -/
theorem ListCall.Step.run (hasymm : ∀ a b, less a b = true → less b a = false)
    (htrans : ∀ a b c, less b a = false → less c b = false → less c a = false)
    (h : Step less σ c a σ') : ∃ n, ∀ fuel ≥ n, Yields σ (c.run less fuel) a σ' := by
  cases h with
  | init l => exact ⟨0, fun _ _ => (Yields.llistInit l).bind (.pure _ _)⟩
  | begin l => exact ⟨0, fun _ _ => (Yields.listBegin l).bind (.pure _ _)⟩
  | next h => exact ⟨0, fun _ _ => (Yields.listNext h).bind (.pure _ _)⟩
  | rbegin l => exact ⟨0, fun _ _ => (Yields.listRbegin l).bind (.pure _ _)⟩
  | prev h => exact ⟨0, fun _ _ => (Yields.listPrev h).bind (.pure _ _)⟩
  | rend l => exact ⟨0, fun _ _ => .pure _ _⟩
  | insert h hx => exact ⟨0, fun _ _ => (Yields.listInsert h hx).bind (.pure _ _)⟩
  | splice h hk => exact ⟨0, fun _ _ => (Yields.listSplice h hk).bind (.pure _ _)⟩
  | pushFront hx => exact ⟨0, fun _ _ => (Yields.listPushFront hx).bind (.pure _ _)⟩
  | pushBack hx => exact ⟨0, fun _ _ => (Yields.listPushBack hx).bind (.pure _ _)⟩
  | remove h => exact ⟨0, fun _ _ => (Yields.listRemove h).bind (.pure _ _)⟩
  | popFront h => exact ⟨0, fun _ _ => (Yields.listPopFront h).bind (.pure _ _)⟩
  | popBack h => exact ⟨0, fun _ _ => (Yields.listPopBack h).bind (.pure _ _)⟩
  | front h => exact ⟨0, fun _ _ => (Yields.listFront h).bind (.pure _ _)⟩
  | back h => exact ⟨0, fun _ _ => (Yields.listBack h).bind (.pure _ _)⟩
  | size l => exact ⟨(σ l).length + 1, fun _ hfuel => (Yields.listSize l hfuel).bind (.pure _ _)⟩
  | empty l => exact ⟨0, fun _ _ => (Yields.listEmpty l).bind (.pure _ _)⟩
  | reverse l => exact ⟨(σ l).length + 1, fun _ hfuel => (Yields.listReverse l hfuel).bind (.pure _ _)⟩
  | sort l =>
    exact ⟨(σ l).length + 1, fun _ hfuel => (Yields.listSort hasymm htrans l hfuel).bind
      (.pure _ _)⟩
  | @insertOrdered l x hx =>
    exact ⟨(σ l).length + 1, fun _ hfuel => (Yields.listInsertOrdered l hfuel hx).bind (.pure _ _)⟩
  | @unique l d x ys h hd =>
    exact ⟨ys.length + 1, fun _ hfuel => (Yields.listUnique hd h hfuel).bind (.pure _ _)⟩
  | @uniqueNil l d h => exact ⟨0, fun fuel _ => (Yields.listUnique_nil d h fuel).bind (.pure _ _)⟩
  | @max l us x vs h hbefore hafter =>
    exact ⟨(σ l).length, fun _ hfuel => (Yields.listMax h hfuel hbefore hafter).bind (.pure _ _)⟩
  | maxNil h => exact ⟨0, fun _ _ => (Yields.listBest_nil h).bind (.pure _ _)⟩
  | @min l us x vs h hbefore hafter =>
    exact ⟨(σ l).length, fun _ hfuel => (Yields.listMin h hfuel hbefore hafter).bind (.pure _ _)⟩
  | minNil h => exact ⟨0, fun _ _ => (Yields.listBest_nil h).bind (.pure _ _)⟩

theorem ListCall.Steps.run (hasymm : ∀ a b, less a b = true → less b a = false)
    (htrans : ∀ a b c, less b a = false → less c b = false → less c a = false)
    (h : ListCall.Steps less σ cs as σ') :
    ∃ n, ∀ fuel ≥ n, Yields σ (ListCall.runAll less fuel cs) as σ' := by
  induction h with
  | nil σ => exact ⟨0, fun _ _ => .pure _ σ⟩
  | cons hstep _ ih =>
    obtain ⟨n, hn⟩ := hstep.run hasymm htrans
    obtain ⟨n', hn'⟩ := ih
    refine ⟨Nat.max n n', fun fuel hfuel => (hn fuel ?_).bind ((hn' fuel ?_).bind (.pure _ _))⟩
    · exact (Nat.le_max_left n n').trans hfuel
    · exact (Nat.le_max_right n n').trans hfuel

end run

section initializer

omit [DecidableEq ι] [DecidableEq α]

/-- `LIST_INITIALIZER`, for every list; no element has links. -/
def listInitializer : Links ι α where
  prev
    | .tail l => some (.head l)
    | _ => none
  next
    | .head l => some (.tail l)
    | _ => none

theorem listInitializer_holds : Holds (listInitializer : Links ι α) fun _ => [] where
  head _ := rfl
  tail _ := rfl
  chain _ := .cons_cons ⟨rfl, rfl⟩ (.singleton _)
  distinct := ⟨fun _ => List.nodup_nil, fun _ _ _ _ hx => absurd hx List.not_mem_nil⟩

end initializer

/-- **A run of list.c** that keeps to what the calls are for gets their answers,
ends with links that show the lists from either end, and fails no assertion. -/
theorem list_calls (hasymm : ∀ a b, less a b = true → less b a = false)
    (htrans : ∀ a b c, less b a = false → less c b = false → less c a = false)
    {cs : List (ListCall ι α)} {as : List (ListAnswer ι α)} {σ : ι → List α}
    (h : ListCall.Steps less (fun _ => []) cs as σ) :
    ∃ n, ∀ fuel ≥ n, ∃ s, ListCall.runAll less fuel cs ⟨listInitializer, 0⟩ = some (as, s) ∧
      s.panics = 0 ∧
      ∀ l us vs, σ l = us ++ vs → s.links.next (backOf l us) = some (frontOf l vs) ∧
        s.links.prev (frontOf l vs) = some (backOf l us) := by
  obtain ⟨n, hn⟩ := h.run hasymm htrans
  refine ⟨n, fun fuel hfuel => ?_⟩
  obtain ⟨s, hrun, hs, hpanics⟩ := hn fuel hfuel ⟨listInitializer, 0⟩ listInitializer_holds
  exact ⟨s, hrun, hpanics, fun l us vs hl => ⟨hs.next hl, hs.prev hl⟩⟩

/-- Two lists of numbers, ordered by their tens. -/
theorem list_calls_two : ∃ (σ : Bool → List Nat) (n : Nat), ∀ fuel ≥ n, ∃ s,
    ListCall.runAll (fun a b => decide (a / 10 < b / 10)) fuel
        [.pushBack true 31, .pushFront true 25, .insertOrdered true 27, .unique true (some false),
          .reverse true, .max true, .sort true, .size false] ⟨listInitializer, 0⟩ =
      some ([.done, .done, .done, .done, .done, .elem (.elem 31), .done, .number 1], s) ∧ s.panics = 0 ∧
      ∀ l us vs, σ l = us ++ vs → s.links.next (backOf l us) = some (frontOf l vs) ∧
        s.links.prev (frontOf l vs) = some (backOf l us) := by
  have hasymm : ∀ a b : Nat, decide (a / 10 < b / 10) = true → decide (b / 10 < a / 10) = false := by
    intro a b h
    simp only [decide_eq_true_eq, decide_eq_false_iff_not] at h ⊢
    omega
  have htrans : ∀ a b c : Nat, decide (b / 10 < a / 10) = false → decide (c / 10 < b / 10) = false →
      decide (c / 10 < a / 10) = false := by
    intro a b c h h'
    simp only [decide_eq_false_iff_not] at h h' ⊢
    omega
  have hpush : ∀ k, 31 ∉ (fun _ => [] : Bool → List Nat) k := fun _ => List.not_mem_nil
  have hinsert : ∀ k, 27 ∉ Function.update (Function.update (fun _ => [] : Bool →
      List Nat) true [31]) true [25, 31] k := by decide
  have hfront : ∀ k, 25 ∉ Function.update (fun _ => [] : Bool → List Nat) true [31] k := by decide
  have hsteps : ∃ σ, ListCall.Steps (fun a b => decide (a / 10 < b / 10)) (fun _ => [])
      [.pushBack true 31, .pushFront true 25, .insertOrdered true 27, .unique true (some false),
        .reverse true, .max true, .sort true, .size false]
      [.done, .done, .done, .done, .done, .elem (.elem 31), .done, .number 1] σ :=
    ⟨_, .cons (.pushBack hpush) (.cons (.pushFront hfront) (.cons (.insertOrdered hinsert)
      (.cons (.unique (show _ = 25 :: [27, 31] from rfl) nofun) (.cons (.reverse _ true)
        (.cons (.max (show _ = [] ++ 31 :: [25] from rfl) (by decide) (by decide))
          (.cons (.sort _ true) (.cons (.size _ false) (.nil _))))))))⟩
  obtain ⟨σ, hsteps⟩ := hsteps
  exact ⟨σ, list_calls hasymm htrans hsteps⟩

end MyShell.Fs

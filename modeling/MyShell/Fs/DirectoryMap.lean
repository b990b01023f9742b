/-
Directories over whole runs: one freshly created directory, to which names are
added, each with an inode of its own, and from which names are removed, in any
order. `directory_map` says that it is the finite map these calls make.
-/
import MyShell.Fs.Folder

namespace MyShell.Fs

open Storage Session

/-! ## A new directory -/

theorem Folder.new {x : BlockSector} (n : Nat) :
    Folder ((Growable.zeros (36 * n)).write 0 (DirEntry.toBytes ⟨x, [], true⟩)) x
    (List.replicate (n - 1) none) := by
  have hbytes := DirEntry.ofBytes_toBytes ⟨x, [], true⟩
  have hunused : ∀ k, (DirEntry.ofBytes ((Growable.zeros (36 * n)).read 36 (36 * k))).slot = none :=
    fun k => by
    have hzero : ((Growable.zeros (36 * n) : Growable UInt8).read 36 (36 * k)).getD 35 0 = 0 := by
      by_cases hlt : 35 < ((Growable.zeros (36 * n) : Growable UInt8).read 36 (36 * k)).length
      · rw [List.getD_eq_getElem _ _ hlt, Growable.getElem_read]
        rfl
      · exact List.getD_eq_default _ _ (Nat.le_of_not_lt hlt)
    have hinUse : (DirEntry.ofBytes ((Growable.zeros (36 * n)).read 36 (36 * k))).inUse = false := by
      rw [DirEntry.ofBytes, hzero]
      rfl
    rw [DirEntry.slot, hinUse]
    rfl
  constructor
  case length =>
    rw [Growable.length_write, DirEntry.length_toBytes, Growable.length_zeros, List.length_replicate]
    omega
  case entries =>
    cases n with
    | zero =>
      refine ⟨_, [], entries_append (k := 0) rfl, ?_, ?_, rfl⟩
      · rw [hbytes]
      · rw [hbytes]
    | succ n =>
      have hset := entries_set (g := Growable.zeros (36 * (n + 1))) (k := 0) (e := ⟨x, [], true⟩)
        (by rw [Growable.length_zeros]; omega) ⟨_, rfl⟩
      rw [Nat.mul_zero] at hset
      have hdiv : (Growable.zeros (36 * (n + 1)) : Growable UInt8).length / dirEntrySize = n + 1 :=
        Nat.mul_div_cancel_left _ (by decide)
      rw [hset, MyShell.Fs.entries, hdiv, List.range_succ_eq_map, List.map_cons, List.set_cons_zero]
      refine ⟨_, _, rfl, by rw [hbytes], by rw [hbytes], ?_⟩
      rw [List.map_map, List.map_map, Nat.add_sub_cancel]
      refine List.eq_replicate_iff.2 ⟨by simp, fun o ho => ?_⟩
      obtain ⟨k, -, rfl⟩ := List.mem_map.1 ho
      exact hunused (k + 1)

/-- `dir_create` on a sector taken for it. -/
theorem Volume.dirCreate {s : Session} {a : BlockSector → Option Node} {x : BlockSector}
    (h : Volume s a) (hx : x ∈ s.spare) (cnt : Nat) (hcnt : cnt * 36 < 2 ^ 31) :
    ∃ s' ok, s.Does (dirCreate x cnt) ok s' ∧ (ok = true →
      (∃ g, Volume s' (Function.update a x (some ⟨g, true⟩)) ∧
        Folder g x (List.replicate (cnt - 1) none)) ∧
      (∀ p, ¬ s'.Holds p x) ∧ s'.live = x :: s.live ∧ s'.spare = s.spare.erase x) ∧
      (0 < cnt → RoomFor s.st.freeMap (cnt * 36 : Nat) → ok = true) := by
  have hx0 := (h.spare_fresh hx).1
  obtain ⟨s₁, hb₁, hholds₁, ⟨-, hcreate, hvol₁, hlive₁, hspare₁, -⟩ | ⟨hroom,
      hcreate, -⟩⟩ :=
    h.create hx (cnt * dirEntrySize : Nat) (by simp only [dirEntrySize]; omega) true
  · -- the new inode is opened
    have hclosed : ∀ p, ¬ s₁.Holds p x := fun p hp => (h.spare_fresh hx).2.2.1 p ((hholds₁ p x).1 hp)
    obtain ⟨s₂, hopen, hvol₂, hb₂, hholds₂, hlive₂, hspare₂, -⟩ :=
      hvol₁.openInode (by rw [hlive₁]; simp) hclosed
    obtain ⟨s₃, hdir, hstands₃⟩ := Volume.dirOpen (s := s₂) s₁.st.openInodes.next
    have hvol₃ := hstands₃.volume hvol₂
    have hp₃ : s₃.Holds s₁.st.openInodes.next x :=
      (hstands₃.holds _ _).2 ((hholds₂ _ _).2 (.inr ⟨rfl, rfl⟩))
    -- the parent's entry
    have hbytes := DirEntry.length_toBytes ⟨x, [], true⟩
    obtain ⟨s₄, k, hwrite, hb₄, hholds₄, hlive₄, hspare₄, -, hres⟩ :=
      hvol₃.writeAt hp₃ hx0 (Function.update_self ..)
      (DirEntry.toBytes ⟨x, [], true⟩) 0 (by intro hnil; rw [hnil] at hbytes; cases hbytes)
    rw [Function.update_idem] at hres
    have hd₄ : s₄.st.dirs.get s₂.st.dirs.next = some ⟨s₁.st.openInodes.next, 36, 1⟩ := by
      rw [hb₄.dirs, hstands₃.get, if_pos rfl]
    have hp₄ := (hholds₄ _ _).2 hp₃
    obtain ⟨a', hvol₄, hfolder⟩ : ∃ a', Volume s₄ a' ∧ (k = dirEntrySize → ∃ g,
        a' = Function.update a x (some ⟨g, true⟩) ∧ Folder g x (List.replicate (cnt - 1) none)) := by
      rcases hres with ⟨-, -, hvol⟩ | ⟨-, hk, hvol⟩
      · exact ⟨_, hvol, fun _ =>
          ⟨_, rfl, by rw [Int.toNat_natCast, Nat.mul_comm]; exact Folder.new cnt⟩⟩
      · exact ⟨_, hvol, fun hn => by rw [hk] at hn; cases hn⟩
    obtain ⟨s₅, hclose, hvol₅, hshuts⟩ := OpenDir.close_last hvol₄ hd₄ hp₄ hx0 rfl
    have hexec : s.Does (MyShell.Fs.dirCreate x cnt) (decide (k = dirEntrySize)) s₅ := by
      refine hcreate.bind ?_
      simp only [Bool.not_true, Bool.false_eq_true, if_false]
      refine hopen.bind (hdir.bind ((Does.pure s₃ s₂.st.dirs.next).bind ?_))
      refine Does.bind (?_ : s₃.Does _ s₁.st.openInodes.next s₃) (hwrite.bind (hclose.bind (.pure _ _)))
      simp [Does, dirGetInode, exec_derefDir, hstands₃.get]
    refine ⟨s₅, _, hexec, fun hok => ?_, fun hpos _ => ?_⟩
    rotate_left
    · refine decide_eq_true ((hres.resolve_right fun hno => hno.1 ?_).2.1)
      refine hvol₃.room_of_le hx0 (.inr ⟨_, hp₃⟩) (Function.update_self ..) (by omega) ?_
      rw [hbytes, Growable.length_zeros, Int.toNat_natCast]
      simp only [dirEntrySize]
      omega
    obtain ⟨g, rfl, hg⟩ := hfolder (of_decide_eq_true hok)
    refine ⟨⟨g, hvol₅, hg⟩, fun p hp => ?_, ?_, ?_⟩
    · obtain ⟨hp, hne⟩ := (hshuts.holds p x).1 hp
      rw [hholds₄, hstands₃.holds, hholds₂] at hp
      rcases hp with hp | ⟨rfl, -⟩
      · exact hclosed p hp
      · exact hne rfl
    · rw [hshuts.live, hlive₄, hstands₃.live, hlive₂, hlive₁]
    · rw [hshuts.spare, hspare₄, hstands₃.spare, hspare₂, hspare₁]
  · exact ⟨s₁, false, hcreate.bind (.pure _ _), fun hno => (by cases hno),
      fun _ hroom' => absurd hroom' hroom⟩

/-! ## The runs -/

/-- A directory is created on the sector and opened. -/
def newDir (sector : BlockSector) (entryCnt : Nat) : FsM (Option Ptr) := do
  if ← dirCreate sector entryCnt then dirOpen (some (← inodeOpen sector)) else pure none

/-- The calls about the directory, each with its answer. -/
inductive DirCall where
  | add (name : CString) (sector : BlockSector) (ok : Bool)
  | remove (name : CString) (ok : Bool)

def DirCall.apply (m : CString → Option BlockSector) : DirCall → CString → Option BlockSector
  | .add name sector ok => if ok then Function.update m name (some sector) else m
  | .remove name ok => if ok then Function.update m name none else m

/-- The finite map that the calls make. -/
def bindings (cs : List DirCall) : CString → Option BlockSector := cs.foldl DirCall.apply fun _ => none

/-- The calls `cs` on a new directory lead to the state. `fresh` are the inodes
created for files that have no name yet. -/
inductive DirRun (x : BlockSector) (d : Ptr) : List DirCall → Session → List BlockSector → Prop
  | new {calls s cnt st v} (hr : Run calls s) (hx : x ∈ s.spare) (hcnt : cnt * 36 < 2 ^ 31)
      (h : (newDir x cnt).exec s.st s.image = some (some d, st, v)) :
      DirRun x d [] ⟨st, v, x :: s.live, s.spare.erase x⟩ []
  | allocate {cs s fresh r st v} (hr : DirRun x d cs s fresh)
      (h : (withFreeMap fun file => freeMapAllocate file 1).exec s.st s.image = some (r, st, v)) :
      DirRun x d cs ⟨st, v, s.live, r.toList ++ s.spare⟩ fresh
  | create {cs s fresh y length ok st v} (hr : DirRun x d cs s fresh) (hy : y ∈ s.spare)
      (hlen : length < 2 ^ 31)
      (h : (inodeCreate y length false).exec s.st s.image = some (ok, st, v)) :
      DirRun x d cs ⟨st, v, if ok then y :: s.live else s.live, if ok then s.spare.erase y else s.spare⟩
        (if ok then y :: fresh else fresh)
  | add {cs s fresh name y ok st v} (hr : DirRun x d cs s fresh) (hy : y ∈ fresh) (h0 : 0 ∉ name)
      (h : (dirAdd d name y false).exec s.st s.image = some (ok, st, v)) :
      DirRun x d (cs ++ [.add name y ok]) ⟨st, v, s.live, s.spare⟩ (if ok then fresh.erase y else fresh)
  | remove {cs s fresh name ok st v} (hr : DirRun x d cs s fresh)
      (h : (dirRemove d name).exec s.st s.image = some (ok, st, v)) :
      DirRun x d (cs ++ [.remove name ok]) ⟨st, v, s.live.diff (bindings cs name).toList, s.spare⟩ fresh

theorem bindings_append (cs : List DirCall) (c : DirCall) :
    bindings (cs ++ [c]) = c.apply (bindings cs) := by
  rw [bindings, List.foldl_append]
  rfl

/-! ## The invariant -/

/-- The directory's table binds names to files of their own, and the fresh
inodes are files that it does not bind. -/
structure DirState (s : Session) (d : Ptr) (x : BlockSector) (m : CString → Option BlockSector)
    (fresh : List BlockSector) (a : BlockSector → Option Node) (T : Table) : Prop where
  vol : Volume s a
  dir : ∃ dir g, OpenDir s a d dir x x g T
  distinct : SlotMap.Distinct T
  lookup : ∀ name, SlotMap.lookup T name = m name
  nodup : (T.reduceOption.map Prod.snd ++ fresh).Nodup
  files : ∀ y ∈ T.reduceOption.map Prod.snd ++ fresh, y ∈ s.live ∧ y ≠ freeMapSector ∧ y ≠ x ∧
    ∃ f, a y = some ⟨f, false⟩

namespace DirState

variable {s : Session} {d : Ptr} {x y : BlockSector} {m : CString → Option BlockSector}
  {fresh : List BlockSector} {a : BlockSector → Option Node} {T : Table} {name : CString}

theorem new {calls : List Call} (hr : Run calls s) (hx : x ∈ s.spare) {cnt : Nat}
    (hcnt : cnt * 36 < 2 ^ 31) {st : FsState} {v : Image}
    (h : (newDir x cnt).exec s.st s.image = some (some d, st, v)) :
    ∃ a, DirState ⟨st, v, x :: s.live, s.spare.erase x⟩ d x (fun _ => none) [] a
      (List.replicate (cnt - 1) none) := by
  obtain ⟨q, fm, C, hinv⟩ := hr.inv
  have hvol : Volume s fun _ => none := ⟨⟨q, fm, C, hinv⟩, fun _ _ _ _ hn => by cases hn⟩
  have hx0 := (hvol.spare_fresh hx).1
  obtain ⟨s₁, ok, hcreate, hok, -⟩ := hvol.dirCreate hx cnt hcnt
  cases ok with
  | false =>
    have hnone : s.Does (newDir x cnt) none s₁ := hcreate.bind (.pure _ _)
    rw [Does, h] at hnone
    cases hnone
  | true =>
    obtain ⟨⟨g, hvol₁, hg⟩, hclosed, hlive, hspare⟩ := hok rfl
    obtain ⟨s₂, hopen, hvol₂, hb₂, hholds₂, hlive₂, hspare₂, -⟩ :=
      hvol₁.openInode (by rw [hlive]; simp) hclosed
    obtain ⟨s₃, hdir, hstands⟩ := Volume.dirOpen (s := s₂) s₁.st.openInodes.next
    have hdoes : s.Does (newDir x cnt) (some s₂.st.dirs.next) s₃ := hcreate.bind (hopen.bind hdir)
    rw [Does, h] at hdoes
    obtain ⟨rfl, rfl, rfl⟩ : d = s₂.st.dirs.next ∧ st = s₃.st ∧ v = s₃.image := by
      simpa using hdoes
    have hs₃ : (⟨s₃.st, s₃.image, x :: s.live, s.spare.erase x⟩ : Session) = s₃ := by
      rw [← hspare, ← hspare₂, ← hstands.spare, ← hlive, ← hlive₂, ← hstands.live]
    rw [hs₃]
    have hno : (List.replicate (cnt - 1) (none : Option (CString × BlockSector))).reduceOption = [] :=
      List.reduceOption_replicate_none
    refine ⟨_, hstands.volume hvol₂,
      ⟨⟨s₁.st.openInodes.next, 36, 1⟩, g, ?_, ?_, hx0, Function.update_self .., hg⟩, ?_, ?_, ?_, ?_⟩
    · rw [hstands.get, if_pos rfl]
    · exact (hstands.holds _ _).2 ((hholds₂ _ _).2 (.inr ⟨rfl, rfl⟩))
    · simp [SlotMap.Distinct, hno]
    · simp [SlotMap.lookup, hno]
    · simp [hno]
    · simp [hno]

/-- Nothing about the directory changes. -/
theorem next (h : DirState s d x m fresh a T) {s' : Session} {a' : BlockSector → Option Node}
    {fresh' : List BlockSector} (hvol : Volume s' a') (hb : s.Beside s')
    (hholds : ∀ p z, s'.Holds p z ↔ s.Holds p z) (hx : a' x = a x)
    (hnodup : (T.reduceOption.map Prod.snd ++ fresh').Nodup)
    (hfiles : ∀ y ∈ T.reduceOption.map Prod.snd ++ fresh', y ∈ s'.live ∧ y ≠ freeMapSector ∧ y ≠ x ∧
      ∃ f, a' y = some ⟨f, false⟩) : DirState s' d x m fresh' a' T := by
  obtain ⟨dir, g, hd⟩ := h.dir
  exact ⟨hvol, ⟨dir, g, hd.beside hb ((hholds _ _).2 hd.holds) (hx.trans hd.node) hd.folder⟩,
    h.distinct, h.lookup, hnodup, hfiles⟩

theorem allocate (h : DirState s d x m fresh a T) :
    ∃ s' r, s.Does (withFreeMap fun file => freeMapAllocate file 1) r s' ∧ DirState s' d x m fresh a T ∧
      s'.live = s.live ∧ s'.spare = r.toList ++ s.spare := by
  rcases h.vol.allocate with ⟨-, hnone⟩ | ⟨y, s', hsome, hvol, hb, hholds, hlive, hspare, -⟩
  · exact ⟨s, none, hnone, h, rfl, rfl⟩
  · exact ⟨s', some y, hsome, h.next hvol hb hholds rfl h.nodup (by rw [hlive]; exact h.files),
      hlive, hspare⟩

theorem create (h : DirState s d x m fresh a T) (hy : y ∈ s.spare) (length : Int)
    (hlen : length < 2 ^ 31) : ∃ s' ok a', s.Does (inodeCreate y length false) ok s' ∧
      DirState s' d x m (if ok then y :: fresh else fresh) a' T ∧
      s'.live = (if ok then y :: s.live else s.live) ∧
      (s'.spare = if ok then s.spare.erase y else s.spare) ∧
      (Volume.RoomFor s.st.freeMap length → ok = true) := by
  obtain ⟨hy0, hylive, hyopen, -⟩ := h.vol.spare_fresh hy
  obtain ⟨s', hb, hholds, ⟨-, hdoes, hvol, hlive, hspare, -⟩ | ⟨hroom, hdoes, hvol, hlive,
      hspare⟩⟩ :=
    h.vol.create hy length hlen false
  · have hyx : y ≠ x := by
      rintro rfl
      obtain ⟨dir, g, hd⟩ := h.dir
      exact hyopen _ hd.holds
    have hynew : y ∉ T.reduceOption.map Prod.snd ++ fresh := fun hmem => hylive (h.files y hmem).1
    refine ⟨s', true, _, hdoes, h.next hvol hb hholds (Function.update_of_ne (Ne.symm hyx) ..) ?_
      fun z hz => ?_, hlive, hspare, fun _ => rfl⟩
    · exact (List.perm_middle.nodup_iff).2 (List.nodup_cons.2 ⟨hynew, h.nodup⟩)
    · rcases List.mem_cons.1 (List.perm_middle.mem_iff.1 hz) with rfl | hold
      · exact ⟨by rw [hlive]; simp, hy0, hyx, _, Function.update_self ..⟩
      · have hzy : z ≠ y := by
          rintro rfl
          exact hynew hold
        obtain ⟨hlive', hz0, hzx, f, hf⟩ := h.files z hold
        exact ⟨by rw [hlive]; exact List.mem_cons_of_mem _ hlive', hz0, hzx,
          f, by rw [Function.update_of_ne hzy]; exact hf⟩
  · exact ⟨s', false, a, hdoes, h.next hvol hb hholds rfl h.nodup (by rw [hlive]; exact h.files),
      hlive, hspare, fun hr => absurd hr hroom⟩

theorem add (h : DirState s d x m fresh a T) (hy : y ∈ fresh) (h0 : 0 ∉ name) :
    ∃ s' ok a', s.Does (dirAdd d name y false) ok s' ∧ (ok = true ↔ Addable s x T name) ∧
      DirState s' d x (DirCall.apply m (.add name y ok)) (if ok then fresh.erase y else fresh) a'
        (if ok then SlotMap.put T (name, y) else T) ∧
      s'.live = s.live ∧ s'.spare = s.spare := by
  obtain ⟨dir, g, hd⟩ := h.dir
  obtain ⟨s', ok, hdoes, hb, hholds, hlive, hspare, -,
      ⟨hadd, rfl, g', hvol, hd'⟩ | ⟨hadd, rfl, hvol, hd'⟩⟩ :=
    hd.add h.vol (y := y) h0
  · have hnew := hadd.2.2.1
    have hperm : ((SlotMap.put T (name, y)).reduceOption.map Prod.snd ++ fresh.erase y).Perm
        (T.reduceOption.map Prod.snd ++ fresh) := by
      refine (((SlotMap.put_perm (l := T) (x := (name, y))).map Prod.snd).append_right _).trans ?_
      rw [List.map_cons, List.cons_append]
      exact List.perm_middle.symm.trans ((List.perm_cons_erase hy).symm.append_left _)
    refine ⟨s', true, _, hdoes, ⟨fun _ => hadd, fun _ => rfl⟩,
      ⟨hvol, ⟨dir, g', hd'⟩, h.distinct.put hnew, fun k => ?_,
      hperm.nodup_iff.2 h.nodup, fun z hz => ?_⟩, hlive, hspare⟩
    · rw [if_pos rfl, SlotMap.lookup_put h.distinct hnew, DirCall.apply, if_pos rfl,
        Function.update_apply, h.lookup]
    · obtain ⟨hlive', hz0, hzx, f, hf⟩ := h.files z (hperm.mem_iff.1 hz)
      exact ⟨by rw [hlive]; exact hlive', hz0, hzx, f, by rw [Function.update_of_ne hzx]; exact hf⟩
  · refine ⟨s', false, a, hdoes, ⟨fun hf => (by cases hf), fun hno => absurd hno hadd⟩,
      ⟨hvol, ⟨dir, g, hd'⟩, h.distinct, h.lookup, h.nodup, fun z hz => ?_⟩, hlive, hspare⟩
    rw [hlive]
    exact h.files z hz

theorem remove (h : DirState s d x m fresh a T) (name : CString) :
    ∃ s' ok a' T', s.Does (dirRemove d name) ok s' ∧ (ok = true ↔ m name ≠ none) ∧
      DirState s' d x (DirCall.apply m (.remove name ok)) fresh a' T' ∧
      s'.live = s.live.diff (m name).toList ∧ s'.spare = s.spare ∧
      (ok = true → ∃ i y, T[i]? = some (some (name, y)) ∧ T' = T.set i none) := by
  obtain ⟨dir, g, hd⟩ := h.dir
  have hfiles : ∀ y, some (name, y) ∈ T → y ∈ s.live ∧ y ≠ freeMapSector ∧ y ≠ x ∧
      ∃ f, a y = some ⟨f, false⟩ :=
    fun y hy => h.files y (List.mem_append_left _
      (List.mem_map.2 ⟨_, List.reduceOption_mem_iff.2 hy, rfl⟩))
  obtain ⟨s', ok, hdoes, hb, hspare, -, ⟨rfl, i, y, g', hi, hlive, hholds, hvol, hd'⟩ | ⟨hno, rfl,
      rfl⟩⟩ := hd.remove h.vol hfiles
  · have hname : m name = some y := by rw [← h.lookup]; exact SlotMap.lookup_of_slot h.distinct hi
    have hperm : (T.reduceOption.map Prod.snd ++ fresh).Perm
        (y :: ((T.set i none).reduceOption.map Prod.snd ++ fresh)) :=
      ((SlotMap.free_perm hi).map Prod.snd).append_right fresh
    have hnodup := List.nodup_cons.1 (hperm.nodup_iff.1 h.nodup)
    refine ⟨s', true, _, _, hdoes, ⟨fun _ => by simp [hname], fun _ => rfl⟩,
      ⟨hvol, ⟨dir, g', hd'⟩, h.distinct.free hi,
      fun k => ?_, hnodup.2, fun z hz => ?_⟩, by
        rw [hlive, hname]; simp, hspare, fun _ => ⟨i, y, hi, rfl⟩⟩
    · rw [SlotMap.lookup_free h.distinct hi, DirCall.apply, if_pos rfl, Function.update_apply, h.lookup]
    · obtain ⟨hlive', hz0, hzx, f, hf⟩ := h.files z (hperm.mem_iff.2 (List.mem_cons_of_mem _ hz))
      have hzy : z ≠ y := by
        rintro rfl
        exact hnodup.1 hz
      exact ⟨by rw [hlive]; exact (List.mem_erase_of_ne hzy).2 hlive', hz0, hzx, f,
        by rw [Function.update_of_ne hzx]; exact hf⟩
  · have hname : m name = none := by rw [← h.lookup]; exact hno
    exact ⟨s', false, a, T, hdoes, ⟨fun hf => (by cases hf), fun hs => absurd hname hs⟩,
      h, by rw [hname]; simp, rfl, fun hf => by cases hf⟩

end DirState

theorem DirRun.state {x : BlockSector} {d : Ptr} {cs : List DirCall} {s : Session}
    {fresh : List BlockSector} (h : DirRun x d cs s fresh) :
    ∃ a T, DirState s d x (bindings cs) fresh a T := by
  induction h with
  | new hr hx hcnt hexec =>
    obtain ⟨a, h⟩ := DirState.new hr hx hcnt hexec
    exact ⟨a, _, h⟩
  | allocate _ hexec ih =>
    obtain ⟨a, T, ih⟩ := ih
    obtain ⟨s', r, hdoes, h', hlive, hspare⟩ := ih.allocate
    rw [Does, hexec] at hdoes
    obtain ⟨rfl, rfl, rfl⟩ : _ = r ∧ _ = s'.st ∧ _ = s'.image := by simpa using hdoes
    rw [← hlive, ← hspare]
    exact ⟨a, T, h'⟩
  | create _ hy hlen hexec ih =>
    obtain ⟨a, T, ih⟩ := ih
    obtain ⟨s', ok, a', hdoes, h', hlive, hspare, -⟩ := ih.create hy _ hlen
    rw [Does, hexec] at hdoes
    obtain ⟨rfl, rfl, rfl⟩ : _ = ok ∧ _ = s'.st ∧ _ = s'.image := by simpa using hdoes
    rw [← hlive, ← hspare]
    exact ⟨a', T, h'⟩
  | add _ hy h0 hexec ih =>
    obtain ⟨a, T, ih⟩ := ih
    obtain ⟨s', ok, a', hdoes, -, h', hlive, hspare⟩ := ih.add hy h0
    rw [Does, hexec] at hdoes
    obtain ⟨rfl, rfl, rfl⟩ : _ = ok ∧ _ = s'.st ∧ _ = s'.image := by simpa using hdoes
    rw [← hlive, ← hspare, bindings_append]
    exact ⟨a', _, h'⟩
  | remove _ hexec ih =>
    obtain ⟨a, T, ih⟩ := ih
    obtain ⟨s', ok, a', T', hdoes, -, h', hlive, hspare, -⟩ := ih.remove _
    rw [Does, hexec] at hdoes
    obtain ⟨rfl, rfl, rfl⟩ : _ = ok ∧ _ = s'.st ∧ _ = s'.image := by simpa using hdoes
    rw [← hlive, ← hspare, bindings_append]
    exact ⟨a', T', h'⟩

/-! ## The directory is the map -/

/-- An entry of the directory is not in use: its last byte is 0. -/
def Session.FreeEntry (s : Session) (x : BlockSector) : Prop :=
  ∃ k : Nat, 36 * (k + 1) ≤ (s.data x).length ∧ (s.data x).content s.image (36 * k + 35) = 0

/-- There is an unused entry, or room for one more. -/
def Session.EntryRoom (s : Session) (x : BlockSector) : Prop :=
  s.FreeEntry x ∨ s.Room x ((s.data x).length.toNat + dirEntrySize)

theorem inUse_entry {g : Growable UInt8} {k : Nat} {e : DirEntry} (h : (entries g)[k]? = some e) :
    e.inUse = (g.get (36 * k + 35) != 0) := by
  rw [getElem?_entries] at h
  split at h
  · have hlast : (g.read 36 (36 * k)).getD 35 0 = g.get (36 * k + 35) := by
      rw [List.getD_eq_getElem _ _ (by rw [Growable.length_read]; omega), Growable.getElem_read]
    cases h
    rw [← hlast]
    rfl
  · cases h

theorem OpenDir.room_iff {s : Session} {a : BlockSector → Option Node} {d : Ptr} {dir : Dir}
    {x parent : BlockSector} {g : Growable UInt8} {T : Table} (hd : OpenDir s a d dir x parent g T)
    (h : Volume s a) : s.Room x (36 * (T.freeSlot + 2)) ↔ s.EntryRoom x := by
  obtain ⟨⟨hlen, hcontent⟩, -⟩ := h.shows x _ hd.sector (.inr ⟨_, hd.holds⟩) hd.node
  have hglen := hd.folder.length
  obtain ⟨e₀, es, hes, huse, -, hT⟩ := hd.folder.entries
  simp only at hlen hcontent
  cases hfree : T.findIdx? Option.isNone with
  | some i =>
    obtain ⟨hi, hnone, -⟩ := List.findIdx?_eq_some_iff_getElem.1 hfree
    rw [Table.freeSlot, hfree, Option.getD_some]
    refine iff_of_true (h.room_of_le hd.sector (.inr ⟨_, hd.holds⟩) hd.node (by omega)
      (by simp only; omega)) (.inl ⟨i + 1, ?_⟩)
    have hi' : i < es.length := by rw [← hT, List.length_map] at hi; exact hi
    have hentry : (entries g)[i + 1]? = some es[i] := by
      rw [hes, List.getElem?_cons_succ, List.getElem?_eq_getElem hi']
    have hslot : es[i].inUse = false := by
      simp only [← hT, List.getElem_map] at hnone
      cases huse' : es[i].inUse with
      | false => rfl
      | true =>
        rw [DirEntry.slot, huse'] at hnone
        cases hnone
    have hzero := inUse_entry hentry
    rw [hslot] at hzero
    exact ⟨by omega, by rw [hcontent]; simpa using hzero.symm⟩
  | none =>
    rw [Table.freeSlot, hfree, Option.getD_none]
    have hend : 36 * (T.length + 2) = (s.data x).length.toNat + dirEntrySize := by
      simp only [dirEntrySize]; omega
    rw [hend]
    refine ⟨.inr, fun hroom => hroom.resolve_left ?_⟩
    rintro ⟨k, hk, hzero⟩
    rw [hcontent] at hzero
    obtain ⟨e, he⟩ : ∃ e, (entries g)[k]? = some e := ⟨_, by rw [getElem?_entries, if_pos (by omega)]⟩
    have hused := inUse_entry he
    rw [hzero] at hused
    rw [List.findIdx?_eq_none_iff, ← hT] at hfree
    cases k with
    | zero =>
      rw [hes, List.getElem?_cons_zero] at he
      cases he
      rw [huse] at hused
      cases hused
    | succ k =>
      rw [hes, List.getElem?_cons_succ] at he
      have hbad := hfree e.slot (List.mem_map.2 ⟨e, List.mem_of_getElem? he, rfl⟩)
      rw [DirEntry.slot, show e.inUse = false from hused] at hbad
      cases hbad

/-- **A directory is a finite map.** After any calls on a directory that was
just created: `dir_add` succeeds exactly when the name has 1 to 30 bytes, is
not there, and there is an unused entry or room for one more; `dir_remove`
succeeds exactly when the name is there; `lookup` finds exactly the names that
are there, each with the sector of its latest successful `dir_add`; and a pass
over the directory, opened afresh, lists each name that is there once. -/
theorem directory_map {x : BlockSector} {d : Ptr} {cs : List DirCall} {s : Session}
    {fresh : List BlockSector} (h : DirRun x d cs s fresh) :
    (∀ name y, 0 ∉ name → y ∈ fresh → ∃ ok st v, (dirAdd d name y false).exec s.st s.image =
      some (ok, st, v) ∧
      (ok = true ↔ (1 ≤ name.length ∧ name.length ≤ 30 ∧ bindings cs name = none) ∧
        s.EntryRoom x)) ∧
    (∀ name, ∃ ok st v, (dirRemove d name).exec s.st s.image = some (ok, st, v) ∧
      (ok = true ↔ bindings cs name ≠ none)) ∧
    (∀ name, ∃ e ofs, (lookup d name).exec s.st s.image = some ((e, ofs), s.st, s.image) ∧
      e.map DirEntry.inodeSector = bindings cs name) ∧
    ∃ names st v,
      (do readdirAll (← Cmd.ofOption (← dirOpen (some (← inodeOpen x)))) : FsM (List CString)).exec
      s.st s.image =
        some (names, st, v) ∧ names.Nodup ∧ ∀ name, name ∈ names ↔ bindings cs name ≠ none := by
  obtain ⟨a, T, hstate⟩ := h.state
  obtain ⟨dir, g, hd⟩ := hstate.dir
  refine ⟨fun name y h0 hy => ?add, fun name => ?remove, fun name => ?lookup, ?list⟩
  case add =>
    obtain ⟨s', ok, -, hdoes, hok, -⟩ := hstate.add hy h0
    refine ⟨ok, s'.st, s'.image, hdoes, ?_⟩
    rw [hok, Addable, hd.room_iff hstate.vol, hstate.lookup, and_assoc, and_assoc]
    rfl
  case remove =>
    obtain ⟨s', ok, -, -, hdoes, hok, -⟩ := hstate.remove name
    exact ⟨ok, s'.st, s'.image, hdoes, hok⟩
  case lookup =>
    rw [← hstate.lookup]
    by_cases hname : SlotMap.lookup T name = none
    · exact ⟨none, _, hd.lookup_none hstate.vol hname, by rw [hname]; rfl⟩
    · obtain ⟨i, e, y, -, hi, he, hdoes⟩ := hd.lookup_some hstate.vol hname
      refine ⟨some e, _, hdoes, ?_⟩
      rw [SlotMap.lookup_of_slot hstate.distinct hi]
      unfold DirEntry.slot at he
      split at he
      · exact congrArg some (congrArg Prod.snd (Option.some.inj he))
      · cases he
  case list =>
    obtain ⟨s₁, hopen, hstands⟩ := Volume.dirOpen (s := s) dir.inode
    have hd₁ : OpenDir s₁ a s.st.dirs.next ⟨dir.inode, 36, 1⟩ x x g T :=
      ⟨by rw [hstands.get, if_pos rfl], (hstands.holds _ _).2 hd.holds, hd.sector, hd.node, hd.folder⟩
    obtain ⟨s₂, hpass, -⟩ := hd₁.readdirAll (hstands.volume hstate.vol) rfl
    refine ⟨T.names, s₂.st, s₂.image, ?_, hstate.distinct, fun name => ?_⟩
    · exact (hstate.vol.open_hit hd.holds).bind (hopen.bind ((Does.pure s₁ _).bind hpass))
    · rw [← hstate.lookup, Table.names, List.mem_map, Ne, SlotMap.lookup_eq_none]
      simp

/-! ## A run -/

namespace DirRun

variable {x y : BlockSector} {d : Ptr} {cs : List DirCall} {s : Session} {fresh : List BlockSector}
  {a : BlockSector → Option Node} {T : Table}

theorem exists_create (hr : DirRun x d cs s fresh) (h : DirState s d x (bindings cs) fresh a T)
    (hy : y ∈ s.spare) :
    ∃ s' a', DirRun x d cs s' (y :: fresh) ∧ DirState s' d x (bindings cs) (y :: fresh) a' T ∧
      s'.spare = s.spare.erase y := by
  obtain ⟨s', ok, a', hdoes, h', hlive, hspare, hok⟩ := h.create hy 0 (by decide)
  have hcost : sectorCost (bytesToSectors (0 : Int).toNat) = 0 := by decide
  obtain rfl := hok ⟨Int.le_refl 0, by decide, by rw [hcost]; exact Nat.zero_le _⟩
  have hrun := hr.create hy (by decide) hdoes
  rw [← hlive, ← hspare] at hrun
  exact ⟨s', a', hrun, h', hspare⟩

/-- A new name in a free slot. -/
theorem exists_add (hr : DirRun x d cs s fresh) (h : DirState s d x (bindings cs) fresh a T)
    (hy : y ∈ fresh) (name : CString) (h0 : 0 ∉ name) (hpos : 0 < name.length)
    (hmax : name.length ≤ nameMax) (hfree : T.freeSlot < T.length)
    (hnew : bindings cs name = none) :
    ∃ s' a', DirRun x d (cs ++ [.add name y true]) s' (fresh.erase y) ∧
      DirState s' d x (bindings (cs ++ [.add name y true])) (fresh.erase y) a'
      (SlotMap.put T (name, y)) := by
  obtain ⟨dir, g, hd⟩ := h.dir
  obtain ⟨s', ok, a', hdoes, hok, h', hlive, hspare⟩ := h.add hy h0
  have hlen := hd.folder.length
  have hroom : s.Room x (36 * (T.freeSlot + 2)) :=
    h.vol.room_of_le hd.sector (.inr ⟨_, hd.holds⟩) hd.node (by omega) (by simp only; omega)
  obtain rfl := hok.2 ⟨hpos, hmax, by rw [h.lookup]; exact hnew, hroom⟩
  have hrun := hr.add hy h0 hdoes
  rw [← hlive, ← hspare] at hrun
  rw [bindings_append]
  exact ⟨s', a', hrun, h'⟩

theorem exists_remove (hr : DirRun x d cs s fresh) (h : DirState s d x (bindings cs) fresh a T)
    (name : CString) (hname : bindings cs name ≠ none) :
    ∃ s' a' i y, DirRun x d (cs ++ [.remove name true]) s' fresh ∧ T[i]? = some (some (name, y)) ∧
      DirState s' d x (bindings (cs ++ [.remove name true])) fresh a' (T.set i none) := by
  obtain ⟨s', ok, a', T', hdoes, hok, h', hlive, hspare, hslot⟩ := h.remove name
  obtain rfl := hok.2 hname
  obtain ⟨i, y, hi, rfl⟩ := hslot rfl
  have hrun := hr.remove hdoes
  rw [← hlive, ← hspare] at hrun
  rw [bindings_append]
  exact ⟨s', a', i, y, hrun, hi, h'⟩

end DirRun

theorem erase_perm {y : BlockSector} {l l' : List BlockSector} (h : l.Perm (y :: l')) :
    (l.erase y).Perm l' :=
  (List.cons_perm_iff_perm_erase.1 h.symm).2.symm

/-- On a device of 200 sectors: a directory of three entries, and three files without a name. -/
theorem exists_dirRun : ∃ x d s a y₁ y₂ y₃, DirRun x d [] s [y₃, y₂, y₁] ∧
    DirState s d x (bindings []) [y₃, y₂, y₁] a [none, none] := by
  obtain ⟨s₀, hr₀, -, -, hfree₀⟩ := exists_format (n := 200) (by decide) fun _ => Sector.zeros
  have hcost : sectorCost (bytesToSectors (byteCnt ((200 : BlockSector).toNat - 1))) = 1 := by decide
  have h200 : (200 : BlockSector).toNat = 200 := rfl
  obtain ⟨q, fm, C, h₀⟩ := hr₀.inv
  obtain ⟨x, s₁, hs₁, hspare₁, hfree₁, -⟩ := h₀.exists_allocate (by omega)
  have hr₁ := hr₀.step hs₁
  obtain ⟨q, fm, C, h₁⟩ := hr₁.inv
  obtain ⟨y₁, s₂, hs₂, hspare₂, hfree₂, -⟩ := h₁.exists_allocate (by omega)
  have hr₂ := hr₁.step hs₂
  obtain ⟨q, fm, C, h₂⟩ := hr₂.inv
  obtain ⟨y₂, s₃, hs₃, hspare₃, hfree₃, -⟩ := h₂.exists_allocate (by omega)
  have hr₃ := hr₂.step hs₃
  obtain ⟨q, fm, C, h₃⟩ := hr₃.inv
  obtain ⟨y₃, s₄, hs₄, hspare₄, hfree₄, -⟩ := h₃.exists_allocate (by omega)
  have hr₄ := hr₃.step hs₄
  obtain ⟨q, fm, C, h₄⟩ := hr₄.inv
  have hspare : s₄.spare.Perm (x :: y₁ :: y₂ :: y₃ :: s₀.spare) := by
    rw [hspare₄, hspare₃, hspare₂, hspare₁]
    exact (List.reverse_perm [x, y₁, y₂, y₃]).append_right s₀.spare
  have hx : x ∈ s₄.spare := hspare.mem_iff.2 (by simp)
  have hvol : Volume s₄ fun _ => none := ⟨⟨q, fm, C, h₄⟩, fun _ _ _ _ hn => by cases hn⟩
  obtain ⟨s₅, ok, hcreate, hdir, hok⟩ := hvol.dirCreate hx 3 (by decide)
  have h3 : bytesToSectors (((3 * 36 : Nat) : Int).toNat) = 1 ∧ sectorCost 1 = 1 := by decide
  obtain rfl := hok (by decide) ⟨by decide, by rw [h3.1]; decide, by rw [h3.1, h3.2]; omega⟩
  obtain ⟨⟨g, hvol₅, -⟩, hclosed, hlive, -⟩ := hdir rfl
  obtain ⟨s₆, hopen, -⟩ := hvol₅.openInode (by rw [hlive]; simp) hclosed
  obtain ⟨s₇, hdirOpen, -⟩ := Volume.dirOpen (s := s₆) s₅.st.openInodes.next
  have hnew : s₄.Does (newDir x 3) _ s₇ := hcreate.bind (hopen.bind hdirOpen)
  obtain ⟨a, hstate⟩ := DirState.new hr₄ hx (by decide) hnew
  have hspare := erase_perm hspare
  obtain ⟨s₈, a₈, hrun₈, hstate₈, hspare₈⟩ :=
    (DirRun.new hr₄ hx (by decide) hnew).exists_create hstate (y := y₁) (hspare.mem_iff.2 (by simp))
  have hspare := erase_perm hspare
  rw [← hspare₈] at hspare
  obtain ⟨s₉, a₉, hrun₉, hstate₉, hspare₉⟩ :=
    hrun₈.exists_create hstate₈ (y := y₂) (hspare.mem_iff.2 (by simp))
  have hspare := erase_perm hspare
  rw [← hspare₉] at hspare
  obtain ⟨s₁₀, a₁₀, hrun₁₀, hstate₁₀, -⟩ :=
    hrun₉.exists_create hstate₉ (y := y₃) (hspare.mem_iff.2 (by simp))
  exact ⟨x, _, s₁₀, a₁₀, y₁, y₂, y₃, hrun₁₀, hstate₁₀⟩

/-- Two names fill a directory of three entries; one of them is removed, and the
next one takes its entry. -/
theorem directory_map_reuse : ∃ x d s y₁ y₂ y₃ fresh,
    DirRun x d [.add [97] y₁ true, .add [98] y₂ true, .remove [97] true, .add [99] y₃ true] s fresh ∧
    (s.data x).length = 108 ∧ (∃ st v, (dirRemove d [97]).exec s.st s.image = some (false, st, v)) ∧
    (∃ e ofs, (lookup d [99]).exec s.st s.image = some ((some e, ofs), s.st, s.image) ∧
      e.inodeSector = y₃) ∧
    ∃ names st v,
      (do readdirAll (← Cmd.ofOption (← dirOpen (some (← inodeOpen x)))) : FsM (List CString)).exec
      s.st s.image =
        some (names, st, v) ∧ names.Perm [[98], [99]] := by
  obtain ⟨x, d, s₀, a₀, y₁, y₂, y₃, hrun₀, hstate₀⟩ := exists_dirRun
  have hfresh := List.reverse_perm [y₁, y₂, y₃]
  obtain ⟨s₁, a₁, hrun₁, hstate₁⟩ :=
    hrun₀.exists_add hstate₀ (y := y₁) (by simp) [97] (by decide) (by decide)
    (by decide) (by decide) rfl
  have hfresh := erase_perm hfresh
  obtain ⟨s₂, a₂, hrun₂, hstate₂⟩ :=
    hrun₁.exists_add hstate₁ (y := y₂) (hfresh.mem_iff.2 (by simp)) [98]
    (by decide) (by decide) (by decide) Nat.one_lt_two rfl
  have hfresh := erase_perm hfresh
  obtain ⟨s₃, a₃, i, y, hrun₃, hi, hstate₃⟩ :=
    hrun₂.exists_remove hstate₂ [97] (fun hno => by cases hno)
  obtain rfl : i = 0 := by
    have hi : [some (([97] : CString), y₁), some ([98], y₂)][i]? = some (some ([97], y)) := hi
    rcases i with _ | _ | i
    · rfl
    · simp at hi
    · simp at hi
  obtain ⟨s₄, a₄, hrun₄, hstate₄⟩ :=
    hrun₃.exists_add hstate₃ (y := y₃) (hfresh.mem_iff.2 (by simp)) [99]
    (by decide) (by decide) (by decide) Nat.zero_lt_two rfl
  have hrun : DirRun x d [.add [97] y₁ true, .add [98] y₂ true, .remove [97] true,
      .add [99] y₃ true] s₄ _ := hrun₄
  obtain ⟨dir, g, hd⟩ := hstate₄.dir
  obtain ⟨-, hremove, hlookup, names, st, v, hlist, hnodup, hnames⟩ := directory_map hrun
  have hbindings : ∀ name, bindings [.add [97] y₁ true, .add [98] y₂ true, .remove [97] true,
    .add [99] y₃ true] name =
      if name = [99] then some y₃ else if name = [98] then some y₂ else none := fun name => by
    simp only [bindings, List.foldl_cons, List.foldl_nil, DirCall.apply, if_true, Function.update_apply]
    by_cases ha : name = [97]
    · simp [ha]
    · simp only [ha, if_false]
  refine ⟨x, d, s₄, y₁, y₂, y₃, _, hrun, ?_, ?_, ?_, names, st, v, hlist, ?_⟩
  · rw [(hstate₄.vol.shows x _ hd.sector (.inr ⟨_, hd.holds⟩) hd.node).1.length]
    exact congrArg _ hd.folder.length
  · obtain ⟨ok, st, v, hexec, hok⟩ := hremove [97]
    cases ok with
    | true => exact absurd (hbindings [97]) (hok.1 rfl)
    | false => exact ⟨st, v, hexec⟩
  · obtain ⟨e, ofs, hexec, he⟩ := hlookup [99]
    obtain ⟨e', rfl, he'⟩ := Option.map_eq_some_iff.1 (he.trans (hbindings [99]))
    exact ⟨e', ofs, hexec, he'⟩
  · refine (List.perm_ext_iff_of_nodup hnodup (by decide)).2 fun name => ?_
    rw [hnames, hbindings]
    by_cases hc : name = [99]
    · simp [hc]
    · simp [hc]

end MyShell.Fs

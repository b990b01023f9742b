/-
A full pass over the root directory: `dir_open_root`, `dir_readdir` until it
answers false, `dir_close`. It finds each entry in use once, if it begins where
the global directory is closed (`Settled.fsutilLs`), and that holds after any
commands that leave no handle on the directory behind.
-/
import MyShell.Fs.Balance

namespace MyShell.Fs

open Storage

/-! ## The root directory -/

/-- The inode on sector `x`, as `inode_open` finds it. -/
def FsState.inodeData (st : FsState) (v : Image) (x : BlockSector) : InodeDisk :=
  match st.openInodes.cells.find? (fun c => c.2.sector = x) with
  | some c => c.2.data
  | none => .ofSector (v x)

/-- The entries of a directory's file as `inode_read_at` returns them, but for
the parent's. -/
def InodeDisk.slots (v : Image) (d : InodeDisk) : List DirEntry :=
  (List.range (d.length.toNat / dirEntrySize - 1)).map fun k =>
    .ofBytes ((List.range dirEntrySize).map fun j => d.found v (dirEntrySize * (k + 1) + j))

/-- The entries of the root directory that are in use. -/
def FsState.entriesInUse (st : FsState) (v : Image) : List DirEntry :=
  ((st.inodeData v rootDirSector).slots v).filter DirEntry.inUse

section pass

variable {st : FsState} {v : Image} {p d : Ptr} {i : Inode} {dir : Dir} {k : Nat} {x : BlockSector}

theorem names_slots (l : List DirEntry) :
    Table.names (l.map DirEntry.slot) = (l.filter DirEntry.inUse).map DirEntry.cname := by
  induction l with
  | nil => rfl
  | cons e l ih =>
    cases huse : e.inUse with
    | true =>
      rw [List.map_cons, DirEntry.slot, huse, if_pos rfl, List.filter_cons_of_pos huse,
        List.map_cons, ← ih, Table.names, List.reduceOption_cons_of_some]
      rfl
    | false =>
      rw [List.map_cons, DirEntry.slot, huse, if_neg (by decide),
        List.filter_cons_of_neg (by simp [huse]), ← ih, Table.names, List.reduceOption_cons_of_none]
      rfl

theorem exec_readEntry (hi : st.openInodes.get p = some i) (k : Nat) :
    (readEntry p (36 * (k + 1) : Nat)).exec st v = some ((i.data.slots v)[k]?, st, v) := by
  have hread : (inodeReadAt p (dirEntrySize : Nat) (36 * (k + 1) : Nat)).exec st v =
      some ((List.range (min 36 (i.data.length - (36 * (k + 1) : Nat))).toNat).map
        fun j => i.data.found v (36 * (k + 1) + j), st, v) := by
    rw [inodeReadAt, Cmd.exec_bind, exec_derefInode, hi]
    exact exec_readLoop_found i.data v st _ _ _ (Nat.le_refl _)
  rw [readEntry, Cmd.exec_bind, hread, Option.bind_some, Cmd.exec_pure, InodeDisk.slots,
    List.getElem?_map]
  simp only [dirEntrySize, List.length_map, List.length_range]
  by_cases hlt : 36 * (k + 2) ≤ i.data.length.toNat
  · rw [if_pos (by omega), List.getElem?_range (by omega), Option.map_some,
      show (min 36 (i.data.length - (36 * (k + 1) : Nat))).toNat = 36 by omega]
  · rw [if_neg (by omega), List.getElem?_eq_none (by rw [List.length_range]; omega)]
    rfl

/-- The inode is found, and nothing else changes. -/
theorem exec_inodeOpen_found (x : BlockSector) (st : FsState) (v : Image) : ∃ p m i,
    (inodeOpen x).exec st v = some (p, st.setInodes m, v) ∧ m.get p = some i ∧ p < m.next ∧
    i.sector = x ∧
      i.data = st.inodeData v x ∧ ∀ q j, m.get q = some j → st.openInodes.get q = some j ∨ q = p := by
  rw [exec_inodeOpen, FsState.inodeData]
  cases hfind : st.openInodes.cells.find? fun c => c.2.sector = x with
  | some c =>
    have hmem := List.mem_of_find?_eq_some hfind
    have hx : c.2.sector = x := by simpa using List.find?_some hfind
    exact ⟨c.1, st.openInodes, c.2, rfl, Heap.get_of_mem hmem, st.openInodes.fresh c hmem, hx, rfl,
      fun q j hq => .inl hq⟩
  | none =>
    refine ⟨_, _, ⟨x, 1, false, 0, .ofSector (v x)⟩, rfl, ?_, Nat.lt_succ_self _, rfl, rfl,
      fun q j hq => ?_⟩
    · rw [Heap.get_alloc, if_pos rfl]
    · rw [Heap.get_alloc] at hq
      split at hq
      · next heq => exact .inr heq
      · exact .inl hq

theorem exec_dirFuel (hi : st.openInodes.get p = some i) :
    (dirFuel p).exec st v = some (i.data.length.toNat / 36 + 2, st, v) := by
  simp [dirFuel, inodeLength, exec_derefInode, hi, dirEntrySize]

/-- The loop of `dir_readdir`, from slot `k` on. -/
theorem exec_readdirLoop {T : Table} (hT : (i.data.slots v).map DirEntry.slot = T)
    (hi : st.openInodes.get dir.inode = some i) (hd : st.dirs.get d = some dir)
    (hpos : dir.pos = (36 * (k + 1) : Nat)) (hk : k ≤ T.length) (fuel : Nat)
    (hfuel : T.length < k + fuel) :
    ∃ m, (readdirLoop d fuel).exec st v = some ((Table.nextName (T.drop k) k).1, st.setDirs m, v) ∧
      ∀ q, m.get q =
        if q = d then some { dir with pos := (36 * ((Table.nextName (T.drop k) k).2 + 1) : Nat) }
        else st.dirs.get q := by
  induction fuel generalizing st dir k with
  | zero => omega
  | succ fuel ih =>
    have hlen : T.length = (i.data.slots v).length := by rw [← hT, List.length_map]
    have hread := exec_readEntry (v := v) hi k
    rw [← hpos] at hread
    cases hentry : (i.data.slots v)[k]? with
    | none =>
      rw [List.getElem?_eq_none_iff] at hentry
      have hend : T.drop k = [] := List.drop_eq_nil_of_le (by omega)
      have hstop : (readdirLoop d (fuel + 1)).exec st v = some (none, st, v) := by
        rw [List.getElem?_eq_none hentry] at hread
        simp [readdirLoop, exec_derefDir, hd, hread]
      refine ⟨st.dirs, by rw [hend, hstop]; rfl, fun q => ?_⟩
      rw [hend, Table.nextName, ← hpos]
      split
      · next hq => rw [hq, hd]
      · rfl
    | some e =>
      obtain ⟨hlt, rfl⟩ := List.getElem?_eq_some_iff.1 hentry
      have hdrop : T.drop k = ((i.data.slots v)[k]).slot :: T.drop (k + 1) := by
        rw [List.drop_eq_getElem_cons (by omega)]
        congr 1
        simp only [← hT, List.getElem_map]
      have hpos₁ : dir.pos + (dirEntrySize : Nat) = (36 * (k + 1 + 1) : Nat) := by
        rw [hpos]
        simp only [dirEntrySize]
        omega
      -- the handle after this entry
      let st₁ := st.setDirs (st.dirs.modify d
          fun dir => { dir with pos := dir.pos + (dirEntrySize : Nat) })
      have hget (q : Ptr) : st₁.dirs.get q =
          if q = d then some { dir with pos := (36 * (k + 1 + 1) : Nat) } else st.dirs.get q := by
        rw [FsState.setDirs_dirs, Heap.get_modify, hd, Option.map_some, hpos₁]
      have hstep : (readdirLoop d (fuel + 1)).exec st v =
          (if (i.data.slots v)[k].inUse then pure (some (i.data.slots v)[k].cname) else
            readdirLoop d fuel).exec st₁ v := by
        rw [hentry] at hread
        simp [readdirLoop, exec_derefDir, hd, hread, exec_modifyDir, st₁]
      rw [hdrop, hstep]
      cases huse : ((i.data.slots v)[k]).inUse with
      | true =>
        rw [if_pos rfl, show ((i.data.slots v)[k]).slot = some (((i.data.slots v)[k]).cname,
          ((i.data.slots v)[k]).inodeSector) by
          rw [DirEntry.slot, huse]; rfl, Table.nextName]
        exact ⟨st₁.dirs, rfl, hget⟩
      | false =>
        rw [if_neg (by decide), show ((i.data.slots v)[k]).slot =
          none by rw [DirEntry.slot, huse]; rfl, Table.nextName]
        let dir₁ : Dir := { dir with pos := (36 * (k + 1 + 1) : Nat) }
        have hi₁ : st₁.openInodes.get dir₁.inode = some i := hi
        obtain ⟨m, hloop, hm⟩ :=
          ih (k := k + 1) hi₁ ((hget d).trans (if_pos rfl)) rfl (by omega) (by omega)
        refine ⟨m, hloop, fun q => ?_⟩
        rw [hm, hget]
        split <;> rfl

theorem exec_dirReaddir {T : Table} (hT : (i.data.slots v).map DirEntry.slot = T)
    (hi : st.openInodes.get dir.inode = some i) (hd : st.dirs.get d = some dir)
    (hpos : dir.pos = (36 * (k + 1) : Nat)) (hk : k ≤ T.length) :
    ∃ m, (dirReaddir d).exec st v = some ((Table.nextName (T.drop k) k).1, st.setDirs m, v) ∧
      ∀ q, m.get q =
        if q = d then some { dir with pos := (36 * ((Table.nextName (T.drop k) k).2 + 1) : Nat) }
        else st.dirs.get q := by
  have hlen : T.length = i.data.length.toNat / 36 - 1 := by
    rw [← hT, List.length_map, InodeDisk.slots, List.length_map, List.length_range]
  obtain ⟨m, hloop, hm⟩ := exec_readdirLoop hT hi hd hpos hk (i.data.length.toNat / 36 + 2) (by omega)
  refine ⟨m, ?_, hm⟩
  simp only [dirReaddir, Cmd.exec_bind, exec_derefDir, hd, Option.map_some, Option.bind_some,
    exec_dirFuel hi]
  exact hloop

theorem exec_readdirPass {T : Table} (hT : (i.data.slots v).map DirEntry.slot = T)
    (hi : st.openInodes.get dir.inode = some i) (hd : st.dirs.get d = some dir)
    (hpos : dir.pos = (36 * (k + 1) : Nat)) (hk : k ≤ T.length) (fuel : Nat)
    (hfuel : T.length < k + fuel) :
    ∃ m, (readdirPass d fuel).exec st v = some (Table.names (T.drop k), st.setDirs m, v) ∧
      ∀ q, m.get q = if q = d then some { dir with pos := (36 * (T.length + 1) : Nat) } else
        st.dirs.get q := by
  induction fuel generalizing st dir k with
  | zero => omega
  | succ fuel ih =>
    obtain ⟨m, hnext, hm⟩ := exec_dirReaddir hT hi hd hpos hk
    have hdrop := Table.nextName_drop hk
    generalize Table.nextName (T.drop k) k = r at *
    obtain ⟨name, k'⟩ := r
    rw [readdirPass, Cmd.exec_bind, hnext, Option.bind_some]
    cases name with
    | none =>
      obtain ⟨hnil, rfl⟩ := hdrop
      rw [hnil]
      exact ⟨m, rfl, hm⟩
    | some name =>
      obtain ⟨hlt, hle, hnames⟩ := hdrop
      let dir₁ : Dir := { dir with pos := (36 * (k' + 1) : Nat) }
      have hi₁ : (st.setDirs m).openInodes.get dir₁.inode = some i := hi
      obtain ⟨m', hpass, hm'⟩ := ih hi₁ ((hm d).trans (if_pos rfl)) rfl hle (by omega)
      refine ⟨m', ?_, fun q => ?_⟩
      · rw [hnames]
        simp only [Cmd.exec_bind, hpass, Option.bind_some, Cmd.exec_pure]
        rfl
      · rw [hm', FsState.setDirs_dirs, hm]
        split <;> rfl

theorem exec_readdirAll {T : Table} (hT : (i.data.slots v).map DirEntry.slot = T)
    (hi : st.openInodes.get dir.inode = some i) (hd : st.dirs.get d = some dir)
    (hpos : dir.pos = (36 * (k + 1) : Nat)) (hk : k ≤ T.length) :
    ∃ m, (readdirAll d).exec st v = some (Table.names (T.drop k), st.setDirs m, v) ∧
      ∀ q, m.get q = if q = d then some { dir with pos := (36 * (T.length + 1) : Nat) } else
        st.dirs.get q := by
  have hlen : T.length = i.data.length.toNat / 36 - 1 := by
    rw [← hT, List.length_map, InodeDisk.slots, List.length_map, List.length_range]
  obtain ⟨m, hpass, hm⟩ := exec_readdirPass hT hi hd hpos hk (i.data.length.toNat / 36 + 2) (by omega)
  refine ⟨m, ?_, hm⟩
  simp only [readdirAll, Cmd.exec_bind, exec_derefDir, hd, Option.map_some, Option.bind_some,
    exec_dirFuel hi]
  exact hpass

theorem exec_dirClose_once (hd : st.dirs.get d = some dir) (hdir : dir.openCnt = 1)
    (hi : st.openInodes.get dir.inode = some i) (hcnt : i.openCnt = 1)
    (hremoved : i.removed = false) : ∃ st', (dirClose (some d)).exec st v = some ((), st', v) := by
  let st₁ := st.setDirs (st.dirs.modify d fun dir => { dir with openCnt := 0 })
  have hi₁ : st₁.openInodes.get dir.inode = some i := hi
  rw [exec_dirClose_last hd hdir, exec_inodeClose_once hi₁ hcnt hremoved]
  exact ⟨_, rfl⟩

end pass

/-! ## Passes with a body -/

/-- A pass of which each name is worked on: the names that `dir_readdir`
returns, each with what the body makes of it. -/
def fullPass {α : Type} (body : CString → FsM α) : FsM (List (CString × α)) := do
  match ← dirOpenRoot with
  | none => pure []
  | some dir => do
    let visited ← forEachName dir fun name => do return [(name, ← body name)]
    dirClose (some dir)
    pure visited

/-- A round for each of these names, which `dir_readdir` returns in this order,
and its call after the last one. -/
def visitAll {α : Type} (dir : Ptr) (body : CString → FsM α) : List CString → FsM (List (CString × α))
  | [] => do
    let _ ← dirReaddir dir
    pure []
  | name :: names => do
    let _ ← dirReaddir dir
    let a ← body name
    return (name, a) :: (← visitAll dir body names)

/-- A pass that makes a round for each of these names. -/
def passOver {α : Type} (body : CString → FsM α) (names : List CString) : FsM (List (CString × α)) := do
  match ← dirOpenRoot with
  | none => pure []
  | some dir => do
    let visited ← visitAll dir body names
    dirClose (some dir)
    pure visited

section body

variable {α : Type} {w : Watch} {T : Table} {d : Ptr} {k : Nat} {N : Int → Prop}

/-- In the middle of a pass: the directory is read from slot `k` on, and held as
often as `N` says. -/
def Reading (w : Watch) (d : Ptr) (k : Nat) (N : Int → Prop) : FsState → Image → Prop :=
  Still (some w) fun cwd dirs =>
    ∃ n, N n ∧ Level (some (d, ⟨w.inode, (36 * (k + 1) : Nat), n⟩)) cwd dirs

/-- What the loop's body does for a name leaves the pass where it is. -/
def KeepsReading (w : Watch) (d : Ptr) (N : Int → Prop) (m : FsM α) : Prop :=
  ∀ k, m.Ensures (Reading w d k N) fun _ => Reading w d k N

theorem KeepsReading.once {m : FsM α} (hm : ∀ o, Leaves (some w) (Level o) m) :
    KeepsReading w d (· = 1) m := by
  intro k
  refine (hm (some (d, ⟨w.inode, (36 * (k + 1) : Nat), 1⟩))).weaken (fun _ _ h => ?_)
    fun _ _ _ h => h.imp (fun hl => ⟨1, rfl, hl⟩) rfl
  exact h.imp (by rintro ⟨_, rfl, hl⟩; exact hl) rfl

theorem dirReaddir_ensures (hT : (w.data.slots w.image).map DirEntry.slot = T) (hk : k ≤ T.length) :
    (dirReaddir d).Ensures (Reading w d k N) fun name st v =>
      name = (Table.nextName (T.drop k) k).1 ∧ Reading w d (Table.nextName (T.drop k) k).2 N st v := by
  intro st v name st' v' h hexec
  obtain ⟨n, hn, hcwd, hd, hpos⟩ := h.dirs
  obtain ⟨himage, -, hdata⟩ := h.watched w rfl
  cases hi : st.openInodes.get w.inode with
  | none =>
    rw [exec_dirReaddir_stale hd hi] at hexec
    cases hexec
  | some i =>
    have hT' : (i.data.slots v).map DirEntry.slot = T := by rw [hdata i hi, himage, hT]
    obtain ⟨m, hnext, hm⟩ := exec_dirReaddir hT' hi hd rfl hk
    cases hexec.symm.trans hnext
    exact ⟨rfl, h.imp (fun _ => ⟨n, hn, hcwd, (hm d).trans (if_pos rfl), hpos⟩) rfl⟩

theorem exec_forEachNamePass_names {body : CString → FsM α}
    (hT : (w.data.slots w.image).map DirEntry.slot = T)
    (hbody : ∀ name ∈ Table.names (T.drop k), KeepsReading w d N (body name)) (hk : k ≤ T.length)
    (fuel : Nat) (hfuel : T.length < k + fuel) {st : FsState} {v : Image}
    (h : Reading w d k N st v) :
    (forEachNamePass d (fun name => do return [(name, ← body name)]) fuel).exec st v =
      (visitAll d body (Table.names (T.drop k))).exec st v := by
  induction fuel generalizing k st v with
  | zero => omega
  | succ fuel ih =>
    rw [forEachNamePass, Cmd.exec_bind]
    cases hnext : (dirReaddir d).exec st v with
    | none =>
      cases Table.names (T.drop k) with
      | nil => rw [visitAll, Cmd.exec_bind, hnext, Option.bind_none, Option.bind_none]
      | cons name names => rw [visitAll, Cmd.exec_bind, hnext, Option.bind_none, Option.bind_none]
    | some r =>
      obtain ⟨next, st₁, v₁⟩ := r
      obtain ⟨hname, h₁⟩ := dirReaddir_ensures hT hk _ _ _ _ _ h hnext
      have hdrop := Table.nextName_drop hk
      generalize Table.nextName (T.drop k) k = r at *
      obtain ⟨name, k'⟩ := r
      subst hname
      rw [Option.bind_some]
      cases next with
      | none =>
        rw [hdrop.1, visitAll, Cmd.exec_bind, hnext, Option.bind_some]
      | some name =>
        obtain ⟨hlt, hle, hnames⟩ := hdrop
        rw [hnames] at hbody ⊢
        simp only [visitAll, Cmd.exec_bind, hnext, Option.bind_some]
        cases hfirst : (body name).exec st₁ v₁ with
        | none => rfl
        | some r =>
          obtain ⟨a, st₂, v₂⟩ := r
          have h₂ : Reading w d k' N st₂ v₂ := hbody name List.mem_cons_self _ _ _ _ _ _ h₁ hfirst
          have hrest :=
            ih (fun name' hname' => hbody name' (List.mem_cons_of_mem _ hname')) hle (by omega) h₂
          simp only [Option.bind_some, Cmd.exec_pure, hrest]
          rfl

theorem visitAll_ensures {body : CString → FsM α} {names : List CString}
    (hT : (w.data.slots w.image).map DirEntry.slot = T)
    (hbody : ∀ name ∈ names, KeepsReading w d N (body name)) (hk : k ≤ T.length)
    (hnames : Table.names (T.drop k) = names) : (visitAll d body names).Ensures (Reading w d k N)
      fun visited st v => visited.map Prod.fst = names ∧ ∃ k', Reading w d k' N st v := by
  induction names generalizing k with
  | nil => exact (dirReaddir_ensures hT hk).bind fun _ => .pure fun _ _ h => ⟨rfl, _, h.2⟩
  | cons name names ih =>
    have hdrop := Table.nextName_drop hk
    refine (dirReaddir_ensures hT hk).bind fun _ => ?_
    generalize Table.nextName (T.drop k) k = r at *
    obtain ⟨next, k'⟩ := r
    cases next with
    | none => cases hnames.symm.trans hdrop.1
    | some next =>
      obtain ⟨hlt, hle, hdrop⟩ := hdrop
      have hrest : Table.names (T.drop k') = names := (List.cons.inj (hdrop.symm.trans hnames)).2
      refine ((hbody name List.mem_cons_self k').pre fun _ _ h => h.2).bind fun a => ?_
      refine (ih (fun name' hname' => hbody name' (List.mem_cons_of_mem _ hname')) hle hrest).bind
        fun rest => ?_
      exact .pure fun _ _ h => ⟨by rw [List.map_cons, h.1], h.2⟩

end body

/-! ## Between commands -/

/-- The global directory is closed, and each inode in memory is held once and not removed. -/
structure FsState.Settled (st : FsState) : Prop where
  calm : st.Calm
  cwd : st.cwd = none

theorem FsState.Settled.still {st : FsState} (h : st.Settled) (v : Image) :
    Still none (Level none) st v :=
  ⟨h.calm, h.cwd, fun _ hw => by cases hw⟩

theorem Still.settled {K : Option Watch} {st : FsState} {v : Image}
    (h : Still K (Level none) st v) : st.Settled := ⟨h.calm, h.dirs⟩

namespace FsState.Settled

variable {α : Type} {st st' : FsState} {v v' : Image} {N : Int → Prop}

theorem dirOpenRoot (h : st.Settled) (v : Image) :
    ∃ w d st₁, Fs.dirOpenRoot.exec st v = some (some d, st₁, v) ∧
    Reading w d 0 (· = 1) st₁ v ∧ w.data = st.inodeData v rootDirSector ∧ w.image = v ∧
    ∃ i, st₁.openInodes.get w.inode = some i := by
  obtain ⟨p, m, i, hopen, hi, hp, -, hdata, -⟩ := exec_inodeOpen_found rootDirSector st v
  have hcalm := (Steady.inodeOpen rootDirSector _ _ _ _ _ _ (h.still v) hopen).calm
  let st₁ := (((st.setInodes m).setDirs (st.dirs.alloc ⟨p, dirEntrySize, 1⟩)).setCwd
    (some st.dirs.next))
  refine ⟨⟨p, st.inodeData v rootDirSector, v⟩, st.dirs.next, st₁, ?_,
    ⟨hcalm, ⟨1, rfl, rfl, ?_, Int.one_pos⟩, fun w hw => ?_⟩, rfl, rfl, i, hi⟩
  · rw [exec_dirOpenRoot_closed h.cwd, hopen]
    rfl
  · exact (Heap.get_alloc _ _ _).trans (if_pos rfl)
  · cases hw
    refine ⟨rfl, hp, fun j hj => ?_⟩
    obtain rfl : i = j := Option.some.inj (hi.symm.trans hj)
    exact hdata

/-- **A pass** lists the entries in use, each once, and leaves it so. -/
theorem fsutilLs (h : st.Settled) (v : Image) :
    ∃ st', Fs.fsutilLs.exec st v = some (some ((st.entriesInUse v).map DirEntry.cname), st', v) ∧
      st'.Settled := by
  obtain ⟨w, d, st₁, hopen, hr, hdata, himage, i, hi⟩ := h.dirOpenRoot v
  obtain ⟨_, rfl, hcwd, hd, -⟩ := hr.dirs
  have hi' : i.data = st.inodeData v rootDirSector := ((hr.watched w rfl).data i hi).trans hdata
  obtain ⟨m, hread, hm⟩ := exec_readdirAll (v := v) rfl hi hd rfl (Nat.zero_le _)
  rw [List.drop_zero, names_slots, hi'] at hread
  change (readdirAll d).exec st₁ v = some ((st.entriesInUse v).map DirEntry.cname, st₁.setDirs m,
    v) at hread
  obtain ⟨hcnt, hremoved⟩ := hr.calm _ i hi
  obtain ⟨pos, hd'⟩ : ∃ pos, (st₁.setDirs m).dirs.get d = some ⟨w.inode, pos, 1⟩ :=
    ⟨_, (hm d).trans (if_pos rfl)⟩
  obtain ⟨st', hclose⟩ := exec_dirClose_once (v := v) hd' rfl hi hcnt hremoved
  have hwithin : Still (some w) (Within none (some d)) (st₁.setDirs m) v :=
    hr.imp (fun _ => ⟨d, _, rfl, ⟨hcwd, hd', Int.one_pos⟩, rfl⟩) rfl
  refine ⟨st', ?_, (dirClose_within _ _ _ _ _ hwithin hclose).settled⟩
  simp [Fs.fsutilLs, hopen, hread, hclose]

/-- **A pass with a body** makes a round for each entry in use, each once. -/
theorem fullPass (h : st.Settled) {body : CString → FsM α} (hN : N 1)
    (hbody : ∀ e ∈ st.entriesInUse v, ∀ w d, KeepsReading w d N (body e.cname)) :
    (Fs.fullPass body).exec st v = (passOver body ((st.entriesInUse v).map DirEntry.cname)).exec st v ∧
      ∀ visited st' v', (Fs.fullPass body).exec st v = some (visited, st', v') →
        visited.map Prod.fst = (st.entriesInUse v).map DirEntry.cname ∧
        ((∀ n, N n → n = 1) → st'.Settled) := by
  obtain ⟨w, d, st₁, hopen, hr, hdata, himage, i, hi⟩ := h.dirOpenRoot v
  have hnames : Table.names (((w.data.slots w.image).map DirEntry.slot).drop 0) =
      (st.entriesInUse v).map DirEntry.cname := by
    rw [List.drop_zero, names_slots, hdata, himage]
    rfl
  have hlen : ((i.data.slots v).map DirEntry.slot).length = i.data.length.toNat / 36 - 1 := by
    rw [List.length_map, InodeDisk.slots, List.length_map, List.length_range]
  have hi' : i.data = w.data := (hr.watched w rfl).data i hi
  rw [hi', ← himage] at hlen
  obtain ⟨_, rfl, hcwd, hd, hpos⟩ := hr.dirs
  have hr' : Reading w d 0 N st₁ v := hr.imp (fun _ => ⟨1, hN, hcwd, hd, hpos⟩) rfl
  have hbody' (name : CString) (hname : name ∈ (st.entriesInUse v).map DirEntry.cname) :
      KeepsReading w d N (body name) := by
    obtain ⟨e, he, rfl⟩ := List.mem_map.1 hname
    exact hbody e he w d
  have hloop : (forEachName d fun name => do return [(name, ← body name)]).exec st₁ v =
      (visitAll d body ((st.entriesInUse v).map DirEntry.cname)).exec st₁ v := by
    have hrounds :=
      exec_forEachNamePass_names (k := 0) rfl (by rw [hnames]; exact hbody') (Nat.zero_le _)
      (w.data.length.toNat / 36 + 2) (by omega) hr'
    rw [← hnames, ← hrounds]
    simp only [forEachName, Cmd.exec_bind, exec_derefDir, hd, Option.map_some, Option.bind_some,
      exec_dirFuel hi, hi']
  have heq : (Fs.fullPass body).exec st v = (passOver body
      ((st.entriesInUse v).map DirEntry.cname)).exec st v := by
    rw [Fs.fullPass, passOver, Cmd.exec_bind, Cmd.exec_bind, hopen, Option.bind_some, Option.bind_some]
    simp only [Cmd.exec_bind, hloop]
  refine ⟨heq, fun visited st' v' hexec => ?_⟩
  rw [heq, passOver, Cmd.exec_bind, hopen, Option.bind_some, Cmd.exec_bind,
    Option.bind_eq_some_iff] at hexec
  obtain ⟨⟨visited', st₂, v₂⟩, hpass, hexec⟩ := hexec
  obtain ⟨hvisited, k', hr₂⟩ := visitAll_ensures rfl hbody' (Nat.zero_le _) hnames _ _ _ _ _ hr' hpass
  rw [Cmd.exec_bind, Option.bind_eq_some_iff] at hexec
  obtain ⟨⟨_, st₃, v₃⟩, hclose, hexec⟩ := hexec
  cases hexec
  refine ⟨hvisited, fun hone => ?_⟩
  refine (dirClose_within _ _ _ _ _ (hr₂.imp ?_ rfl) hclose).settled
  rintro ⟨n, hn, hl⟩
  exact ⟨d, _, rfl, hl, hone n hn⟩

end FsState.Settled

/-- The loop over an open directory, with the names that it visits. -/
theorem exec_forEachNamePass {α : Type} (d : Ptr) (body : CString → FsM (List α)) (fuel : Nat)
    (st : FsState) (v : Image) : (forEachNamePass d body fuel).exec st v =
      ((forEachNamePass d (fun name => do return [(name, ← body name)]) fuel).exec st v).map fun r =>
        (r.1.flatMap Prod.snd, r.2) := by
  induction fuel generalizing st v with
  | zero => rfl
  | succ fuel ih =>
    simp only [forEachNamePass, Cmd.exec_bind]
    cases (dirReaddir d).exec st v with
    | none => rfl
    | some r =>
      obtain ⟨name, st₁, v₁⟩ := r
      cases name with
      | none => rfl
      | some name =>
        simp only [Option.bind_some, Cmd.exec_bind, Cmd.exec_pure]
        cases (body name).exec st₁ v₁ with
        | none => rfl
        | some r =>
          obtain ⟨printed, st₂, v₂⟩ := r
          simp only [Option.bind_some, ih]
          cases (forEachNamePass d (fun name => do return [(name, ← body name)]) fuel).exec st₂ v₂ with
          | none => rfl
          | some r => rfl

theorem exec_fullPass {α β : Type} {body : CString → FsM (List α)} {x b : β} {f : List α → β}
    {st st' : FsState} {v v' : Image} (hexec : (do
      match ← dirOpenRoot with
      | none => pure x
      | some dir => do
        let printed ← forEachName dir body
        dirClose (some dir)
        pure (f printed) : FsM β).exec st v = some (b, st', v')) (hcwd : st.cwd = none) :
    ∃ visited, (fullPass body).exec st v = some (visited, st', v') ∧
      b = f (visited.flatMap Prod.snd) := by
  rw [Cmd.exec_bind, Option.bind_eq_some_iff] at hexec
  obtain ⟨⟨dir, st₁, v₁⟩, hopen, hexec⟩ := hexec
  cases dir with
  | none =>
    rw [exec_dirOpenRoot_closed hcwd, Option.map_eq_some_iff] at hopen
    obtain ⟨r, -, hopen⟩ := hopen
    cases hopen
  | some d =>
    simp only [forEachName, Cmd.exec_bind, Option.bind_eq_some_iff] at hexec
    obtain ⟨⟨printed, st₂, v₂⟩, ⟨⟨dir, st₃, v₃⟩, hd, ⟨fuel, st₄, v₄⟩, hfuel,
      hpass⟩, ⟨_, st₅, v₅⟩,
        hclose, hexec⟩ := hexec
    rw [exec_forEachNamePass, Option.map_eq_some_iff] at hpass
    obtain ⟨⟨visited, st₆, v₆⟩, hpass, heq⟩ := hpass
    cases heq
    rw [Cmd.exec_pure] at hexec
    cases hexec
    refine ⟨visited, ?_, rfl⟩
    rw [fullPass, Cmd.exec_bind, hopen, Option.bind_some]
    simp only [forEachName, Cmd.exec_bind, hd, Option.bind_some, hfuel, hpass, hclose, Cmd.exec_pure]

end MyShell.Fs

/-
A directory is a finite map from names to sectors: behind the entry for its
parent its file is a table of slots (`Folder`), and `lookup`, `dir_add`,
`dir_remove` and `dir_readdir` work on that table.
-/
import MyShell.Fs.Entries
import MyShell.Lib.SlotMap

namespace MyShell.Fs

open Storage Session

/-- The slots of a directory. -/
abbrev Table := List (Option (CString × BlockSector))

/-- A directory's file: the parent's entry, then the table. -/
structure Folder (g : Growable UInt8) (parent : BlockSector) (T : Table) : Prop where
  length : g.length = 36 * (T.length + 1)
  entries : ∃ e es, entries g = e :: es ∧ e.inUse = true ∧ e.inodeSector = parent ∧
    es.map DirEntry.slot = T

/-- The slot for a new name. -/
def Table.freeSlot (T : Table) : Nat := (T.findIdx? Option.isNone).getD T.length

theorem Table.freeSlot_lt {T : Table} (h : none ∈ T) : T.freeSlot < T.length := by
  unfold Table.freeSlot
  cases hidx : T.findIdx? Option.isNone with
  | none => simpa using List.findIdx?_eq_none_iff.1 hidx none h
  | some i => exact (List.findIdx?_eq_some_iff_getElem.1 hidx).1

theorem firstEntry_eq (want : DirEntry → Bool) (es : List DirEntry) (k : Nat) : firstEntry want es k =
    match es.findIdx? want with
    | some i => (es[i]?, k + i)
    | none => (none, k + es.length) := by
  induction es generalizing k with
  | nil => rfl
  | cons e es ih =>
    rw [firstEntry, List.findIdx?_cons]
    cases want e with
    | true => rfl
    | false =>
      simp only [ih, Bool.false_eq_true, if_false]
      cases es.findIdx? want with
      | none => simp [Nat.add_assoc, Nat.add_comm 1]
      | some i => simp [Nat.add_assoc, Nat.add_comm 1]

theorem findIdx?_slot (es : List DirEntry) (f : Option (CString × BlockSector) → Bool) :
    (es.map DirEntry.slot).findIdx? f = es.findIdx? fun e => f e.slot := by
  rw [List.findIdx?_map]
  rfl

namespace Folder

variable {g : Growable UInt8} {parent y : BlockSector} {T : Table} {name : CString} {i : Nat}
  {e : DirEntry}

theorem write_slot (h : Folder g parent T) (hi : i < T.length) (e : DirEntry) :
    Folder (g.write (36 * (i + 1)) e.toBytes) parent (T.set i (DirEntry.ofBytes e.toBytes).slot) := by
  obtain ⟨e₀, es, hes, huse, hpar, rfl⟩ := h.entries
  have hlen := h.length
  refine ⟨?_, e₀, es.set i (.ofBytes e.toBytes), ?_, huse, hpar, List.map_set⟩
  · rw [Growable.length_write, DirEntry.length_toBytes, List.length_set]
    omega
  · rw [entries_set (by omega) ⟨_, hlen⟩, hes, List.set_cons_succ]

theorem write_end (h : Folder g parent T) (e : DirEntry) :
    Folder (g.write (36 * (T.length + 1)) e.toBytes) parent
    (T ++ [(DirEntry.ofBytes e.toBytes).slot]) := by
  obtain ⟨e₀, es, hes, huse, hpar, rfl⟩ := h.entries
  have hlen := h.length
  refine ⟨?_, e₀, es ++ [.ofBytes e.toBytes], ?_, huse, hpar, List.map_append⟩
  · rw [Growable.length_write, DirEntry.length_toBytes, List.length_append]
    simp only [List.length_singleton]
    omega
  · rw [entries_append hlen, hes, List.cons_append]

/-- A new entry goes to the first free slot, or else to the end. -/
theorem put (h : Folder g parent T) (hlen : name.length ≤ nameMax) (h0 : 0 ∉ name) :
    Folder (g.write (36 * (T.freeSlot + 1)) (DirEntry.toBytes ⟨y, name, true⟩)) parent
    (SlotMap.put T (name, y)) := by
  unfold SlotMap.put Table.freeSlot
  rw [← DirEntry.slot_ofBytes (y := y) hlen h0]
  cases hfree : T.findIdx? Option.isNone with
  | none => exact h.write_end _
  | some i =>
    obtain ⟨hi, -, -⟩ := List.findIdx?_eq_some_iff_getElem.1 hfree
    exact h.write_slot hi _

theorem free (h : Folder g parent T) (hi : i < T.length) (e : DirEntry) :
    Folder (g.write (36 * (i + 1)) { e with inUse := false }.toBytes) parent (T.set i none) := by
  rw [← DirEntry.slot_unused e]
  exact h.write_slot hi _

/-! ## What the loops find -/

theorem firstEntry_name (h : Folder g parent T) (name : CString) :
    firstEntry (fun e => e.inUse && e.cname = name) ((MyShell.Fs.entries g).drop 1) 1 =
      match SlotMap.slotOf T name with
      | some i => ((MyShell.Fs.entries g)[i + 1]?, i + 1)
      | none => (none, T.length + 1) := by
  obtain ⟨e₀, es, hes, -, -, rfl⟩ := h.entries
  have hwant : (fun e : DirEntry => e.inUse && decide (e.cname = name)) = fun e =>
    e.slot.any fun x => x.1 = name := by
    funext e
    cases huse : e.inUse with
    | false => simp [DirEntry.slot, huse]
    | true => simp [DirEntry.slot, huse]
  rw [hes, SlotMap.slotOf, findIdx?_slot, firstEntry_eq, List.drop_one, List.tail_cons, hwant]
  cases es.findIdx? _ with
  | none => simp [Nat.add_comm]
  | some i => simp [Nat.add_comm]

theorem firstEntry_free (h : Folder g parent T) :
    (firstEntry (fun e => !e.inUse) (MyShell.Fs.entries g) 0).2 = T.freeSlot + 1 := by
  obtain ⟨e₀, es, hes, huse, -, rfl⟩ := h.entries
  have hwant : (fun e : DirEntry => !e.inUse) = fun e => e.slot.isNone := by
    funext e
    cases huse : e.inUse with
    | false => simp [DirEntry.slot, huse]
    | true => simp [DirEntry.slot, huse]
  rw [Table.freeSlot, findIdx?_slot, hes, firstEntry_eq, List.findIdx?_cons, huse, hwant]
  simp only [Bool.not_true, Bool.false_eq_true, if_false]
  cases es.findIdx? _ with
  | none => simp
  | some i => simp

end Folder

/-! ## One directory -/

/-- The directory on sector `x` is open under the handle `d`, and its file `g` holds the table. -/
structure OpenDir (s : Session) (a : BlockSector → Option Node) (d : Ptr) (dir : Dir)
    (x parent : BlockSector) (g : Growable UInt8) (T : Table) : Prop where
  handle : s.st.dirs.get d = some dir
  holds : s.Holds dir.inode x
  sector : x ≠ freeMapSector
  node : a x = some ⟨g, true⟩
  folder : Folder g parent T

/-- A new entry with this name can be made. -/
def Addable (s : Session) (x : BlockSector) (T : Table) (name : CString) : Prop :=
  0 < name.length ∧ name.length ≤ nameMax ∧ SlotMap.lookup T name = none ∧
    s.Room x (36 * (T.freeSlot + 2))

namespace OpenDir

variable {s : Session} {a : BlockSector → Option Node} {d : Ptr} {dir : Dir} {x parent y : BlockSector}
  {g : Growable UInt8} {T : Table} {name : CString}
/-- The handle after a call that is not about handles. -/
theorem beside {s' : Session} {a' : BlockSector → Option Node} {g' : Growable UInt8} {T' : Table}
    (hd : OpenDir s a d dir x parent g T) (hb : s.Beside s') (hp : s'.Holds dir.inode x)
    (ha : a' x = some ⟨g', true⟩) (hg : Folder g' parent T') : OpenDir s' a' d dir x parent g' T' :=
  ⟨by rw [hb.dirs]; exact hd.handle, hp, hd.sector, ha, hg⟩

section dir
variable (hd : OpenDir s a d dir x parent g T)
include hd

theorem derefDir : s.Does (derefDir d) dir s := by simp [Does, exec_derefDir, hd.handle]

theorem getInode : s.Does (dirGetInode d) dir.inode s := hd.derefDir.bind (.pure _ _)

theorem length_entries : (entries g).length = T.length + 1 := by
  rw [MyShell.Fs.length_entries, hd.folder.length, Nat.mul_div_cancel_left _ (by decide)]

variable (h : Volume s a)
include h

theorem fuel : s.Does (dirFuel dir.inode) (T.length + 3) s := by
  have := h.dirFuel hd.holds hd.sector hd.node
  rwa [hd.folder.length, Nat.mul_div_cancel_left _ (by decide)] at this

theorem scan (want : DirEntry → Bool) {k : Nat} (hk : k ≤ T.length + 1) :
    s.Does (scanEntries dir.inode want (T.length + 3) (36 * k : Nat))
      ((firstEntry want ((entries g).drop k) k).1,
        ((36 * (firstEntry want ((entries g).drop k) k).2 : Nat) : Int)) s := by
  have hlen : (entries (Node.mk g true).bytes).length = T.length + 1 := hd.length_entries
  exact h.scanEntries hd.holds hd.sector hd.node want (by rw [hlen]; exact hk) (by rw [hlen]; omega)

/-- **Lookup** finds the slot of the name. -/
theorem lookup (name : CString) : ∃ r, s.Does (lookup d name) r s ∧
    match SlotMap.slotOf T name with
    | some i => ∃ e, r = (some e, ((36 * (i + 1) : Nat) : Int)) ∧ T[i]? = some e.slot
    | none => r = (none, ((36 * (T.length + 1) : Nat) : Int)) := by
  have hscan := hd.scan h (fun e => e.inUse && e.cname = name) (k := 1) (by omega)
  rw [hd.folder.firstEntry_name] at hscan
  refine ⟨_, hd.derefDir.bind ((hd.fuel h).bind hscan), ?_⟩
  cases hslot : SlotMap.slotOf T name with
  | none => rfl
  | some i =>
    obtain ⟨y, hy⟩ := SlotMap.slotOf_eq_some hslot
    have hi := (List.getElem?_eq_some_iff.1 hy).1
    obtain ⟨e₀, es, hes, -, -, hT⟩ := hd.folder.entries
    have hget : (entries g)[i + 1]? = es[i]? := by rw [hes, List.getElem?_cons_succ]
    have hlt : i < es.length := by rw [← hT, List.length_map] at hi; exact hi
    refine ⟨es[i], ?_, ?_⟩
    · simp only [hget, List.getElem?_eq_getElem hlt]
    · rw [← hT, List.getElem?_map, List.getElem?_eq_getElem hlt, Option.map_some]

theorem lookup_some (hname : SlotMap.lookup T name ≠ none) : ∃ i e y, SlotMap.slotOf T name = some i ∧
    T[i]? = some (some (name, y)) ∧ e.slot = some (name, y) ∧
    s.Does (MyShell.Fs.lookup d name) (some e, ((36 * (i + 1) : Nat) : Int)) s := by
  obtain ⟨r, hdoes, hr⟩ := hd.lookup h name
  cases hslot : SlotMap.slotOf T name with
  | none => exact absurd (SlotMap.slotOf_eq_none.1 hslot) hname
  | some i =>
    rw [hslot] at hr
    obtain ⟨e, rfl, he⟩ := hr
    obtain ⟨y, hy⟩ := SlotMap.slotOf_eq_some hslot
    exact ⟨i, e, y, rfl, hy, by rw [hy] at he; exact (Option.some.inj he).symm, hdoes⟩

theorem lookup_none (hname : SlotMap.lookup T name = none) :
    s.Does (MyShell.Fs.lookup d name) (none, ((36 * (T.length + 1) : Nat) : Int)) s := by
  obtain ⟨r, hdoes, hr⟩ := hd.lookup h name
  rw [SlotMap.slotOf_eq_none.2 hname] at hr
  rwa [hr] at hdoes

/-- `dir_add` of a name that can be entered: it writes to the free slot, or else to the end. -/
theorem dirAdd_write (hlen : name ≠ [] ∧ name.length ≤ nameMax)
    (hname : SlotMap.lookup T name = none) {s' : Session} {k : Int}
    (hwrite : s.Does (inodeWriteAt dir.inode (DirEntry.toBytes ⟨y, name, true⟩)
      (36 * (T.freeSlot + 1) : Nat)) k s') :
    s.Does (dirAdd d name y false) (decide (k = dirEntrySize)) s' := by
  have hscan := hd.scan h (fun e => !e.inUse) (k := 0) (by omega)
  rw [List.drop_zero, hd.folder.firstEntry_free] at hscan
  rw [dirAdd, if_neg (by rw [not_or, not_lt]; exact hlen)]
  refine (hd.lookup_none h hname).bind ?_
  simp only [Option.isSome_none, Bool.false_eq_true, if_false]
  refine (Does.pure s true).bind ?_
  exact hd.getInode.bind ((hd.fuel h).bind (hscan.bind (hwrite.bind (.pure _ _))))

theorem dirAdd_bound (hlen : name ≠ [] ∧ name.length ≤ nameMax) (hname : SlotMap.lookup T name ≠ none) :
    s.Does (dirAdd d name y false) false s := by
  obtain ⟨i, e, z, -, -, -, hdoes⟩ := hd.lookup_some h hname
  rw [dirAdd, if_neg (by rw [not_or, not_lt]; exact hlen)]
  exact hdoes.bind (.pure _ _)

end dir

/-- **`dir_add`** of a file. -/
theorem add (hd : OpenDir s a d dir x parent g T) (h : Volume s a) (h0 : 0 ∉ name) :
    ∃ s' ok, s.Does (dirAdd d name y false) ok s' ∧ s.Beside s' ∧
      (∀ p z, s'.Holds p z ↔ s.Holds p z) ∧
      s'.live = s.live ∧ s'.spare = s.spare ∧ (none ∈ T → s'.st.freeMap = s.st.freeMap) ∧
      (Addable s x T name ∧ ok = true ∧
          (∃ g', Volume s' (Function.update a x (some ⟨g', true⟩)) ∧
            OpenDir s' (Function.update a x (some ⟨g', true⟩)) d dir x parent g'
            (SlotMap.put T (name, y))) ∨
        ¬ Addable s x T name ∧ ok = false ∧ Volume s' a ∧ OpenDir s' a d dir x parent g T) := by
  by_cases hlen : name = [] ∨ nameMax < name.length
  · refine ⟨s, false, ?_, .refl s, fun _ _ => Iff.rfl, rfl, rfl, fun _ => rfl,
      .inr ⟨fun hadd => ?_, rfl, h, hd⟩⟩
    · rw [dirAdd, if_pos hlen]
      exact .pure _ _
    · rcases hlen with rfl | hlen
      · exact absurd hadd.1 (by decide)
      · exact absurd hadd.2.1 (by omega)
  simp only [not_or, not_lt] at hlen
  by_cases hname : SlotMap.lookup T name = none
  · have hglen := hd.folder.length
    have hbytes := DirEntry.length_toBytes ⟨y, name, true⟩
    obtain ⟨s', k, hdoes, hbeside, hholds, hlive, hspare, hsame, hres⟩ :=
      h.writeAt hd.holds hd.sector hd.node
      (DirEntry.toBytes ⟨y, name, true⟩) (36 * (T.freeSlot + 1))
      (by intro hnil; rw [hnil] at hbytes; cases hbytes)
    rw [hbytes, show 36 * (T.freeSlot + 1) + 36 = 36 * (T.freeSlot + 2) by omega] at hres
    refine ⟨s', _, hd.dirAdd_write h hlen hname hdoes, hbeside, hholds, hlive, hspare,
      fun hslot => hsame ?_, ?_⟩
    · have hlt := Table.freeSlot_lt hslot
      rw [hbytes]
      simp only
      omega
    rcases hres with ⟨hroom, rfl, hvol⟩ | ⟨hroom, rfl, hvol⟩
    · exact .inl ⟨⟨List.length_pos_iff.2 hlen.1, hlen.2, hname, hroom⟩, rfl, _, hvol,
        hd.beside hbeside ((hholds _ _).2 hd.holds) (Function.update_self ..) (hd.folder.put hlen.2 h0)⟩
    · exact .inr ⟨fun hadd => hroom hadd.2.2.2, rfl, hvol,
        hd.beside hbeside ((hholds _ _).2 hd.holds) hd.node hd.folder⟩
  · exact ⟨s, false, hd.dirAdd_bound h hlen hname, .refl s, fun _ _ => Iff.rfl, rfl, rfl, fun _ => rfl,
      .inr ⟨fun hadd => hname hadd.2.2.1, rfl, h, hd⟩⟩

/-- **`dir_remove`** of a file. Its inode is closed then, whoever had it open. -/
theorem remove (hd : OpenDir s a d dir x parent g T) (h : Volume s a) {name : CString}
    (hfiles : ∀ y, some (name, y) ∈ T → y ∈ s.live ∧ y ≠ freeMapSector ∧ y ≠ x ∧
      ∃ f, a y = some ⟨f, false⟩) :
    ∃ s' ok, s.Does (dirRemove d name) ok s' ∧ s.Beside s' ∧ s'.spare = s.spare ∧
      freeCount s.st.freeMap ≤ freeCount s'.st.freeMap ∧
      (ok = true ∧ (∃ i y g', T[i]? = some (some (name, y)) ∧ s'.live = s.live.erase y ∧
          (∀ p z, s'.Holds p z ↔ s.Holds p z ∧ z ≠ y) ∧
          Volume s' (Function.update a x (some ⟨g', true⟩)) ∧
          OpenDir s' (Function.update a x (some ⟨g', true⟩)) d dir x parent g' (T.set i none)) ∨
        SlotMap.lookup T name = none ∧ ok = false ∧ s' = s) := by
  by_cases hname : SlotMap.lookup T name = none
  · exact ⟨s, false, (hd.lookup_none h hname).bind (.pure _ _), .refl s, rfl, Nat.le_refl _,
      .inr ⟨hname, rfl, rfl⟩⟩
  obtain ⟨i, e, y, -, hi, he, hlook⟩ := hd.lookup_some h hname
  obtain ⟨hy, hy0, hyx, f, hf⟩ := hfiles y (List.mem_of_getElem? hi)
  have hiT := (List.getElem?_eq_some_iff.1 hi).1
  have hesec : e.inodeSector = y := by
    unfold DirEntry.slot at he
    split at he
    · exact congrArg Prod.snd (Option.some.inj he)
    · cases he
  subst hesec
  -- the file's inode is opened
  obtain ⟨p, s₁, hopen, hvol₁, hb₁, hp₁, hkeep₁, hback₁, hlive₁, hspare₁, hmap₁, -⟩ :=
    h.openAny hy
  have hd₁ : OpenDir s₁ a d dir x parent g T := hd.beside hb₁ (hkeep₁ _ _ hd.holds) hd.node hd.folder
  have hisdir := hvol₁.isDirectory hp₁ hy0 hf
  -- the entry is written
  have hbytes := DirEntry.length_toBytes { e with inUse := false }
  have hglen := hd.folder.length
  have hpos := h.length_le hd.sector (.inr ⟨_, hd.holds⟩) hd.node
  simp only [InodeDisk.maxSectors] at hpos
  have hroom₁ : s₁.Room x (36 * (i + 1) + 36) :=
    hvol₁.room_of_le hd.sector (.inr ⟨_, hd₁.holds⟩) hd.node (by omega) (by simp only; omega)
  obtain ⟨s₂, k, hwrite, hb₂, hholds₂, hlive₂, hspare₂, hsame₂, hres⟩ :=
    hvol₁.writeAt hd₁.holds hd.sector hd.node { e with inUse := false }.toBytes (36 * (i + 1))
    (by intro hnil; rw [hnil] at hbytes; cases hbytes)
  rw [hbytes] at hres
  obtain ⟨-, rfl, hvol₂⟩ := hres.resolve_right fun hno => hno.1 hroom₁
  -- the inode is removed and closed
  obtain ⟨s₃, hremove, hvol₃, hb₃, hholds₃, hlive₃, hspare₃, hmap₃, -⟩ :=
    hvol₂.removeInode ((hholds₂ _ _).2 hp₁) hy0
  obtain ⟨s₄, hclose, hvol₄, hb₄, hholds₄, hlive₄, hspare₄, -, hgives₄⟩ :=
    hvol₃.closeInode ((hholds₃ _ _).2 ((hholds₂ _ _).2 hp₁)) hy0
  have hholds : ∀ q z, s₄.Holds q z ↔ s.Holds q z ∧ z ≠ e.inodeSector := fun q z => by
    rw [hholds₄, hholds₃, hholds₂]
    refine ⟨fun ⟨hq, hne⟩ => ?_, fun ⟨hq, hne⟩ => ⟨hkeep₁ _ _ hq, ?_⟩⟩
    · have hzy : z ≠ e.inodeSector := by
        rintro rfl
        exact hne (hvol₁.inj hp₁ hq)
      exact ⟨(hback₁ q z hq).resolve_right fun h => hzy h.2, hzy⟩
    · rintro rfl
      exact hne ((hkeep₁ _ _ hq).unique hp₁)
  have hexec : s.Does (dirRemove d name) true s₄ := by
    refine hlook.bind (hopen.bind (hisdir.bind ?_))
    simp only [Bool.false_eq_true, if_false]
    refine (Does.pure s₁ true).bind (Does.bind (?_ : s₁.Does _ true s₃) (hclose.bind (.pure _ _)))
    simp only [Bool.not_true, Bool.false_eq_true, if_false]
    refine hd₁.getInode.bind (hwrite.bind ?_)
    rw [if_neg (by decide)]
    exact hremove.bind (.pure _ _)
  have hgone : e.inodeSector ∉ s₃.live := by
    rw [hlive₃]
    exact fun hmem => (hvol₂.nodup.mem_erase_iff.1 hmem).1 rfl
  have hfree := (hgives₄ hgone).le
  rw [hmap₃, hsame₂ (by rw [hbytes]; simp only; omega), hmap₁] at hfree
  refine ⟨s₄, true, hexec, ((hb₁.trans hb₂).trans hb₃).trans
    hb₄, by rw [hspare₄, hspare₃, hspare₂, hspare₁], hfree,
    .inl ⟨rfl, i, e.inodeSector, _, hi, by rw [hlive₄, hlive₃, hlive₂, hlive₁], hholds,
      hvol₄, ?_⟩⟩
  exact hd.beside (((hb₁.trans hb₂).trans hb₃).trans hb₄) ((hholds _ _).2 ⟨hd.holds, Ne.symm hyx⟩)
    (Function.update_self ..) (hd.folder.free hiT e)

end OpenDir

/-! ## Handles -/

/-- Only the handle `d` has changed. -/
structure Session.Stands (s s' : Session) (d : Ptr) (dir : Dir) : Prop where
  state : s'.st = { s.st with dirs := s'.st.dirs }
  image : s'.image = s.image
  live : s'.live = s.live
  spare : s'.spare = s.spare
  get : ∀ p, s'.st.dirs.get p = if p = d then some dir else s.st.dirs.get p

namespace Session.Stands

variable {s s' s'' : Session} {a : BlockSector → Option Node} {d : Ptr} {dir dir' : Dir}

theorem refl (h : s.st.dirs.get d = some dir) : s.Stands s d dir where
  state := rfl
  image := rfl
  live := rfl
  spare := rfl
  get p := by
    split
    · subst_vars
      exact h
    · rfl

theorem trans (h : s.Stands s' d dir) (h' : s'.Stands s'' d dir') : s.Stands s'' d dir' where
  state := by rw [h'.state, h.state]
  image := h'.image.trans h.image
  live := h'.live.trans h.live
  spare := h'.spare.trans h.spare
  get p := by
    rw [h'.get, h.get]
    split <;> rfl

theorem holds (h : s.Stands s' d dir) (p : Ptr) (x : BlockSector) : s'.Holds p x ↔ s.Holds p x := by
  rw [Session.Holds, h.state]
  rfl

theorem data (h : s.Stands s' d dir) (x : BlockSector) : s'.data x = s.data x := by
  rw [Session.data, h.state, h.image]
  rfl

theorem volume (h : s.Stands s' d dir) (hvol : Volume s a) : Volume s' a :=
  hvol.handles h.image h.live h.spare (by rw [h.state]) (by rw [h.state]) (by rw [h.state])
    fun p _ => by rw [h.state]

end Session.Stands

theorem Volume.dirOpen {s : Session} (p : Ptr) :
    ∃ s', s.Does (dirOpen (some p)) (some s.st.dirs.next) s' ∧ s.Stands s' s.st.dirs.next ⟨p, 36, 1⟩ :=
  ⟨⟨s.st.setDirs (s.st.dirs.alloc ⟨p, dirEntrySize, 1⟩), s.image, s.live, s.spare⟩, exec_dirOpen,
    ⟨rfl, rfl, rfl, rfl, fun q => Heap.get_alloc _ _ q⟩⟩

/-- What closing the last handle of a directory leaves. -/
structure Session.Shuts (s s' : Session) (d : Ptr) (dir : Dir) (x : BlockSector) : Prop where
  state : s'.st = { s.st with
    freeMap := s'.st.freeMap, openInodes := s'.st.openInodes, dirs := s'.st.dirs, cwd := none }
  holds : ∀ p y, s'.Holds p y ↔ s.Holds p y ∧ p ≠ dir.inode
  get : ∀ p, s'.st.dirs.get p = if p = d then none else s.st.dirs.get p
  live : s'.live = s.live
  spare : s'.spare = s.spare
  kept : x ∈ s.live →
    s'.st.freeMap = s.st.freeMap ∧ s'.image = s.image ∧ ∀ y, y ≠ x → s'.data y = s.data y

namespace OpenDir

variable {s : Session} {a : BlockSector → Option Node} {d : Ptr} {dir : Dir} {x parent : BlockSector}
  {g : Growable UInt8} {T : Table}

theorem stands {s' : Session} {dir' : Dir} (hd : OpenDir s a d dir x parent g T)
    (h : s.Stands s' d dir') (hinode : dir'.inode = dir.inode) : OpenDir s' a d dir' x parent g T :=
  ⟨by rw [h.get, if_pos rfl], by rw [hinode, h.holds]; exact hd.holds, hd.sector, hd.node, hd.folder⟩

theorem modify (hd : s.st.dirs.get d = some dir) (f : Dir → Dir) :
    ∃ s', s.Does (modifyDir d f) () s' ∧ s.Stands s' d (f dir) := by
  refine ⟨⟨s.st.setDirs (s.st.dirs.modify d f), s.image, s.live, s.spare⟩, rfl,
    ⟨rfl, rfl, rfl, rfl, fun p => ?_⟩⟩
  rw [FsState.setDirs_dirs, Heap.get_modify, hd]
  rfl

/-- `dir_close` of a directory that stays open. -/
theorem close_more (hd : s.st.dirs.get d = some dir) (hcnt : dir.openCnt ≠ 1) :
    ∃ s', s.Does (dirClose (some d)) () s' ∧ s.Stands s' d { dir with openCnt := dir.openCnt - 1 } := by
  obtain ⟨s', hdoes, hstands⟩ := modify hd fun d' => { d' with openCnt := dir.openCnt - 1 }
  refine ⟨s', ?_, hstands⟩
  unfold Does at *
  rw [exec_dirClose_more hd hcnt, ← hdoes]
  rfl

/-- The last `dir_close` closes the inode, and forgets the global directory. -/
theorem close_last (h : Volume s a) (hd : s.st.dirs.get d = some dir) (hp : s.Holds dir.inode x)
    (hx : x ≠ freeMapSector) (hcnt : dir.openCnt = 1) :
    ∃ s', s.Does (dirClose (some d)) () s' ∧ Volume s' a ∧ s.Shuts s' d dir x := by
  obtain ⟨s₁, hmodify, hstands⟩ := modify hd fun d' => { d' with openCnt := 0 }
  obtain ⟨s₂, hclose, hvol₂, hb₂, hholds₂, hlive₂, hspare₂, hkept₂, -⟩ :=
    (hstands.volume h).closeInode ((hstands.holds _ _).2 hp) hx
  refine ⟨⟨(s₂.st.setDirs (s₂.st.dirs.free d)).setCwd none, s₂.image, s₂.live, s₂.spare⟩, ?_,
    ?_, ?_⟩
  · unfold Does at *
    rw [exec_dirClose_last hd hcnt]
    rw [exec_modifyDir] at hmodify
    obtain ⟨hst, himage⟩ : s.st.setDirs (s.st.dirs.modify d fun d' => { d' with openCnt := 0 }) =
      s₁.st ∧ s.image = s₁.image := by simpa using hmodify
    rw [hst, himage, hclose]
    rfl
  · exact hvol₂.handles rfl rfl rfl rfl rfl rfl fun _ _ => rfl
  · constructor
    case state =>
      change (s₂.st.setDirs (s₂.st.dirs.free d)).setCwd none = _
      rw [hb₂.state, hstands.state]
      rfl
    case holds =>
      intro p y
      rw [← hstands.holds p y, ← hholds₂]
      rfl
    case get =>
      intro p
      change (s₂.st.dirs.free d).get p = _
      rw [Heap.get_free, hb₂.dirs, hstands.get]
      split <;> rfl
    case live => exact hlive₂.trans hstands.live
    case spare => exact hspare₂.trans hstands.spare
    case kept =>
      intro hx
      obtain ⟨hmap, himage, hdata⟩ := hkept₂ (hstands.live ▸ hx)
      exact ⟨hmap.trans (by rw [hstands.state]), himage.trans hstands.image,
        fun y hy => (hdata y hy).trans (hstands.data y)⟩

end OpenDir

/-! ## Listing -/

/-- The names of a pass `while (dir_readdir (dir, name))`, for so many rounds at most. -/
def readdirPass (dir : Ptr) : Nat → FsM (List CString)
  | 0 => pure []
  | fuel + 1 => do
    match ← dirReaddir dir with
    | none => pure []
    | some name => return name :: (← readdirPass dir fuel)

/-- The whole pass. -/
def readdirAll (dir : Ptr) : FsM (List CString) := do readdirPass dir (← dirFuel (← derefDir dir).inode)

/-- `while (dir_readdir (dir, name))` with what its body prints for each name, for so many
rounds at most. -/
def forEachNamePass {α : Type} (dir : Ptr) (body : CString → FsM (List α)) : Nat → FsM (List α)
  | 0 => pure []
  | fuel + 1 => do
    match ← dirReaddir dir with
    | none => pure []
    | some name => do
      let printed ← body name
      return printed ++ (← forEachNamePass dir body fuel)

/-- The whole loop. -/
def forEachName {α : Type} (dir : Ptr) (body : CString → FsM (List α)) : FsM (List α) := do
  forEachNamePass dir body (← dirFuel (← derefDir dir).inode)

/-- The names in the slots. -/
def Table.names (T : Table) : List CString := T.reduceOption.map Prod.fst

/-- The next name in the slots, and the number of the slot after it. -/
def Table.nextName : Table → Nat → Option CString × Nat
  | [], k => (none, k)
  | none :: T, k => Table.nextName T (k + 1)
  | some (name, _) :: _, k => (some name, k + 1)

theorem Table.nextName_drop {T : Table} {k : Nat} (hk : k ≤ T.length) :
    match Table.nextName (T.drop k) k with
    | (none, m) => Table.names (T.drop k) = [] ∧ m = T.length
    | (some name, m) =>
      k < m ∧ m ≤ T.length ∧ Table.names (T.drop k) = name :: Table.names (T.drop m) := by
  generalize hrest : T.drop k = rest
  induction rest generalizing k with
  | nil =>
    rw [List.drop_eq_nil_iff] at hrest
    exact ⟨rfl, Nat.le_antisymm hk hrest⟩
  | cons o rest ih =>
    have hlt : k < T.length := by
      by_contra hlt
      rw [List.drop_eq_nil_of_le (by omega)] at hrest
      cases hrest
    have hnext : T.drop (k + 1) = rest := by rw [← List.drop_drop, hrest]; rfl
    cases o with
    | none =>
      have hih := ih hlt hnext
      rw [Table.nextName]
      have hnames : Table.names (none :: rest) = Table.names rest := by
        rw [Table.names, List.reduceOption_cons_of_none, Table.names]
      rw [hnames]
      generalize Table.nextName rest (k + 1) = r at *
      obtain ⟨name, m⟩ := r
      cases name with
      | none => exact hih
      | some name => exact ⟨by omega, hih.2⟩
    | some x =>
      rw [Table.nextName]
      refine ⟨by omega, hlt, ?_⟩
      rw [hnext, Table.names, List.reduceOption_cons_of_some, List.map_cons, Table.names]

/-! What a loop prints, from what it prints for each name. -/

theorem mapM_cons_flatten {α : Type} (out : CString → Option (List α)) (name : CString)
    (names : List CString) :
    ((name :: names).mapM out).map List.flatten = (out name).bind fun printed =>
      ((names.mapM out).map List.flatten).bind fun rest => some (printed ++ rest) := by
  rw [List.mapM_cons]
  cases out name with
  | none => rfl
  | some printed =>
    cases names.mapM out with
    | none => simp
    | some rest => simp

theorem exists_printed {α : Type} {out : CString → Option (List α)} {names : List CString}
    (h : ∀ name ∈ names, ∃ l, out name = some l) :
    ∃ printed, (names.mapM out).map List.flatten = some printed := by
  induction names with
  | nil => exact ⟨[], rfl⟩
  | cons name names ih =>
    obtain ⟨l, hl⟩ := h name List.mem_cons_self
    obtain ⟨rest, hrest⟩ := ih fun name' hname' => h name' (List.mem_cons_of_mem _ hname')
    exact ⟨l ++ rest, by rw [mapM_cons_flatten, hl, hrest]; rfl⟩

theorem mem_printed {α : Type} {out : CString → Option (List α)} {names : List CString}
    {printed : List α} (h : (names.mapM out).map List.flatten = some printed) :
    (∀ name ∈ names, ∃ l, out name = some l) ∧ ∀ x, x ∈ printed ↔
    ∃ name ∈ names, ∃ l, out name =
    some l ∧ x ∈ l := by
  induction names generalizing printed with
  | nil =>
    obtain rfl : [] = printed := Option.some.inj h
    simp
  | cons name names ih =>
    rw [mapM_cons_flatten, Option.bind_eq_some_iff] at h
    obtain ⟨l, hl, h⟩ := h
    rw [Option.bind_eq_some_iff] at h
    obtain ⟨rest, hrest, h⟩ := h
    obtain rfl : l ++ rest = printed := Option.some.inj h
    obtain ⟨hall, hmem⟩ := ih hrest
    refine ⟨fun name' hname' => ?_, fun x => ?_⟩
    · rcases List.mem_cons.1 hname' with rfl | hname'
      · exact ⟨l, hl⟩
      · exact hall name' hname'
    · rw [List.mem_append, hmem x]
      simp [hl]

namespace OpenDir

variable {s : Session} {a : BlockSector → Option Node} {d : Ptr} {dir : Dir} {x parent : BlockSector}
  {g : Growable UInt8} {T : Table} {k : Nat}

theorem readdirLoop (hd : OpenDir s a d dir x parent g T) (h : Volume s a)
    (hpos : dir.pos = (36 * (k + 1) : Nat)) (hk : k ≤ T.length) (fuel : Nat)
    (hfuel : T.length < k + fuel) :
    ∃ s', s.Does (readdirLoop d fuel) (Table.nextName (T.drop k) k).1 s' ∧
      s.Stands s' d { dir with pos := (36 * ((Table.nextName (T.drop k) k).2 + 1) : Nat) } := by
  induction fuel generalizing s dir k with
  | zero => omega
  | succ fuel ih =>
    have hread := h.readEntry hd.holds hd.sector hd.node (k + 1)
    rw [← hpos] at hread
    obtain ⟨e₀, es, hes, -, -, hT⟩ := hd.folder.entries
    have hget : (entries g)[k + 1]? = es[k]? := by rw [hes, List.getElem?_cons_succ]
    simp only [hget] at hread
    have hlen : T.length = es.length := by rw [← hT, List.length_map]
    cases hentry : es[k]? with
    | none =>
      rw [List.getElem?_eq_none_iff] at hentry
      have hend : T.drop k = [] := List.drop_eq_nil_of_le (by omega)
      refine ⟨s, hd.derefDir.bind (hread.bind ?_), ?_⟩
      · rw [List.getElem?_eq_none (by omega), hend]
        exact .pure _ _
      · rw [hend, Table.nextName, ← hpos]
        exact .refl hd.handle
    | some e =>
      obtain ⟨hlt, rfl⟩ := List.getElem?_eq_some_iff.1 hentry
      have hdrop : T.drop k = es[k].slot :: T.drop (k + 1) := by
        rw [List.drop_eq_getElem_cons (by omega)]
        congr 1
        simp only [← hT, List.getElem_map]
      obtain ⟨s₁, hadvance, hstands₁⟩ :=
        modify hd.handle fun d => { d with pos := d.pos + dirEntrySize }
      have hd₁ := hd.stands hstands₁ rfl
      have hpos₁ : dir.pos + (dirEntrySize : Nat) = (36 * (k + 1 + 1) : Nat) := by
        rw [hpos]
        simp only [dirEntrySize]
        omega
      rw [hentry] at hread
      rw [hdrop]
      cases huse : es[k].inUse with
      | true =>
        rw [show es[k].slot = some (es[k].cname,
          es[k].inodeSector) by rw [DirEntry.slot, huse]; rfl, Table.nextName]
        refine ⟨s₁, hd.derefDir.bind (hread.bind
          (hadvance.bind ?_)), by rw [← hpos₁]; exact hstands₁⟩
        rw [huse, if_pos rfl]
        exact .pure _ _
      | false =>
        rw [show es[k].slot = none by rw [DirEntry.slot, huse]; rfl, Table.nextName]
        obtain ⟨s₂, hloop, hstands₂⟩ := ih hd₁ (hstands₁.volume h) hpos₁ (by omega) (by omega)
        refine ⟨s₂, hd.derefDir.bind (hread.bind (hadvance.bind ?_)), hstands₁.trans hstands₂⟩
        rw [huse, if_neg (by decide)]
        exact hloop

theorem readdir (hd : OpenDir s a d dir x parent g T) (h : Volume s a)
    (hpos : dir.pos = (36 * (k + 1) : Nat)) (hk : k ≤ T.length) :
    ∃ s', s.Does (dirReaddir d) (Table.nextName (T.drop k) k).1 s' ∧
      s.Stands s' d { dir with pos := (36 * ((Table.nextName (T.drop k) k).2 + 1) : Nat) } := by
  obtain ⟨s', hdoes, hstands⟩ := hd.readdirLoop h hpos hk (T.length + 3) (by omega)
  exact ⟨s', hd.derefDir.bind ((hd.fuel h).bind hdoes), hstands⟩

theorem readdirPass (hd : OpenDir s a d dir x parent g T) (h : Volume s a)
    (hpos : dir.pos = (36 * (k + 1) : Nat)) (hk : k ≤ T.length) (fuel : Nat)
    (hfuel : T.length < k + fuel) : ∃ s', s.Does (readdirPass d fuel) (Table.names (T.drop k)) s' ∧
      s.Stands s' d { dir with pos := (36 * (T.length + 1) : Nat) } := by
  induction fuel generalizing s dir k with
  | zero => omega
  | succ fuel ih =>
    obtain ⟨s₁, hnext, hstands₁⟩ := hd.readdir h hpos hk
    have hd₁ := hd.stands hstands₁ rfl
    have hdrop := Table.nextName_drop hk
    generalize Table.nextName (T.drop k) k = r at *
    obtain ⟨name, m⟩ := r
    cases name with
    | none =>
      obtain ⟨hnil, rfl⟩ := hdrop
      rw [hnil]
      exact ⟨s₁, hnext.bind (.pure _ _), hstands₁⟩
    | some name =>
      obtain ⟨hlt, hle, hnames⟩ := hdrop
      obtain ⟨s₂, hpass, hstands₂⟩ := ih hd₁ (hstands₁.volume h) rfl hle (by omega)
      rw [hnames]
      exact ⟨s₂, hnext.bind (hpass.bind (.pure _ _)), hstands₁.trans hstands₂⟩

/-- **A pass over a freshly opened directory** lists the names. -/
theorem readdirAll (hd : OpenDir s a d dir x parent g T) (h : Volume s a) (hpos : dir.pos = 36) :
    ∃ s', s.Does (readdirAll d) T.names s' ∧
      s.Stands s' d { dir with pos := (36 * (T.length + 1) : Nat) } := by
  obtain ⟨s', hpass, hstands⟩ :=
    hd.readdirPass h (k := 0) hpos (Nat.zero_le _) (T.length + 3) (by omega)
  exact ⟨s', hd.derefDir.bind ((hd.fuel h).bind hpass), hstands⟩

section forEachName

variable {α : Type} (body : CString → FsM (List α)) (out : CString → Option (List α))
  (I : Session → Dir → List CString → Prop)
  (hopen : ∀ {s dir names}, I s dir names → OpenDir s a d dir x parent g T ∧ Volume s a)
  (hread : ∀ {s s' dir names pos}, I s dir names → s.Stands s' d { dir with pos } →
    I s' { dir with pos } names)
  (hbody : ∀ {s dir name names}, I s dir (name :: names) →
    (s.Answers (body name) (out name) fun s' => I s' dir names) ∨
    out name = none ∧ ∃ printed s', s.Does (body name) printed s' ∧
    (dirReaddir d).exec s'.st s'.image = none)
include hopen hread hbody

/-- The body leaves the directory as it is, and `I`, for the names that are
left, says what the body does for each; or else the next `dir_readdir` is a
fault. -/
theorem forEachNamePass (h : I s dir (Table.names (T.drop k)))
    (hpos : dir.pos = (36 * (k + 1) : Nat)) (hk : k ≤ T.length) (fuel : Nat)
    (hfuel : T.length < k + fuel) :
    s.Answers (Fs.forEachNamePass d body fuel)
    (((Table.names (T.drop k)).mapM out).map List.flatten) fun s' =>
      ∃ dir', I s' dir' [] := by
  induction fuel generalizing s dir k with
  | zero => omega
  | succ fuel ih =>
    obtain ⟨hd, hvol⟩ := hopen h
    obtain ⟨s₁, hnext, hstands₁⟩ := hd.readdir hvol hpos hk
    have h₁ := hread h hstands₁
    have hdrop := Table.nextName_drop hk
    generalize Table.nextName (T.drop k) k = r at *
    obtain ⟨name, m⟩ := r
    cases name with
    | none =>
      obtain ⟨hnil, rfl⟩ := hdrop
      rw [hnil] at h₁ ⊢
      exact ⟨s₁, hnext.bind (.pure _ _), _, h₁⟩
    | some name =>
      obtain ⟨hlt, hle, hnames⟩ := hdrop
      rw [hnames] at h₁ ⊢
      refine hnext.answers ?_
      rw [mapM_cons_flatten]
      rcases hbody h₁ with hanswers | ⟨hnone, printed, s₂, hdoes, hfault⟩
      · exact hanswers.bind fun printed s₂ h₂ => (ih h₂ rfl hle (by omega)).bind fun rest s₃ h₃ =>
          Answers.pure h₃ (printed ++ rest)
      · rw [hnone]
        obtain ⟨fuel, rfl⟩ : ∃ n, fuel = n + 1 := ⟨fuel - 1, by omega⟩
        refine hdoes.answers ?_
        change (Fs.forEachNamePass d body (fuel + 1) >>= fun rest => pure (printed ++ rest)).exec
          s₂.st s₂.image = none
        rw [Fs.forEachNamePass, Cmd.exec_bind, Cmd.exec_bind, hfault]
        rfl

/-- **The loop over an open directory**, from slot `k` on: what the body prints
for each name, one after the other, and a fault if there is one for some name. -/
theorem forEachName (h : I s dir (Table.names (T.drop k))) (hpos : dir.pos = (36 * (k + 1) : Nat))
    (hk : k ≤ T.length) :
    s.Answers (Fs.forEachName d body) (((Table.names (T.drop k)).mapM out).map List.flatten)
    fun s' => ∃ dir', I s' dir' [] := by
  obtain ⟨hd, hvol⟩ := hopen h
  have hpass := forEachNamePass body out I hopen hread hbody h hpos hk (T.length + 3) (by omega)
  exact hd.derefDir.answers ((hd.fuel hvol).answers hpass)

end forEachName

end OpenDir

end MyShell.Fs

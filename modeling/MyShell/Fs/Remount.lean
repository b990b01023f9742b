/-
Shutdown and restart after any run of `create`, `write`, `read`, `seek`,
`size` and `rm`, all of them successful and each file always named by the same
path: the device still has the inode of the free map, so that the same free
map and the same files are mounted again. Where a `create` or a `write` finds
no room, zeros may land on that inode, and by another path a file is removed
that is still open.
-/
import MyShell.Fs.Restart
import MyShell.Fs.ShellRun
import MyShell.Fs.SamePath
import MyShell.Fs.Append

namespace MyShell.Fs

open Storage Session

/-! ## From source -/

/-- Commands on files, by their paths. -/
inductive FileCommand where
  | create (fname : CString) (isize : Int)
  | write (fname : CString) (args : List CString)
  | read (fname : CString) (bytes : Int)
  | seek (fname : CString) (offset : Int)
  | size (fname : CString)
  | rm (fname : CString)

namespace FileCommand

/-- The command, and whether it succeeds. -/
def run : FileCommand → FsM Bool
  | .create fname isize => fsutilCreate fname isize
  | .write fname args => return decide ((← writeCommand (fname :: args)) = (.noError, none))
  | .read fname bytes => return (← readCommand fname bytes).isSome
  | .seek fname offset => return decide ((← fsutilSeek fname offset) = 0)
  | .size fname => return decide ((← fsutilSize fname) ≠ -1)
  | .rm fname => fsutilRm fname

/-- Commands one after the other, and whether they all succeed. -/
def runAll : List FileCommand → FsM Bool
  | [] => pure true
  | c :: cs => do
    if ← c.run then runAll cs
    else pure false

def path : FileCommand → CString
  | .create fname _ | .write fname _ | .read fname _ | .seek fname _ | .size fname | .rm fname => fname

/-- The path is that of a file, and to remove it the path names no directory. -/
def OnFile (c : FileCommand) : Prop :=
  NamesFile c.path ∧ 0 ∉ c.path ∧
    match c with
    | .create _ isize => isize < 2 ^ 31
    | .rm fname => directoryTokens fname = []
    | _ => True

end FileCommand

/-! ## Handles by their paths -/

/-- The files are open by paths of `P`, each once, and can be written. -/
structure Session.Named (s : Session) (P : CString → Prop) : Prop where
  paths : ∀ e ∈ s.st.fileTable, P e.fname
  once : (s.st.fileTable.map FileTableEntry.fname).Nodup
  writable : ∀ e ∈ s.st.fileTable, ∀ file, s.st.files.get e.f = some file → file.denyWrite = false

namespace Session.Named

variable {s s' : Session} {P : CString → Prop} {f : Ptr} {file : File}

theorem of_eq (h : s.Named P) (htable : s'.st.fileTable = s.st.fileTable)
    (hfiles : s'.st.files = s.st.files) : s'.Named P :=
  ⟨by rw [htable]; exact h.paths, by rw [htable]; exact h.once,
    by rw [htable, hfiles]; exact h.writable⟩

theorem moves {pos : Int} {x : BlockSector} (h : s.Named P) (hf : OpenFile s f file x)
    (hm : s.Moves s' f { file with pos }) : s'.Named P := by
  have htable : s'.st.fileTable = s.st.fileTable := by rw [hm.state]
  refine ⟨by rw [htable]; exact h.paths, by rw [htable]; exact h.once, fun e he file' hget => ?_⟩
  rw [htable] at he
  rw [hm.get] at hget
  split at hget
  · next heq =>
    cases hget
    exact h.writable e he file (heq ▸ hf.handle)
  · exact h.writable e he file' hget

end Session.Named

theorem Session.KeepsMap.moves {s s' : Session} {f : Ptr} {file : File} (hm : s.Moves s' f file) :
    s.KeepsMap s' := by
  refine .of_eq ?_ hm.image (by rw [hm.state])
  rw [Session.data, hm.state, hm.image]
  rfl

namespace Stocked

variable {s s' : Session} {a : BlockSector → Option Node} {g : Growable UInt8} {T : Table}
  {P : CString → Prop} {path : CString} {f : Ptr} {file : File} {y : BlockSector}
  {b : Growable UInt8}

/-- The handle under the path is opened if need be, by that path. -/
theorem openFname_named (h : Stocked s a g T) (hpath : NamesFile path)
    (hdoes : s.Does (Fs.openFname path) (some f) s') (hn : s.Named P) (hP : P path) :
    s.KeepsMap s' ∧ s'.Named P := by
  cases hopened : s.openedAs path with
  | some f' =>
    obtain ⟨-, hst, himage⟩ := hdoes.same (openFname_again hopened)
    exact ⟨.of_eq (by rw [Session.data, Session.data, hst, himage]) himage (by rw [hst]),
      hn.of_eq (by rw [hst]) (by rw [hst])⟩
  | none =>
    cases hy : SlotMap.lookup T (fileName path) with
    | none =>
      obtain ⟨s₁, hopen, -⟩ := h.rooted.filesysOpen_none h.cwd rfl hpath.1 hpath.2 hy
      have hnone : s.Does (Fs.openFname path) none s₁ := by
        refine (s.getFileByFname path).bind ?_
        rw [hopened]
        exact hopen.bind (.pure _ _)
      cases (hdoes.same hnone).1
    | some y =>
      obtain ⟨p, s₁, hopen, -, ho⟩ := h.rooted.filesysOpen h.cwd rfl hpath.1 hpath.2 hy
      have hopened₁ : s₁.openedAs path = none := by rw [openedAs, ho.table, ← hopened, openedAs]
      let s₂ : Session :=
        ⟨{ s₁.st with fileTable := s₁.st.fileTable ++ [⟨path, s.st.files.next⟩] }, s₁.image,
          s₁.live, s₁.spare⟩
      have hadd : s₁.Does (Fs.addToFileTable s.st.files.next path) () s₂ := by
        refine (s₁.getFileByFname path).bind ?_
        rw [hopened₁]
        rfl
      have hdoes₂ : s.Does (Fs.openFname path) (some s.st.files.next) s₂ := by
        refine (s.getFileByFname path).bind ?_
        rw [hopened]
        exact hopen.bind (hadd.bind (.pure _ _))
      obtain ⟨-, hst, himage⟩ : some f = some s.st.files.next ∧ s'.st = s₂.st ∧
          s'.image = s₂.image := hdoes.same hdoes₂
      have hdata : s'.data freeMapSector = s₁.data freeMapSector := by
        rw [Session.data, hst, himage]
        rfl
      have htable : s'.st.fileTable = s.st.fileTable ++ [⟨path, s.st.files.next⟩] := by
        rw [hst, ← ho.table]
      refine ⟨.of_eq (hdata.trans (ho.data _ (by decide))) (himage.trans ho.image)
        (by rw [hst]; exact ho.freeMap), fun e he => ?_, ?_, fun e he file hget => ?_⟩
      · rw [htable, List.mem_append, List.mem_singleton] at he
        rcases he with he | rfl
        · exact hn.paths e he
        · exact hP
      · rw [htable, List.map_append, List.nodup_append]
        refine ⟨hn.once, List.nodup_singleton _, fun name hname name' hname' => ?_⟩
        rintro rfl
        obtain rfl : name = path := List.mem_singleton.1 hname'
        obtain ⟨e, he, rfl⟩ := List.mem_map.1 hname
        have hfind : s.st.fileTable.find? (fun e' => e'.fname = e.fname) = none :=
          Option.map_eq_none_iff.1 hopened
        simpa using List.find?_eq_none.1 hfind e he
      · have hget₁ : s₁.st.files.get e.f = some file := by rw [← hget, hst]
        rw [ho.get] at hget₁
        rw [htable, List.mem_append, List.mem_singleton] at he
        split at hget₁
        · cases hget₁
          rfl
        · next hne =>
          rcases he with he | rfl
          · exact hn.writable e he file hget₁
          · exact absurd rfl hne

end Stocked

/-! ## Each command -/

/-- What a command that succeeds leaves. -/
def Session.Follows (s : Session) (P : CString → Prop) (st : FsState) (v : Image) : Prop :=
  ∃ s' a g T, s'.st = st ∧ s'.image = v ∧ Stocked s' a g T ∧ s.KeepsMap s' ∧ s'.Named P

namespace Stocked

variable {s s' : Session} {a : BlockSector → Option Node} {g : Growable UInt8} {T : Table}
  {P : CString → Prop} {path : CString} {f : Ptr} {file : File} {y : BlockSector}
  {b : Growable UInt8} {st : FsState} {v : Image}

/-- A command that goes on with the handle under the path. -/
theorem onHandle {α : Type} {k : Option Ptr → FsM α} {r : α} (h : Stocked s a g T) (hn : s.Named P)
    (hpath : NamesFile path) (hP : P path)
    (hexec : (Fs.openFname path >>= k).exec s.st s.image = some (r, st, v))
    (hnone : ∃ bad ≠ r, k none = pure bad)
    (hsome : ∀ {s₁ f file y b}, Stocked s₁ a g T → s₁.Named P → OpenFile s₁ f file y →
      y ∈ T.sectors → a y = some ⟨b, false⟩ →
      (k (some f)).exec s₁.st s₁.image = some (r, st, v) → s₁.Follows P st v) : s.Follows P st v := by
  obtain ⟨s₁, h₁, -, -, ⟨-, hopen⟩ | ⟨y, f, file, hy, hopen, -, hf⟩⟩ := h.openFname hpath
  · obtain ⟨bad, hbad, hk⟩ := hnone
    have hdoes : s.Does (Fs.openFname path >>= k) bad s₁ := hopen.bind (by rw [hk]; exact .pure _ _)
    rw [Does, hexec] at hdoes
    simp only [Option.some.injEq, Prod.mk.injEq] at hdoes
    exact absurd hdoes.1.symm hbad
  · obtain ⟨hkeeps₁, hn₁⟩ := h.openFname_named hpath hopen hn hP
    have hopen : (Fs.openFname path).exec s.st s.image = some (some f, s₁.st, s₁.image) := hopen
    rw [Cmd.exec_bind, hopen, Option.bind_some] at hexec
    obtain ⟨-, -, -, b, ha⟩ := h.rooted.file_of_lookup hy
    have hmem : y ∈ T.sectors :=
      Table.mem_sectors.2 ⟨_, (SlotMap.lookup_eq_some h.rooted.distinct).1 hy⟩
    obtain ⟨s', a', g', T', hst, himage, h', hkeeps', hn'⟩ := hsome h₁ hn₁ hf hmem ha hexec
    exact ⟨s', a', g', T', hst, himage, h', hkeeps₁.trans hkeeps', hn'⟩

theorem follows_moves {pos : Int} (h : Stocked s a g T) (hn : s.Named P) (hf : OpenFile s f file y)
    (hm : s.Moves s' f { file with pos }) : s.Follows P s'.st s'.image :=
  ⟨s', a, g, T, rfl, rfl, (h.moves hf hm rfl).1, .moves hm, hn.moves hf hm⟩

theorem follows_read (h : Stocked s a g T) (hn : s.Named P) (hf : OpenFile s f file y)
    (ha : a y = some ⟨b, false⟩) {size : Int} {bytes : List UInt8}
    (hexec : (Fs.fileRead f size).exec s.st s.image = some (bytes, st, v)) : s.Follows P st v := by
  have hdone {s' : Session} {bytes' : List UInt8} {pos : Int}
    (hdoes : s.Does (Fs.fileRead f size) bytes' s')
      (hm : s.Moves s' f { file with pos }) : s.Follows P st v := by
    obtain ⟨-, rfl, rfl⟩ : bytes = bytes' ∧ st = s'.st ∧ v = s'.image := by
      simpa [Does, hexec] using hdoes
    exact h.follows_moves hn hf hm
  rcases Int.lt_or_le file.pos 0 with hneg | hpos
  · have hread := hf.fileRead_negative h.rooted.vol ha hneg size
    split at hread
    · obtain ⟨s', hdoes, hm⟩ := hread
      exact hdone hdoes hm
    · rw [hread] at hexec
      cases hexec
  · obtain ⟨s', hdoes, hm⟩ := hf.fileRead h.rooted.vol hpos ha size
    exact hdone hdoes hm

theorem follows_write (h : Stocked s a g T) (hn : s.Named P) (hf : OpenFile s f file y)
    (hy : y ∈ T.sectors) (ha : a y = some ⟨b, false⟩) {buffer : List UInt8} (hne : buffer ≠ [])
    (hexec : (Fs.fileWrite f buffer).exec s.st s.image = some ((buffer.length : Int), st, v)) :
    s.Follows P st v := by
  obtain ⟨s', a', hst, himage, h', -⟩ := h.fileWrite hf hy ha hexec
  have hlength := length_dropLast_append hne
  have hpos := List.length_pos_iff.2 hne
  have hne' : buffer.dropLast ++ [0] ≠ [] := by simp
  rcases Int.lt_or_le file.pos 0 with hneg | hge
  · -- from before the first byte nothing is written
    have hderef : (Fs.derefFile f).exec s.st s.image = some (file, s.st, s.image) := hf.derefFile
    rw [Fs.fileWrite, if_neg hne, Cmd.exec_bind, hderef, Option.bind_some, Cmd.exec_bind] at hexec
    obtain ⟨⟨k, st₁, v₁⟩, hwrite, hexec⟩ := Option.bind_eq_some_iff.1 hexec
    obtain ⟨rfl, -⟩ := h.rooted.vol.writeAt_negative hf.holds hf.sector ha hne' hneg hwrite
    simp only [Cmd.exec_bind, Option.bind_eq_some_iff, Cmd.exec_pure, Option.some.injEq,
      Prod.mk.injEq] at hexec
    obtain ⟨-, -, hzero, -⟩ := hexec
    omega
  · obtain ⟨s₁, k, hwrite, hb, hholds, -⟩ :=
      h.rooted.vol.writeAt hf.holds hf.sector ha (buffer.dropLast ++ [0]) file.pos.toNat hne'
    have hwrite' : s.Does (inodeWriteAt file.inode (buffer.dropLast ++ [0]) file.pos) k s₁ := by
      rw [← Int.toNat_of_nonneg hge]
      exact hwrite
    obtain ⟨s₂, hdoes, hm⟩ := hf.fileWrite_of hne hwrite' hb
    obtain ⟨rfl, hst₂, himage₂⟩ : (buffer.length : Int) = k ∧ st = s₂.st ∧ v = s₂.image := by
      simpa [Does, hexec] using hdoes
    have hkeeps := h.rooted.vol.writeAt_keepsMap hf.holds hf.sector (by rw [hlength]; exact hwrite) hne'
    have hn₂ := (hn.of_eq hb.fileTable hb.files).moves (hf.beside hb ((hholds _ _).2 hf.holds)) hm
    have hsame : s₂.KeepsMap s' :=
      .of_eq (by rw [Session.data, Session.data, hst, himage, hst₂, himage₂]) (himage.trans himage₂)
        (by rw [hst, hst₂])
    exact ⟨s', a', g, T, hst, himage, h', (hkeeps.trans (.moves hm)).trans hsame,
      hn₂.of_eq (by rw [hst, hst₂]) (by rw [hst, hst₂])⟩

theorem follows_create (h : Stocked s a g T) (hn : s.Named P) (hpath : NamesFile path)
    (h0 : 0 ∉ path) {isize : Int} (hlt : isize < 2 ^ 31)
    (hexec : (fsutilCreate path isize).exec s.st s.image = some (true, st, v)) :
    s.Follows P st v := by
  unfold fsutilCreate at hexec
  split at hexec
  · cases hexec
  obtain ⟨hslash, hsub⟩ := fileName_chars path
  have h0' : 0 ∉ fileName path := fun hmem => h0 (hsub hmem)
  obtain ⟨s', ok, hdoes, hkeep, hres⟩ := h.rooted.filesysCreate h.cwd rfl ⟨hpath.1, h0', hslash⟩ hlt
  obtain ⟨hok, rfl, rfl⟩ : true = ok ∧ st = s'.st ∧ v = s'.image := by simpa [Does, hexec] using hdoes
  rcases hres with ⟨-, -, -, hno, -, y, g', hy, -, -, h'⟩ | ⟨rfl, -⟩
  · obtain ⟨s₁, ok₁, hdoes₁, -, -, ⟨rfl, hkeeps, -⟩ | ⟨rfl, -⟩⟩ :=
      h.rooted.filesysCreate_layout h.cwd rfl ⟨h0', hslash⟩ hlt
    · exact ⟨s', _, _, _, rfl, rfl, h.create hkeep hpath.2 hno hy h',
        hkeeps.of_does hdoes₁ (hok ▸ hdoes), hn.of_eq (by rw [hkeep.files]) (by rw [hkeep.files])⟩
    · rw [← hok] at hdoes
      cases (hdoes.same hdoes₁).1
  · cases hok

end Stocked

/-! ## `rm` -/

theorem mem_eraseP_fname {table : List FileTableEntry} {path : CString}
    (h : (table.map FileTableEntry.fname).Nodup) {e : FileTableEntry}
    (he : e ∈ table.eraseP fun e => e.fname = path) : e ∈ table ∧ e.fname ≠ path := by
  refine ⟨List.mem_of_mem_eraseP he, ?_⟩
  induction table with
  | nil => cases he
  | cons e' table ih =>
    rw [List.map_cons, List.nodup_cons] at h
    by_cases hpath : e'.fname = path
    · rw [List.eraseP_cons_of_pos (by simpa using hpath)] at he
      rintro rfl
      exact h.1 (List.mem_map.2 ⟨e, he, hpath.symm⟩)
    · rw [List.eraseP_cons_of_neg (by simpa using hpath)] at he
      rcases List.mem_cons.1 he with rfl | he
      · exact hpath
      · exact ih h.2 he

theorem OpenFile.fileClose_keepsMap {s s' : Session} {a : BlockSector → Option Node} {f : Ptr}
    {file : File} {x : BlockSector} (hf : OpenFile s f file x) (h : Volume s a)
    (hdeny : file.denyWrite = false) (hdoes : s.Does (Fs.fileClose (some f)) () s') :
    s.KeepsMap s' := by
  obtain ⟨s₁, hclose, -⟩ := h.closeInode hf.holds hf.sector
  have hallow : s.Does (fileAllowWrite f) () s := by
    refine hf.derefFile.bind ?_
    rw [hdeny]
    exact .pure _ _
  let s₂ : Session := ⟨{ s₁.st with files := s₁.st.files.free f }, s₁.image, s₁.live, s₁.spare⟩
  have hdoes₂ : s.Does (Fs.fileClose (some f)) () s₂ :=
    hallow.bind (hf.derefFile.bind (hclose.bind rfl))
  have hkeeps₂ : s₁.KeepsMap s₂ := .of_eq rfl rfl rfl
  exact ((h.closeInode_keepsMap hf.holds hf.sector hclose).trans hkeeps₂).of_does hdoes₂ hdoes

/-- A path without directories is that of a file in the root directory. -/
theorem exec_filesysRemove_plain {path : CString} {st : FsState} {v : Image}
    (hdir : directoryTokens path = []) (hcwd : st.cwd = none) (hname : fileName path ≠ []) :
    (filesysRemove path).exec st v = (filesysRemove (slash :: fileName path)).exec st v := by
  have hstart (directory : CString) (htokens : tokens directory = []) :
      (dirOpenPath directory).exec st v = (dirOpenRoot >>=
        fun curr => openPath curr [] >>= pathEnd).exec st v := by
    rw [dirOpenPath_eq, htokens, Cmd.exec_bind, Cmd.exec_bind]
    congr 1
    unfold pathStart
    split
    · rfl
    · rw [Cmd.exec_bind, Cmd.exec_getState, Option.bind_some, hcwd]
  have hsplit : splitPathFilename (slash :: fileName path) = ([slash], fileName path) :=
    Rooted.splitPathFilename_rooted hname (fileName_chars path).1
  obtain ⟨directory, hpath⟩ : ∃ directory, splitPathFilename path = (directory, fileName path) :=
    ⟨_, Prod.ext rfl rfl⟩
  have htokens : tokens directory = [] := by
    rw [← hdir, ← tokens_directory, hpath]
  unfold filesysRemove
  rw [hsplit, hpath]
  dsimp only
  rw [Cmd.exec_bind, Cmd.exec_bind, hstart directory htokens, hstart [slash] (by decide)]

namespace Stocked

variable {s s' : Session} {a : BlockSector → Option Node} {g : Growable UInt8} {T : Table}
  {P : CString → Prop} {path : CString} {f : Ptr} {file : File} {y : BlockSector} {st : FsState}
  {v : Image}

theorem lookup_inj (h : Stocked s a g T) {name name' : CString} (hy : SlotMap.lookup T name = some y)
    (hy' : SlotMap.lookup T name' = some y) : name = name' := by
  have hmem := (SlotMap.lookup_eq_some h.rooted.distinct).1 hy
  have hmem' := (SlotMap.lookup_eq_some h.rooted.distinct).1 hy'
  exact congrArg Prod.fst (List.inj_on_of_nodup_map h.rooted.sectors hmem hmem' rfl)

/-- The handle under the path is given up, if there is one, and no other is on its file. -/
theorem unopen (h : Stocked s a g T) (hn : s.Named P)
    (hinj : ∀ p p', P p → P p' → fileName p = fileName p' → p = p') (hP : P path) :
    ∃ s' r, s.Does (removeFromFileTable path) r s' ∧ Stocked s' a g T ∧ s'.st.cwd = s.st.cwd ∧
      s.KeepsMap s' ∧ s'.Named P ∧ ∀ e ∈ s'.st.fileTable, e.fname ≠ path := by
  cases hopened : s.openedAs path with
  | none =>
    refine ⟨s, false, (s.getFileByFname path).bind ?_, h, rfl, .of_eq rfl rfl rfl, hn,
      fun e he hpath => ?_⟩
    · rw [hopened]
      exact .pure _ _
    · have hfind : s.st.fileTable.find? (fun e' => e'.fname = path) = none :=
        Option.map_eq_none_iff.1 hopened
      exact List.find?_eq_none.1 hfind e he (by simpa using hpath)
  | some f =>
    obtain ⟨e₀, he₀, rfl⟩ := Option.map_eq_some_iff.1 hopened
    have hpath₀ : e₀.fname = path := by simpa using List.find?_some he₀
    have he₀ := List.mem_of_find?_eq_some he₀
    obtain ⟨file, y, hf, hy⟩ := h.opened hopened
    have hdeny := hn.writable e₀ he₀ file hf.handle
    obtain ⟨s₁, hclose, hvol₁, hst₁, hfiles₁, hholds₁, hlive₁⟩ :=
      hf.fileClose h.rooted.vol hdeny
    let s' : Session :=
      ⟨{ s₁.st with fileTable := s₁.st.fileTable.eraseP fun e => e.fname = path }, s₁.image,
        s₁.live, s₁.spare⟩
    have htable : s'.st.fileTable = s.st.fileTable.eraseP fun e => e.fname = path := by
      change s₁.st.fileTable.eraseP _ = _
      rw [hst₁]
    have hcwd : s'.st.cwd = s.st.cwd := by
      change s₁.st.cwd = _
      rw [hst₁]
    have hother {e : FileTableEntry} (he : e ∈ s'.st.fileTable) : e ∈ s.st.fileTable ∧ e.fname ≠ path :=
      mem_eraseP_fname hn.once (htable ▸ he)
    have hne {e : FileTableEntry} (he : e ∈ s'.st.fileTable) : e.f ≠ e₀.f := fun heq => by
      obtain ⟨he, hname⟩ := hother he
      exact hname (List.inj_on_of_nodup_map h.handles he he₀ heq ▸ hpath₀)
    have hget {e : FileTableEntry} (he : e ∈ s'.st.fileTable) :
        s'.st.files.get e.f = s.st.files.get e.f :=
      (hfiles₁ e.f).trans (if_neg (hne he))
    have hholds {p : Ptr} {z : BlockSector} (hp : s.Holds p z) (hz : z ≠ y) : s'.Holds p z :=
      (hholds₁ p z).2 ⟨hp, fun heq => hz ((heq ▸ hp).unique hf.holds)⟩
    have hkeeps₁ : s₁.KeepsMap s' := .of_eq rfl rfl rfl
    refine ⟨s', true, (s.getFileByFname path).bind ?_,
      ⟨?_, fun d hd => ?_, h.dots, h.ends, fun e he => ?_, ?_⟩, hcwd,
      (hf.fileClose_keepsMap h.rooted.vol hdeny hclose).trans hkeeps₁,
      ⟨fun e he => hn.paths e (hother he).1, ?_, fun e he file' hfile => ?_⟩,
      fun e he => (hother he).2⟩
    · rw [hopened]
      exact hclose.bind (Does.bind (show s₁.Does _ () s' from rfl) (.pure _ _))
    · exact h.rooted.next (hvol₁.handles rfl rfl rfl rfl rfl rfl fun _ _ => rfl) hlive₁
    · obtain ⟨dir, hdir, hp, hcnt⟩ := h.cwd d (hcwd ▸ hd)
      refine ⟨dir, ?_, hholds hp (Ne.symm (h.rooted.file_of_lookup hy).2.2.1), hcnt⟩
      change s₁.st.dirs.get d = _
      rw [hst₁]
      exact hdir
    · obtain ⟨he', hname⟩ := hother he
      obtain ⟨file', z, hf', hz⟩ := h.table e he'
      have hzy : z ≠ y := by
        rintro rfl
        exact hname (hinj _ _ (hn.paths e he') hP (h.lookup_inj hz hy))
      exact ⟨file', z, ⟨(hget he).trans hf'.handle, hholds hf'.holds hzy, hf'.sector⟩, hz⟩
    · rw [htable]
      exact h.handles.sublist (List.eraseP_sublist.map _)
    · rw [htable]
      exact hn.once.sublist (List.eraseP_sublist.map _)
    · exact hn.writable e (hother he).1 file' ((hget he).symm.trans hfile)

/-- A file is removed that is open by no other path. -/
theorem follows_rm (h : Stocked s a g T) (hn : s.Named P) (hcwd : s.st.cwd = none)
    (hinj : ∀ p p', P p → P p' → fileName p = fileName p' → p = p') (hpath : NamesFile path)
    (hP : P path) (hdir : directoryTokens path = [])
    (hexec : (fsutilRm path).exec s.st s.image = some (true, st, v)) : s.Follows P st v := by
  obtain ⟨s₁, closed, hclose, h₁, hcwd₁, hkeeps₁, hn₁, hnone₁⟩ := h.unopen hn hinj hP
  have hname : fileName path ≠ [] ∧ slash ∉ fileName path := ⟨hpath.1, (fileName_chars path).1⟩
  obtain ⟨s₂, ok, hremove, hcwd₂, hfiles₂, -, -, -, hres⟩ := h₁.rooted.filesysRemove h₁.cwd hname
  have hremove' : s₁.Does (filesysRemove path) ok s₂ :=
    (exec_filesysRemove_plain hdir (hcwd₁.trans hcwd) hname.1).trans hremove
  have hdoes : s.Does (fsutilRm path) ok s₂ := hclose.bind hremove'
  obtain ⟨rfl, rfl, rfl⟩ : true = ok ∧ st = s₂.st ∧ v = s₂.image := by
    simpa [Does, hexec] using hdoes
  obtain ⟨-, i, y, g', hi, h₂, hlive₂, hholds₂⟩ := hres.resolve_right fun hno => by cases hno.1
  have hy : SlotMap.lookup T (fileName path) = some y := SlotMap.lookup_of_slot h.rooted.distinct hi
  have hperm := SlotMap.free_perm hi
  have htable₂ : s₂.st.fileTable = s₁.st.fileTable := by rw [hfiles₂]
  refine ⟨s₂, _, g', _, rfl, rfl, ⟨h₂, hcwd₂,
    fun x hx => h.dots x (hperm.mem_iff.2 (List.mem_cons_of_mem _ hx)),
    fun z hz b hb => ?_, fun e he => ?_, by rw [htable₂]; exact h₁.handles⟩,
    hkeeps₁.trans (h₁.rooted.filesysRemove_keepsMap h₁.cwd hname hremove),
    hn₁.of_eq htable₂ (by rw [hfiles₂])⟩
  · rw [Function.update_of_ne (h₂.files z hz).2.2.1] at hb
    exact h.ends z ((hperm.map Prod.snd).mem_iff.2 (List.mem_cons_of_mem _ hz)) b hb
  · rw [htable₂] at he
    obtain ⟨file, z, hf, hz⟩ := h₁.table e he
    have hother : fileName e.fname ≠ fileName path :=
      fun heq => hnone₁ e he (hinj _ _ (hn₁.paths e he) hP heq)
    have hzy : z ≠ y := by
      rintro rfl
      exact hother (h.lookup_inj hz hy)
    have hroot := (h₁.rooted.file_of_lookup hz).2.2.1
    refine ⟨file, z, ⟨by rw [hfiles₂]; exact hf.handle, (hholds₂ _ _ hroot).2 ⟨hf.holds, hzy⟩,
      hf.sector⟩, ?_⟩
    rw [SlotMap.lookup_free h.rooted.distinct hi, if_neg hother]
    exact hz

end Stocked

/-! ## Any number of commands -/

namespace FileCommand

variable {s : Session} {a : BlockSector → Option Node} {g : Growable UInt8} {T : Table}
  {P : CString → Prop} {st st' : FsState} {v v' : Image}

/-- **One command.** -/
theorem follows (h : Stocked s a g T) (hn : s.Named P) (hcwd : s.st.cwd = none)
    (hinj : ∀ p p', P p → P p' → fileName p = fileName p' → p = p') {c : FileCommand}
    (hP : P c.path) (hc : c.OnFile) (hexec : c.run.exec s.st s.image = some (true, st, v)) :
    s.Follows P st v := by
  obtain ⟨hpath, h0, hc⟩ := hc
  -- the command, then its answer
  have hrun {α : Type} {m : FsM α} {p : α → Bool}
    (hexec : (do return p (← m) : FsM Bool).exec s.st s.image = some (true, st, v)) :
      ∃ r, p r = true ∧ m.exec s.st s.image = some (r, st, v) := by
    rw [Cmd.exec_bind] at hexec
    obtain ⟨⟨r, st₁, v₁⟩, hm, hpure⟩ := Option.bind_eq_some_iff.1 hexec
    simp only [Cmd.exec_pure, Option.some.injEq, Prod.mk.injEq] at hpure
    obtain ⟨hr, rfl, rfl⟩ := hpure
    exact ⟨r, hr, hm⟩
  cases c with
  | create fname isize => exact h.follows_create hn hpath h0 hc hexec
  | write fname args =>
    obtain ⟨r, hr, hexec⟩ := hrun hexec
    obtain rfl := of_decide_eq_true hr
    cases args with
    | nil => cases hexec
    | cons arg args =>
      rw [writeCommand, Cmd.exec_bind] at hexec
      obtain ⟨⟨k, st₁, v₁⟩, hwrite, hexec⟩ := Option.bind_eq_some_iff.1 hexec
      have hne : writeBuffer (arg :: args) ≠ [] := by rw [writeBuffer_eq]; simp
      simp only [Cmd.exec_ite, Cmd.exec_pure] at hexec
      split at hexec
      · simp at hexec
      · split at hexec
        · simp at hexec
        · next hlength =>
          obtain rfl := not_not.1 hlength
          cases hexec
          exact h.onHandle hn hpath hP hwrite ⟨-1, by omega, rfl⟩ fun h hn hf hy ha hexec =>
            h.follows_write hn hf hy ha hne hexec
  | read fname bytes =>
    obtain ⟨r, hr, hexec⟩ := hrun hexec
    unfold readCommand at hexec
    split at hexec
    · refine h.onHandle hn hpath hP hexec ⟨none, (fun hnone => by rw [← hnone] at hr; cases hr),
        rfl⟩ fun h hn hf _ ha hexec => ?_
      obtain ⟨⟨buffer, st₁, v₁⟩, hread, hpure⟩ :=
        Option.bind_eq_some_iff.1 ((Cmd.exec_bind _ _ _ _).symm.trans hexec)
      cases hpure
      exact h.follows_read hn hf ha hread
    · cases hexec
  | seek fname offset =>
    obtain ⟨r, hr, hexec⟩ := hrun hexec
    obtain rfl := of_decide_eq_true hr
    refine h.onHandle hn hpath hP hexec ⟨-1, by decide, rfl⟩ fun {s₁ f _ _ _} h hn hf _ _ hexec => ?_
    obtain ⟨s', hseek, hm⟩ := hf.fileSeek offset
    have hdoes : s₁.Does (do fileSeek f offset; pure (0 : Int)) 0 s' := hseek.bind (.pure _ _)
    obtain ⟨-, rfl, rfl⟩ : (0 : Int) = 0 ∧ st = s'.st ∧ v = s'.image := by
      simpa using hexec.symm.trans hdoes
    exact h.follows_moves hn hf hm
  | size fname =>
    obtain ⟨r, hr, hexec⟩ := hrun hexec
    refine h.onHandle hn hpath hP hexec ⟨-1, (of_decide_eq_true hr).symm, rfl⟩
      fun {s₁ f file _ b} h hn hf _ ha hexec => ?_
    obtain ⟨s', hseek, hm⟩ := hf.fileSeek file.pos
    have htell : s₁.Does (fileTell f) file.pos s₁ := hf.derefFile.bind (.pure _ _)
    have hlength : s₁.Does (fileLength f) b.length s₁ :=
      hf.derefFile.bind (h.rooted.vol.length_eq hf.holds hf.sector ha)
    have hdoes : s₁.Does (do
        let curOffset ← fileTell f
        let length ← fileLength f
        fileSeek f curOffset
        pure length) (b.length : Int) s' := htell.bind (hlength.bind (hseek.bind (.pure _ _)))
    obtain ⟨-, rfl, rfl⟩ : r = (b.length : Int) ∧ st = s'.st ∧ v = s'.image := by
      simpa using hexec.symm.trans hdoes
    exact h.follows_moves hn hf hm
  | rm fname => exact h.follows_rm hn hcwd hinj hpath hP hc hexec

/-- It leaves each inode in memory held once, and the global directory closed. -/
theorem run_settled {c : FileCommand} (hc : c.OnFile) (h : st.Settled) {ok : Bool}
    (hexec : c.run.exec st v = some (ok, st', v')) : st'.Settled := by
  have hslashes : ¬ Slashes c.path := fun hslash => hc.1.1 hslash.2
  have hopen : Leaves none (Level none) (filesysOpen c.path) := .filesysOpen hslashes
  have hrun : Leaves none (Level none) c.run := by
    cases c with
    | create fname isize =>
      exact .ite (fun _ => Steady.pure _ _) fun _ => Leaves.filesysCreate fname isize
    | write fname args => exact (Leaves.writeCommand hslashes args).bind fun _ => .pure _
    | read fname bytes => exact (Leaves.readCommand hopen bytes).bind fun _ => .pure _
    | seek fname offset =>
      exact (Leaves.onFile hopen fun p => .bind (.fileSeek p offset) fun _ => .pure _).bind fun _ =>
        .pure _
    | size fname => exact (Leaves.fsutilSize hopen).bind fun _ => .pure _
    | rm fname => exact fsutilRm_ensures fname
  exact (hrun _ _ _ _ _ (h.still v) hexec).settled

/-- **Commands that all succeed**, on files that are each named by one path. -/
theorem runAll_follows {cs : List FileCommand} (h : Stocked s a g T) (hn : s.Named P)
    (hst : s.st.Settled) (hinj : ∀ p p', P p → P p' → fileName p = fileName p' → p = p')
    (hcs : ∀ c ∈ cs, c.OnFile ∧ P c.path)
    (hexec : (runAll cs).exec s.st s.image = some (true, st, v)) :
    s.Follows P st v ∧ st.Settled := by
  induction cs generalizing s a g T with
  | nil =>
    cases hexec
    exact ⟨⟨s, a, g, T, rfl, rfl, h, .of_eq rfl rfl rfl, hn⟩, hst⟩
  | cons c cs ih =>
    obtain ⟨⟨hc, hP⟩, hcs⟩ := List.forall_mem_cons.1 hcs
    rw [runAll, Cmd.exec_bind] at hexec
    obtain ⟨⟨ok, st₁, v₁⟩, hrun, hexec⟩ := Option.bind_eq_some_iff.1 hexec
    cases ok with
    | false => cases hexec
    | true =>
      obtain ⟨s₁, a₁, g₁, T₁, rfl, rfl, h₁, hkeeps₁, hn₁⟩ :=
        follows h hn hst.cwd hinj hP hc hrun
      obtain ⟨⟨s', a', g', T', hst', himage', h', hkeeps', hn'⟩, hsettled⟩ :=
        ih h₁ hn₁ (run_settled hc hst hrun) hcs hexec
      exact ⟨⟨s', a', g', T', hst', himage', h', hkeeps₁.trans hkeeps', hn'⟩, hsettled⟩

end FileCommand

/-! ## Shutdown and restart -/

/-- After formatting the inode of the free map is on the device, and no file is open. -/
theorem format_saved {n : BlockSector} {v₀ v : Image} {st : FsState} {P : CString → Prop}
    (hrun : (filesysInit n.toNat true).exec initialState v₀ = some (true, st, v)) :
    let s : Session := ⟨st, v, [rootDirSector], []⟩
    s.image freeMapSector = (s.data freeMapSector).toSector ∧ st.freeMap.length = n.toNat - 1 ∧
      s.Named P := by
  obtain ⟨q, fm, hinv, hf⟩ := Session.Inv.format hrun
  have htable : st.fileTable = [] := by
    rw [hf.state]
    rfl
  refine ⟨?_, hf.size, ⟨?_, ?_, ?_⟩⟩
  · rw [hinv.data_open hf.map]
    exact hf.disk
  · rw [htable]
    exact fun e he => absurd he List.not_mem_nil
  · rw [htable]
    exact List.nodup_nil
  · rw [htable]
    exact fun e he => absurd he List.not_mem_nil

namespace Stocked

variable {s : Session} {a : BlockSector → Option Node} {g : Growable UInt8} {T : Table}
  {P : CString → Prop}

/-- The free map's file and the others can be given up. -/
theorem closes (h : Stocked s a g T) (hst : s.st.Settled) (hn : s.Named P)
    (hinj : ∀ p p', P p → P p' → fileName p = fileName p' → p = p') :
    ∃ p, s.st.freeMapFile = some p ∧ Closes s.st (p :: s.st.fileTable.map FileTableEntry.f) := by
  obtain ⟨q, fm, C, hinv⟩ := h.rooted.vol.inv
  obtain ⟨p, file, hp, hfile, rfl⟩ := hinv.mounted.map.file
  obtain ⟨i, hi, -, hi0⟩ := hinv.mounted.map.inode
  -- each of the others is on the inode of its own sector
  have hentry : ∀ e ∈ s.st.fileTable, ∃ file' y, s.st.files.get e.f = some file' ∧
    s.Holds file'.inode y ∧ y ≠ freeMapSector ∧
      SlotMap.lookup T (fileName e.fname) = some y := by
    intro e he
    obtain ⟨file', y, hf, hy⟩ := h.table e he
    exact ⟨file', y, hf.handle, hf.holds, hf.sector, hy⟩
  refine ⟨p, hp, ⟨fun f hf => ?_, ?_⟩⟩
  · rcases List.mem_cons.1 hf with rfl | hf
    · exact ⟨file, i, hfile, hi, hst.calm _ _ hi⟩
    · obtain ⟨e, he, rfl⟩ := List.mem_map.1 hf
      obtain ⟨file', y, hfile', ⟨j, hj, -⟩, -⟩ := hentry e he
      exact ⟨file', j, hfile', hj, hst.calm _ _ hj⟩
  · rw [List.map_cons, List.map_map, List.nodup_cons, hfile]
    refine ⟨fun hmem => ?_, List.Nodup.map_on (fun e he e' he' heq => ?_) (List.Nodup.of_map _ hn.once)⟩
    · obtain ⟨e, he, heq⟩ := List.mem_map.1 hmem
      obtain ⟨file', y, hfile', ⟨j, hj, hjy⟩, hy0, -⟩ := hentry e he
      simp only [Function.comp_apply, hfile', Option.map_some, Option.some.injEq] at heq
      rw [heq, hi] at hj
      cases hj
      exact hy0 (hjy.symm.trans hi0)
    · obtain ⟨file₁, y, hfile₁, hy, -, hlook⟩ := hentry e he
      obtain ⟨file₂, y', hfile₂, hy', -, hlook'⟩ := hentry e' he'
      simp only [Function.comp_apply, hfile₁, hfile₂, Option.map_some, Option.some.injEq] at heq
      obtain rfl : y = y' := (heq ▸ hy).unique hy'
      have hname := hinj _ _ (hn.paths e he) (hn.paths e' he') (h.lookup_inj hlook hlook')
      exact List.inj_on_of_nodup_map hn.once he he' hname

/-- **The device is mounted again**, with the same free map and the same files. -/
theorem remount (h : Stocked s a g T) (hst : s.st.Settled)
    (hdisk : s.image freeMapSector = (s.data freeMapSector).toSector) {n : Nat}
    (hsize : s.st.freeMap.length = n - 1) :
    ∃ st', (filesysInit n false).exec initialState s.image = some (true, st', s.image) ∧
      st'.freeMap = s.st.freeMap ∧ Stocked ⟨st', s.image, s.live, s.spare⟩ a g T ∧ st'.Settled := by
  let st₀ : FsState := { initialState with freeMap := freeMapInit n }
  have hmap₀ : st₀.freeMap.length = s.st.freeMap.length := (length_freeMapInit n).trans hsize.symm
  obtain ⟨st', hopen, hst', hvol, -⟩ := h.rooted.vol.mount hst.calm hdisk rfl hmap₀
  have htable : st'.fileTable = [] := by
    rw [hst']
    rfl
  have hcwd : st'.cwd = none := by
    rw [hst']
    rfl
  have hexec : (filesysInit n false).exec initialState s.image = some (true, st', s.image) := by
    have hinit : ({ st' with fileTable := [] } : FsState) = st' := by rw [← htable]
    simp only [filesysInit, Cmd.exec_bind, Cmd.exec_modifyState, Option.bind_some,
      Bool.false_eq_true, if_false, Cmd.exec_pure, initFileTable]
    change (freeMapOpen.exec st₀ s.image).bind _ = _
    rw [hopen]
    simp only [Option.bind_some, Bool.and_self, hinit]
  refine ⟨st', hexec, ?_, ⟨h.rooted.next hvol rfl, fun d hd => ?_, h.dots, h.ends, fun e he => ?_,
    ?_⟩, .boot hexec⟩
  · rw [hst']
    rfl
  · rw [hcwd] at hd
    cases hd
  · simp only [htable] at he
    exact absurd he List.not_mem_nil
  · simp only [htable]
    exact List.nodup_nil

end Stocked

/-! ## What is seen of the files -/

/-- The file from its beginning, by the handle under the path. -/
def readFromStart (path : CString) (size : Int) : FsM (Option (List UInt8)) := do
  let _ ← fsutilSeek path 0
  fsutilRead path size

namespace BufferCache

variable {α : Type} {m : FsM α} {st st' : FsState} {c c' : BufferCache} {r : α} {v : Image}

/-- A call on the cache is the call on its contents. -/
theorem exec_of_run (h : m.run st c = some (r, st', c')) :
    m.exec st c.state.view = some (r, st', c'.state.view) := by
  have hexec := Cmd.run_exec view m st c
  rw [h] at hexec
  exact hexec.symm

theorem run_of_exec (h : m.exec st c.state.view = some (r, st', v)) :
    ∃ c', m.run st c = some (r, st', c') ∧ c'.state.view = v := by
  have hexec := Cmd.run_exec view m st c
  change _ = m.exec st c.state.view at hexec
  rw [h, Option.map_eq_some_iff] at hexec
  obtain ⟨⟨r', st'', c'⟩, hrun, heq⟩ := hexec
  simp only [Prod.mk.injEq] at heq
  obtain ⟨rfl, rfl, hview⟩ := heq
  exact ⟨c', hrun, hview⟩

end BufferCache

/-- What the call answers, on the buffer cache. -/
def answer {α : Type} (m : FsM α) (st : FsState) (c : BufferCache) : Option α :=
  (m.run st c).map Prod.fst

theorem answer_exec {α : Type} (m : FsM α) (st : FsState) (c : BufferCache) :
    answer m st c = (m.exec st c.state.view).map Prod.fst := by
  have hexec := Cmd.run_exec BufferCache.view m st c
  change _ = m.exec st c.state.view at hexec
  rw [← hexec, Option.map_map]
  rfl

namespace Stocked

variable {s : Session} {a : BlockSector → Option Node} {g : Growable UInt8} {T : Table} {path : CString}

theorem answers_size (h : Stocked s a g T) (hpath : NamesFile path) :
    ((Fs.fsutilSize path).exec s.st s.image).map Prod.fst =
    some (((SlotMap.lookup T (fileName path)).bind a).elim (-1) fun n => (n.bytes.length : Int)) := by
  cases hy : SlotMap.lookup T (fileName path) with
  | none =>
    obtain ⟨s', -, -, -, ⟨-, hopen⟩ | ⟨y, -, -, hy', -⟩⟩ := h.openFname hpath
    · have hdoes : s.Does (Fs.fsutilSize path) (-1) s' := hopen.bind (.pure _ _)
      rw [hdoes]
      rfl
    · rw [hy] at hy'
      cases hy'
  | some y =>
    obtain ⟨-, -, -, b, ha⟩ := h.rooted.file_of_lookup hy
    obtain ⟨s', -, -, hdoes, -⟩ := h.fsutilSize hpath hy ha
    rw [hdoes, Option.bind_some, ha]
    rfl

theorem answers_read (h : Stocked s a g T) (hpath : NamesFile path) (size : Int) :
    ((readFromStart path size).exec s.st s.image).map Prod.fst =
      some (((SlotMap.lookup T (fileName path)).bind a).map fun n => n.bytes.read size.toNat 0) := by
  have hread {s₁ : Session} {r : Int} {bytes : Option (List UInt8)} {s₂ : Session}
    (hseek : s.Does (fsutilSeek path 0) r s₁)
      (hread : s₁.Does (Fs.fsutilRead path size) bytes s₂) :
      ((readFromStart path size).exec s.st s.image).map Prod.fst = some bytes := by
    have hdoes : s.Does (readFromStart path size) bytes s₂ := hseek.bind hread
    rw [hdoes]
    rfl
  obtain ⟨s₁, h₁, -, -, ⟨hno, hopen⟩ | ⟨y, f, file, hy, hopen, hopened, hf⟩⟩ :=
    h.openFname hpath
  · obtain ⟨s₂, h₂, -, -, ⟨-, hopen₂⟩ | ⟨y, -, -, hy, -⟩⟩ := h₁.openFname hpath
    · rw [hread (hopen.bind (.pure _ _)) (hopen₂.bind (.pure _ _)), hno]
      rfl
    · rw [hno] at hy
      cases hy
  · obtain ⟨-, -, -, b, ha⟩ := h.rooted.file_of_lookup hy
    obtain ⟨s₂, hseek, hm⟩ := hf.fileSeek 0
    obtain ⟨h₂, -, hopened₂, -⟩ := h₁.moves hf hm rfl
    obtain ⟨s₃, hbytes, -⟩ := (hf.moves hm rfl).fileRead h₂.rooted.vol (Int.le_refl 0) ha size
    rw [hread (hopen.bind (hseek.bind (.pure _ _)))
      ((openFname_again ((hopened₂ path).trans hopened)).bind (hbytes.bind (.pure _ _))), hy,
      Option.bind_some, ha]
    rfl

end Stocked

/-- A state after such commands, with its files: the inode of the free map is on the device. -/
theorem FileCommand.session {n : BlockSector} {d : Cache} {cs : List FileCommand}
    {st₁ st₂ : FsState} {c₁ c₂ : BufferCache}
    (hformat : (filesysInit n.toNat true).run initialState (BufferCache.init d) = some (true, st₁,
      c₁))
    (hcs : ∀ c ∈ cs, c.OnFile)
    (hone : ∀ c ∈ cs, ∀ c' ∈ cs, fileName c.path = fileName c'.path → c.path = c'.path)
    (hrun : (FileCommand.runAll cs).run st₁ c₁ = some (true, st₂, c₂)) :
    ∃ s a g T P, s.st = st₂ ∧ s.image = c₂.state.view ∧ Stocked s a g T ∧ s.st.Settled ∧
      s.Named P ∧ (∀ p p', P p → P p' → fileName p = fileName p' → p = p') ∧
      s.image freeMapSector = (s.data freeMapSector).toSector ∧ s.st.freeMap.length = n.toNat - 1 := by
  have hinit := BufferCache.exec_of_run hformat
  obtain ⟨a₀, g₀, T₀, h₀, -⟩ := Stocked.format hinit
  obtain ⟨hdisk₀, hsize₀, hn₀⟩ := format_saved (P := fun path => ∃ c ∈ cs, c.path = path) hinit
  have hinj : ∀ p p', (∃ c ∈ cs, c.path = p) → (∃ c ∈ cs, c.path = p') →
    fileName p = fileName p' →
      p = p' := by
    rintro _ _ ⟨c, hc, rfl⟩ ⟨c', hc', rfl⟩
    exact hone c hc c' hc'
  obtain ⟨⟨s, a, g, T, hst, himage, h, hkeeps, hn⟩, hsettled⟩ :=
    runAll_follows h₀ hn₀ (.boot hinit) hinj
    (fun c hc => ⟨hcs c hc, c, hc, rfl⟩) (BufferCache.exec_of_run hrun)
  exact ⟨s, a, g, T, _, hst, himage, h, hst ▸ hsettled, hn,
    hinj, by rw [hkeeps.image, hkeeps.data, hdisk₀], hkeeps.size.trans hsize₀⟩

/-- The call answers, and the same in both states. -/
def Agrees {α : Type} (m : FsM α) (st : FsState) (c : BufferCache) (st' : FsState)
    (c' : BufferCache) : Prop :=
  ∃ r, answer m st c = some r ∧ answer m st' c' = some r

/-- **Shutdown and restart.** After commands that all succeed, on files each
of which is always named by the same path, `filesys_done` and `filesys_init`
without formatting, on what the device then holds, lose nothing: neither a bit of
the free map, nor a name in the root directory, nor a byte of a file. -/
theorem restart_keeps {n : BlockSector} {d : Cache} {cs : List FileCommand} {st₁ st₂ : FsState}
    {c₁ c₂ : BufferCache}
    (hformat : (filesysInit n.toNat true).run initialState (BufferCache.init d) = some (true, st₁,
      c₁))
    (hcs : ∀ c ∈ cs, c.OnFile)
    (hone : ∀ c ∈ cs, ∀ c' ∈ cs, fileName c.path = fileName c'.path → c.path = c'.path)
    (hrun : (FileCommand.runAll cs).run st₁ c₁ = some (true, st₂, c₂)) :
    ∃ st₃ c₃, filesysDone st₂ c₂ = some (st₃, c₃) ∧ ∀ c : Cache, c.fsDevice.contents =
      c₃.state.fsDevice.contents →
      ∃ st₄ c₄, (filesysInit n.toNat false).run initialState (BufferCache.init c) =
        some (true, st₄, c₄) ∧ st₄.freeMap = st₂.freeMap ∧ Agrees fsutilLs st₂ c₂ st₄ c₄ ∧
        ∀ path, NamesFile path → Agrees (fsutilSize path) st₂ c₂ st₄ c₄ ∧
          ∀ size, Agrees (readFromStart path size) st₂ c₂ st₄ c₄ := by
  obtain ⟨s, a, g, T, P, rfl, himage, h, hsettled, hn, hinj, hdisk, hsize⟩ :=
    FileCommand.session hformat hcs hone hrun
  -- shutdown
  obtain ⟨p, hp, hcloses⟩ := h.closes hsettled hn hinj
  obtain ⟨st₃, hdone⟩ := hcloses.filesysDone hp c₂
  refine ⟨st₃, _, hdone, fun c hc => ?_⟩
  have hview : (BufferCache.init c).state.view = s.image := by
    rw [himage]
    exact (Cache.init_view c).trans (hc.trans c₂.close_contents)
  -- restart
  obtain ⟨st₄, hinit, hmap, h₄, hsettled₄⟩ := h.remount hsettled hdisk hsize
  obtain ⟨c₄, hrun₄, hview₄⟩ := BufferCache.run_of_exec (hview ▸ hinit)
  have hagrees {α : Type} {m : FsM α} {r : α} (hr : (m.exec s.st s.image).map Prod.fst = some r)
      (hr₄ : (m.exec st₄ s.image).map Prod.fst = some r) : Agrees m s.st c₂ st₄ c₄ :=
    ⟨r, by rw [answer_exec, ← himage]; exact hr, by rw [answer_exec, hview₄, hview]; exact hr₄⟩
  refine ⟨st₄, c₄, hrun₄, hmap, ?_, fun path hpath =>
    ⟨hagrees (h.answers_size hpath) (h₄.answers_size hpath),
    fun size => hagrees (h.answers_read hpath size) (h₄.answers_read hpath size)⟩⟩
  obtain ⟨st', hls, -⟩ := hsettled.fsutilLs s.image
  obtain ⟨st'', hls₄, -⟩ := hsettled₄.fsutilLs s.image
  rw [h.rooted.entriesInUse hsettled] at hls
  rw [h₄.rooted.entriesInUse hsettled₄] at hls₄
  exact hagrees (by rw [hls]; rfl) (by rw [hls₄]; rfl)

/-- On a device of 200 sectors, `create a 4` and `size a`. -/
theorem restart_keeps_created : ∃ d st₁ c₁ st₂ c₂, (filesysInit 200 true).run initialState
    (BufferCache.init d) = some (true, st₁, c₁) ∧
    (FileCommand.runAll [.create [97] 4, .size [97]]).run st₁ c₁ = some (true, st₂, c₂) ∧
    ∃ st₃ c₃, filesysDone st₂ c₂ = some (st₃, c₃) ∧ ∀ c : Cache, c.fsDevice.contents =
      c₃.state.fsDevice.contents →
      ∃ st₄ c₄, (filesysInit 200 false).run initialState (BufferCache.init c) =
        some (true, st₄, c₄) ∧ st₄.freeMap = st₂.freeMap ∧ Agrees fsutilLs st₂ c₂ st₄ c₄ ∧
        ∀ path, NamesFile path → Agrees (fsutilSize path) st₂ c₂ st₄ c₄ ∧
          ∀ size, Agrees (readFromStart path size) st₂ c₂ st₄ c₄ := by
  obtain ⟨st, v, -, -, -, hformat, -, -, -, -, hfree, -, -⟩ := exists_rooted
  obtain ⟨a, g, T, h, hempty, hslot, -⟩ := Stocked.format (n := 200) hformat
  have hno : SlotMap.lookup T [97] = none := by
    rw [SlotMap.lookup, hempty]
    rfl
  have hroom : Session.FileRoom ⟨st, v, [rootDirSector], []⟩ 4 :=
    ⟨by decide, by decide, by rw [hfree]; decide⟩
  obtain ⟨s₁, y, g', hcreate, hkeep, hy, -, hrooted₁⟩ :=
    h.rooted.exists_fsutilCreate h.cwd (by decide) (by decide) hno hslot (by decide) hroom
  have h₁ := h.create hkeep (by decide) hno hy hrooted₁
  have hlook : SlotMap.lookup (SlotMap.put T ([97], y)) [97] = some y := by
    rw [SlotMap.lookup_put h.rooted.distinct hno, if_pos rfl]
  obtain ⟨hplain, hpath⟩ := h₁.namesFile hlook
  obtain ⟨-, -, -, b, hb⟩ := hrooted₁.file_of_lookup hlook
  obtain ⟨s₂, -, -, hsize, -⟩ := h₁.fsutilSize hpath (by rw [hplain]; exact hlook) hb
  have hcommands : Session.Does ⟨st, v, [rootDirSector], []⟩
      (FileCommand.runAll [.create [97] 4, .size [97]]) true s₂ := by
    refine Does.bind (r := true) hcreate (Does.bind (r := true) (hsize.bind ?_) (.pure _ _))
    rw [decide_eq_true (by omega : (b.length : Int) ≠ -1)]
    exact .pure _ _
  -- on the buffer cache
  let d : Cache :=
    ⟨fun _ => ⟨false, 0, Sector.zeros, false, false⟩, 0, ⟨200, fun _ => Sector.zeros⟩⟩
  have hview : (BufferCache.init d).state.view = fun _ => Sector.zeros := Cache.init_view d
  obtain ⟨c₁, hrun₁, hview₁⟩ := BufferCache.run_of_exec (hview ▸ hformat)
  obtain ⟨c₂, hrun₂, -⟩ := BufferCache.run_of_exec (hview₁ ▸ hcommands)
  have hcs : ∀ c ∈ [FileCommand.create [97] 4, .size [97]], c.OnFile := by
    simp only [List.mem_cons, List.not_mem_nil, or_false, forall_eq_or_imp, forall_eq,
      FileCommand.OnFile, FileCommand.path, NamesFile]
    decide
  have hone : ∀ c ∈ [FileCommand.create [97] 4, .size [97]],
    ∀ c' ∈ [FileCommand.create [97] 4, .size [97]],
      fileName c.path = fileName c'.path → c.path = c'.path := by
    simp [FileCommand.path]
  exact ⟨d, st, c₁, _, c₂, hrun₁, hrun₂, restart_keeps (n := 200) hrun₁ hcs hone hrun₂⟩

end MyShell.Fs

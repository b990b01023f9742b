/-
Commands on files, in any number and any order, on a formatted device
(interpreter.c). Whatever they do to the files and to the positions in them,
each of the shell's handles stays on its file, and each file ends with a NUL
(`AtPrompt`).

`find_file` does not always find the files that it should: a command that
moved a handle away from the beginning of a file hides the file from it.
-/
import MyShell.Fs.Search

namespace MyShell.Fs

open Storage Session

/-! ## From source -/

/-- The `read` branch of `interpreter`, whose buffer is one byte longer than what is read. -/
def readCommand (fname : CString) (size : Int) : FsM (Option (List UInt8)) :=
  if -1 ≤ size ∧ size + 1 < 2 ^ 31 then fsutilRead fname size else Cmd.fault

/-- Commands on files, with their arguments. -/
inductive Command where
  | create (fname : CString) (isize : Int)
  | write (fname : CString) (args : List CString)
  | read (fname : CString) (bytes : Int)
  | seek (fname : CString) (offset : Int)
  | size (fname : CString)
  | findFile (pattern : CString)

namespace Command

def run : Command → FsM Unit
  | .create fname isize => do
    let _ ← fsutilCreate fname isize
    pure ()
  | .write fname args => do
    let _ ← writeCommand (fname :: args)
    pure ()
  | .read fname bytes => do
    let _ ← readCommand fname bytes
    pure ()
  | .seek fname offset => do
    let _ ← fsutilSeek fname offset
    pure ()
  | .size fname => do
    let _ ← fsutilSize fname
    pure ()
  | .findFile pattern => do
    let _ ← Fs.findFile pattern
    pure ()

/-- Commands one after the other. -/
def runAll : List Command → FsM Unit
  | [] => pure ()
  | c :: cs => do
    c.run
    runAll cs

/-- The arguments are what `interpreter` can give: a string, and an `int`. -/
def Typed : Command → Prop
  | .create fname isize => 0 ∉ fname ∧ isize < 2 ^ 31
  | _ => True

/-- The command makes no file with a directory's name, nor opens a file by a
path of slashes only: that is the root directory, which then stays open. -/
def OnFile : Command → Prop
  | .create fname _ => ¬ IsDots (fileName fname)
  | .write fname _ | .read fname _ | .seek fname _ | .size fname => ¬ Slashes fname
  | .findFile _ => True

end Command

/-! ## Each command -/

namespace Stocked

variable {s s' : Session} {a : BlockSector → Option Node} {g : Growable UInt8} {T : Table} {f : Ptr}
  {file : File} {y : BlockSector} {b : Growable UInt8} {st : FsState} {v : Image} {path : CString}

theorem create {name : CString} {n : Nat} {g' : Growable UInt8} (h : Stocked s a g T)
    (hkeep : s.Keeping s') (hdots : name ≠ [dot] ∧ name ≠ [dot, dot])
    (hno : SlotMap.lookup T name = none) (hy : y ∉ s.live)
    (h' : Rooted s' (Function.update (Function.update a y (some ⟨.zeros n, false⟩)) rootDirSector
      (some ⟨g', true⟩)) g' (SlotMap.put T (name, y))) :
    Stocked s' (Function.update (Function.update a y (some ⟨.zeros n, false⟩)) rootDirSector
      (some ⟨g', true⟩)) g' (SlotMap.put T (name, y)) := by
  refine h.next h' hkeep.cwd (fun x hx => ?_) (fun z hz f hf hne => ?_) (by rw [hkeep.files])
    (fun f file z hz hf => ⟨file, by rw [hkeep.files]; exact hf.handle,
      (hkeep.holds _ _ hz).2 hf.holds, hf.sector⟩)
    fun name' z hz => ?_
  · rcases List.mem_cons.1 (SlotMap.put_perm.mem_iff.1 hx) with rfl | hx
    · exact hdots
    · exact h.dots x hx
  · have hroot : z ≠ rootDirSector := (h'.files z hz).2.2.1
    rw [Function.update_of_ne hroot] at hf
    have hmem := (SlotMap.put_perm.map Prod.snd).mem_iff.1 hz
    rw [List.map_cons] at hmem
    rcases List.mem_cons.1 hmem with rfl | hold
    · rw [Function.update_self] at hf
      cases hf
      rfl
    · rw [Function.update_of_ne] at hf
      · exact h.ends z hold f hf hne
      · rintro rfl
        exact hy (h.rooted.files z hold).1
  · rw [SlotMap.lookup_put h.rooted.distinct hno, if_neg]
    · exact hz
    · rintro rfl
      rw [hno] at hz
      cases hz

/-- A file has been written, and ends with a NUL again. -/
theorem written (h : Stocked s a g T) (hy : y ≠ rootDirSector) (hb : s.Beside s')
    (hholds : ∀ p x, s'.Holds p x ↔ s.Holds p x) (hlive : s'.live = s.live)
    (hvol : Volume s' (Function.update a y (some ⟨b, false⟩)))
    (hend : b.length ≠ 0 → b.get (b.length - 1) = 0) :
    Stocked s' (Function.update a y (some ⟨b, false⟩)) g T := by
  refine h.next (h.rooted.written hy hlive hvol) (fun d hd => ?_) h.dots
    (fun z hz f hf hne => ?_) hb.fileTable
    (fun f file z _ hf => ⟨file, hf.beside hb ((hholds _ _).2 hf.holds)⟩) fun _ _ => id
  · obtain ⟨dir, hget, hp, hcnt⟩ := h.cwd d (hb.cwd ▸ hd)
    exact ⟨dir, by rw [hb.dirs]; exact hget, (hholds _ _).2 hp, hcnt⟩
  · by_cases hzy : z = y
    · subst hzy
      rw [Function.update_self] at hf
      cases hf
      exact hend hne
    · rw [Function.update_of_ne hzy] at hf
      exact h.ends z hz f hf hne

theorem fileRead (h : Stocked s a g T) (hf : OpenFile s f file y) (ha : a y = some ⟨b, false⟩)
    {size : Int} {bytes : List UInt8}
    (hexec : (fileRead f size).exec s.st s.image = some (bytes, st, v)) :
    ∃ s', s'.st = st ∧ s'.image = v ∧ Stocked s' a g T ∧ s.SameCwd s' := by
  have hdone {s' : Session} {bytes' : List UInt8} {pos : Int}
    (hdoes : s.Does (Fs.fileRead f size) bytes' s')
      (hm : s.Moves s' f { file with pos }) : ∃ s', s'.st = st ∧ s'.image = v ∧ Stocked s' a g T ∧
      s.SameCwd s' := by
    obtain ⟨-, rfl, rfl⟩ : bytes = bytes' ∧ st = s'.st ∧ v = s'.image := by
      simpa [Does, hexec] using hdoes
    obtain ⟨h', hsame, -⟩ := h.moves hf hm rfl
    exact ⟨s', rfl, rfl, h', hsame⟩
  rcases Int.lt_or_le file.pos 0 with hneg | hpos
  · have hread := hf.fileRead_negative h.rooted.vol ha hneg size
    split at hread
    · obtain ⟨s', hdoes, hm⟩ := hread
      exact hdone hdoes hm
    · rw [hread] at hexec
      cases hexec
  · obtain ⟨s', hdoes, hm⟩ := hf.fileRead h.rooted.vol hpos ha size
    exact hdone hdoes hm

theorem fileWrite (h : Stocked s a g T) (hf : OpenFile s f file y) (hy : y ∈ T.sectors)
    (ha : a y = some ⟨b, false⟩) {buffer : List UInt8} {k : Int}
    (hexec : (fileWrite f buffer).exec s.st s.image = some (k, st, v)) :
    ∃ s' a', s'.st = st ∧ s'.image = v ∧ Stocked s' a' g T ∧ s.SameCwd s' := by
  by_cases hne : buffer = []
  · -- the buffer has no last byte
    rw [Fs.fileWrite, if_pos hne] at hexec
    cases hexec
  obtain ⟨-, -, hroot, -⟩ := h.rooted.files y hy
  -- the inode's part, then the handle's
  have hdone {s₁ : Session} {a₁ : BlockSector → Option Node} {k' : Int}
      (hwrite : s.Does (inodeWriteAt file.inode (buffer.dropLast ++ [0]) file.pos) k' s₁)
      (hb : s.Beside s₁)
      (hholds : ∀ p x, s₁.Holds p x ↔ s.Holds p x) (h₁ : Stocked s₁ a₁ g T) :
      ∃ s' a', s'.st = st ∧ s'.image = v ∧ Stocked s' a' g T ∧ s.SameCwd s' := by
    obtain ⟨s₂, hdoes, hm⟩ := hf.fileWrite_of hne hwrite hb
    obtain ⟨-, rfl, rfl⟩ : k = k' ∧ st = s₂.st ∧ v = s₂.image := by simpa [Does, hexec] using hdoes
    obtain ⟨h₂, hsame, -⟩ := h₁.moves (hf.beside hb ((hholds _ _).2 hf.holds)) hm rfl
    exact ⟨s₂, a₁, rfl, rfl, h₂, (SameCwd.of_eq hb.cwd hb.dirs).trans hsame⟩
  have hsame {s₁ : Session} (hb : s.Beside s₁) (hholds : ∀ p x, s₁.Holds p x ↔ s.Holds p x)
    (hlive : s₁.live = s.live)
      (hvol : Volume s₁ a) : Stocked s₁ a g T := by
    have hself : Function.update a y (some ⟨b, false⟩) = a := by rw [← ha, Function.update_eq_self]
    have := h.written (b := b) hroot hb hholds hlive (by rw [hself]; exact hvol) (h.ends y hy b ha)
    rwa [hself] at this
  rcases Int.lt_or_le file.pos 0 with hneg | hpos
  · have hderef : (Fs.derefFile f).exec s.st s.image = some (file, s.st, s.image) := hf.derefFile
    have hexec' := hexec
    rw [Fs.fileWrite, if_neg hne, Cmd.exec_bind, hderef, Option.bind_some, Cmd.exec_bind] at hexec'
    obtain ⟨⟨k', st₁, v₁⟩, hwrite, -⟩ := Option.bind_eq_some_iff.1 hexec'
    obtain ⟨-, s₁, rfl, rfl, hb, hholds, hlive, hvol⟩ :=
      h.rooted.vol.writeAt_negative hf.holds hf.sector ha (by simp) hneg hwrite
    exact hdone hwrite hb hholds (hsame hb hholds hlive hvol)
  · obtain ⟨s₁, k', hwrite, hb, hholds, hlive, -, -, hres⟩ :=
      h.rooted.vol.writeAt hf.holds hf.sector ha (buffer.dropLast ++ [0]) file.pos.toNat (by simp)
    rw [Int.toNat_of_nonneg hpos] at hwrite
    rcases hres with ⟨-, -, hvol⟩ | ⟨-, -, hvol⟩
    · exact hdone hwrite hb hholds (h.written hroot hb hholds hlive hvol (fun _ =>
        Growable.last_write (h.ends y hy b ha) _ _))
    · exact hdone hwrite hb hholds (hsame hb hholds hlive hvol)

end Stocked

theorem Stocked.format {n : BlockSector} {v₀ v : Image} {st : FsState}
    (hrun : (filesysInit n.toNat true).exec initialState v₀ = some (true, st, v)) :
    ∃ a g T, Stocked ⟨st, v, [rootDirSector], []⟩ a g T ∧ T.reduceOption = [] ∧ none ∈ T ∧
      st.cwd = none ∧ st.fileTable = [] := by
  obtain ⟨q, fm, -, hf⟩ := Session.Inv.format hrun
  obtain ⟨a, g, hrooted, hcwd⟩ := Rooted.format hrun
  have hempty : (List.replicate 999 (none : Option (CString × BlockSector))).reduceOption = [] :=
    List.reduceOption_replicate_none
  have hnone : st.cwd = none ∧ st.fileTable = [] := by
    rw [hf.state]
    exact ⟨rfl, rfl⟩
  refine ⟨a, g, _, ⟨hrooted, hcwd, ?_, ?_, ?_, ?_⟩, hempty,
    List.mem_replicate.2 ⟨by omega, rfl⟩, hnone⟩
  · rw [hempty]
    exact fun x hx => absurd hx List.not_mem_nil
  · rw [Table.sectors, hempty]
    exact fun y hy => absurd hy List.not_mem_nil
  · simp only [hnone.2]
    exact fun e he => absurd he List.not_mem_nil
  · simp only [hnone.2]
    exact List.nodup_nil

/-- The shell waits for a command. -/
def AtPrompt (st : FsState) (v : Image) : Prop :=
  ∃ s a g T, s.st = st ∧ s.image = v ∧ Stocked s a g T ∧ st.cwd = none

namespace AtPrompt

variable {st st' : FsState} {v v' : Image} {path : CString}

/-- A command that works on the handle under the path. -/
theorem openFname {α : Type} {k : Option Ptr → FsM α} {r : α} (h : AtPrompt st v)
    (hpath : ¬ Slashes path) (hexec : (openFname path >>= k).exec st v = some (r, st', v'))
    (hnone : ∃ answer, k none = pure answer)
    (hsome : ∀ {s a g T f file y b}, Stocked s a g T → OpenFile s f file y → y ∈ T.sectors →
      a y = some ⟨b, false⟩ → (k (some f)).exec s.st s.image = some (r, st', v') →
      ∃ s' a', s'.st = st' ∧ s'.image = v' ∧ Stocked s' a' g T ∧ s.SameCwd s') : AtPrompt st' v' := by
  obtain ⟨s, a, g, T, rfl, rfl, h, hcwd⟩ := h
  obtain ⟨answer, hanswer⟩ := hnone
  have hclosed {s₁ : Session} (h₁ : Stocked s₁ a g T) (hcwd₁ : s₁.st.cwd = none)
    (hopen : s.Does (Fs.openFname path) none s₁) :
      AtPrompt st' v' := by
    have hdoes : s.Does (Fs.openFname path >>= k) answer s₁ :=
      hopen.bind (by rw [hanswer]; exact .pure _ _)
    obtain ⟨-, rfl, rfl⟩ : r = answer ∧ st' = s₁.st ∧ v' = s₁.image := by
      simpa [Does, hexec] using hdoes
    exact ⟨s₁, a, g, T, rfl, rfl, h₁, hcwd₁⟩
  rcases h.openFname_cases hcwd hpath with hfile | hopen | hfault
  · obtain ⟨s₁, h₁, hsame₁, -, ⟨-, hopen⟩ | ⟨y, f, file, hy, hopen, -, hf⟩⟩ :=
      h.openFname hfile
    · exact hclosed h₁ (hsame₁.cwd.trans hcwd) hopen
    · have hopen : (Fs.openFname path).exec s.st s.image = some (some f, s₁.st, s₁.image) := hopen
      rw [Cmd.exec_bind, hopen, Option.bind_some] at hexec
      obtain ⟨-, -, -, b, ha⟩ := h.rooted.file_of_lookup hy
      have hmem : y ∈ T.sectors :=
        Table.mem_sectors.2 ⟨_, (SlotMap.lookup_eq_some h.rooted.distinct).1 hy⟩
      obtain ⟨s', a', rfl, rfl, h', hsame'⟩ := hsome h₁ hf hmem ha hexec
      exact ⟨s', a', g, T, rfl, rfl, h', (hsame₁.trans hsame').cwd.trans hcwd⟩
  · exact hclosed h hcwd hopen
  · rw [Cmd.exec_bind, hfault] at hexec
    cases hexec

theorem create (h : AtPrompt st v) {fname : CString} {isize : Int} {ok : Bool}
    (htyped : (Command.create fname isize).Typed) (hc : (Command.create fname isize).OnFile)
    (hexec : (fsutilCreate fname isize).exec st v = some (ok, st', v')) : AtPrompt st' v' := by
  obtain ⟨h0, hlt⟩ := htyped
  unfold fsutilCreate at hexec
  split at hexec
  · cases hexec
    exact h
  · obtain ⟨s, a, g, T, rfl, rfl, h, hcwd⟩ := h
    obtain ⟨hslash, hsub⟩ := fileName_chars fname
    obtain ⟨s', ok', hdoes, hkeep, hres⟩ :=
      h.rooted.filesysCreate_cases h.cwd rfl ⟨fun hmem => h0 (hsub hmem), hslash⟩ hlt
    obtain ⟨-, rfl, rfl⟩ : ok = ok' ∧ st' = s'.st ∧ v' = s'.image := by
      simpa [Does, hexec] using hdoes
    rcases hres with ⟨-, -, -, hno, -, y, g', hy, -, -, h'⟩ | ⟨-, -, h', -⟩
    · exact ⟨s', _, _, _, rfl, rfl, h.create hkeep (not_or.1 hc) hno hy h', hkeep.dir.cwd.trans hcwd⟩
    · exact ⟨s', a, g, T, rfl, rfl, h.keeping h' hkeep.cwd hkeep.files hkeep.holds,
        hkeep.dir.cwd.trans hcwd⟩

theorem writeCommand (h : AtPrompt st v) {fname : CString} {args : List CString}
    {answer : Error × Option (Int × Int)} (hc : (Command.write fname args).OnFile)
    (hexec : (Fs.writeCommand (fname :: args)).exec st v = some (answer, st', v')) :
    AtPrompt st' v' := by
  cases args with
  | nil =>
    cases hexec
    exact h
  | cons arg args =>
    rw [Fs.writeCommand, Cmd.exec_bind] at hexec
    obtain ⟨⟨k, st₁, v₁⟩, hwrite, hexec⟩ := Option.bind_eq_some_iff.1 hexec
    -- whatever it answers, nothing else is done
    obtain ⟨rfl, rfl⟩ : st₁ = st' ∧ v₁ = v' := by
      simp only [Cmd.exec_ite, Cmd.exec_pure] at hexec
      split at hexec
      · cases hexec
        exact ⟨rfl, rfl⟩
      · split at hexec
        · cases hexec
          exact ⟨rfl, rfl⟩
        · cases hexec
          exact ⟨rfl, rfl⟩
    exact h.openFname hc hwrite ⟨_, rfl⟩ fun h hf hy ha hexec => h.fileWrite hf hy ha hexec

theorem findFile (h : AtPrompt st v) {pattern : CString} {printed : List Printed}
    (hexec : (Fs.findFile pattern).exec st v = some (printed, st', v')) : AtPrompt st' v' := by
  obtain ⟨s, a, g, T, rfl, rfl, h, hcwd⟩ := h
  have hfind := h.findFile hcwd pattern
  cases hmap : (T.names.mapM (s.search a T pattern)).map List.flatten with
  | none =>
    rw [hmap] at hfind
    cases hexec.symm.trans hfind
  | some printed' =>
    rw [hmap] at hfind
    obtain ⟨s', hdoes, h', hcwd'⟩ := hfind
    obtain ⟨-, rfl, rfl⟩ : printed = printed' ∧ st' = s'.st ∧ v' = s'.image := by
      simpa [Does, hexec] using hdoes
    exact ⟨s', a, g, T, rfl, rfl, h', hcwd'⟩

/-- **One command.** -/
theorem run (h : AtPrompt st v) {c : Command} (htyped : c.Typed) (hc : c.OnFile)
    (hexec : c.run.exec st v = some ((), st', v')) : AtPrompt st' v' := by
  -- the command, then nothing more
  have hrun {α : Type} {m : FsM α} (hexec : (do let _ ← m; pure () : FsM Unit).exec st v =
    some ((), st', v')) :
      ∃ r, m.exec st v = some (r, st', v') := by
    rw [Cmd.exec_bind] at hexec
    obtain ⟨⟨r, st₁, v₁⟩, hm, hpure⟩ := Option.bind_eq_some_iff.1 hexec
    cases hpure
    exact ⟨r, hm⟩
  cases c with
  | create fname isize =>
    obtain ⟨ok, hexec⟩ := hrun hexec
    exact h.create htyped hc hexec
  | write fname args =>
    obtain ⟨answer, hexec⟩ := hrun hexec
    exact h.writeCommand hc hexec
  | read fname bytes =>
    obtain ⟨answer, hexec⟩ := hrun hexec
    unfold readCommand at hexec
    split at hexec
    · refine h.openFname hc hexec ⟨_, rfl⟩ fun {_ a} _ _ _ _ _ _ h hf _ ha hexec => ?_
      obtain ⟨⟨buffer, st₁, v₁⟩, hread, hpure⟩ :=
        Option.bind_eq_some_iff.1 ((Cmd.exec_bind _ _ _ _).symm.trans hexec)
      cases hpure
      obtain ⟨s', hst, himage, h', hsame⟩ := h.fileRead hf ha hread
      exact ⟨s', a, hst, himage, h', hsame⟩
    · cases hexec
  | seek fname offset =>
    obtain ⟨answer, hexec⟩ := hrun hexec
    refine h.openFname hc hexec ⟨_, rfl⟩ fun {s a} _ _ f _ _ _ h hf _ _ hexec => ?_
    obtain ⟨s', hseek, hm⟩ := hf.fileSeek offset
    have hdoes : s.Does (do fileSeek f offset; pure (0 : Int)) 0 s' := hseek.bind (.pure _ _)
    have hexec : (do fileSeek f offset; pure (0 : Int)).exec s.st s.image =
        some (answer, st', v') := hexec
    obtain ⟨-, rfl, rfl⟩ : answer = 0 ∧ st' = s'.st ∧ v' = s'.image := by
      simpa using hexec.symm.trans hdoes
    obtain ⟨h', hsame, -⟩ := h.moves hf hm rfl
    exact ⟨s', a, rfl, rfl, h', hsame⟩
  | size fname =>
    obtain ⟨answer, hexec⟩ := hrun hexec
    refine h.openFname hc hexec ⟨_, rfl⟩ fun {s a} _ _ f file y b h hf _ ha hexec => ?_
    obtain ⟨s', hsize, hm⟩ := h.seekBack hf ha
    obtain ⟨-, rfl, rfl⟩ : answer = b.length ∧ st' = s'.st ∧ v' = s'.image := by
      simpa using hexec.symm.trans hsize
    obtain ⟨h', hsame, -⟩ := h.moves hf hm rfl
    exact ⟨s', a, rfl, rfl, h', hsame⟩
  | findFile pattern =>
    obtain ⟨printed, hexec⟩ := hrun hexec
    exact h.findFile hexec

theorem runAll (h : AtPrompt st v) {cs : List Command} (htyped : ∀ c ∈ cs, c.Typed)
    (hcs : ∀ c ∈ cs, c.OnFile) (hexec : (Command.runAll cs).exec st v = some ((), st', v')) :
    AtPrompt st' v' := by
  induction cs generalizing st v with
  | nil =>
    cases hexec
    exact h
  | cons c cs ih =>
    rw [Command.runAll, Cmd.exec_bind] at hexec
    obtain ⟨⟨u, st₁, v₁⟩, hfirst, hrest⟩ := Option.bind_eq_some_iff.1 hexec
    exact ih (h.run (htyped c List.mem_cons_self) (hcs c List.mem_cons_self) hfirst)
      (fun c' hc' => htyped c' (List.mem_cons_of_mem _ hc'))
      (fun c' hc' => hcs c' (List.mem_cons_of_mem _ hc')) hrest

theorem format {n : BlockSector} {v₀ : Image}
    (hrun : (filesysInit n.toNat true).exec initialState v₀ = some (true, st, v)) :
    AtPrompt st v := by
  obtain ⟨a, g, T, h, -, -, hcwd, -⟩ := Stocked.format hrun
  exact ⟨_, a, g, T, rfl, rfl, h, hcwd⟩

end AtPrompt

/-! ## What a search finds -/

/-- **Searches between commands.** After any commands that leave the root
directory closed, and make no file with a name like its own, a search prints
the names of the files whose content up to the first NUL contains the pattern,
exactly if no file is empty, and each file is not open under its name, or is at
its beginning, or else is open further on and does not contain the pattern. -/
theorem find_file_names {n : BlockSector} {v₀ v v' : Image} {st st' : FsState} {cs : List Command}
    (hformat : (filesysInit n.toNat true).exec initialState v₀ = some (true, st, v))
    (htyped : ∀ c ∈ cs, c.Typed) (hcs : ∀ c ∈ cs, c.OnFile)
    (hexec : (Command.runAll cs).exec st v = some ((), st', v')) :
    ∃ s a g T, s.st = st' ∧ s.image = v' ∧ Rooted s a g T ∧ ∀ pattern,
      ((∃ printed st'' v'', (findFile pattern).exec st' v' = some (printed, st'', v'') ∧
          ∀ name y b, SlotMap.lookup T name = some y → a y = some ⟨b, false⟩ →
            (Printed.name name ∈ printed ↔ pattern <:+: upToNul b)) ↔
        ∀ name y b, SlotMap.lookup T name = some y → a y = some ⟨b, false⟩ →
          b.length ≠ 0 ∧ (s.position name = 0 ∨ 0 < s.position name ∧ ¬ pattern <:+: upToNul b)) := by
  obtain ⟨s, a, g, T, rfl, rfl, h, hcwd⟩ := (AtPrompt.format hformat).runAll htyped hcs hexec
  exact ⟨s, a, g, T, rfl, rfl, h.rooted, h.finds_iff hcwd⟩

/-- On a device of 200 sectors, `create a n` and `write a hi`. -/
theorem exists_written {n : Nat} (hn : 4 ≤ n) (hmax : n ≤ 512) : ∃ st v s a g T y,
    (filesysInit 200 true).exec initialState (fun _ => Sector.zeros) = some (true, st, v) ∧
    (Command.runAll [.create [97] n, .write [97] [[104, 105]]]).exec st v = some ((), s.st, s.image) ∧
    Stocked s a g T ∧ s.st.cwd = none ∧ T.names = [[97]] ∧ SlotMap.lookup T [97] = some y ∧
    a y = some ⟨(Growable.zeros n).write 0 [104, 105, 0, 0], false⟩ ∧ s.position [97] = 2 := by
  obtain ⟨st, v, -, -, -, hformat, -, -, -, -, hfree, -, -⟩ := exists_rooted
  obtain ⟨a, g, T₀, h, hempty, hslot, hcwd, htable⟩ := Stocked.format (n := 200) hformat
  have hno : SlotMap.lookup T₀ [97] = none := by
    rw [SlotMap.lookup, hempty]
    rfl
  have hname : ([97] : CString) ≠ [] ∧ 0 ∉ ([97] : CString) ∧ slash ∉ ([97] : CString) := by decide
  have hroom : Session.FileRoom ⟨st, v, [rootDirSector], []⟩ n := by
    have hone : bytesToSectors (n : Int).toNat = 1 := by
      unfold bytesToSectors divRoundUp blockSectorSize
      omega
    refine ⟨Int.natCast_nonneg _, by rw [hone]; decide, ?_⟩
    rw [hone, hfree]
    decide
  obtain ⟨s₁, y, g', hcreate, hkeep, hy, -, hrooted₁⟩ :=
    h.rooted.exists_fsutilCreate h.cwd hname (by decide) hno hslot (by omega) hroom
  have h₁ := h.create hkeep (by decide) hno hy hrooted₁
  have hlook : SlotMap.lookup (SlotMap.put T₀ ([97], y)) [97] = some y := by
    rw [SlotMap.lookup_put h.rooted.distinct hno, if_pos rfl]
  have hnames : Table.names (SlotMap.put T₀ ([97], y)) = [[97]] := by
    have hperm := (SlotMap.put_perm (l := T₀) (x := (([97] : CString), y))).map Prod.fst
    rw [hempty, List.map_cons, List.map_nil] at hperm
    exact List.perm_singleton.1 hperm
  have hroot : y ≠ rootDirSector := (hrooted₁.file_of_lookup hlook).2.2.1
  have hnode₁ : Function.update (Function.update a y (some ⟨Growable.zeros n, false⟩)) rootDirSector
    (some ⟨g', true⟩) y =
      some ⟨Growable.zeros n, false⟩ := by
    rw [Function.update_of_ne hroot, Function.update_self]
  obtain ⟨hplain, hpath⟩ := h₁.namesFile hlook
  have hposition₁ : s₁.position [97] = 0 := by
    rw [hkeep.files.position, Session.position, openedAs]
    simp [htable]
  -- it is opened and written
  obtain ⟨s₂, h₂, hsame₂, hposition₂, ⟨hno₂, -⟩ | ⟨y', f, file, hy', hopen, hopened₂,
      hf₂⟩⟩ :=
    h₁.openFname hpath
  · rw [hplain, hlook] at hno₂
    cases hno₂
  obtain rfl : y = y' := Option.some.inj (hlook.symm.trans (by rw [← hplain]; exact hy'))
  have hzero : file.pos = (0 : Nat) := by
    rw [← position_of hopened₂ hf₂, hposition₂, hposition₁]
    rfl
  obtain ⟨s₃, k, hwrite, hb₃, hholds₃, hlive₃, -, -, hres₃⟩ :=
    h₂.rooted.vol.writeAt hf₂.holds hf₂.sector hnode₁ [104, 105, 0, 0] 0 (by simp)
  have hroom₃ := h₂.rooted.vol.room_of_le hf₂.sector (.inr ⟨_, hf₂.holds⟩) hnode₁
    (show 0 < 4 by decide) hn
  obtain ⟨-, hk, hvol₃⟩ := hres₃.resolve_right fun hno => hno.1 hroom₃
  rw [← hzero] at hwrite
  have hne : ([104, 105, 0, 0] : List UInt8) ≠ [] := by simp
  obtain ⟨s₄, hdoes₄, hm₄⟩ := hf₂.fileWrite_of hne hwrite hb₃
  have h₃ := h₂.written hroot hb₃ hholds₃ hlive₃ hvol₃ fun _ =>
    Growable.last_write (fun _ => rfl) 0 [104, 105, 0]
  have hf₃ := hf₂.beside hb₃ ((hholds₃ _ _).2 hf₂.holds)
  obtain ⟨h₄, hsame₄, hopened₄, -⟩ := h₃.moves hf₃ hm₄ rfl
  have hcommand : s₁.Does (writeCommand [[97], [104, 105]]) (.noError, none) s₄ := by
    refine (hopen.bind hdoes₄).bind ?_
    rw [hk, if_neg (by decide), if_neg (by decide)]
    exact .pure _ _
  have hfirst : Session.Does ⟨st, v, [rootDirSector], []⟩ (Command.run (.create [97] n)) () s₁ :=
    hcreate.bind (.pure _ _)
  have hsecond : s₁.Does (Command.run (.write [97] [[104, 105]])) () s₄ := hcommand.bind (.pure _ _)
  have hrun : Session.Does ⟨st, v, [rootDirSector], []⟩
      (Command.runAll [.create [97] n, .write [97] [[104, 105]]]) () s₄ :=
    hfirst.bind (hsecond.bind (.pure _ _))
  refine ⟨st, v, s₄, _, g', _, y, hformat, hrun, h₄, ?_, hnames, hlook, Function.update_self .., ?_⟩
  · rw [hsame₄.cwd, hb₃.cwd, hsame₂.cwd, hkeep.dir.cwd]
    exact hcwd
  · have hopened₃ : s₃.openedAs [97] = some f := by
      rw [openedAs, hb₃.fileTable]
      exact hopened₂
    rw [position_of ((hopened₄ [97]).trans hopened₃) (hf₃.moves hm₄ rfl), hzero, hk]
    rfl

theorem find_file_names_written : ∃ st v st' v',
    (filesysInit 200 true).exec initialState (fun _ => Sector.zeros) = some (true, st, v) ∧
    (Command.runAll [.create [97] 4, .write [97] [[104, 105]]]).exec st v = some ((), st', v') ∧
    ∃ s a g T, s.st = st' ∧ s.image = v' ∧ Rooted s a g T ∧
      ((∃ printed st'' v'', (findFile [105]).exec st' v' = some (printed, st'', v'') ∧
          ∀ name y b, SlotMap.lookup T name = some y → a y = some ⟨b, false⟩ →
            (Printed.name name ∈ printed ↔ [105] <:+: upToNul b)) ↔
        ∀ name y b, SlotMap.lookup T name = some y → a y = some ⟨b, false⟩ →
          b.length ≠ 0 ∧ (s.position name = 0 ∨ 0 < s.position name ∧ ¬ [105] <:+: upToNul b)) := by
  obtain ⟨st, v, s, -, -, -, -, hformat, hexec, -⟩ := exists_written (Nat.le_refl 4) (by decide)
  have htyped : ∀ c ∈ [Command.create [97] 4, .write [97] [[104, 105]]], c.Typed := by
    simp only [List.mem_cons, List.not_mem_nil, or_false, forall_eq_or_imp, forall_eq, Command.Typed]
    decide
  have hcs : ∀ c ∈ [Command.create [97] 4, .write [97] [[104, 105]]], c.OnFile := by
    simp only [List.mem_cons, List.not_mem_nil, or_false, forall_eq_or_imp, forall_eq,
      Command.OnFile, Slashes]
    decide
  obtain ⟨s', a, g, T, hst, himage, hrooted, hiff⟩ :=
    find_file_names (n := 200) hformat htyped hcs hexec
  exact ⟨st, v, _, _, hformat, hexec, s', a, g, T, hst, himage, hrooted, hiff _⟩

/-- The write has left the handle behind the text, and `find_file i` does not
find the file: it reads on from there, and prints that it could not read it. -/
theorem find_file_missed : ∃ st v s a g T y b st' v',
    (filesysInit 200 true).exec initialState (fun _ => Sector.zeros) = some (true, st, v) ∧
    (Command.runAll [.create [97] 4, .write [97] [[104, 105]]]).exec st v = some ((), s.st, s.image) ∧
    Rooted s a g T ∧ SlotMap.lookup T [97] = some y ∧ a y = some ⟨b, false⟩ ∧ [105] <:+: upToNul b ∧
    (findFile [105]).exec s.st s.image = some ([.errorReading [97]], st', v') := by
  obtain ⟨st, v, s, a, g, T, y, hformat, hexec, h, hcwd, hnames, hlook, hnode, hposition⟩ :=
    exists_written (Nat.le_refl 4) (by decide)
  have hfind := h.findFile hcwd [105]
  have hsearch : s.search a T [105] [97] = some [.errorReading [97]] := by
    simp [Session.search, hlook, hnode, hposition, searchFrom]
  rw [hnames, List.mapM_cons, hsearch] at hfind
  obtain ⟨s', hdoes, -⟩ := hfind
  exact ⟨st, v, s, a, g, T, y, _, s'.st, s'.image, hformat, hexec, h.rooted, hlook,
    hnode, by decide, hdoes⟩

end MyShell.Fs

/-
The shell's file commands (fsutil.c) and the `write` command of the
interpreter, which joins its words in a buffer of one byte more than they
need, for the two bytes that `file_write` makes of the end.
-/
import MyShell.Fs.OpenFile

namespace MyShell.Fs

open Storage Session

/-! ## From source -/

/-- `enum Error`, as far as the commands here answer with it. -/
inductive Error where
  | noError
  | fileDoesNotExist
  | noMemSpace
  | tooFewTokens
  | fileCreationError
  | fileWriteError
  deriving DecidableEq

/-- What `fsutil_write`, `fsutil_read`, `fsutil_size` and `fsutil_seek` start
with: the file open under the name, or else it is opened and entered. -/
def openFname (fileName : CString) : FsM (Option Ptr) := do
  match ← getFileByFname fileName with
  | some f => pure (some f)
  | none =>
    match ← filesysOpen fileName with
    | none => pure none
    | some f => do
      addToFileTable f fileName
      pure (some f)

def fsutilRm (fileName : CString) : FsM Bool := do
  let _ ← removeFromFileTable fileName
  filesysRemove fileName

def fsutilCreate (fname : CString) (isize : Int) : FsM Bool :=
  if fname.length = 0 ∨ 255 ≤ fname.length then pure false else filesysCreate fname isize false

def fsutilWrite (fileName : CString) (buffer : List UInt8) : FsM Int := do
  match ← openFname fileName with
  | none => pure (-1)
  | some f => fileWrite f buffer

/-- The bytes read, or none where it answers -1. -/
def fsutilRead (fileName : CString) (size : Int) : FsM (Option (List UInt8)) := do
  match ← openFname fileName with
  | none => pure none
  | some f => return some (← fileRead f size)

def fsutilSize (fileName : CString) : FsM Int := do
  match ← openFname fileName with
  | none => pure (-1)
  | some f => do
    let curOffset ← fileTell f
    let length ← fileLength f
    fileSeek f curOffset
    pure length

def fsutilSeek (fileName : CString) (offset : Int) : FsM Int := do
  match ← openFname fileName with
  | none => pure (-1)
  | some f => do
    fileSeek f offset
    pure 0

def fsutilClose (fileName : CString) : FsM Unit := do
  let _ ← removeFromFileTable fileName
  pure ()

def fsutilFreespace : FsM Nat := numFreeSectors

/-- `strcpy (buffer + ofs, src)` -/
def strcpy (buffer : List UInt8) (ofs : Nat) (src : CString) : List UInt8 :=
  buffer.take ofs ++ (src ++ 0 :: buffer.drop (ofs + src.length + 1))

/-- The space character. -/
def space : UInt8 := 32

/-- The loop over the arguments: the buffer and `current_ind`. -/
def joinArgs (buffer : List UInt8) (currentInd : Nat) : List CString → List UInt8 × Nat
  | [] => (buffer, currentInd)
  | arg :: args =>
    let buffer := strcpy buffer currentInd arg
    let currentInd := currentInd + arg.length
    joinArgs (strcpy buffer currentInd [space]) (currentInd + 1) args

/-- The buffer that the `write` branch of `interpreter` makes of its words. -/
def writeBuffer (args : List CString) : List UInt8 :=
  let size := (args.map List.length).sum + (args.length + 1)
  let (buffer, currentInd) := joinArgs (List.replicate size 0) 0 args
  buffer.set (currentInd - 1) 0

/-- The `write` branch of `interpreter`, with the arguments after the
command's name: what it answers, and the numbers in its warning if it prints
one. -/
def writeCommand : List CString → FsM (Error × Option (Int × Int))
  | fname :: arg :: args => do
    let buffer := writeBuffer (arg :: args)
    let bytesWritten ← fsutilWrite fname buffer
    if bytesWritten = -1 then pure (.fileWriteError, none)
    else if bytesWritten ≠ buffer.length then pure (.noError, some (bytesWritten, buffer.length))
    else pure (.noError, none)
  | _ => pure (.tooFewTokens, none)

/-- Writes to one file, one after the other, each given by its words. -/
def writeCommands (fname : CString) : List (List CString) → FsM (List (Error × Option (Int × Int)))
  | [] => pure []
  | args :: rest => do
    let answer ← writeCommand (fname :: args)
    let answers ← writeCommands fname rest
    pure (answer :: answers)

/-! ## The buffer -/

/-- The words, joined by single spaces. -/
def text : List CString → List UInt8
  | [] => []
  | [arg] => arg
  | arg :: args => arg ++ space :: text args

theorem strcpy_append (pre : List UInt8) (src : CString) {n : Nat} (hn : src.length < n) :
    strcpy (pre ++ List.replicate n 0) pre.length src = pre ++ src ++
    List.replicate (n - src.length) 0 := by
  have hdrop : (pre ++ List.replicate n (0 : UInt8)).drop (pre.length + src.length + 1) =
      List.replicate (n - (src.length + 1)) 0 := by
    rw [Nat.add_assoc, List.drop_append, List.drop_of_length_le (by omega), List.drop_replicate]
    simp
  rw [strcpy, List.take_left, hdrop, show n - src.length =
    n - (src.length + 1) + 1 by omega, List.replicate_succ, List.append_assoc]

/-- The buffer after the loop: each word with a space behind it, then zeros. -/
theorem joinArgs_eq (args : List CString) (pre : List UInt8) {n : Nat}
    (hn : (args.map List.length).sum + args.length < n) :
    joinArgs (pre ++ List.replicate n 0) pre.length args =
      (pre ++ args.flatMap (· ++ [space]) ++
        List.replicate (n - ((args.map List.length).sum + args.length)) 0,
        pre.length + ((args.map List.length).sum + args.length)) := by
  induction args generalizing pre n with
  | nil => simp [joinArgs]
  | cons arg args ih =>
    simp only [List.map_cons, List.sum_cons, List.length_cons] at hn ⊢
    have hspace :=
      strcpy_append (pre ++ arg) [space] (n := n - arg.length)
        (by simp only [List.length_singleton]; omega)
    rw [List.length_append, List.length_singleton] at hspace
    have hlen : (pre ++ arg ++ [space]).length = pre.length + arg.length + 1 := by
      rw [List.length_append, List.length_append, List.length_singleton]
    rw [joinArgs, strcpy_append pre arg (by omega), hspace, ← hlen, ih _ (by omega), hlen,
      List.flatMap_cons]
    simp only [List.append_assoc, Prod.mk.injEq]
    refine ⟨?_, by omega⟩
    rw [show n - arg.length - 1 - ((args.map List.length).sum + args.length) =
      n - (arg.length + (args.map List.length).sum + (args.length + 1)) by omega]

theorem flatMap_space (arg : CString) (args : List CString) :
    (arg :: args).flatMap (· ++ [space]) = text (arg :: args) ++ [space] := by
  induction args generalizing arg with
  | nil => simp [text]
  | cons arg' args ih =>
    rw [List.flatMap_cons, ih, show text (arg :: arg' :: args) = arg ++
      space :: text (arg' :: args) from rfl]
    simp

/-- **The buffer** holds the text and two zeros. -/
theorem writeBuffer_eq (arg : CString) (args : List CString) :
    writeBuffer (arg :: args) = text (arg :: args) ++ [0, 0] := by
  have hjoin := joinArgs_eq (arg :: args) [] (n :=
    ((arg :: args).map List.length).sum + ((arg :: args).length + 1)) (by omega)
  have hlen : (text (arg :: args)).length + 1 =
      ((arg :: args).map List.length).sum + (arg :: args).length := by
    have := congrArg List.length (flatMap_space arg args)
    simpa [List.length_flatMap, Function.comp_def, Nat.add_assoc] using this.symm
  rw [flatMap_space] at hjoin
  simp only [List.nil_append, List.length_nil, Nat.zero_add] at hjoin
  rw [writeBuffer, hjoin]
  simp only
  rw [← hlen, show ((arg :: args).map List.length).sum + ((arg :: args).length + 1) - ((text
    (arg :: args)).length + 1) = 1 by omega, Nat.add_sub_cancel]
  simp

/-- The file that is open under the name. -/
def Session.openedAs (s : Session) (fname : CString) : Option Ptr :=
  (s.st.fileTable.find? fun e => e.fname = fname).map FileTableEntry.f

theorem Session.getFileByFname (s : Session) (fname : CString) :
    s.Does (getFileByFname fname) (s.openedAs fname) s :=
  rfl

theorem Session.openFname_again {s : Session} {fname : CString} {f : Ptr}
    (h : s.openedAs fname = some f) : s.Does (openFname fname) (some f) s := by
  refine (s.getFileByFname fname).bind ?_
  rw [h]
  exact .pure _ _

/-! ## Writes in a row -/

/-- The inode's first bytes. -/
structure Session.Begins (s : Session) (x : BlockSector) (bytes : List UInt8) : Prop where
  length : bytes.length ≤ (s.data x).length.toNat
  content : ∀ k, k < bytes.length → (s.data x).content s.image k = bytes.getD k 0

namespace Session.Begins

variable {s s' : Session} {x : BlockSector} {bytes rest : List UInt8}

theorem nil (s : Session) (x : BlockSector) : s.Begins x [] :=
  ⟨Nat.zero_le _, fun _ hk => absurd hk (Nat.not_lt_zero _)⟩

theorem left (h : s.Begins x (bytes ++ rest)) : s.Begins x bytes where
  length := by
    have := h.length
    rw [List.length_append] at this
    omega
  content k hk := by
    rw [h.content k (by rw [List.length_append]; omega), List.getD_append _ _ _ _ hk]

theorem readAt (h : s.Begins x bytes) {a : BlockSector → Option Node} (hvol : Volume s a) {p : Ptr}
    (hp : s.Holds p x) (hx : x ≠ freeMapSector) :
    s.Does (inodeReadAt p bytes.length 0) bytes s := by
  obtain ⟨q, fm, C, i, hinv, hi, rfl, hdata⟩ := hvol.held hp
  have hlen := h.length
  rw [Does, show (0 : Int) = (0 : Nat) from rfl,
    hinv.mounted.exec_inodeReadAt hi (hinv.holds_ne hi hx), ← hdata,
    Nat.sub_zero, Nat.min_eq_left hlen]
  congr 2
  refine List.ext_getElem (by simp) fun k hk hk' => ?_
  rw [List.getElem_map, List.getElem_range, Nat.zero_add, h.content k hk', List.getD_eq_getElem _ _ hk']

theorem writeAt (h : s.Begins x bytes) {a : BlockSector → Option Node} (hvol : Volume s a) {p : Ptr}
    (hp : s.Holds p x) (hx : x ≠ freeMapSector) {buffer : List UInt8} (hne : buffer ≠ []) :
    ∃ s' k, s.Does (inodeWriteAt p buffer bytes.length) k s' ∧ s.Beside s' ∧ s'.Holds p x ∧
      s'.live = s.live ∧ s'.spare = s.spare ∧ Volume s' (fun _ => none) ∧
      (k = buffer.length → s'.Begins x (bytes ++ buffer)) := by
  have hnone : Volume s fun _ => none := ⟨hvol.inv, fun _ _ _ _ hn => by cases hn⟩
  obtain ⟨s', k, fm, L, i, i', hdoes, hbeside, hholds, hlive, hspare, hw, hdata, hdata', hvol'⟩ :=
    hnone.write_step hp hx buffer bytes.length
  have hvol' := hvol' none fun n hn => by cases hn
  rw [Function.update_eq_self x (fun _ => (none : Option Node))] at hvol'
  refine ⟨s', k, hdoes, hbeside, (hholds _ _).2 hp, hlive, hspare, hvol', fun hk => ?_⟩
  have hpos := List.length_pos_iff.2 hne
  have hroom : i.data.Within (bytes.length + buffer.length) ∨
      i.data.Fits s.image s.st.freeMap (bytes.length + buffer.length) := by
    by_contra hno
    have := (hw.failed hno).1
    omega
  obtain ⟨-, hlen, hcontent⟩ := hw.done hroom
  refine ⟨?_, fun k' hk' => ?_⟩
  · rw [hdata', hlen, List.length_append]
    split
    · next hwithin =>
      have := hwithin.2
      omega
    · omega
  · rw [List.length_append] at hk'
    rw [hdata', hcontent]
    by_cases hlt : k' < bytes.length
    · rw [if_neg (by omega), ← hdata, h.content k' hlt, List.getD_append _ _ _ _ hlt]
    · rw [if_pos (by omega), List.getD_append_right _ _ _ _ (by omega)]

end Session.Begins

/-- The file `f` is open on inode `x` under the name, its position is behind
the bytes, which the inode begins with. -/
structure Typed (s : Session) (x : BlockSector) (f : Ptr) (fname : CString) (inode : Ptr)
    (bytes : List UInt8) : Prop where
  volume : Volume s fun _ => none
  file : ∃ deny, OpenFile s f ⟨inode, bytes.length, deny⟩ x
  entry : s.openedAs fname = some f
  begins : s.Begins x bytes

namespace Typed

variable {s : Session} {x : BlockSector} {f inode : Ptr} {fname : CString} {bytes : List UInt8}

/-- `fsutil_write` of bytes that end with two zeros. -/
theorem fsutilWrite (h : Typed s x f fname inode bytes) (more : List UInt8) {k : Int} {st : FsState}
    {v : Image} (hexec : (fsutilWrite fname (more ++ [0, 0])).exec s.st s.image = some (k, st, v))
    (hk : k = (more ++ [0, 0]).length) :
    Typed ⟨st, v, s.live, s.spare⟩ x f fname inode (bytes ++ more) ∧
      Session.Begins ⟨st, v, s.live, s.spare⟩ x (bytes ++ more ++ [0]) := by
  obtain ⟨hvol, ⟨deny, hf⟩, hentry, hbegins⟩ := h
  have hne : more ++ [0, 0] ≠ [] := by simp
  have hbuffer : (more ++ [0, 0]).dropLast ++ [0] = more ++ [0, 0] := by
    rw [List.dropLast_append_of_ne_nil (by simp)]
    simp
  obtain ⟨s₁, k', hwrite, hb, hholds, hlive, hspare, hvol₁, hdone⟩ :=
    hbegins.writeAt hvol hf.holds hf.sector hne
  rw [← hbuffer] at hwrite
  obtain ⟨s₂, hdoes, hm⟩ := hf.fileWrite_of hne hwrite hb
  have hopen := openFname_again hentry
  have hdoes : s.Does (Fs.fsutilWrite fname (more ++ [0, 0])) k' s₂ := hopen.bind hdoes
  obtain ⟨rfl, rfl, rfl⟩ : k = k' ∧ st = s₂.st ∧ v = s₂.image := by simpa [Does, hexec] using hdoes
  have hbegins₁ := hdone hk
  have hf₁ := hf.beside hb hholds
  have hdata : s₂.data x = s₁.data x := by
    rw [Session.data, hm.state, hm.image]
    rfl
  rw [show (⟨s₂.st, s₂.image, s.live, s.spare⟩ : Session) =
    s₂ by rw [← hlive, ← hspare, ← hm.live, ← hm.spare]]
  have hbegins₂ : s₂.Begins x (bytes ++ (more ++ [0, 0])) := by
    refine ⟨?_, ?_⟩
    · rw [hdata]
      exact hbegins₁.length
    · rw [hdata, hm.image]
      exact hbegins₁.content
  have hlast : s₂.Begins x (bytes ++ more ++ [0]) := by
    rw [show bytes ++ (more ++ [0, 0]) = bytes ++ more ++ [0] ++ [0] by simp] at hbegins₂
    exact hbegins₂.left
  refine ⟨⟨hf₁.volume_moves hvol₁ hm, ⟨deny, ?_⟩, ?_, hlast.left⟩, hlast⟩
  · have hf₂ := hf₁.moves hm rfl
    have hpos : (bytes.length : Int) + (k - 2) = (bytes ++ more).length := by
      rw [hk]
      simp only [List.length_append, List.length_cons, List.length_nil]
      omega
    rwa [hpos] at hf₂
  · rw [openedAs, hm.state]
    simpa only [openedAs, hb.fileTable] using hentry

/-- **One command.** -/
theorem writeCommand (h : Typed s x f fname inode bytes) {args : List CString} {st : FsState}
    {v : Image}
    (hexec : (writeCommand (fname :: args)).exec s.st s.image = some ((.noError, none), st, v)) :
    Typed ⟨st, v, s.live, s.spare⟩ x f fname inode (bytes ++ text args) ∧
      Session.Begins ⟨st, v, s.live, s.spare⟩ x (bytes ++ text args ++ [0]) := by
  cases args with
  | nil => simp [Fs.writeCommand] at hexec
  | cons arg args =>
    simp only [Fs.writeCommand, Cmd.exec_bind, Option.bind_eq_some_iff] at hexec
    obtain ⟨⟨k, st', v'⟩, hwrite, hexec⟩ := hexec
    rw [writeBuffer_eq] at hwrite hexec
    split at hexec
    · simp at hexec
    · split at hexec
      · simp at hexec
      · next hall =>
        obtain ⟨rfl, rfl⟩ : st' = st ∧ v' = v := by simpa using hexec
        exact h.fsutilWrite _ hwrite (not_not.1 hall)

/-- The command writes all where there is room. -/
theorem exists_writeCommand (h : Typed s x f fname inode bytes) (arg : CString) (args : List CString)
    (hroom : s.Room x (bytes.length + ((text (arg :: args)).length + 2))) :
    ∃ s', s.Does (Fs.writeCommand (fname :: arg :: args)) (.noError, none) s' := by
  obtain ⟨hvol, ⟨deny, hf⟩, hentry, hbegins⟩ := h
  have hne : writeBuffer (arg :: args) ≠ [] := by rw [writeBuffer_eq]; simp
  have hlen : (writeBuffer (arg :: args)).length = (text (arg :: args)).length + 2 := by
    rw [writeBuffer_eq]; simp
  obtain ⟨s₁, k, hwrite, hb, hholds, -, -, -, hk⟩ :=
    hvol.writeAt_any hf.holds hf.sector ((writeBuffer (arg :: args)).dropLast ++ [0]) bytes.length
  rw [length_dropLast_append hne, hlen] at hk
  obtain ⟨-, rfl⟩ := hk.resolve_right fun hno => hno.1 hroom
  obtain ⟨s₂, hdoes, -⟩ := hf.fileWrite_of hne hwrite hb
  have hopen := openFname_again hentry
  refine ⟨s₂, (hopen.bind hdoes).bind ?_⟩
  rw [if_neg (by omega), if_neg (by rw [hlen]; simp)]
  exact .pure _ _

theorem writeCommands (h : Typed s x f fname inode bytes) {commands : List (List CString)}
    {answers : List (Error × Option (Int × Int))} {st : FsState} {v : Image}
    (hexec : (writeCommands fname commands).exec s.st s.image = some (answers, st, v))
    (hok : ∀ r ∈ answers, r = (.noError, none)) :
    Typed ⟨st, v, s.live, s.spare⟩ x f fname inode (bytes ++ (commands.map text).flatten) ∧
      (commands ≠ [] → Session.Begins ⟨st, v, s.live, s.spare⟩ x
        (bytes ++ (commands.map text).flatten ++ [0])) := by
  induction commands generalizing s bytes answers st v with
  | nil =>
    obtain ⟨-, rfl, rfl⟩ : [] = answers ∧ s.st = st ∧ s.image = v := by
      simpa [Fs.writeCommands] using hexec
    exact ⟨by simpa using h, fun hne => absurd rfl hne⟩
  | cons args commands ih =>
    simp only [Fs.writeCommands, Cmd.exec_bind, Option.bind_eq_some_iff, Cmd.exec_pure,
      Option.some.injEq] at hexec
    obtain ⟨⟨r, st₁, v₁⟩, hfirst, ⟨rs, st₂, v₂⟩, hrest, hans⟩ := hexec
    obtain ⟨rfl, rfl, rfl⟩ : r :: rs = answers ∧ st₂ = st ∧ v₂ = v := by simpa using hans
    obtain rfl := hok r (by simp)
    obtain ⟨htyped, hbegins⟩ := h.writeCommand hfirst
    obtain ⟨htyped', hbegins'⟩ := ih htyped hrest fun r hr => hok r (List.mem_cons_of_mem _ hr)
    rw [List.map_cons, List.flatten_cons, ← List.append_assoc]
    refine ⟨htyped', fun _ => ?_⟩
    by_cases hnil : commands = []
    · subst hnil
      obtain ⟨-, rfl, rfl⟩ : [] = rs ∧ st₁ = st₂ ∧ v₁ = v₂ := by
        simpa [Fs.writeCommands] using hrest
      simpa using hbegins
    · exact hbegins' hnil

end Typed

/-- **Writes in a row.** From position 0 in the file, commands that all write
all they are given leave the texts one after the other, a zero behind them and
the position between the two. -/
theorem writes_concatenate {s : Session} {x : BlockSector} {f : Ptr} {file : File} {fname : CString}
    (h : Volume s fun _ => none) (hf : OpenFile s f file x) (hpos : file.pos = 0)
    (hentry : s.openedAs fname = some f) {commands : List (List CString)}
    {answers : List (Error × Option (Int × Int))} {st : FsState} {v : Image}
    (hexec : (writeCommands fname commands).exec s.st s.image = some (answers, st, v))
    (hok : ∀ r ∈ answers, r = (.noError, none)) :
    ∃ file', st.files.get f = some file' ∧ file'.inode = file.inode ∧
      file'.pos = (commands.map text).flatten.length ∧
      (inodeReadAt file.inode (commands.map text).flatten.length 0).exec st v =
      some ((commands.map text).flatten, st, v) ∧
      (commands ≠ [] → (inodeReadAt file.inode ((commands.map text).flatten.length + 1) 0).exec st v =
        some ((commands.map text).flatten ++ [0], st, v)) := by
  obtain ⟨inode, pos, deny⟩ := file
  obtain rfl : pos = 0 := hpos
  have htyped : Typed s x f fname inode [] := ⟨h, ⟨deny, hf⟩, hentry, .nil s x⟩
  obtain ⟨⟨hvol, ⟨deny', hf'⟩, -, hbegins⟩, hlast⟩ := htyped.writeCommands hexec hok
  rw [List.nil_append] at hf' hbegins hlast
  refine ⟨_, hf'.handle, rfl, rfl, hbegins.readAt hvol hf'.holds hf'.sector, fun hne => ?_⟩
  have hread := (hlast hne).readAt hvol hf'.holds hf'.sector
  rwa [List.length_append, List.length_singleton] at hread

/-- There is room in the first sector of a file that has one. -/
theorem Typed.room {s : Session} {x : BlockSector} {f inode : Ptr} {fname : CString}
    {bytes : List UInt8} (h : Typed s x f fname inode bytes) (hne : bytes ≠ []) {end_ : Nat}
    (hpos : 0 < end_) (hend : end_ ≤ 512) : s.Room x end_ := by
  obtain ⟨hvol, ⟨deny, hf⟩, -, hbegins⟩ := h
  obtain ⟨q, fm, C, hinv⟩ := hvol.inv
  have hsound := hinv.sound (.inr ⟨inode, hf.holds⟩) hf.sector
  have hlen := hbegins.length
  have hbytes := List.length_pos_iff.2 hne
  by_cases hle : (end_ : Int) ≤ (s.data x).length
  · exact .inl ⟨hpos, hle⟩
  · have hone : ∀ n, 0 < n → n ≤ 512 → bytesToSectors n = 1 := fun n h0 hn => by
      unfold bytesToSectors divRoundUp blockSectorSize
      omega
    have hlacking := hsound.length_lacking (n := end_) (by omega) (by rw [hone _ hpos hend]; decide)
    rw [hone _ hpos hend, hone _ (by omega) (by omega)] at hlacking
    exact .inr ⟨by omega, by rw [hone _ hpos hend]; decide⟩

/-- `write f ab c`, and then `write f d`, on a new file. -/
theorem writes_concatenate_twice :
    ∃ (s : Session) (f : Ptr) (file file' : File) (st : FsState) (v : Image),
    (writeCommands [102] [[[97, 98], [99]], [[100]]]).exec s.st s.image =
    some ([(.noError, none), (.noError, none)], st, v) ∧
      s.st.files.get f = some file ∧ file.pos = 0 ∧ st.files.get f = some file' ∧ file'.pos = 5 ∧
      (inodeReadAt file.inode 6 0).exec st v = some ([97, 98, 32, 99, 100, 0], st, v) := by
  obtain ⟨x, f, s, hrun, hroom, p, hf⟩ := exists_fileRun
  have hvol := (hrun.tracks (by simp)).1
  let s₁ : Session := ⟨{ s.st with fileTable := [⟨[102], f⟩] }, s.image, s.live, s.spare⟩
  have hvol₁ : Volume s₁ fun _ => none := hvol.handles rfl rfl rfl rfl rfl rfl fun _ _ => rfl
  have hf₁ : OpenFile s₁ f ⟨p, 0, false⟩ x := ⟨hf.handle, hf.holds, hf.sector⟩
  have htyped : Typed s₁ x f [102] p [] := ⟨hvol₁, ⟨false, hf₁⟩, rfl, .nil s₁ x⟩
  obtain ⟨s₂, hdoes₂⟩ := htyped.exists_writeCommand [97, 98] [[99]] (hroom 6 (by decide) (by decide))
  obtain ⟨htyped₂, -⟩ := htyped.writeCommand hdoes₂
  obtain ⟨s₃, hdoes₃⟩ := htyped₂.exists_writeCommand [100] []
    (htyped₂.room (List.cons_ne_nil 97 [98, 32, 99]) (by decide) (by decide))
  have hall : s₁.Does (writeCommands [102] [[[97, 98], [99]], [[100]]]) [(.noError, none),
      (.noError, none)] s₃ :=
    hdoes₂.bind (Session.Does.bind (Session.Does.bind hdoes₃ (.pure _ _)) (.pure _ _))
  obtain ⟨file', hget, -, hpos, -, hread⟩ := writes_concatenate hvol₁ hf₁ rfl rfl hall (by simp)
  exact ⟨s₁, f, _, file', _, _, hall, hf₁.handle, rfl, hget, hpos, hread (by simp)⟩

end MyShell.Fs

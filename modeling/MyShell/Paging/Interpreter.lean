/-
`interpreter.c`, the variables of `shellmemory.c` and `parseInput` of
`shell.c`. The file system commands and the host are parameters: of each the
model knows what it answers, where it does not crash, and that it leaves the
scheduler alone. What is printed is left out.
-/
import MyShell.Paging.Scheduler

namespace MyShell.Paging

/-- What the interpreter calls outside the scheduler, and the sizes the shell is
built with. A file system call that crashes gives nothing. -/
structure Shell (σ : Type) where
  frameStoreSize : Nat
  varStoreSize : Nat
  cwd : Text
  system : Text → σ → σ
  /-- The contents of a host file. -/
  fopen : Text → σ → Option Text
  filesysDone : σ → Option σ
  fsutilLs : σ → Option (Int × σ)
  fsutilCat : Text → σ → Option (Int × σ)
  fsutilRm : Text → σ → Option (Int × σ)
  fsutilCreate : Text → Int → σ → Option (Int × σ)
  fsutilWrite : Text → Text → Int → σ → Option (Int × σ)
  fsutilRead : Text → Int → σ → Option (Int × σ)
  fsutilSize : Text → σ → Option (Int × σ)
  fsutilSeek : Text → Int → σ → Option (Int × σ)
  fsutilFreespace : σ → Option σ
  findFile : Text → σ → Option σ
  copyIn : Text → σ → Option (Int × σ)
  copyOut : Text → σ → Option (Int × σ)
  fragmentationDegree : σ → Option σ
  defragment : σ → Option σ
  recover : Int → σ → Option σ

/-- `enum Error`. -/
inductive Error
  | noError | fileDoesNotExist | noMemSpace | readyQueueFull | schedulingError | tooManyTokens
  | tooFewTokens | nonAlphanumericToken | badCommand | errorRm | fileCreationError
  | filesystemError | fileWriteError | fileReadError
deriving DecidableEq

/-- `handle_error`, which answers the number of the error. -/
def handleError (e : Error) : Int := e.ctorIdx

variable {σ : Type} (sh : Shell σ)

/-! ## Variables -/

/-- The lines of the shell memory that hold variables. -/
def varLines : List Nat := (List.range sh.varStoreSize).map (sh.frameStoreSize + ·)

def memSetValue (var value : Text) (m : Memory) : Memory :=
  match (varLines sh).find? fun i => (m i).var = var with
  | some i => Function.update m i { m i with value := value }
  | none =>
    match (varLines sh).find? fun i => (m i).var = vacant with
    | some i => Function.update m i ⟨var, value⟩
    | none => m

def resetVarZone (m : Memory) : Memory := (varLines sh).foldl memFreeAt m

/-! ## Words -/

/-- A word up to its first `\r` or `\n`. -/
def stripLine (w : Text) : Text := w.takeWhile fun c => c ≠ '\r' ∧ c ≠ '\n'

def isAlphaNumStr (s : Text) : Bool := s ≠ [] ∧ s.all Char.isAlphanum

/-- The digits at the head of a text, read as a number. -/
def readDigits : Nat → Text → Nat
  | n, [] => n
  | n, c :: s => if c.isDigit then readDigits (10 * n + (c.toNat - '0'.toNat)) s else n

def atoi (s : Text) : Int :=
  match s.dropWhile Char.isWhitespace with
  | '-' :: s => -(readDigits 0 s : Int)
  | '+' :: s => readDigits 0 s
  | s => readDigits 0 s

/-- Words with one space between two of them. -/
def joinWords (ws : List Text) : Text := List.intercalate [' '] ws

/-! ## Commands -/

inductive Command
  | help | quit | set | print | run | echo | exec | resetmem | ls | cat | rm | create | write | findFile
  | read | copyIn | copyOut | size | seek | freespace | fragmentationDegree | defragment | recover
deriving DecidableEq

/-- The names the interpreter compares the first word with, in its order. -/
def commandNames : List (Text × Command) :=
  [("help".toList, .help), ("quit".toList, .quit), ("exit".toList, .quit), ("set".toList, .set),
    ("print".toList, .print), ("run".toList, .run), ("echo".toList, .echo), ("exec".toList, .exec),
    ("resetmem".toList, .resetmem), ("ls".toList, .ls), ("cat".toList, .cat), ("rm".toList, .rm),
    ("create".toList, .create), ("write".toList, .write), ("find_file".toList, .findFile),
    ("read".toList, .read), ("copy_in".toList, .copyIn), ("copy_out".toList, .copyOut),
    ("size".toList, .size), ("seek".toList, .seek), ("freespace".toList, .freespace),
    ("fragmentation_degree".toList, .fragmentationDegree), ("defragment".toList, .defragment),
    ("recover".toList, .recover)]

def Kernel.answer (k : Kernel σ) (r : Int) : Option (Int × Kernel σ) := some (r, k)

/-- A step of the file system, and the answer made from its own. -/
def Kernel.shellCall (k : Kernel σ) (f : σ → Option (Int × σ)) (g : Int → Int) :
    Option (Int × Kernel σ) :=
  (f k.shell).map fun x => (g x.1, { k with shell := x.2 })

def Kernel.shellStep (k : Kernel σ) (f : σ → Option σ) (r : Int) : Option (Int × Kernel σ) :=
  (f k.shell).map fun s => (r, { k with shell := s })

/-- The backing-store name of a script: its name and as many letters as there were scripts before. -/
def newName (name : Text) (count : Nat) : Text :=
  "./backing_store/".toList ++ (name ++ List.replicate count 'a')

/-- Copies the scripts into the backing store and gives the names of the copies. -/
def storeScripts : List Text → Kernel σ → List Text × Kernel σ
  | [], k => ([], k)
  | name :: names, k =>
    let copy := newName name k.newNameCount
    let cmd := "cp ./".toList ++ name ++ " ".toList ++ copy
    let (copies, k) := storeScripts names
      { k with shell := sh.system cmd k.shell, newNameCount := k.newNameCount + 1 }
    (copy :: copies, k)

/-- Empties the backing store. -/
def clearStore (k : Kernel σ) : Kernel σ :=
  let removed := sh.system ("rm -rf ".toList ++ sh.cwd ++ "/backing_store".toList) k.shell
  { k with shell := sh.system ("mkdir ".toList ++ sh.cwd ++ "/backing_store".toList) removed }

/-- `run` and `exec` on scripts of the host. -/
def runScripts (exec : List (Option Text) → Kernel σ → Option (Int × Kernel σ)) (names : List Text)
    (k : Kernel σ) : Option (Int × Kernel σ) := do
  let (copies, k) := storeScripts sh names k
  let (ret, k) ← exec (copies.map fun copy => sh.fopen copy k.shell) k
  pure (ret, clearStore sh k)

/-- The answer of `echo`. -/
def echo : Text → Int
  | '$' :: name => if name.all Char.isAlphanum then 0 else handleError .nonAlphanumericToken
  | var => if isAlphaNumStr var then 0 else handleError .nonAlphanumericToken

/-- The error for a number of words that a command does not take. -/
def countError : Command → List Text → Error
  | .set, _ | .write, _ | .findFile, _ | .print, [] | .run, [] | .exec, [] => .tooFewTokens
  | _, _ => .tooManyTokens

/-- The loop of `set` over its words, which fills a buffer of 505 bytes: nothing
past its end, and no value at a word that is not alphanumeric. -/
def setBuffer (buffer : Text) : List Text → Option (Option Text)
  | [] => some (some buffer)
  | w :: ws =>
    if isAlphaNumStr w then
      let buffer := buffer ++ w ++ if ws = [] then [] else [' ']
      if buffer.length < 505 then setBuffer buffer ws else none
    else some none

/-- A command on the words after its name. -/
def runCommand (exec : List (Option Text) → Kernel σ → Option (Int × Kernel σ)) (k : Kernel σ) :
    Command → List Text → Option (Int × Kernel σ)
  | .help, [] => k.answer 0
  | .quit, [] => k.shellStep (fun s =>
      sh.filesysDone (sh.system ("rm -rf ".toList ++ sh.cwd ++ "/backing_store".toList) s)) (-1)
  | .set, var :: v :: vs =>
    if isAlphaNumStr var then do
      match ← setBuffer [] (v :: vs) with
      | none => k.answer (handleError .nonAlphanumericToken)
      | some value => some (0, { k with memory := memSetValue sh var value k.memory })
    else k.answer (handleError .nonAlphanumericToken)
  | .print, [_] => k.answer 0
  | .run, [script] => runScripts sh exec [script] k
  | .echo, [] => none
  | .echo, [var] => k.answer (echo var)
  | .exec, s :: ss => if 4 < (s :: ss).length then k.answer (handleError .tooManyTokens)
      else runScripts sh exec (s :: ss) k
  | .resetmem, _ => some (0, { k with memory := resetVarZone sh k.memory })
  | .ls, [] =>
    k.shellCall sh.fsutilLs fun status => if status = 1 then handleError .filesystemError else 0
  | .cat, [file] => k.shellCall (sh.fsutilCat file) fun status =>
      if status = 1 then handleError .fileDoesNotExist else 0
  | .rm, [file] => k.shellCall (sh.fsutilRm file) fun status =>
      if status = 0 then handleError .errorRm else status
  | .create, [file, size] => k.shellCall (sh.fsutilCreate file (atoi size)) fun status =>
      if status = 0 then handleError .fileCreationError else 0
  | .write, file :: w :: ws => k.shellCall
      (sh.fsutilWrite file (joinWords (w :: ws)) ((joinWords (w :: ws)).length + 2)) fun written =>
      if written = -1 then handleError .fileWriteError else 0
  | .findFile, w :: ws => k.shellStep (sh.findFile (joinWords (w :: ws))) 0
  | .read, [file, size] =>
    -- the buffer is one byte longer than what is read
    if -1 ≤ atoi size ∧ atoi size + 1 < 2147483648 then
      k.shellCall (sh.fsutilRead file (atoi size)) fun bytes =>
        if bytes = -1 then handleError .fileReadError else if bytes = atoi size then 1 else 0
    else none
  | .copyIn, [file] =>
    -- `cwd_path`
    if (sh.cwd ++ "/".toList ++ file).length < 1024 then
      k.shellCall (sh.copyIn (sh.cwd ++ "/".toList ++ file)) id
    else none
  | .copyOut, [file] => k.shellCall (sh.copyOut file) id
  | .size, [file] => k.shellCall (sh.fsutilSize file) fun length =>
      if length = -1 then handleError .fileDoesNotExist else 0
  | .seek, [file, offset] => k.shellCall (sh.fsutilSeek file (atoi offset)) fun status =>
      if status = -1 then handleError .fileDoesNotExist else 0
  | .freespace, [] => k.shellStep sh.fsutilFreespace 0
  | .fragmentationDegree, [] => k.shellStep sh.fragmentationDegree 0
  | .defragment, [] => k.shellStep sh.defragment 0
  | .recover, [flag] => k.shellStep (sh.recover (atoi flag)) 0
  | c, args => k.answer (handleError (countError c args))

/-- `interpreter`. More than 100 words, or none after `echo`, are outside its arrays. -/
def interpreter (exec : List (Option Text) → Kernel σ → Option (Int × Kernel σ)) (args : List Text)
    (k : Kernel σ) : Option (Int × Kernel σ) :=
  if 100 < args.length then none
  else match args.map stripLine with
    | [] => k.answer (handleError .tooFewTokens)
    | name :: args =>
      match commandNames.lookup name with
      | none => k.answer (handleError .badCommand)
      | some c => runCommand sh exec k c args

/-! ## Input lines -/

/-- `strtok`: the next token, with the position after it kept. -/
def nextToken (s : Text) (k : Kernel σ) : Option Text × Kernel σ :=
  match strtok s with
  | none => (none, { k with strtokRest := [] })
  | some (token, rest) => (some token, { k with strtokRest := rest })

/-- The loop of `parseInput` over the commands of a line, at most `n` of them. -/
def parseLoop (exec : List (Option Text) → Kernel σ → Option (Int × Kernel σ)) :
    Nat → Option Text → Int → Kernel σ → Option (Int × Kernel σ)
  | _, none, ret, k => some (ret, k)
  | 0, some _, _, _ => none
  | n + 1, some token, _, k => do
    let (ret, k) ← interpreter sh exec (words token) k
    let (tokens, k) := nextToken k.strtokRest k
    if ret = -1 then pure (ret, k) else parseLoop exec n tokens ret k

/-- One line, where `exec` runs scripts. -/
def parseLine (exec : List (Option Text) → Kernel σ → Option (Int × Kernel σ)) (n : Nat) : Parse σ :=
  fun ui k =>
    let (tokens, k) := nextToken ui k
    parseLoop sh exec (n + ui.length) tokens 0 k

/-- `parseInput`, with scripts running scripts to the depth `n`. -/
def parseInput : Nat → Parse σ
  | 0 => parseLine sh (fun _ _ => none) 0
  | n + 1 => parseLine sh (exec (parseInput n) sh.frameStoreSize n) n

end MyShell.Paging

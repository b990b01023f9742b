/-
`interpreter.c` and `parseInput` of `shell.c`. What is printed is left out,
and strings are as long as they need to be.
-/
import MyShell.Backing.Kernel

namespace MyShell.Backing

open Paging (Text)

/-- `enum Error`. -/
inductive Error
  | noError | fileDoesNotExist | fileError | noMemSpace | readyQueueFull | schedulingError
  | tooManyTokens | tooFewTokens | nonAlphanumericToken | badCommand | errorCd | errorMkdir
deriving DecidableEq

/-- `handle_error`, which answers the number of the error. -/
def handleError (e : Error) : Int := e.ctorIdx

def maxArgsSize : Nat := 7

variable {σ : Type} (ho : Host σ) (schedule : Text → Kernel σ → Option (Int × Kernel σ))

/-! ## Commands -/

/-- A word up to its first `\r` or `\n`. -/
def stripLine (w : Text) : Text := w.takeWhile fun c => c ≠ '\r' ∧ c ≠ '\n'

/-- The words after the second, with a space between two of them. -/
def joinWords : List Text → Text
  | [] => []
  | [w] => w
  | w :: ws => w ++ ' ' :: joinWords ws

def Kernel.answer (k : Kernel σ) (r : Int) : Option (Int × Kernel σ) := some (r, k)

def Kernel.system (cmd : Text) (k : Kernel σ) : Option (Int × Kernel σ) :=
  some ((ho.system cmd k.host).1, { k with host := (ho.system cmd k.host).2 })

def set (var value : Text) (k : Kernel σ) : Option (Int × Kernel σ) :=
  some (0, { k with store := k.store.memSetValue ho.frameStoreSize var value })

def print (var : Text) (k : Kernel σ) : Option (Int × Kernel σ) :=
  some (0, { k with store := (k.store.memGetValue ho.frameStoreSize var).2 })

/-- `echo`; NULL it cannot read. -/
def echo (var : Option Text) (k : Kernel σ) : Option (Int × Kernel σ) := do
  match ← var with
  | '$' :: name => pure (0, ((← print ho name k).2))
  | _ => pure (0, k)

def myMkdir (dirname : Option Text) (k : Kernel σ) : Option (Int × Kernel σ) := do
  match ← dirname with
  | '$' :: name =>
    let (value, store) := k.store.memGetValue ho.frameStoreSize name
    let k := { k with store := store }
    match value with
    | none => k.answer (handleError .errorMkdir)
    | some value =>
      if ' ' ∈ value then k.answer (handleError .errorMkdir) else k.system ho ("mkdir ".toList ++ value)
  | name => k.system ho ("mkdir ".toList ++ name)

def myTouch (filename : Option Text) (k : Kernel σ) : Option (Int × Kernel σ) := do
  k.system ho ("touch ".toList ++ (← filename))

def myCd (dirname : Option Text) (k : Kernel σ) : Option (Int × Kernel σ) :=
  match dirname.bind fun name => ho.chdir name k.host with
  | none => k.answer (handleError .errorCd)
  | some (r, host) => some (r, { k with host := host })

/-- `run`, which looks for an error that `process_initialize` does not know. -/
def run (script : Text) (k : Kernel σ) : Option (Int × Kernel σ) := do
  let (errCode, k) ← processInitialize ho script k
  if errCode = 11 then k.answer errCode
  else
    let (_, k) ← schedule "FCFS".toList k
    pure (errCode, k)

/-- `exec` on the names that are not NULL. -/
def exec : List Text → Kernel σ → Option (Int × Kernel σ)
  | [], k => do
    let (errorCode, k) ← schedule "RR".toList k
    if errorCode ≠ 0 then k.answer errorCode else k.answer ho.execAnswer
  | fname :: fnames, k => do
    let (errorCode, k) ← processInitialize ho fname k
    if errorCode ≠ 0 then k.answer errorCode else exec fnames k

def resetmem (k : Kernel σ) : Option (Int × Kernel σ) :=
  some (0, { k with store := k.store.memInitVariable ho.frameStoreSize })

def setPagePolicy (policy : Text) (k : Kernel σ) : Option (Int × Kernel σ) :=
  if policy = "FIFO".toList then some (0, { k with store := { k.store with currentPolicy := .fifo } })
  else if policy = "LRU".toList then
    some (0, { k with store := { k.store with currentPolicy := .lru } })
  else k.answer 12

/-! ## The interpreter -/

inductive Command
  | help | quit | set | print | run | echo | myLs | myMkdir | myTouch | myCd | exec | resetmem
  | pagepolicy
deriving DecidableEq

/-- The names the interpreter compares the first word with, in its order. -/
def commandNames : List (Text × Command) :=
  [("help".toList, .help), ("quit".toList, .quit), ("exit".toList, .quit), ("set".toList, .set),
    ("print".toList, .print), ("run".toList, .run), ("echo".toList, .echo), ("my_ls".toList, .myLs),
    ("my_mkdir".toList, .myMkdir), ("my_touch".toList, .myTouch), ("my_cd".toList, .myCd),
    ("exec".toList, .exec), ("resetmem".toList, .resetmem), ("pagepolicy".toList, .pagepolicy)]

/-- The fewest and the most words that a command takes, its name among them. -/
def Command.counts : Command → Nat × Nat
  | .help | .quit | .myLs | .resetmem => (1, 1)
  | .set => (3, 7)
  | .print | .run | .pagepolicy => (2, 2)
  | .echo | .myMkdir | .myTouch | .myCd => (1, 2)
  | .exec => (2, 5)

/-- A command on the words after its name. What lies in the array behind them,
`behind`, is read where `echo` and its like have no word of their own. -/
def runCommand (behind : Option Text) (k : Kernel σ) : Command → List Text → Option (Int × Kernel σ)
  | .help, _ => k.answer 0
  | .set, var :: values => set ho var (joinWords values) k
  | .print, [var] => print ho var k
  | .run, [script] => run ho schedule script k
  | .echo, args => echo ho (args.head?.or behind) k
  | .myLs, _ => k.system ho "ls | sort".toList
  | .myMkdir, args => myMkdir ho (args.head?.or behind) k
  | .myTouch, args => myTouch ho (args.head?.or behind) k
  | .myCd, args => myCd ho (args.head?.or behind) k
  | .exec, args =>
    if args.length ≤ 3 then exec ho schedule args k else k.answer (handleError .badCommand)
  | .resetmem, _ => resetmem ho k
  | .pagepolicy, [policy] => setPagePolicy policy k
  -- `quit` does not come back
  | _, _ => none

/-- `interpreter` on the first `size` words of the array. -/
def interpreter (words : List Text) (size : Nat) (k : Kernel σ) : Option (Int × Kernel σ) :=
  if size < 1 then k.answer (handleError .tooFewTokens)
  else if maxArgsSize < size then k.answer (handleError .tooManyTokens)
  else match (words.take size).map stripLine with
    | [] => none
    | name :: args =>
      match commandNames.lookup name with
      | none => k.answer (handleError .badCommand)
      | some c =>
        if size < c.counts.1 then k.answer (handleError .tooFewTokens)
        else if c.counts.2 < size then k.answer (handleError .tooManyTokens)
        else runCommand ho schedule words[size]? k c args

/-- What `interpreter` leaves of the words: those that it takes have lost their line ends. -/
def stripWords (words : List Text) (size : Nat) : List Text :=
  if size ≤ maxArgsSize then (words.take size).map stripLine ++ words.drop size else words

/-! ## Input lines -/

/-- The position after the spaces from `a` on, which is not beyond the thousandth. -/
def skipSpaces (ui : Text) (a : Nat) : Nat :=
  a + min ((ui.drop a).takeWhile (· = ' ')).length (1000 - a)

/-- The word at `a`. -/
def wordAt (ui : Text) (a : Nat) : Text :=
  ((ui.drop a).takeWhile fun c => c ≠ ';' ∧ c ≠ '\n' ∧ c ≠ ' ').take (1000 - a)

/-- `words[w] = strdup(tmp)` -/
def putWord (words : List Text) (w : Nat) (tmp : Text) : Option (List Text) :=
  if w < 100 then some (words.take w ++ tmp :: words.drop (w + 1)) else none

/-- The loop of `parseInput` from position `a` on, with `w` words read of a command. -/
def parseLoop (ui : Text) : Nat → Nat → Nat → List Text → Kernel σ → Option (Int × Kernel σ)
  | 0, _, _, _, _ => none
  | n + 1, a, w, words, k =>
    if ¬ (a < 1000 ∧ a < ui.length) ∨ ui[a]? = some '\n' then interpreter ho schedule words w k
    else
      let a := a + ((ui.drop a).takeWhile (· = ' ')).length
      if ui.length ≤ a then interpreter ho schedule words w k
      else if wordAt ui a = [] then parseLoop ui n a w words k
      else do
        let words ← putWord words w (wordAt ui a)
        let a := a + (wordAt ui a).length
        if ui[a]? = some ';' then
          let (errorCode, k) ← interpreter ho schedule words (w + 1) k
          if errorCode = -1 then pure (errorCode, k)
          else parseLoop ui n (skipSpaces ui (a + 1)) 0 (stripWords words (w + 1)) k
        else parseLoop ui n (a + 1) (w + 1) words k

/-- One line. Each turn of the loop reads a character, or it does not end. -/
def parseLine : Parse σ := fun ui k => parseLoop ho schedule ui (ui.length + 1) (skipSpaces ui 0) 0 [] k

/-- `parseInput`, with lines that run lines to the depth `n`, where a scheduler has `n` rounds. -/
def parseInput : Nat → Parse σ
  | 0 => parseLine ho (scheduleByPolicy ho (fun _ _ => none) 0)
  | n + 1 => parseLine ho (scheduleByPolicy ho (parseInput n) n)

end MyShell.Backing

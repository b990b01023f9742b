/-
The shell of a1: words, variables and the interpreter. `run` and `if` hand lines
back to `parseInput`, so what an entry into the interpreter does is a parameter,
`enter`, of all that may come to one.
-/
import MyShell.Lib.ReservedKey
import MyShell.Paging.Interpreter

namespace MyShell.Basic

open Paging (Text stripLine joinWords pieces vacant)

/-- What the shell asks of the host. -/
structure Host (σ : Type) where
  printf : Text → σ → σ
  system : Text → σ → Int × σ
  mkdir : Text → σ → Int × σ
  chdir : Text → σ → Int × σ
  /-- The contents of a file that can be read. -/
  fopen : Text → σ → Option Text
  /-- `fopen` for writing and `fclose`; a file that cannot be opened is `none`. -/
  create : Text → σ → Option σ

structure State (σ : Type) where
  memory : List (Text × Text)
  host : σ

/-- How a call ends. An answer of `none` is a function that ends without a
`return`; `faults` says that the shell reaches for memory that is not there. -/
inductive Outcome (σ : Type) where
  | returns (answer : Option Int) (s : State σ)
  | exits (s : State σ)
  | faults

/-- The outcome where the caller drops the answer and returns nothing. -/
def Outcome.noAnswer {σ : Type} : Outcome σ → Outcome σ
  | .returns _ s => .returns none s
  | o => o

/-- The words of a line: `char *words[100]`, each copied from `char tmp[200]`. -/
structure Words where
  list : List Text
  few : list.length ≤ 100
  short : ∀ w ∈ list, w.length < 200

variable {σ : Type} (host : Host σ) (enter : Words → State σ → Outcome σ)

/-! ## Shell memory -/

def memInit : List (Text × Text) := List.replicate 1000 (vacant, vacant)

def memGetValue (memory : List (Text × Text)) (var : Text) : Option Text :=
  ReservedKey.lookup memory var

def memSetValue (memory : List (Text × Text)) (var value : Text) : List (Text × Text) :=
  ReservedKey.put vacant memory (var, value)

/-! ## Lines -/

/-- The word loop of `parseInput`, between two words or inside the word read so
far. A newline ends a word as a space does; only between words it ends the line. -/
def splitWords : Option Text → Text → List Text
  | none, [] => []
  | none, c :: s =>
    if c = '\n' then []
    else if c = ';' ∨ c = ' ' then [] :: splitWords none s
    else splitWords (some [c]) s
  | some w, [] => [w]
  | some w, c :: s =>
    if c = ';' ∨ c = '\n' ∨ c = ' ' then w :: splitWords none s else splitWords (some (w ++ [c])) s

def parseInput (ui : Text) (s : State σ) : Outcome σ :=
  let words := splitWords none ((ui.take 1000).dropWhile (· = ' '))
  if h : words.length ≤ 100 ∧ ∀ w ∈ words, w.length < 200 then enter ⟨words, h.1, h.2⟩ s
  else .faults

/-! ## Commands -/

/-- Prints a line and answers. -/
def say (line : String) (answer : Int) (s : State σ) : Outcome σ :=
  .returns (some answer) { s with host := host.printf (line.toList ++ ['\n']) s.host }

def badcommand (s : State σ) : Outcome σ := say host "Unknown Command" 1 s
def badcommandFileDoesNotExist (s : State σ) : Outcome σ := say host "Bad command: File not found" 3 s
def badcommandSet (s : State σ) : Outcome σ := say host "Bad command: set" 4 s
def badcommandCD (s : State σ) : Outcome σ := say host "Bad command: my_cd" 5 s
def badcommandCat (s : State σ) : Outcome σ := say host "Bad command: my_cat" 6 s
def badcommandWC (s : State σ) : Outcome σ := say host "Bad command: my_wc" 7 s
def badcommandEmptyif (s : State σ) : Outcome σ := say host "Empty if clause" 6 s
def badcommandIf (s : State σ) : Outcome σ := say host "Bad command: if" 6 s

def helpString : String :=
  "COMMAND\t\t\tDESCRIPTION\n help\t\t\tDisplays all the commands\n " ++
  "quit\t\t\tExits / terminates the shell with “Bye!”\n " ++
  "set VAR STRING\t\tAssigns a value to shell memory\n " ++
  "print VAR\t\tDisplays the STRING assigned to VAR\n " ++
  "run SCRIPT.TXT\t\tExecutes the file SCRIPT.TXT\n "

def help (s : State σ) : Outcome σ := say host helpString 0 s

def quit (s : State σ) : Outcome σ := .exits { s with host := host.printf "Bye!\n".toList s.host }

/-- `set` with its unused buffer of 1000 characters. -/
def set (var value : Text) (s : State σ) : Outcome σ :=
  if var.length + 1 + value.length < 1000 then
    .returns (some 0) { s with memory := memSetValue s.memory var value }
  else .faults

def print (var : Text) (s : State σ) : Outcome σ :=
  let value := (memGetValue s.memory var).getD ['\n']
  .returns (some 0) { s with host := host.printf (value ++ ['\n']) s.host }

def echo (var : Text) (s : State σ) : Outcome σ :=
  match var with
  | '$' :: var => print host var s
  | _ => .returns (some 0) { s with host := host.printf (var ++ ['\n']) s.host }

/-- What `run` hands to `parseInput`. At the end of the file the buffer is
empty, unless the end was seen with the last line. -/
def runInputs (text : Text) : List Text :=
  match (pieces text).getLast? with
  | none => []
  | some line =>
    if line.getLast? = some '\n' ∨ line.length = 998 then pieces text ++ [[]] else pieces text

def runLines : Option Int → List Text → State σ → Outcome σ
  | answer, [], s => .returns answer s
  | _, line :: lines, s =>
    match parseInput enter line s with
    | .returns answer s => runLines answer lines s
    | o => o

/-- `run`; the first line of an empty file is what its buffer happens to hold. -/
def run (script : Text) (s : State σ) : Outcome σ :=
  match host.fopen script s.host with
  | none => badcommandFileDoesNotExist host s
  | some [] => .faults
  | some text => runLines enter (some 0) (runInputs text) s

def myLs (s : State σ) : Outcome σ :=
  let (answer, h) := host.system "ls".toList s.host
  .returns (some answer) { s with host := h }

def myMkdir (dirname : Text) (s : State σ) : Outcome σ :=
  let (answer, h) := host.mkdir dirname s.host
  .returns (some answer) { s with host := h }

def myTouch (filename : Text) (s : State σ) : Outcome σ :=
  match host.create filename s.host with
  | some h => .returns (some 0) { s with host := h }
  | none => .faults

def myCd (dirname : Text) (s : State σ) : Outcome σ :=
  let (answer, h) := host.chdir dirname s.host
  if answer = 0 then .returns (some 0) { s with host := h } else badcommandCD host { s with host := h }

def myCat (filename : Text) (s : State σ) : Outcome σ :=
  match host.fopen filename s.host with
  | some text => .returns (some 0) { s with host := host.printf text s.host }
  | none => badcommandCat host s

/-- The words of a file, inside of one or not. -/
def countWords : Bool → Text → Nat
  | _, [] => 0
  | inWord, c :: s =>
    if c = ' ' ∨ c = '\t' ∨ c = '\n' then countWords false s
    else (if inWord then 0 else 1) + countWords true s

def myWc (filename : Text) (s : State σ) : Outcome σ :=
  match host.fopen filename s.host with
  | none => badcommandWC host s
  | some text =>
    say host ("Lines: " ++ toString (text.count '\n') ++ "\nWords: " ++
      toString (countWords false text) ++ "\nCharacters: " ++ toString text.length) 0 s

/-! ## if -/

/-- An identifier, expanded if it is a variable. -/
def expand (memory : List (Text × Text)) : Text → Option Text
  | '$' :: var => memGetValue memory var
  | identifier => some identifier

/-- The word at `first`, and those after it up to `stop`. -/
def segment (args : List Text) (first stop : Nat) : Option (List Text) :=
  args[first]?.map fun w => w :: (args.take stop).drop (first + 1)

/-- `if`. The word for `then` is not looked at, nor is the last word. -/
def ifCommand (args : List Text) (s : State σ) : Outcome σ :=
  match args[1]?, args[2]?, args[3]?, args[5]? with
  | some identifier1, some op, some identifier2, some first =>
    if first = "fi".toList then badcommandEmptyif host s
    else if op ≠ "==".toList ∧ op ≠ "!=".toList then badcommandIf host s
    else match expand s.memory identifier1, expand s.memory identifier2 with
    | some value1, some value2 =>
      let condition := value1 = value2 ∧ op = "==".toList ∨ value1 ≠ value2 ∧ op = "!=".toList
      match (args.drop 5).findIdx? (· = "else".toList) with
      | none => badcommandIf host s
      | some i =>
        let elseIndex := i + 5
        let branch :=
          if condition then segment args 5 elseIndex
          else segment args (elseIndex + 1) (args.length - 1)
        match branch with
        | none => .faults
        | some words =>
          let command := joinWords words
          if command.length < 800 then (parseInput enter command s).noAnswer else .faults
    | _, _ => badcommandIf host s
  | _, _, _, _ => .faults

/-! ## The interpreter -/

/-- The commands, on the stripped words. -/
def runCommand (args : List Text) (s : State σ) : Outcome σ :=
  match args with
  | [] => badcommand host s
  | name :: rest =>
    if name = "help".toList then
      if rest ≠ [] then badcommand host s else help host s
    else if name = "quit".toList then
      if rest ≠ [] then badcommand host s else quit host s
    else if name = "set".toList then
      match rest with
      | var :: value =>
        if value = [] ∨ 5 < value.length then badcommandSet host s
        else if (joinWords value).length < 800 then set var (joinWords value) s
        else .faults
      | [] => badcommandSet host s
    else if name = "print".toList then
      match rest with
      | [var] => print host var s
      | _ => badcommand host s
    else if name = "run".toList then
      match rest with
      | [script] => run host enter script s
      | _ => badcommand host s
    else if name = "echo".toList then
      match rest with
      | [] => .faults
      | [token] => echo host token s
      | _ => badcommand host s
    else if name = "my_ls".toList then
      if rest ≠ [] then badcommand host s else myLs host s
    else if name = "my_mkdir".toList then
      match rest with
      | [dirname] => myMkdir host dirname s
      | _ => badcommand host s
    else if name = "my_touch".toList then
      match rest with
      | [filename] => myTouch host filename s
      | _ => badcommand host s
    else if name = "my_cd".toList then
      match rest with
      | [dirname] => myCd host dirname s
      | _ => badcommandCD host s
    else if name = "my_cat".toList then
      match rest with
      | [filename] => myCat host filename s
      | _ => badcommandCat host s
    else if name = "if".toList then ifCommand host enter args s
    else if name = "my_wc".toList then
      match rest with
      | [filename] => myWc host filename s
      | _ => badcommand host s
    else badcommand host s

/-- `interpreter`. More than three words are only for `set` and `if`, and that
is decided before the words are stripped. -/
def interpreter (args : Words) (s : State σ) : Outcome σ :=
  match args.list with
  | [] => badcommand host s
  | name :: rest =>
    if 3 < (name :: rest).length ∧ name ≠ "set".toList ∧ name ≠ "if".toList then badcommand host s
    else runCommand host enter ((name :: rest).map stripLine) s

/-- The interpreter itself, down to `n` entries into one another. -/
def entered : Nat → Words → State σ → Outcome σ
  | 0, _, _ => .faults
  | n + 1, args, s => interpreter host (entered n) args s

end MyShell.Basic

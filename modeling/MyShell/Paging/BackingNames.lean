/-
The names that `run` and `exec` give to the copies of their scripts. A name is
the script's own with as many letters as scripts were copied before, so two
scripts whose names differ in such letters may share a copy
(`backing_names_unique`).
-/
import MyShell.Paging.Execution

namespace MyShell.Paging

/-! ## Building a name -/

/-- `strcat` in an array of 100 characters. -/
def strcat (buffer s : Text) : Option Text :=
  if (buffer ++ s).length < 100 then some (buffer ++ s) else none

/-- The copy's name, where the arrays that it and the `cp` command are built in hold them. -/
def backingName (name : Text) (newNameCount : Nat) : Option Text := do
  let oldName ← strcat [] name
  let cmd ← strcat "cp ./".toList name
  let cmd ← strcat cmd " ".toList
  let oldName ← (List.replicate newNameCount 'a').foldlM (fun s c => strcat s [c]) oldName
  let newName ← strcat "./backing_store/".toList oldName
  let _ ← strcat cmd newName
  pure newName

/-- The names of the copies of several scripts. -/
def backingNames : List Text → Nat → Option (List Text)
  | [], _ => some []
  | name :: names, newNameCount => do
    let copy ← backingName name newNameCount
    let copies ← backingNames names (newNameCount + 1)
    pure (copy :: copies)

theorem strcat_eq_some {buffer s r : Text} :
    strcat buffer s = some r ↔ (buffer ++ s).length < 100 ∧ buffer ++ s = r := by
  rw [strcat]
  split
  · rw [Option.some.injEq]
    exact (and_iff_right ‹_›).symm
  · exact iff_of_false (by simp) fun h => absurd h.1 ‹_›

theorem foldlM_strcat {l s r : Text} (h : l.foldlM (fun s c => strcat s [c]) s = some r) :
    s ++ l = r := by
  induction l generalizing s with
  | nil => simpa using h
  | cons c l ih =>
    rw [List.foldlM_cons] at h
    obtain ⟨t, ht, h⟩ := Option.bind_eq_some_iff.1 h
    obtain ⟨-, rfl⟩ := strcat_eq_some.1 ht
    rw [← ih h, List.append_assoc, List.singleton_append]

theorem foldlM_strcat_fits {l s : Text} (h : (s ++ l).length < 100) :
    l.foldlM (fun s c => strcat s [c]) s = some (s ++ l) := by
  induction l generalizing s with
  | nil => simp
  | cons c l ih =>
    have hlength : (s ++ [c] ++ l).length < 100 := by simpa using h
    have hone : strcat s [c] = some (s ++ [c]) := if_pos (by simp at hlength ⊢; omega)
    rw [List.foldlM_cons, hone, Option.bind_eq_bind, Option.bind_some, ih hlength, List.append_assoc,
      List.singleton_append]

/-- The `cp` command is the longest of the texts that are built. -/
theorem backingName_eq_some {name copy : Text} {count : Nat} :
    backingName name count = some copy ↔ 2 * name.length + count ≤ 77 ∧ newName name count = copy := by
  simp only [backingName, Option.bind_eq_bind, Option.bind_eq_some_iff, strcat_eq_some, Option.pure_def,
    Option.some.injEq]
  constructor
  · rintro ⟨oldName, ⟨-, rfl⟩, cmd, ⟨-, rfl⟩, cmd', ⟨-, rfl⟩, oldName', hold, newName',
      ⟨-, rfl⟩, cmd'', ⟨hcmd, rfl⟩, rfl⟩
    obtain rfl := foldlM_strcat hold
    refine ⟨?_, rfl⟩
    simp at hcmd
    omega
  · rintro ⟨hfits, rfl⟩
    refine ⟨name, ⟨by simp; omega, rfl⟩, _, ⟨by simp; omega, rfl⟩, _, ⟨by simp; omega, rfl⟩, _,
      foldlM_strcat_fits (by simp; omega), _, ⟨by simp; omega, rfl⟩, _, ⟨by simp; omega, rfl⟩, rfl⟩

/-! ## Several names -/

/-- The command that copies a script fits its array. -/
def NameFits (name : Text) (count : Nat) : Prop := 2 * name.length + count ≤ 77

/-- The copies' names, where they are built. -/
def copyNames (names : List Text) (count : Nat) : List Text :=
  names.mapIdx fun i name => newName name (count + i)

theorem copyNames_cons (name : Text) (names : List Text) (count : Nat) :
    copyNames (name :: names) count = newName name count :: copyNames names (count + 1) := by
  rw [copyNames, List.mapIdx_cons]
  simp [copyNames, Nat.add_assoc, Nat.add_comm 1]

theorem backingNames_eq_some {names copies : List Text} {count : Nat} :
    backingNames names count = some copies ↔
    (∀ i (h : i < names.length), NameFits names[i] (count + i)) ∧ copyNames names count = copies := by
  induction names generalizing count copies with
  | nil => simp [backingNames, copyNames]
  | cons name names ih =>
    simp only [backingNames, Option.bind_eq_bind, Option.bind_eq_some_iff, backingName_eq_some,
      Option.pure_def, Option.some.injEq, copyNames_cons]
    constructor
    · rintro ⟨copy, ⟨hfits, rfl⟩, rest, hrest, rfl⟩
      obtain ⟨hrestFits, rfl⟩ := ih.1 hrest
      refine ⟨fun i hi => ?_, rfl⟩
      cases i with
      | zero => exact hfits
      | succ i =>
        have := hrestFits i (by simpa using hi)
        rwa [Nat.add_assoc, Nat.add_comm 1] at this
    · rintro ⟨hfits, rfl⟩
      refine ⟨_, ⟨hfits 0 (Nat.zero_lt_succ _), rfl⟩, _, ih.2 ⟨fun i hi => ?_, rfl⟩, rfl⟩
      have := hfits (i + 1) (by simpa using hi)
      rwa [Nat.add_assoc, Nat.add_comm 1]

variable {σ : Type} (sh : Shell σ)

/-- These are the names that the interpreter's model gives. -/
theorem storeScripts_names (names : List Text) (k : Kernel σ) :
    (storeScripts sh names k).1 = copyNames names k.newNameCount := by
  induction names generalizing k with
  | nil => rfl
  | cons name names ih =>
    rw [copyNames_cons, storeScripts]
    exact congrArg _ (ih _)

/-- Two scripts share a copy where the first name is the second one with the
letters that the second gets fewer. -/
theorem newName_inj {s t : Text} {count d : Nat} :
    newName s count = newName t (count + d) ↔ s = t ++ List.replicate d 'a' := by
  unfold newName
  rw [List.append_cancel_left_eq, Nat.add_comm count d, ← List.replicate_append_replicate,
    ← List.append_assoc, List.append_cancel_right_eq]

/-- The scripts of a command get copies of their own: the arrays hold the
commands that copy them, and none is named as a later one with so many letters
as there are scripts from the one to the other. -/
def OwnCopies (names : List Text) (count : Nat) : Prop :=
  (∀ i (h : i < names.length), NameFits names[i] (count + i)) ∧
    ∀ i j (hi : i < names.length) (hj : j < names.length), i < j →
    names[i] ≠ names[j] ++ List.replicate (j - i) 'a'

theorem copyNames_nodup {names : List Text} {count : Nat} : (copyNames names count).Nodup ↔
    ∀ i j (hi : i < names.length) (hj : j < names.length), i < j →
      names[i] ≠ names[j] ++ List.replicate (j - i) 'a' := by
  rw [List.Nodup, List.pairwise_iff_getElem]
  have hiff : ∀ i j (hi : i < names.length) (hj : j < names.length), i < j →
      (newName names[i] (count + i) = newName names[j] (count + j) ↔
        names[i] = names[j] ++ List.replicate (j - i) 'a') :=
    fun i j hi hj hlt => by
      rw [show count + j = count + i + (j - i) by omega]
      exact newName_inj
  simp only [copyNames, List.length_mapIdx, List.getElem_mapIdx]
  exact forall₅_congr fun i j hi hj hlt => not_congr (hiff i j hi hj hlt)

/-! ## The copies -/

/-- A name without a character that means something to a path or to the host's shell. -/
def PlainName (name : Text) : Prop := ∀ c ∈ name, c.isAlphanum ∨ c = '.' ∨ c = '_'

/-- The host's `cp`: on a file that is there it makes the copy a file of the same contents. -/
def CopiesFiles (sh : Shell σ) : Prop :=
  ∀ name count s path, PlainName name → (sh.fopen ("./".toList ++ name) s).isSome →
    sh.fopen path (sh.system ("cp ./".toList ++ name ++ " ".toList ++ newName name count) s) =
      if path = newName name count then sh.fopen ("./".toList ++ name) s else sh.fopen path s

variable {sh}

theorem source_ne_newName {name : Text} (h : PlainName name) (s : Text) (count : Nat) :
    "./".toList ++ name ≠ newName s count := by
  intro heq
  have hstore : "./backing_store/".toList = "./".toList ++ "backing_store/".toList := by decide
  unfold newName at heq
  rw [hstore, List.append_assoc, List.append_cancel_left_eq] at heq
  have hslash : '/' ∈ name := by
    rw [heq]
    exact List.mem_append_left _ (by decide)
  have hchar := h '/' hslash
  revert hchar
  decide

theorem storeScripts_contents (hcp : CopiesFiles sh) {names : List Text} {k : Kernel σ}
    (hnames : ∀ name ∈ names, PlainName name ∧ (sh.fopen ("./".toList ++ name) k.shell).isSome) :
    (∀ path ∉ (storeScripts sh names k).1, sh.fopen path (storeScripts sh names k).2.shell =
      sh.fopen path k.shell) ∧ ((storeScripts sh names k).1.Nodup →
        (storeScripts sh names k).1.map (fun copy => sh.fopen copy (storeScripts sh names k).2.shell) =
          names.map fun name => sh.fopen ("./".toList ++ name) k.shell) := by
  induction names generalizing k with
  | nil => exact ⟨fun _ _ => rfl, fun _ => rfl⟩
  | cons name names ih =>
    obtain ⟨hplain, hthere⟩ := hnames name List.mem_cons_self
    rw [storeScripts]
    generalize hk₁ : ({ k with
      shell := sh.system ("cp ./".toList ++ name ++ " ".toList ++ newName name k.newNameCount) k.shell
      newNameCount := k.newNameCount + 1 } : Kernel σ) = k₁
    have hcopied : ∀ path, sh.fopen path k₁.shell =
        if path = newName name k.newNameCount then sh.fopen ("./".toList ++ name) k.shell else
        sh.fopen path k.shell :=
      fun path => by
        rw [← hk₁]
        exact hcp name k.newNameCount k.shell path hplain hthere
    have hsource : ∀ name' ∈ names, sh.fopen ("./".toList ++ name') k₁.shell =
        sh.fopen ("./".toList ++ name') k.shell :=
      fun name' hmem => by
        rw [hcopied, if_neg (source_ne_newName (hnames name' (List.mem_cons_of_mem _ hmem)).1 _ _)]
    obtain ⟨hother, hown⟩ := ih (k := k₁) fun name' hmem => by
      obtain ⟨hplain', hthere'⟩ := hnames name' (List.mem_cons_of_mem _ hmem)
      exact ⟨hplain', by rwa [hsource name' hmem]⟩
    refine ⟨fun path hpath => ?_, fun hnodup => ?_⟩
    · rw [List.mem_cons, not_or] at hpath
      obtain ⟨hne, hpath⟩ := hpath
      refine (hother path hpath).trans ?_
      rw [hcopied, if_neg hne]
    · obtain ⟨hfirst, hnodup⟩ := List.nodup_cons.1 hnodup
      rw [List.map_cons, List.map_cons]
      refine congrArg₂ _ ?_ ?_
      · refine (hother _ hfirst).trans ?_
        rw [hcopied, if_pos rfl]
      · refine (hown hnodup).trans (List.map_congr_left hsource)

/-- **The copies have different names** exactly where the scripts have copies
of their own, whatever was run before; and then each process is made from the
contents of its own script. -/
theorem backing_names_unique (names : List Text) :
    (∀ count, (∃ copies, backingNames names count = some copies ∧ copies.Nodup) ↔
      OwnCopies names count) ∧
      ∀ {σ : Type} (sh : Shell σ) (k : Kernel σ), OwnCopies names k.newNameCount → CopiesFiles sh →
        (∀ name ∈ names, PlainName name ∧ (sh.fopen ("./".toList ++ name) k.shell).isSome) →
        (storeScripts sh names k).1.map (fun copy => sh.fopen copy (storeScripts sh names k).2.shell) =
          names.map fun name => sh.fopen ("./".toList ++ name) k.shell := by
  refine ⟨fun count => ⟨fun ⟨copies, hcopies, hnodup⟩ => ?_, fun ⟨hfits, hown⟩ => ?_⟩,
    fun sh k hown hcp hnames => ?_⟩
  · obtain ⟨hfits, rfl⟩ := backingNames_eq_some.1 hcopies
    exact ⟨hfits, copyNames_nodup.1 hnodup⟩
  · exact ⟨_, backingNames_eq_some.2 ⟨hfits, rfl⟩, copyNames_nodup.2 hown⟩
  · refine (storeScripts_contents hcp hnames).2 ?_
    rw [storeScripts_names]
    exact copyNames_nodup.2 hown.2

/-- `cp ./name copy`, and no other command. -/
def copyFile (cmd : Text) (files : Text → Option Text) : Text → Option Text :=
  if "cp ./".toList <+: cmd then
    let name := (cmd.drop 5).takeWhile (· ≠ ' ')
    let copy := ((cmd.drop 5).dropWhile (· ≠ ' ')).drop 1
    Function.update files copy (files ("./".toList ++ name))
  else files

/-- A host of files, on which `cp` is the only command. -/
def fileShell : Shell (Text → Option Text) where
  frameStoreSize := 6
  varStoreSize := 2
  cwd := []
  system := copyFile
  fopen path files := files path
  filesysDone files := some files
  fsutilLs files := some (0, files)
  fsutilCat _ files := some (-1, files)
  fsutilRm _ files := some (0, files)
  fsutilCreate _ _ files := some (0, files)
  fsutilWrite _ _ _ files := some (-1, files)
  fsutilRead _ _ files := some (-1, files)
  fsutilSize _ files := some (-1, files)
  fsutilSeek _ _ files := some (-1, files)
  fsutilFreespace files := some files
  findFile _ files := some files
  copyIn _ files := some (1, files)
  copyOut _ files := some (1, files)
  fragmentationDegree files := some files
  defragment files := some files
  recover _ files := some files

theorem fileShell_copies : CopiesFiles fileShell := by
  intro name count files path hplain _
  have hblank : ∀ c ∈ name, decide (c ≠ ' ') = true := fun c hc => by
    rw [decide_eq_true_iff]
    rintro rfl
    have hchar := hplain ' ' hc
    revert hchar
    decide
  have hbody : ("cp ./".toList ++ name ++ " ".toList ++ newName name count).drop 5 =
      name ++ ' ' :: newName name count := by
    rw [List.append_assoc, List.append_assoc]
    rfl
  have hname : (name ++ ' ' :: newName name count).takeWhile (· ≠ ' ') = name := by
    rw [List.takeWhile_append_of_pos hblank]
    simp
  have hcopy : ((name ++ ' ' :: newName name count).dropWhile (· ≠ ' ')).drop 1 =
      newName name count := by
    rw [List.dropWhile_append_of_pos hblank]
    simp
  have hcp : "cp ./".toList <+: "cp ./".toList ++ name ++ " ".toList ++ newName name count := by
    rw [List.append_assoc, List.append_assoc]
    exact List.prefix_append _ _
  have hsystem : ∀ cmd, fileShell.fopen path (fileShell.system cmd files) =
      copyFile cmd files path := fun _ => rfl
  rw [hsystem, copyFile, if_pos hcp]
  simp only [hbody, hname, hcopy, Function.update_apply]
  rfl

/-- A host on which `a` and `b` are scripts. -/
def twoScripts : Text → Option Text := fun path =>
  if path = "./a".toList then some "help".toList
  else if path = "./b".toList then some "ls".toList
  else none

theorem backing_names_unique_two :
    (∃ copies, backingNames ["a".toList, "b".toList] 7 = some copies ∧ copies.Nodup) ∧
      (storeScripts fileShell ["a".toList, "b".toList] (kernelSetup twoScripts)).1.map
      (fun copy => fileShell.fopen copy
        (storeScripts fileShell ["a".toList, "b".toList] (kernelSetup twoScripts)).2.shell) =
          [some "help".toList, some "ls".toList] := by
  have hown : ∀ count ≤ 7, OwnCopies ["a".toList, "b".toList] count := fun count hcount => by
    refine ⟨fun i hi => ?_, fun i j hi hj hlt => ?_⟩
    · have hone : ∀ i (h : i < ["a".toList, "b".toList].length),
          (["a".toList, "b".toList][i]).length = 1 := by decide
      rw [NameFits, hone i hi]
      simp at hi
      omega
    · obtain ⟨rfl, rfl⟩ : i = 0 ∧ j = 1 := by
        simp at hj
        omega
      have hne : "a".toList ≠ "b".toList ++ List.replicate 1 'a' := by decide
      exact hne
  refine ⟨((backing_names_unique _).1 7).2 (hown 7 (Nat.le_refl _)), ?_⟩
  refine ((backing_names_unique _).2 fileShell (kernelSetup twoScripts)
    (hown 1 (by decide)) fileShell_copies ?_).trans (by decide)
  have hplain : ∀ name ∈ ["a".toList, "b".toList], name.all fun c => c.isAlphanum ∨ c = '.' ∨
      c = '_' := by decide
  refine fun name hname => ⟨fun c hc => ?_, ?_⟩
  · simpa using List.all_eq_true.1 (hplain name hname) c hc
  · revert name
    decide

/-- `xa` with one letter is `x` with two. -/
theorem backing_names_collide :
    ["xa".toList, "x".toList].Nodup ∧ backingNames ["xa".toList, "x".toList] 1 =
    some ["./backing_store/xaa".toList, "./backing_store/xaa".toList] ∧
      ¬ ∃ copies, backingNames ["xa".toList, "x".toList] 1 = some copies ∧ copies.Nodup := by
  have hbuilt : backingNames ["xa".toList, "x".toList] 1 =
      some ["./backing_store/xaa".toList, "./backing_store/xaa".toList] := by decide
  refine ⟨by decide, hbuilt, fun ⟨copies, hcopies, hnodup⟩ => ?_⟩
  obtain rfl := Option.some.inj (hbuilt.symm.trans hcopies)
  revert hnodup
  decide

end MyShell.Paging

/-
`filesys_create` when it fails. It gives back the inode's sector and no other:
the data sectors that `inode_create` took stay marked, whether it ran out of
sectors itself or the name could not be entered after it, and so do the sectors
that the root directory took to grow (`failed_create`).
-/
import MyShell.Fs.CopyIn

namespace MyShell.Fs

open Storage Session

variable {s : Session} {a : BlockSector → Option Node} {g : Growable UInt8} {T : Table}
  {path : CString} {length : Int} {st : FsState} {v : Image}

theorem Rooted.filesysCreate_failed (h : Rooted s a g T) (hcwd : s.CwdOk) (h0 : 0 ∉ path)
    (hlen : length < 2 ^ 31)
    (hrun : (Fs.filesysCreate path length false).exec s.st s.image = some (false, st, v)) :
    st.freeMap = s.st.freeMap ↔ TakesNothing s g T (fileName path) length := by
  obtain ⟨hslash, hsub⟩ := fileName_chars path
  obtain ⟨s', ok, hdoes, -, hres⟩ :=
    h.filesysCreate_cases hcwd rfl ⟨fun hmem => h0 (hsub hmem), hslash⟩ hlen
  rw [Does, hrun, Option.some.injEq, Prod.mk.injEq, Prod.mk.injEq] at hdoes
  obtain ⟨rfl, rfl, -⟩ := hdoes
  exact (hres.resolve_left fun hok => by cases hok.1).2.2.2.2

/-- **Failed creates.** A call of `filesys_create` that answers false leaves the free
map as it was exactly if the size is negative, or at most one sector was free, or
the size is 0 and the name is empty, too long or bound, or the directory is as
large as a file can be. -/
theorem failed_create (h : Rooted s a g T) (hcwd : s.CwdOk) (h0 : 0 ∉ path) (hlen : length < 2 ^ 31)
    (hrun : (filesysCreate path length false).exec s.st s.image = some (false, st, v)) :
    st.freeMap = s.st.freeMap ↔ length < 0 ∨ freeCount s.st.freeMap ≤ 1 ∨
      length = 0 ∧ (fileName path = [] ∨ nameMax < (fileName path).length ∨
        SlotMap.lookup T (fileName path) ≠ none ∨ InodeDisk.maxSectors * 512 < g.length + 36) :=
  h.filesysCreate_failed hcwd h0 hlen hrun

/-- A name of 31 characters. -/
def longName : CString := List.replicate 31 97

/-- On a fresh device of 200 sectors no file of this name is made. -/
theorem exists_longName (length : Int) (hlen : length < 2 ^ 31) : ∃ st v a g T st' v',
    (filesysInit 200 true).exec initialState (fun _ => Sector.zeros) = some (true, st, v) ∧
    Rooted ⟨st, v, [rootDirSector], []⟩ a g T ∧ Session.CwdOk ⟨st, v, [rootDirSector], []⟩ ∧
    freeCount st.freeMap = 125 ∧
    (filesysCreate longName length false).exec st v = some (false, st', v') := by
  obtain ⟨st, v, a, g, T, hformat, hrooted, hcwd, -, -, hfree, -, -⟩ := exists_rooted
  have hname : longName ≠ [] ∧ 0 ∉ longName ∧ slash ∉ longName := by decide
  obtain ⟨s', ok, hdoes, -, ⟨-, -, hshort, -⟩ | ⟨rfl, -⟩⟩ :=
    hrooted.filesysCreate hcwd (fileName_plain hname.1 hname.2.2) hname hlen
  · exact absurd hshort (by decide)
  · exact ⟨st, v, a, g, T, s'.st, s'.image, hformat, hrooted, hcwd, hfree, hdoes⟩

theorem failed_create_long : ∃ st v st' v', (filesysInit 200 true).exec initialState
    (fun _ => Sector.zeros) = some (true, st, v) ∧
    (filesysCreate longName 0 false).exec st v = some (false, st', v') ∧ st'.freeMap = st.freeMap := by
  obtain ⟨st, v, a, g, T, st', v', hformat, hrooted, hcwd, -, hrun⟩ := exists_longName 0 (by decide)
  have hlong : nameMax < (fileName longName).length := by decide
  exact ⟨st, v, st', v', hformat, hrun,
    (failed_create hrooted hcwd (by decide) (by decide) hrun).2 (.inr (.inr ⟨rfl, .inr (.inl hlong)⟩))⟩

/-- A file of one byte under that name costs a sector. -/
theorem failed_create_costs : ∃ st v st' v', (filesysInit 200 true).exec initialState
    (fun _ => Sector.zeros) = some (true, st, v) ∧
    (filesysCreate longName 1 false).exec st v = some (false, st', v') ∧ st'.freeMap ≠ st.freeMap := by
  obtain ⟨st, v, a, g, T, st', v', hformat, hrooted, hcwd, hfree, hrun⟩ := exists_longName 1 (by decide)
  refine ⟨st, v, st', v', hformat, hrun, fun hsame => ?_⟩
  rcases (hrooted.filesysCreate_failed hcwd (by decide) (by decide) hrun).1 hsame with
    hneg | hfew | ⟨hzero, -⟩
  · omega
  · have hfew : freeCount st.freeMap ≤ 1 := hfew
    omega
  · omega

end MyShell.Fs

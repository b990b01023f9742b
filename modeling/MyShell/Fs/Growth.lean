/-
An inode is an array of bytes that grows. `history` keeps, of a run, what an
inode was created as and the writes to it since; `contents` is the array these
writes make, and `inode_growable` says that it is what the inode's length and
`inode_read_at` show.
-/
import MyShell.Fs.Session
import MyShell.Lib.Growable

namespace MyShell.Fs

open Storage BlockTree

/-- A call of `inode_write_at`, and its answer. -/
structure Write where
  buffer : List UInt8
  ofs : Nat
  written : Int

/-- What is known of an inode: the array it was created as, and the writes
since. -/
structure History where
  start : Growable UInt8
  writes : List Write

def Call.record (x : BlockSector) (h : History) : Call → History
  | .inodeCreate y length _ ok => if y = x ∧ ok = true then ⟨.zeros length.toNat, []⟩ else h
  | .inodeWriteAt y buffer ofs n => if y = x then ⟨h.start, h.writes ++ [⟨buffer, ofs, n⟩]⟩ else h
  | _ => h

/-- The root directory's bytes after formatting. -/
def rootContents : Growable UInt8 :=
  .ofList 36000 (DirEntry.toBytes ⟨rootDirSector, [], true⟩) (by simp)

/-- The history of inode `x` in a run. -/
def history (x : BlockSector) (cs : List Call) : History :=
  cs.foldl (Call.record x) ⟨if x = rootDirSector then rootContents else .zeros 0, []⟩

/-- A write that wrote its whole buffer. -/
def Write.Done (w : Write) : Prop := w.written = w.buffer.length

instance (w : Write) : Decidable w.Done := inferInstanceAs (Decidable (_ = _))

/-- The array after the writes; one that fails writes nothing. -/
def History.contents (h : History) : Growable UInt8 :=
  h.writes.foldl (fun a w => if w.Done then a.write w.ofs w.buffer else a) h.start

theorem history_append (x : BlockSector) (cs : List Call) (c : Call) :
    history x (cs ++ [c]) = c.record x (history x cs) := by
  rw [history, List.foldl_append]
  rfl

theorem record_spares {x : BlockSector} {h : History} {c : Call} (hc : c.Spares x) :
    c.record x h = h := by
  cases c with
  | inodeCreate y length isDir ok => rw [Call.record, if_neg hc]
  | inodeWriteAt y buffer ofs n => rw [Call.record, if_neg hc]
  | _ => rfl

theorem contents_write (h : History) (w : Write) : (⟨h.start, h.writes ++ [w]⟩ : History).contents =
    if w.Done then h.contents.write w.ofs w.buffer else h.contents := by
  rw [History.contents, List.foldl_append]
  rfl

/-- The inode holds the array. -/
structure Session.Shows (s : Session) (x : BlockSector) (a : Growable UInt8) : Prop where
  length : (s.data x).length = a.length
  content : ∀ pos, (s.data x).content s.image pos = a.get pos

/-- The inode's bytes past its length are zeros, on its disk copy too. -/
theorem Session.Keeps.shows {s s' : Session} {x : BlockSector} {a : Growable UInt8}
    (h : s.Keeps s' x) (ha : s.Shows x a) : s'.Shows x a where
  length := h.length.trans ha.length
  content pos := by
    rcases h.content pos with hc | ⟨hpos, hc⟩
    · rw [hc, ha.content]
    · rw [ha.length] at hpos
      rw [hc, a.tail pos (by omega)]

/-- A write of at least one byte, whole or failed. -/
theorem Written.shows {fm : InodeDisk} {v v' : Image} {b b' : Bitmap} {L : List Owner}
    {i i' : Inode} {buffer : List UInt8} {ofs : Nat} {n : Int} {a : Growable UInt8}
    (hw : Written fm v b L i buffer ofs n i' v' b') (hne : buffer ≠ [])
    (hlen : i.data.length = a.length) (hcontent : ∀ pos, i.data.content v pos = a.get pos) :
    let a' := if (⟨buffer, ofs, n⟩ : Write).Done then a.write ofs buffer else a
    i'.data.length = a'.length ∧ ∀ pos, i'.data.content v' pos = a'.get pos := by
  have hpos : 0 < buffer.length := List.length_pos_iff.2 hne
  by_cases hroom : i.data.Within (ofs + buffer.length) ∨ i.data.Fits v b (ofs + buffer.length)
  · obtain ⟨hn, hlen', hbytes⟩ := hw.done hroom
    rw [if_pos (show (⟨buffer, ofs, n⟩ : Write).Done from hn)]
    refine ⟨?_, fun pos => ?_⟩
    · rw [hlen', Growable.length_write]
      by_cases hwithin : i.data.Within (ofs + buffer.length)
      · have hle := hwithin.2
        rw [if_pos hwithin]
        omega
      · rw [if_neg hwithin]
        rw [InodeDisk.Within, not_and] at hwithin
        have hle := hwithin (by omega)
        omega
    · rw [hbytes, Growable.get_write, hcontent]
  · obtain ⟨hn, hlen', hbytes⟩ := hw.failed hroom
    have hdone : ¬ (⟨buffer, ofs, n⟩ : Write).Done := by
      intro hd
      have hd : n = buffer.length := hd
      omega
    rw [if_neg hdone]
    exact ⟨hlen'.trans hlen, fun pos => (hbytes pos).trans (hcontent pos)⟩

/-- After formatting, the root directory is the one inode there is. -/
theorem Run.format_root {s : Session} (h : Run [] s) {x : BlockSector} (hx : s.Present x)
    (hx0 : x ≠ freeMapSector) :
    x = rootDirSector ∧ s.Shows rootDirSector rootContents ∧ (s.sectors rootDirSector).length ≤
    sectorCost 71 := by
  generalize hcs : ([] : List Call) = cs at h
  cases h with
  | step hr hs => simp at hcs
  | @format n v₀ st v hrun =>
    obtain ⟨q, fm, hinv, hf⟩ := Session.Inv.format hrun
    have hclosed := hinv.closed (x := rootDirSector) (by simp)
    have hroot : x = rootDirSector := by
      rcases hinv.cases_present hx hx0 with ⟨p, i, hp, hq, -⟩ | ⟨-, hC⟩
      · have hfree : (st.openInodes.free q).get p = some i := by rw [Heap.get_free, if_neg hq]; exact hp
        have := Heap.mem_of_get hfree
        rw [hf.alone] at this
        cases this
      · simpa using hC
    have hdata := Session.data_closed hclosed
    refine ⟨hroot, ⟨?_, fun pos => ?_⟩, ?_⟩
    · rw [hdata]
      exact hf.length
    · rw [hdata]
      exact hf.content pos
    · rw [Session.sectors, hdata]
      exact hf.sectors

/-- In every state of a run, an inode holds the array of its history. -/
theorem Run.shows {cs : List Call} {s : Session} {x : BlockSector} (h : Run cs s) (hx : s.Present x)
    (hx0 : x ≠ freeMapSector) (hsize : ∀ w ∈ (history x cs).writes, w.buffer ≠ []) :
    s.Shows x (history x cs).contents := by
  induction h with
  | format hrun =>
    obtain ⟨rfl, hshows, -⟩ := (Run.format hrun).format_root hx hx0
    exact hshows
  | @step cs s c s' hr hs ih =>
    obtain ⟨q, fm, C, hinv⟩ := hr.inv
    obtain ⟨C', hinv', heffect⟩ := hinv.step hs
    rw [history_append] at hsize ⊢
    cases heffect x hx0 hx with
    | keeps hc hkeep =>
      rw [record_spares hc] at hsize ⊢
      exact hkeep.shows (ih hkeep.present hsize)
    | @written L i i' buffer ofs n hc hpresent hw hi hi' =>
      subst hc
      rw [Call.record, if_pos rfl] at hsize ⊢
      obtain ⟨hlen, hcontent⟩ := ih hpresent fun w hw => hsize w (List.mem_append_left _ hw)
      rw [hi] at hlen hcontent
      have hne : buffer ≠ [] := hsize ⟨buffer, ofs, n⟩ (List.mem_append_right _ (by simp))
      obtain ⟨hlen', hcontent'⟩ := hw.shows hne hlen hcontent
      rw [contents_write]
      exact ⟨by rw [hi']; exact hlen', fun pos => by rw [hi']; exact hcontent' pos⟩
    | created hc hlen hdir hzero hsec =>
      subst hc
      rw [Call.record, if_pos ⟨rfl, rfl⟩]
      have hlow := (hinv'.sound hx hx0).low
      exact ⟨by rw [hlen, History.contents, List.foldl_nil, Growable.length_zeros]; omega, hzero⟩

/-- **An inode is an array of bytes that grows.** In every state of a run and
for every inode that is open there, written since its creation with at least
one byte each time: its length is that of the array the writes made; a read
answers with that part of the array; and a write of at least one byte, within
the largest size and with enough free sectors, writes it all, and the length is
then that of the end of the write if it was less. -/
theorem inode_growable {cs : List Call} {s : Session} {p : Ptr} {x : BlockSector} (h : Run cs s)
    (hp : s.Holds p x) (hx : x ≠ freeMapSector)
    (hsize : ∀ w ∈ (history x cs).writes, w.buffer ≠ []) :
    (s.data x).length = (history x cs).contents.length ∧
    (∀ size ofs : Nat, (inodeReadAt p size ofs).exec s.st s.image =
      some ((history x cs).contents.read size ofs, s.st, s.image)) ∧
    ∀ (buffer : List UInt8) (ofs : Nat), buffer ≠ [] →
      ofs + buffer.length ≤ InodeDisk.maxSectors * 512 →
      ((s.data x).lacking s.image (ofs + buffer.length)).length ≤ freeCount s.st.freeMap →
      ∃ st v, (inodeWriteAt p buffer ofs).exec s.st s.image = some ((buffer.length : Int), st, v) ∧
        (Session.data ⟨st, v, s.live, s.spare⟩ x).length =
        max (s.data x).length (ofs + buffer.length : Nat) := by
  obtain ⟨i, hi, rfl⟩ := hp
  obtain ⟨q, fm, C, hinv⟩ := h.inv
  have hq := hinv.holds_ne hi hx
  have hshows := h.shows (.inr ⟨p, i, hi, rfl⟩) hx hsize
  have hdata := hinv.data_open hi
  refine ⟨hshows.length, fun size ofs => ?read, fun buffer ofs hne hmax hfree => ?write⟩
  case read =>
    have hread := hinv.mounted.exec_inodeReadAt hi hq size ofs
    have hlen := hshows.length
    rw [hdata] at hlen
    rw [hread, hlen, Int.toNat_natCast, Growable.read]
    congr 2
    refine List.map_congr_left fun k _ => ?_
    rw [← hshows.content, hdata]
  case write =>
    have hend : ofs + buffer.length < 2 ^ 31 := by simp only [InodeDisk.maxSectors] at hmax; omega
    obtain ⟨n, i', b', v', hexec, hw, -⟩ := hinv.mounted.inodeWriteAt hi hq buffer ofs
    rw [hdata] at hfree
    have hsectors : bytesToSectors (ofs + buffer.length) ≤ InodeDisk.maxSectors := by
      simp only [bytesToSectors, divRoundUp, blockSectorSize]
      omega
    obtain ⟨rfl, -⟩ := hw.done (.inr ⟨hfree, hsectors⟩)
    have hstep := Step.inodeWriteAt ⟨i, hi, rfl⟩ hx hend hexec
    have hlast : history i.sector (cs ++ [.inodeWriteAt i.sector buffer ofs buffer.length]) =
        ⟨(history i.sector cs).start, (history i.sector cs).writes ++ [⟨buffer, ofs,
          buffer.length⟩]⟩ := by
      rw [history_append, Call.record, if_pos rfl]
    have hsize' : ∀ w ∈ (history i.sector cs).writes ++ [⟨buffer, ofs, buffer.length⟩],
        w.buffer ≠ [] := by
      intro w hw
      rcases List.mem_append.1 hw with hw | hw
      · exact hsize w hw
      · rw [List.mem_singleton.1 hw]
        exact hne
    have hshows' :=
      (h.step hstep).shows (.inr ⟨p, i', by simp [Heap.get_modify, hi], by rw [hw.inode]⟩) hx
      (by rw [hlast]; exact hsize')
    refine ⟨_, v', hexec, ?_⟩
    rw [hshows'.length, hlast, contents_write,
      if_pos (show Write.Done ⟨buffer, ofs, buffer.length⟩ from rfl),
      Growable.length_write, hshows.length]
    have hcast : ∀ a b : Nat, ((max a b : Nat) : Int) = max (a : Int) b := by omega
    exact hcast _ _

/-- A byte is written to a new file far beyond its end. The gap reads as zeros,
and a write farther on makes the file longer. -/
theorem inode_growable_run : ∃ s x p,
    Run [.freeMapAllocate (some x), .inodeCreate x 0 false true, .inodeOpen x,
      .inodeWriteAt x [7] 1000 1] s ∧ s.Holds p x ∧
    (s.data x).length = 1001 ∧
    (inodeReadAt p (10 : Nat) (995 : Nat)).exec s.st s.image = some ([0, 0, 0, 0, 0, 7], s.st,
      s.image) ∧
    ∃ st v, (inodeWriteAt p [1, 2] (1500 : Nat)).exec s.st s.image = some (2, st, v) ∧
      (Session.data ⟨st, v, s.live, s.spare⟩ x).length = 1502 := by
  have hcost : sectorCost (bytesToSectors (byteCnt ((200 : BlockSector).toNat - 1))) = 1 := by decide
  have hsize : (200 : BlockSector).toNat = 200 := rfl
  obtain ⟨s₁, x, p, hr₁, hp₁, hx, -, hfree₁⟩ := exists_file (n := 200) (by decide) (by decide)
  obtain ⟨q, fm, C, h₁⟩ := hr₁.inv
  have hend₁ : sectorCost (bytesToSectors (1000 + 1)) = 2 := by decide
  obtain ⟨s₂, hs₂, hp₂, -, hfree₂, -⟩ := h₁.exists_write hp₁ hx [7] 1000 (by simp) (by decide)
    (by simp only [List.length_singleton, hend₁]; omega)
  have hr₂ : Run [.freeMapAllocate (some x), .inodeCreate x 0 false true, .inodeOpen x,
      .inodeWriteAt x [7] 1000 1] s₂ :=
    hr₁.step hs₂
  have hhistory : history x
      [.freeMapAllocate (some x), .inodeCreate x 0 false true, .inodeOpen x,
        .inodeWriteAt x [7] 1000 1] = ⟨.zeros 0, [⟨[7], 1000, 1⟩]⟩ := by
    simp [history, Call.record]
  obtain ⟨hlen, hread, hwrite⟩ := inode_growable hr₂ hp₂ hx (by simp [hhistory])
  rw [hhistory] at hlen hread
  have hlen : (s₂.data x).length = 1001 := hlen
  obtain ⟨q, fm, C, h₂⟩ := hr₂.inv
  have hend₂ : sectorCost (bytesToSectors 1502) = 3 := by decide
  have hlacking :=
    (h₂.sound (.inr ⟨p, hp₂⟩) hx).length_lacking (n := 1502) (by rw [hlen]; decide) (by decide)
  simp only [List.length_singleton, hend₁] at hfree₂
  obtain ⟨st, v, hexec, hgrown⟩ := hwrite [1, 2] 1500 (by simp) (by decide) (by
    change ((s₂.data x).lacking s₂.image 1502).length ≤ _
    omega)
  rw [hlen] at hgrown
  exact ⟨s₂, x, p, hr₂, hp₂, hlen, hread 10 995, st, v, hexec, hgrown⟩

end MyShell.Fs

import Retrobsd.FsutilCheck
import Retrobsd.FsutilCreation

/-! The check of a file system that has only the two directories: no phase finds anything to report. -/
namespace Retrobsd.Fsutil
open List
open Function

/-- A file system as it is opened after it was made without a swap file, from the first block of data on. -/
structure Fresh (now data : Nat) (fs : Fs) : Prop where
  listed : Listed fs (List.range' (data + 2) (fs.fsize - (data + 2)))
  small : fs.isize ≤ 2^18 - 1
  table : ∀ n, inodeGet fs n = if n = 0 ∨ 16 * (fs.isize - 1) < n then .error .zero else .ok (newTable now data n)
  begun : 2 ≤ fs.isize
  area : data = fs.isize
  room : data + 2 ≤ fs.fsize
  lost : fs.image data = lostFoundBlock
  root : fs.image (data + 1) = rootBlock 0
  tinode : fs.tinode = 16 * (fs.isize - 1) - 3
  spare : Spare fs
  clean : fs.modified = false

variable {c : Check}

section
variable {inode : Inode} {addr : Bool} {func : Scanner}

theorem scanInode_none (kind : inode.mode &&& modeFmt ≠ modeFblk ∧ inode.mode &&& modeFmt ≠ modeFchr)
    (none : ∀ i, inode.addr i = 0) : scanInode addr func c inode = ({c with filesize := inode.size},keepon) := by
  rw [scanInode,if_neg (not_or.mpr kind)]
  simp only [none,map_cons,map_nil,filter_cons,filter_nil,ne_eq,not_true_eq_false,decide_false,if_false,keepon]
  rfl

theorem scanInode_one {b : Nat} (kind : inode.mode &&& modeFmt ≠ modeFblk ∧ inode.mode &&& modeFmt ≠ modeFchr)
    (first : inode.addr 0 = b) (some : b ≠ 0) (none : ∀ i, i ≠ 0 → inode.addr i = 0) :
    (scanInode addr func c inode).1 = (func {c with filesize := inode.size} inode b).1 := by
  rw [scanInode,if_neg (not_or.mpr kind)]
  have direct : ([0,1,2,3].map inode.addr).filter (· ≠ 0) = [b] := by
    simp only [map_cons,map_nil,first,none 1 (by decide),none 2 (by decide),none 3 (by decide)]
    rw [filter_cons_of_pos (by simpa using some)]
    rfl
  rw [direct,none 4 (by decide),none 5 (by decide),none 6 (by decide)]
  have single : scanEach (fun c nb => func c inode nb) {c with filesize := inode.size} [b] =
    ((func {c with filesize := inode.size} inode b).1,
        if (func {c with filesize := inode.size} inode b).2.stop then
          (func {c with filesize := inode.size} inode b).2 else keepon) := by
    simp only [scanEach]
    split
    next => rfl
    next => rfl
  dsimp only
  rw [single]
  cases halted : (func {c with filesize := inode.size} inode b).2.stop
  · simp [keepon]
  · simp [halted]

theorem pass1_fresh {b : Nat} (inside : outrange c.fs b = false) (fresh : c.blockMap b = false) :
    pass1 c inode b = ({c with used := c.used + 1,blockMap := update c.blockMap b true},keepon) := by
  rw [pass1,if_neg (by rw [inside]; decide),if_neg (by rw [fresh]; decide)]

end
variable {b : Nat}

section
variable {now t n nlink : Nat} {fs : Fs}

theorem save_clean (fs : Fs) {inode : Inode} (clean : inode.dirty = false) :
    inodeSave fs inode now false = .ok fs ∨ inodeSave fs inode now false = .error .zero := by
  rw [inodeSave]
  split
  next => exact .inr rfl
  next => exact .inl (if_pos ⟨rfl,clean⟩)

theorem phase1_empty {inode : Inode} (found : inodeGet c.fs n = .ok inode) (clean : inode.dirty = false)
    (unused : inode.mode = 0) :
    phase1 now c n = c := by
  have format : ¬inode.mode &&& modeFmt ≠ 0 := by
    rw [unused]
    decide
  rw [phase1,found]
  dsimp only
  rw [if_neg format,if_neg (not_not.mpr unused)]
  rcases @save_clean now c.fs inode clean with same | same <;> rw [same]

theorem phase1_first {inode : Inode} (found : inodeGet c.fs n = .ok inode) (clean : inode.dirty = false)
    (mode : inode.mode = modeFreg)
    (unlinked : inode.nlink = 0) (none : ∀ i, inode.addr i = 0) (few : c.badLinks.length < linkListSize) :
    phase1 now c n = {c with
      files := c.files + 1
      linkCount := update c.linkCount n 0
      badLinks := c.badLinks ++ [n]
      stateMap := update c.stateMap n .fstate
      badBlocks := 0
      dupBlocks := 0
      filesize := inode.size} := by
  have format : inode.mode &&& modeFmt ≠ 0 := by
    rw [mode]
    decide
  have kind : inode.mode &&& modeFmt ≠ modeFblk ∧ inode.mode &&& modeFmt ≠ modeFchr := by
    rw [mode]
    decide
  have file : isDir inode = false := by
    rw [isDir,mode]
    decide
  simp only [phase1,found,if_pos format,unlinked,if_true,if_pos few,file,Check.setInodeState,
    scanInode_none kind none,Bool.false_eq_true,
    false_and,and_false,if_false]
  rcases @save_clean now c.fs inode clean with same | same <;> rw [same] <;> rfl

theorem stored_first (t n nlink : Nat) (word : b < 2^32) :
    (stored (directoryInode t n nlink b) t).addr 0 = b := Nat.mod_eq_of_lt word

theorem stored_other (t n nlink b : Nat) (i : Fin 7) (other : i ≠ 0) : (stored (directoryInode t n nlink b) t).addr i = 0 := by
  rw [stored,directoryInode]
  dsimp only
  rw [if_neg other]
  rfl

theorem phase1_directory (found : inodeGet c.fs n = .ok (stored (directoryInode t n nlink b) t)) (linked : nlink % 2^16 = nlink)
    (some : nlink ≠ 0) (word : b < 2^32) (block : b ≠ 0) (inside : outrange c.fs b = false) (fresh : c.blockMap b = false) :
    phase1 now c n = {c with
      files := c.files + 1
      linkCount := update c.linkCount n nlink
      stateMap := update c.stateMap n .dstate
      badBlocks := 0
      dupBlocks := 0
      filesize := bsdfsBsize
      used := c.used + 1
      blockMap := update c.blockMap b true} := by
  have clean : (stored (directoryInode t n nlink b) t).dirty = false := rfl
  have mode : (stored (directoryInode t n nlink b) t).mode = modeFdir + 0o777 := rfl
  have count : (stored (directoryInode t n nlink b) t).nlink = nlink := linked
  have size : (stored (directoryInode t n nlink b) t).size = bsdfsBsize := rfl
  have first := stored_first t n nlink word
  have none := stored_other t n nlink b
  generalize stored (directoryInode t n nlink b) t = inode at *
  have format : inode.mode &&& modeFmt ≠ 0 := by
    rw [mode]
    decide
  have kind : inode.mode &&& modeFmt ≠ modeFblk ∧ inode.mode &&& modeFmt ≠ modeFchr := by
    rw [mode]
    decide
  have directory : isDir inode = true := by
    rw [isDir,mode]
    decide
  have aligned : ¬bsdfsBsize % 4 ≠ 0 := by decide
  have scanned : ∀ u : Check, u.fs = c.fs → u.blockMap = c.blockMap →
      pass1 u inode b = ({u with used := u.used + 1,blockMap := update u.blockMap b true},keepon) :=
    fun u same same' => pass1_fresh (by rw [same]; exact inside) (by rw [same']; exact fresh)
  simp only [phase1,found,if_pos format,count,if_neg some,directory,if_true,scanInode_one kind first block none,
    Check.setInodeState,scanned,
    size,aligned,and_false,if_false]
  rcases @save_clean now c.fs inode clean with same | same <;> rw [same]

def scanned (data : Nat) (fs : Fs) : Check := {startCheck fs with
  blockMap := update (update (fun _ => false) (data + 1) true) data true
  stateMap := update (update (update (fun _ => .ustate) 1 .fstate) rootInode .dstate) lostfoundInode .dstate
  linkCount := update (update (update (fun _ => 0) 1 0) rootInode (3 : Nat)) lostfoundInode (2 : Nat)
  badLinks := [1]
  filesize := bsdfsBsize
  files := 3
  used := 2}

theorem newTable_first (now data : Nat) : newTable now data 1 = stored {noInode with number := 1,mode := modeFreg} now := rfl

theorem newTable_root (now data : Nat) :
    newTable now data rootInode = stored (directoryInode now rootInode 3 (data + 1)) now := rfl

theorem newTable_lost (now data : Nat) :
    newTable now data lostfoundInode = stored (directoryInode now lostfoundInode 2 data) now := rfl

theorem newTable_unused (now data : Nat) (other : 4 ≤ n) : newTable now data n = emptyInode n := by
  have first : n ≠ 1 := by omega
  have root : n ≠ rootInode := by
    rw [rootInode]
    omega
  have lost : n ≠ lostfoundInode := by
    rw [lostfoundInode]
    omega
  rw [newTable,update_of_ne root,update_of_ne lost,update_of_ne first]

variable {data : Nat} (fresh : Fresh now data fs)
include fresh

theorem Fresh.get (some : n ≠ 0) (inside : n ≤ 16 * (fs.isize - 1)) : inodeGet fs n = .ok (newTable now data n) := by
  rw [fresh.table,if_neg (not_or.mpr ⟨some,Nat.not_lt.mpr inside⟩)]

theorem Fresh.numbers : (List.range (inodes fs)).map (1 + ·) =
    [1,rootInode,lostfoundInode] ++ (List.range (inodes fs - 3)).map (4 + ·) := by
  have begun := fresh.begun
  have count : inodes fs = 3 + (inodes fs - 3) := by
    rw [inodes_small (by omega) fresh.small]
    omega
  rw [count,range_add,map_append,map_map,Nat.add_sub_cancel_left]
  refine congrArg₂ (· ++ ·) rfl (map_congr_left fun k _ => ?_)
  exact (Nat.add_assoc 1 3 k).symm

theorem phase1_unused (here : c.fs = fs) : ∀ (ns : List Nat), (∀ n ∈ ns, 4 ≤ n) → ns.foldl (phase1 t) c = c
  | [],_ => rfl
  | n :: ns,high => by
    have low := high n mem_cons_self
    have first : phase1 t c n = c := by
      rcases Nat.lt_or_ge (16 * (fs.isize - 1)) n with outside | inside
      · rw [phase1,here,fresh.table,if_pos (.inr outside)]
      · refine phase1_empty (here ▸ (fresh.get (by omega) inside)) ?_ ?_ <;> rw [newTable_unused now data low] <;> rfl
    rw [foldl_cons,first]
    exact phase1_unused here ns fun m member => high m (mem_cons_of_mem n member)

theorem Fresh.outrange (inside : data ≤ b) (below : b < fs.fsize) : outrange fs b = false := by
  rw [Fsutil.outrange,Bool.or_eq_false_iff,decide_eq_false_iff_not,decide_eq_false_iff_not,← fresh.area]
  exact ⟨Nat.not_lt.mpr inside,Nat.not_le.mpr below⟩

theorem phase1_fold : ((List.range (inodes fs)).map (1 + ·)).foldl (phase1 t) (startCheck fs) = scanned data fs := by
  have begun := fresh.begun
  have area := fresh.area
  have room := fresh.room
  have volume := fresh.listed.sizes.2
  have first : phase1 t (startCheck fs) 1 = _ := phase1_first (fresh.get (by decide) (by omega)) (by rfl) (by rfl)
    (by rfl) (fun i => by rfl)
    (show 0 < linkListSize by decide)
  have high : ∀ n ∈ (List.range (inodes fs - 3)).map (4 + ·), 4 ≤ n := fun n member => by
    obtain ⟨k,_,rfl⟩ := mem_map.mp member
    exact Nat.le_add_right 4 k
  rw [fresh.numbers,foldl_append,foldl_cons,foldl_cons,foldl_cons,foldl_nil,first,
    phase1_directory (t := now) (n := rootInode) (b := data + 1)
      (by exact fresh.get (by decide) (by rw [rootInode]; omega)) (by decide) (by decide) (by omega) (by omega)
      (by exact fresh.outrange (by omega) (by omega)) (by rfl),
    phase1_directory (t := now) (n := lostfoundInode) (b := data)
      (by exact fresh.get (by decide) (by rw [lostfoundInode]; omega)) (by decide) (by decide) (by omega) (by omega)
      (by exact fresh.outrange (by omega) (by omega)) (by exact update_of_ne (Nat.succ_ne_self data).symm _ _),
    phase1_unused fresh (by rfl) _ high]
  rfl

theorem lastAllocated_fresh : lastAllocated fs = lostfoundInode := by
  have begun := fresh.begun
  have kinds : ∀ p : Nat → Bool, (∀ n inode, inodeGet fs n = .ok inode → p n = decide (inode.mode &&& modeFmt ≠ 0)) →
      (((List.range (inodes fs)).map (1 + ·)).filter p).getLastD 0 = lostfoundInode := fun p reads => by
    have unused : ((List.range (inodes fs - 3)).map (4 + ·)).filter p = [] := by
      refine filter_eq_nil_iff.mpr fun n member => ?_
      obtain ⟨k,below,rfl⟩ := mem_map.mp member
      have below := mem_range.mp below
      rw [inodes_small (by omega) fresh.small] at below
      rw [reads _ _ (fresh.get (by omega) (by omega)),newTable_unused now data (Nat.le_add_right 4 k)]
      exact fun used => of_decide_eq_true used (Nat.zero_and modeFmt)
    have file : modeFreg &&& modeFmt ≠ 0 := by decide
    have directory : (modeFdir + 0o777) &&& modeFmt ≠ 0 := by decide
    have first : p 1 = true := (reads 1 _ (fresh.get (by decide) (by omega))).trans (decide_eq_true file)
    have root : p rootInode = true := (reads rootInode _ (fresh.get (by decide) (by rw [rootInode]; omega))).trans
      (decide_eq_true directory)
    have lost : p lostfoundInode = true := (reads lostfoundInode _ (fresh.get (by decide) (by rw [lostfoundInode]; omega))).trans
      (decide_eq_true directory)
    rw [fresh.numbers,filter_append,unused,append_nil,filter_cons_of_pos first,filter_cons_of_pos root,filter_cons_of_pos lost]
    rfl
  exact kinds _ fun n inode found => by rw [found]

end
variable {base : Check} {link : Nat → Int} {state : Nat → InodeState} {descend : Check → Nat → Check}

section
variable {data : Block} {d : Dirent} {blk o turns : Nat}

/-- What a scan of directories changes is the buffer, the counts of links and the states of inodes. -/
structure Walk (base : Check) (link : Nat → Int) (state : Nat → InodeState) (c : Check) : Prop where
  same : c = {base with
    bufData := c.bufData
    bufBno := c.bufBno
    bufDirty := false
    filesize := c.filesize
    linkCount := link
    stateMap := state}
  buf : c.bufBno = 2^32 - 1 ∨ readBlock base.fs c.bufBno = .ok c.bufData

theorem Walk.sized (walk : Walk base link state c) (size : Nat) :
    Walk base link state {c with filesize := size} := ⟨by rw [walk.same],walk.buf⟩

theorem Walk.getBuf (walk : Walk base link state c) (block : blk < 2^32 - 1) (read : readBlock base.fs blk = .ok data) :
    c.getBuf blk = ({c with bufData := data,bufBno := blk},true) ∧
    Walk base link state {c with bufData := data,bufBno := blk} := by
  have clean : c.bufDirty = false := by rw [walk.same]
  have image : c.fs = base.fs := by rw [walk.same]
  refine ⟨?_,⟨by rw [walk.same],.inr read⟩⟩
  rw [Check.getBuf]
  split
  next here =>
    rcases walk.buf with none | held
    · omega
    rw [here,read] at held
    rw [Except.ok.inj held,← here]
  next =>
    have flushed : c.flushBuf = c := by
      rw [Check.flushBuf,clean,Bool.false_and,if_neg (by decide),← clean]
    rw [flushed]
    dsimp only
    rw [image,read]

variable {link' : Nat → Int} {state' : Nat → InodeState}

theorem Walk.entry (walk : Walk base link state c) (o turns : Nat) (descend : Check → Nat → Check) (inside : o < bsdfsBsize)
    (more : 0 < c.filesize) (block : blk < 2^32 - 1) (read : readBlock base.fs blk = .ok data)
    (unpacked : direntUnpack data o = d)
    (some : d.reclen ≠ 0) (kept : ∀ c, Walk base link state c →
      ∃ c', pass2 descend c d = (c',d,keepon) ∧ Walk base link' state' c' ∧ c'.filesize = c.filesize) :
    ∃ c', scanEntries (pass2 descend) blk (turns + 1) c o = scanEntries (pass2 descend) blk turns c' (o + d.reclen) ∧
      Walk base link' state' c' ∧ c'.filesize = (c.filesize + 2^64 - d.reclen) % 2^64 := by
  obtain ⟨held,walk⟩ := walk.getBuf block read
  obtain ⟨c',passed,after,size⟩ := kept _ walk
  refine ⟨{c' with filesize := (c'.filesize + 2^64 - d.reclen) % 2^64},?_,after.sized _,
    congrArg (fun n => (n + 2^64 - d.reclen) % 2^64) size⟩
  rw [scanEntries,if_pos ⟨inside,more⟩,held]
  dsimp only
  rw [if_neg (by decide),unpacked,if_neg some,passed]
  rfl

theorem Walk.counted (walk : Walk base link state c) (low : rootInode ≤ d.ino) (high : d.ino ≤ inodes base.fs)
    (file : state d.ino = .fstate) : ∃ c', pass2 descend c d = (c',d,keepon) ∧
      Walk base (update link d.ino (link d.ino - 1)) state c' ∧ c'.filesize = c.filesize := by
  have image : c.fs = base.fs := by rw [walk.same]
  have known : c.stateMap = state := by rw [walk.same]
  have counts : c.linkCount = link := by rw [walk.same]
  refine ⟨{c with linkCount := update c.linkCount d.ino (c.linkCount d.ino - 1)},?_,⟨?_,walk.buf⟩,rfl⟩
  · rw [rootInode] at low
    rw [pass2]
    dsimp only
    rw [if_neg (by omega),image,if_neg (by rw [rootInode]; omega),known,file]
  · rw [counts]
    rw [walk.same]

theorem Walk.entered (walk : Walk base link state c) (low : rootInode ≤ d.ino)
    (high : d.ino ≤ inodes base.fs) (directory : state d.ino = .dstate)
    (inner : ∀ c, Walk base (update link d.ino (link d.ino - 1)) state c →
      Walk base link' state' (descend c d.ino) ∧ (descend c d.ino).filesize = c.filesize) :
    ∃ c', pass2 descend c d = (c',d,keepon) ∧ Walk base link' state' c' ∧ c'.filesize = c.filesize := by
  have image : c.fs = base.fs := by rw [walk.same]
  have known : c.stateMap = state := by rw [walk.same]
  have counts : c.linkCount = link := by rw [walk.same]
  have after : Walk base (update link d.ino (link d.ino - 1)) state
      {c with linkCount := update c.linkCount d.ino (c.linkCount d.ino - 1)} := by
    refine ⟨?_,walk.buf⟩
    rw [counts]
    rw [walk.same]
  obtain ⟨done,size⟩ := inner _ after
  refine ⟨_,?_,done,size⟩
  rw [rootInode] at low
  rw [pass2]
  dsimp only
  rw [if_neg (by omega),image,if_neg (by rw [rootInode]; omega),known,directory]

theorem Walk.directory {n nlink t : Nat} (deeper : Nat) (walk : Walk base link state c)
    (found : inodeGet base.fs n = .ok (stored (directoryInode t n nlink b) t)) (word : b < 2^32) (some : b ≠ 0)
    (inside : outrange base.fs b = false)
    (entries : ∀ c, Walk base link (update state n .fstate) c → c.filesize = bsdfsBsize →
      Walk base link' state' (scanEntries (pass2 (scanPass2 deeper)) b (bsdfsBsize + 1) c 0).1) :
    Walk base link' state' (scanPass2 (deeper + 1) c n) ∧ (scanPass2 (deeper + 1) c n).filesize = c.filesize := by
  have image : c.fs = base.fs := by rw [walk.same]
  have known : c.stateMap = state := by rw [walk.same]
  have mode : (stored (directoryInode t n nlink b) t).mode = modeFdir + 0o777 := rfl
  have size : (stored (directoryInode t n nlink b) t).size = bsdfsBsize := rfl
  have first := stored_first t n nlink word
  have none := stored_other t n nlink b
  generalize stored (directoryInode t n nlink b) t = inode at *
  have kind : inode.mode &&& modeFmt ≠ modeFblk ∧ inode.mode &&& modeFmt ≠ modeFchr := by
    rw [mode]
    decide
  have after : Walk base link (update state n .fstate) (c.setInodeState n .fstate) := by
    refine ⟨?_,walk.buf⟩
    rw [Check.setInodeState,known]
    rw [walk.same]
  have found' : inodeGet (c.setInodeState n .fstate).fs n = .ok inode := (congrArg (inodeGet · n) image).trans found
  have inside' : outrange (c.setInodeState n .fstate).fs b = false := (congrArg (outrange · b) image).trans inside
  have scan : scanPass2 (deeper + 1) c n =
      {(scanEntries (pass2 (scanPass2 deeper)) b (bsdfsBsize + 1) {c.setInodeState n .fstate with filesize := bsdfsBsize} 0).1 with
        filesize := c.filesize} := by
    rw [scanPass2]
    dsimp only
    rw [found']
    dsimp only
    rw [scanInode_one kind first some none,scanDirectory,size,if_neg (by rw [inside']; decide)]
    rfl
  rw [scan]
  exact ⟨(entries _ (after.sized bsdfsBsize) rfl).sized c.filesize,rfl⟩

end
def less (link : Nat → Int) (n : Nat) : Nat → Int := update link n (link n - 1)

theorem entries_done {turns : Nat} : (scanEntries (pass2 descend) b (turns + 1) c bsdfsBsize).1 = c := by
  rw [scanEntries,if_neg fun inside => absurd inside.1 (Nat.lt_irrefl _)]

theorem lost_entries (walk : Walk base link state c) (size : c.filesize = bsdfsBsize) (block : b < 2^32 - 1)
    (read : readBlock base.fs b = .ok lostFoundBlock) (many : lostfoundInode ≤ inodes base.fs)
    (root : state rootInode = .fstate) (lost : state lostfoundInode = .fstate) :
    Walk base (less (less link lostfoundInode) rootInode) state (scanEntries (pass2 descend) b (bsdfsBsize + 1) c 0).1 := by
  have first : (direntUnpack lostFoundBlock 0).ino = lostfoundInode ∧ (direntUnpack lostFoundBlock 0).reclen =
    12 := by decide +kernel
  have second : (direntUnpack lostFoundBlock 12).ino = rootInode ∧ (direntUnpack lostFoundBlock 12).reclen =
    1012 := by decide +kernel
  have low : rootInode ≤ lostfoundInode := by decide
  obtain ⟨c1,step1,walk1,size1⟩ := walk.entry 0 bsdfsBsize descend (by decide) (by rw [size]; decide) block read rfl
    (by rw [first.2]; decide)
    fun c walk => walk.counted (by rw [first.1]; exact low) (by rw [first.1]; exact many) (by rw [first.1]; exact lost)
  rw [first.2,size] at size1
  rw [first.1] at walk1
  obtain ⟨c2,step2,walk2,size2⟩ :=
    walk1.entry 12 1023 descend (by decide) (by rw [size1]; decide) block read rfl (by rw [second.2]; decide)
    fun c walk => walk.counted (by rw [second.1]) (by rw [second.1]; exact low.trans many) (by rw [second.1]; exact root)
  rw [second.1] at walk2
  rw [step1,first.2,Nat.zero_add,show bsdfsBsize = 1023 + 1 from rfl,step2,second.2]
  rw [show 12 + 1012 = bsdfsBsize from rfl,entries_done]
  exact walk2

theorem root_entries {link' : Nat → Int} {state' : Nat → InodeState} (walk : Walk base link state c)
    (size : c.filesize = bsdfsBsize)
    (block : b < 2^32 - 1) (read : readBlock base.fs b = .ok (rootBlock 0)) (many : lostfoundInode ≤ inodes base.fs)
    (root : state rootInode = .fstate) (lost : state lostfoundInode = .dstate)
    (inner : ∀ c, Walk base (less (less (less link rootInode) rootInode) lostfoundInode) state c →
      Walk base link' state' (descend c lostfoundInode) ∧ (descend c lostfoundInode).filesize = c.filesize) :
    Walk base link' state' (scanEntries (pass2 descend) b (bsdfsBsize + 1) c 0).1 := by
  have first : (direntUnpack (rootBlock 0) 0).ino = rootInode ∧ (direntUnpack (rootBlock 0) 0).reclen = 12 := by decide +kernel
  have second : (direntUnpack (rootBlock 0) 12).ino = rootInode ∧ (direntUnpack (rootBlock 0) 12).reclen =
    12 := by decide +kernel
  have third : (direntUnpack (rootBlock 0) 24).ino = lostfoundInode ∧ (direntUnpack (rootBlock 0) 24).reclen =
    1000 := by decide +kernel
  have low : rootInode ≤ lostfoundInode := by decide
  obtain ⟨c1,step1,walk1,size1⟩ := walk.entry 0 bsdfsBsize descend (by decide) (by rw [size]; decide) block read rfl
    (by rw [first.2]; decide)
    fun c walk => walk.counted (by rw [first.1]) (by rw [first.1]; exact low.trans many) (by rw [first.1]; exact root)
  rw [first.2,size] at size1
  rw [first.1] at walk1
  obtain ⟨c2,step2,walk2,size2⟩ :=
    walk1.entry 12 1023 descend (by decide) (by rw [size1]; decide) block read rfl (by rw [second.2]; decide)
    fun c walk => walk.counted (by rw [second.1]) (by rw [second.1]; exact low.trans many) (by rw [second.1]; exact root)
  rw [second.2,size1] at size2
  rw [second.1] at walk2
  obtain ⟨c3,step3,walk3,_⟩ := walk2.entry 24 1022 descend (by decide) (by rw [size2]; decide) block read rfl
    (by rw [third.2]; decide)
    fun c walk => walk.entered (by rw [third.1]; exact low) (by rw [third.1]; exact many) (by rw [third.1]; exact lost)
      (by rw [third.1]; exact inner)
  rw [step1,first.2,Nat.zero_add,show bsdfsBsize = 1023 + 1 from rfl,step2,second.2]
  rw [show 12 + 12 = 24 from rfl,step3,third.2]
  rw [show 24 + 1000 = bsdfsBsize from rfl,entries_done]
  exact walk3

end Retrobsd.Fsutil

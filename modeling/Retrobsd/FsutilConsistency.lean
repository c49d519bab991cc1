import Retrobsd.FsutilSilence

/-! What makes an image consistent, and for which sizes `fsCreate` writes a consistent one. -/
namespace Retrobsd.Fsutil
open List

inductive Enumerates : Fs → List Nat → Prop where
  | done {fs : Fs} (none : blockAlloc fs = .error .zero) : Enumerates fs []
  | next {fs t : Fs} {b : Nat} {l : List Nat} (taken : blockAlloc fs = .ok (t,b)) (rest : Enumerates t l) :
    Enumerates fs (b :: l)

section
variable (fs : Fs)

def treeBlocks : Nat → Nat → List Nat
  | 0,b => [b]
  | level + 1,b => b :: (((List.range 256).map (fs.image (place b)).word).filter (· ≠ 0)).flatMap (treeBlocks level)

def fileBlocks (inode : Inode) : List Nat :=
  ((List.finRange 7).filter fun i => inode.addr i ≠ 0).flatMap fun i : Fin 7 => treeBlocks fs (i.val - 3) (inode.addr i)

/-- A block of the root, of `lost+found` or of the swap file. -/
def InUse (b : Nat) : Prop := ∃ n ∈ [rootInode,lostfoundInode,swapInode], ∃ inode, inodeGet fs n = .ok inode ∧
    b ∈ fileBlocks fs inode

def blockEntries (data : Block) : Nat → Nat → List Dirent
  | 0,_ => []
  | turns + 1,o =>
    let d := direntUnpack data o
    if o < bsdfsBsize ∧ d.reclen ≠ 0 then d :: blockEntries data turns (o + d.reclen) else []

def directoryEntries (inode : Inode) : List Dirent := (List.range (inode.size / bsdfsBsize)).flatMap fun lbn =>
  match mapBlock fs inode lbn with
  | .ok b => blockEntries (fs.image (place b)) bsdfsBsize 0
  | .error _ => []

def entries : List Nat := (((List.range (inodes fs)).map (1 + ·)).flatMap fun n => match inodeGet fs n with
  | .ok inode => if isDir inode then (directoryEntries fs inode).map Dirent.ino else []
  | .error _ => []).filter (· ≠ 0)

def freeInodes : Nat := ((List.range (inodes fs)).map (1 + ·)).countP fun n => match inodeGet fs n with
  | .ok inode => inode.mode = 0
  | .error _ => false

structure Consistent : Prop where
  free : ∃ l, Enumerates fs l ∧ l.Nodup ∧ (∀ b, b ∈ l ↔ fs.isize ≤ b ∧ b < fs.fsize ∧ ¬InUse fs b) ∧ fs.tfree = l.length
  inodes : fs.tinode = freeInodes fs
  links : ∀ n inode, inodeGet fs n = .ok inode → inode.mode ≠ 0 → inode.nlink = (entries fs).count n
  swap : ∀ inode, inodeGet fs swapInode = .ok inode → ∀ lbn < fs.swapsz, mapBlock fs inode lbn = .ok (fs.isize + lbn)
  superblock : ∀ now, fsSync fs now false = .ok fs ∧ ∃ t, fsSync fs now true = .ok t ∧
    t.image = Function.update fs.image 0 ((fs.image 0).putWord 242 now)
  silent : ∀ writable now stale, fsCheck now stale {fs with writable} = ([],true)

end

def ConsistentImage (image : Nat → Block) : Prop := ∃ fs, fsOpen image true = .ok fs ∧ Consistent fs

section
variable {now data : Nat} {fs : Fs} {l : List Nat}

theorem Listed.enumerates : ∀ {l : List Nat} {fs : Fs}, Listed fs l → Enumerates fs l
  | [],_,listed => .done listed.exhausted
  | _ :: _,_,listed => by
    obtain ⟨t,taken,rest,_⟩ := listed.alloc
    exact .next taken rest.enumerates

variable {number nlink b t n : Nat} {inode : Inode}

theorem fileBlocks_directory (word : b < 2^32) (some : b ≠ 0) :
    fileBlocks fs (stored (directoryInode t number nlink b) t) = [b] := by
  have addr : ∀ i, (stored (directoryInode t number nlink b) t).addr i = if i = 0 then b else 0 := fun i => by
    rw [stored,directoryInode]
    dsimp only
    split
    next => exact Nat.mod_eq_of_lt word
    next => rfl
  have only : ((finRange 7).filter fun i => (stored (directoryInode t number nlink b) t).addr i ≠ 0) = [0] := by
    have same : (fun i => decide ((stored (directoryInode t number nlink b) t).addr i ≠ 0)) = fun i : Fin 7 =>
      decide (i = 0) := by
      funext i
      rw [addr]
      by_cases first : i = 0 <;> simp [first,some]
    rw [same]
    decide
  rw [fileBlocks,only,flatMap_cons,flatMap_nil,addr]
  rfl

theorem fileBlocks_empty : fileBlocks fs (emptyInode n) = [] := by
  rw [fileBlocks,filter_eq_nil_iff.mpr]
  · rfl
  intro i _ some
  exact of_decide_eq_true some rfl

theorem Fresh.inUse (fresh : Fresh now data fs) (b : Nat) : InUse fs b ↔ b = data ∨ b = data + 1 := by
  have begun := fresh.begun
  have area := fresh.area
  have room := fresh.room
  have volume := fresh.listed.sizes.2
  have root := fresh.get (n := rootInode) (by decide) (by rw [rootInode]; omega)
  have lost := fresh.get (n := lostfoundInode) (by decide) (by rw [lostfoundInode]; omega)
  have swap := fresh.get (n := swapInode) (by decide) (by rw [swapInode]; omega)
  rw [newTable_root] at root
  rw [newTable_lost] at lost
  rw [newTable_unused now data (by decide)] at swap
  have blocks : fileBlocks fs (stored (directoryInode now rootInode 3 (data + 1)) now) = [data + 1] :=
    fileBlocks_directory (by omega) (by omega)
  have blocks' : fileBlocks fs (stored (directoryInode now lostfoundInode 2 data) now) = [data] :=
    fileBlocks_directory (by omega) (by omega)
  constructor
  · rintro ⟨n,member,inode,found,inside⟩
    simp only [mem_cons,not_mem_nil,or_false] at member
    rcases member with rfl | rfl | rfl
    · rw [← Except.ok.inj (root.symm.trans found),blocks] at inside
      exact .inr (mem_singleton.mp inside)
    · rw [← Except.ok.inj (lost.symm.trans found),blocks'] at inside
      exact .inl (mem_singleton.mp inside)
    · rw [← Except.ok.inj (swap.symm.trans found),fileBlocks_empty] at inside
      exact absurd inside not_mem_nil
  · rintro (rfl | rfl)
    · exact ⟨lostfoundInode,by decide,_,lost,by rw [blocks']; exact mem_singleton_self _⟩
    · exact ⟨rootInode,by decide,_,root,by rw [blocks]; exact mem_singleton_self _⟩

theorem Fresh.free (fresh : Fresh now data fs) : ∃ l, Enumerates fs l ∧ l.Nodup ∧
    (∀ b, b ∈ l ↔ fs.isize ≤ b ∧ b < fs.fsize ∧ ¬InUse fs b) ∧ fs.tfree = l.length := by
  have area := fresh.area
  have room := fresh.room
  refine ⟨_,fresh.listed.enumerates,fresh.listed.nodup,fun b => ?_,fresh.listed.total⟩
  rw [fresh.inUse,mem_range'_1]
  omega

theorem freeInodes_past (table : Nat → Inode) (used : Nat) (count : used ≤ inodes fs)
    (found : ∀ n, n ≠ 0 → n ≤ inodes fs → inodeGet fs n = .ok (table n)) (some : ∀ n, n ≠ 0 → n ≤ used → (table n).mode ≠ 0)
    (none : ∀ n, used < n → (table n).mode = 0) : freeInodes fs = inodes fs - used := by
  have kinds : ∀ p : Nat → Bool, (∀ n inode, inodeGet fs n = .ok inode → p n = decide (inode.mode = 0)) →
      ((range (inodes fs)).map (1 + ·)).countP p = inodes fs - used := fun p reads => by
    have parts : (range (inodes fs)).map (1 + ·) =
        (range used).map (1 + ·) ++ (range (inodes fs - used)).map fun k => 1 + (used + k) := by
      obtain ⟨rest,whole⟩ := Nat.exists_eq_add_of_le count
      rw [whole,range_add,map_append,map_map,Nat.add_sub_cancel_left]
      rfl
    have first : ((range used).map (1 + ·)).countP p = 0 := by
      rw [countP_eq_zero]
      intro n member
      obtain ⟨k,below,rfl⟩ := mem_map.mp member
      have below := mem_range.mp below
      rw [reads _ _ (found (1 + k) (by omega) (by omega)),decide_eq_true_eq]
      exact some (1 + k) (by omega) (by omega)
    have rest : ((range (inodes fs - used)).map fun k => 1 + (used + k)).countP p = inodes fs - used := by
      rw [countP_eq_length.mpr,length_map,length_range]
      intro n member
      obtain ⟨k,below,rfl⟩ := mem_map.mp member
      have below := mem_range.mp below
      rw [reads _ _ (found _ (by omega) (by omega)),decide_eq_true_eq]
      exact none _ (by omega)
    rw [parts,countP_append,first,rest,Nat.zero_add]
  exact kinds _ fun n inode found => by rw [found]

theorem newTable_used (now data : Nat) (some : n ≠ 0) (low : n ≤ 3) : (newTable now data n).mode ≠ 0 := by
  have cases3 : n = 1 ∨ n = rootInode ∨ n = lostfoundInode := by
    rw [rootInode,lostfoundInode]
    omega
  rcases cases3 with rfl | rfl | rfl
  · exact show modeFreg ≠ 0 by decide
  · exact show modeFdir + 0o777 ≠ 0 by decide
  · exact show modeFdir + 0o777 ≠ 0 by decide

theorem Fresh.freeInodes (fresh : Fresh now data fs) : fs.tinode = freeInodes fs := by
  have begun := fresh.begun
  have count := inodes_small (show 1 ≤ fs.isize by omega) fresh.small
  rw [freeInodes_past (newTable now data) 3 (by omega) (fun n some inside => fresh.get some (by omega))
    (fun n => newTable_used now data) (fun n high => by rw [newTable_unused now data high]; rfl),count,fresh.tinode]

theorem directoryEntries_new (word : b < 2^32) (small : b < 2^22) :
    directoryEntries fs (stored (directoryInode t number nlink b) t) = blockEntries (fs.image b) bsdfsBsize 0 := by
  have size : (stored (directoryInode t number nlink b) t).size / bsdfsBsize = 1 := by
    rw [show (stored (directoryInode t number nlink b) t).size = bsdfsBsize from rfl,bsdfsBsize]
  have first : mapBlock fs (stored (directoryInode t number nlink b) t) 0 = .ok b := by
    rw [mapBlock,dif_pos (by decide)]
    exact congrArg Except.ok (Nat.mod_eq_of_lt word)
  rw [directoryEntries,size,show range 1 = [0] from rfl,flatMap_cons,flatMap_nil,first,append_nil]
  dsimp only
  rw [place_small small]

theorem isDir_kind {mode : Nat} (same : inode.mode = mode) : isDir inode = (mode &&& modeFmt == modeFdir) := by
  rw [isDir,same]

theorem isDir_file (mode : Nat) (same : inode.mode = mode) (other : (mode &&& modeFmt == modeFdir) = false) :
    ¬isDir inode = true := by
  rw [isDir_kind same,other]
  decide

theorem isDir_new : isDir (stored (directoryInode t number nlink b) t) = true :=
  (isDir_kind (show (stored (directoryInode t number nlink b) t).mode = modeFdir + 0o777 from rfl)).trans (by decide)

theorem root_names : (blockEntries (rootBlock 0) bsdfsBsize 0).map Dirent.ino =
    [rootInode,rootInode,lostfoundInode] := by decide +kernel

theorem lost_names : (blockEntries lostFoundBlock bsdfsBsize 0).map Dirent.ino = [lostfoundInode,rootInode] := by decide +kernel

theorem Fresh.entries (fresh : Fresh now data fs) :
    entries fs = [rootInode,rootInode,lostfoundInode,lostfoundInode,rootInode] := by
  have begun := fresh.begun
  have area := fresh.area
  have small := fresh.small
  have count := inodes_small (show 1 ≤ fs.isize by omega) fresh.small
  have kinds : ∀ p : Nat → List Nat, (∀ n inode, inodeGet fs n = .ok inode → p n =
      if isDir inode then (directoryEntries fs inode).map Dirent.ino else []) →
      (((range (inodes fs)).map (1 + ·)).flatMap p) = [rootInode,rootInode,lostfoundInode,lostfoundInode,
      rootInode] := fun p reads => by
    have unused : ((range (inodes fs - 3)).map (4 + ·)).flatMap p = [] := by
      refine flatMap_eq_nil_iff.mpr fun n member => ?_
      obtain ⟨k,below,rfl⟩ := mem_map.mp member
      have below := mem_range.mp below
      rw [reads _ _ (fresh.get (by omega) (by omega)),newTable_unused now data (Nat.le_add_right 4 k)]
      exact if_neg (isDir_file 0 rfl (by decide))
    have first : p 1 = [] := by
      rw [reads 1 _ (fresh.get (by decide) (by omega)),newTable_first]
      exact if_neg (isDir_file modeFreg rfl (by decide))
    have root : p rootInode = [rootInode,rootInode,lostfoundInode] := by
      rw [reads rootInode _ (fresh.get (by decide) (by rw [rootInode]; omega)),newTable_root,
        directoryEntries_new (by omega) (by omega),fresh.root,root_names]
      exact if_pos isDir_new
    have lost : p lostfoundInode = [lostfoundInode,rootInode] := by
      rw [reads lostfoundInode _ (fresh.get (by decide) (by rw [lostfoundInode]; omega)),newTable_lost,
        directoryEntries_new (by omega) (by omega),fresh.lost,lost_names]
      exact if_pos isDir_new
    rw [fresh.numbers,flatMap_append,unused,append_nil,flatMap_cons,flatMap_cons,flatMap_cons,flatMap_nil,first,root,lost]
    rfl
  rw [Fsutil.entries,kinds _ fun n inode found => by rw [found]]
  rfl

theorem Fresh.links (fresh : Fresh now data fs) (found : inodeGet fs n = .ok inode) (used : inode.mode ≠ 0) :
    inode.nlink = (Fsutil.entries fs).count n := by
  rw [fresh.entries]
  rw [fresh.table] at found
  split at found
  next => cases found
  next inside =>
    cases found
    rcases Nat.lt_or_ge n 4 with low | high
    · have cases3 : n = 1 ∨ n = rootInode ∨ n = lostfoundInode := by
        rw [rootInode,lostfoundInode]
        omega
      rcases cases3 with rfl | rfl | rfl <;> rfl
    · rw [newTable_unused now data high] at used
      exact absurd rfl used

/-- The superblock of an image that is opened has all the words of the file system, with the time when it was written. -/
structure Synced (fs : Fs) : Prop where
  writable : fs.writable = true
  clean : fs.dirty = false
  words : ∃ b u, fs.image 0 = Block.writeWords b fun j => some (if j = 242 then u else superWords fs j)

theorem writeWords_writeWords (b : Block) (v w : Nat → Nat) :
    (b.writeWords fun j => some (v j)).writeWords (fun j => some (w j)) = b.writeWords fun j => some (w j) := rfl

theorem putWord_writeWords (b : Block) (v : Nat → Nat) (i n : Nat) :
    (b.writeWords fun j => some (v j)).putWord i n = b.writeWords fun j => some (if j = i then n else v j) := by
  funext k
  rw [Block.putWord,Block.writeWords,Block.writeWords,Block.writeWords]
  by_cases here : k.val / 4 = i
  · simp [here]
  · simp [here]

theorem Synced.superblock (synced : Synced fs) (now : Nat) : fsSync fs now false = .ok fs ∧ ∃ t, fsSync fs now true = .ok t ∧
    t.image = Function.update fs.image 0 ((fs.image 0).putWord 242 now) := by
  obtain ⟨b,u,words⟩ := synced.words
  rw [fsSync,fsSync,if_neg (by rw [synced.writable]; decide),if_pos ⟨rfl,synced.clean⟩,if_neg (by rw [synced.writable]; decide),
    if_neg (fun both => absurd both.1 (by decide))]
  refine ⟨rfl,_,rfl,?_⟩
  dsimp only
  have same : (fun j => some (superWords {fs with utime := now} j)) =
      fun j => some (if j = 242 then now else if j = 242 then u else superWords fs j) := by
    funext j
    rw [superWords_time]
    split
    next => rfl
    next => rfl
  rw [same,words,writeWords_writeWords,putWord_writeWords]

theorem Fresh.opened (fresh : Fresh now data fs) (writable : Bool) : Fresh now data {fs with writable} :=
  ⟨⟨fresh.listed.chain,fresh.listed.range,fresh.listed.nodup,fresh.listed.slots,fresh.listed.sizes,fresh.listed.begun,
    fresh.listed.total⟩,fresh.small,fresh.table,fresh.begun,fresh.area,fresh.room,fresh.lost,fresh.root,fresh.tinode,
    ⟨fresh.spare.few,fresh.spare.unused,fresh.spare.words⟩,fresh.clean⟩

theorem Fresh.consistent (now data : Nat) (fresh : Fresh now data fs) (synced : Synced fs)
    (none : fs.swapsz = 0) : Consistent fs where
  free := fresh.free
  inodes := fresh.freeInodes
  links _ _ found used := fresh.links found used
  swap _ _ lbn below := absurd below (by omega)
  superblock := synced.superblock
  silent writable _ _ := fsCheck_fresh (fresh.opened writable)

theorem finish_opened {made : Fs} {table : Nat → Inode} (built : Built fs l table)
    (none : fs.ninode = 0 ∧ fs.inode = fun _ => 0) (swap : fs.swapsz < 2^32) (tinode : fs.tinode < 2^32)
    (flags : fs.flock = 0 ∧ fs.fmod = 0 ∧ fs.ilock = 0 ∧ fs.ronly = 0) (fsmnt : fs.fsmnt = fun _ => 0)
    (finished : finish now fs = .ok made) : fsOpen made.image true = .ok (reopened made true) ∧
      Built (reopened made true) l table ∧ Spare (reopened made true) ∧ Synced (reopened made true) ∧
      (∀ x, 1 ≤ x → made.image x = fs.image x) ∧
      made = {fs with ninode := made.ninode,inode := made.inode,utime := now,image := made.image,dirty := false} := by
  obtain ⟨built',spare,image,words,⟨b,block⟩,only⟩ := finish_spec built none finished
  have small : made.isize < 2^32 := by
    have := built'.small
    omega
  have fits : ∀ j, j ≠ 242 → superWords made j < 2^32 := fun j other => by
    refine superWords_lt built'.listed small spare ?_ ?_ ?_ ?_ other
    · rw [only]
      exact swap
    · rw [only]
      exact tinode
    · rw [only]
      exact flags
    · rw [only]
      exact fsmnt
  refine ⟨fsOpen_synced fits words,built'.congr rfl rfl rfl ⟨rfl,rfl,rfl⟩ fun _ _ => rfl,⟨spare.few,spare.unused,spare.words⟩,
    ⟨rfl,rfl,b,superWords made 242,?_⟩,image,only⟩
  refine block.trans (congrArg (Block.writeWords b) (funext fun j => ?_))
  have time := superWords_time made (made.utime % 2^32) j
  have same : superWords (reopened made true) j = superWords {made with utime := made.utime % 2^32} j := rfl
  rw [same,time]
  by_cases other : j = 242
  · rw [if_pos other,other]
  · rw [if_neg other,if_neg other]

theorem Rooted.consistent {fsize : Nat} {made : Fs} (rooted : Rooted now fsize 0 data fs) (finished : finish now fs = .ok made) :
    ConsistentImage made.image := by
  obtain ⟨isize,fsize',swapsz⟩ := rooted.sizes
  obtain ⟨flock,fmod,ilock,ronly,_,fsmnt⟩ := rooted.rest
  have small := rooted.built.small
  have begun := rooted.begun
  have area := rooted.area
  obtain ⟨opened,built,spare,synced,image,only⟩ :=
    finish_opened rooted.built rooted.spare (by rw [swapsz]; exact Nat.two_pow_pos 32)
    (by rw [rooted.tinode]; omega) ⟨flock,fmod,ilock,ronly⟩ fsmnt finished
  have size : made.isize = fs.isize := by rw [only]
  have volume : made.fsize = fsize := by
    rw [only]
    exact fsize'
  refine ⟨_,opened,Fresh.consistent now data ?_ synced ?_⟩
  · refine ⟨volume ▸ built.listed,built.small,built.inodes,size ▸ begun,size ▸ area,volume ▸ rooted.room,?_,?_,?_,spare,rfl⟩
    · exact (image data (by omega)).trans rooted.lost
    · exact (image (data + 1) (by omega)).trans rooted.root
    have count : made.tinode = fs.tinode := by rw [only]
    exact count.trans (size ▸ rooted.tinode)
  · exact (congrArg Fs.swapsz only).trans swapsz

end
end Retrobsd.Fsutil

import Retrobsd.FsutilImage

/-! The parts of `fsCreate`, each with what it does to the free list, the inodes and the blocks of data. -/
namespace Retrobsd.Fsutil
open List
open Function
open FreeList (Slots slot Chain)

/-- A file system with its free list and what its inodes are read as. -/
structure Built (fs : Fs) (l : List Nat) (table : Nat → Inode) : Prop where
  listed : Listed fs l
  writable : fs.writable = true
  small : fs.isize ≤ 2^18 - 1
  inodes : ∀ n, inodeGet fs n = if n = 0 ∨ 16 * (fs.isize - 1) < n then .error .zero else .ok (table n)

structure Sizes (fs t : Fs) : Prop where
  sizes : t.isize = fs.isize ∧ t.fsize = fs.fsize ∧ t.swapsz = fs.swapsz
  list : t.ninode = fs.ninode ∧ t.inode = fs.inode
  rest : t.flock = fs.flock ∧ t.fmod = fs.fmod ∧ t.ilock = fs.ilock ∧ t.ronly = fs.ronly ∧ t.utime = fs.utime ∧
    t.fsmnt = fs.fsmnt

section
variable {fs t u : Fs} {l : List Nat} {table : Nat → Inode} {inode : Inode} {now b : Nat}

theorem Sizes.refl (fs : Fs) : Sizes fs fs := ⟨⟨rfl,rfl,rfl⟩,⟨rfl,rfl⟩,rfl,rfl,rfl,rfl,rfl,rfl⟩

theorem Sizes.images (image : Nat → Block) (modified : Bool) : Sizes fs {fs with image,modified} :=
  ⟨⟨rfl,rfl,rfl⟩,⟨rfl,rfl⟩,rfl,rfl,rfl,rfl,rfl,rfl⟩

theorem Sizes.trans (first : Sizes fs t) (second : Sizes t u) : Sizes fs u := by
  obtain ⟨⟨isize,fsize,swapsz⟩,⟨ninode,inode⟩,flock,fmod,ilock,ronly,utime,fsmnt⟩ := first
  obtain ⟨⟨isize',fsize',swapsz'⟩,⟨ninode',inode'⟩,flock',fmod',ilock',ronly',utime',fsmnt'⟩ := second
  exact ⟨⟨isize'.trans isize,fsize'.trans fsize,swapsz'.trans swapsz⟩,⟨ninode'.trans ninode,inode'.trans inode⟩,
    flock'.trans flock,fmod'.trans fmod,ilock'.trans ilock,ronly'.trans ronly,utime'.trans utime,fsmnt'.trans fsmnt⟩

theorem Kept.sized (kept : Kept fs t) : Sizes fs t := ⟨kept.sizes,⟨kept.inodes.1,kept.inodes.2.1⟩,kept.rest⟩

section
variable (built : Built fs l table)
include built

theorem Built.begun : 1 ≤ fs.isize := built.listed.sizes.1

theorem Built.congr (isize : t.isize = fs.isize) (fsize : t.fsize = fs.fsize) (writable : t.writable = true)
    (array : t.nfree = fs.nfree ∧ t.free = fs.free ∧ t.tfree = fs.tfree)
    (same : ∀ x, x ∈ l ∨ (1 ≤ x ∧ x < fs.isize) → t.image x = fs.image x) : Built t l table := by
  obtain ⟨nfree,free,tfree⟩ := array
  have listed := built.listed
  refine ⟨⟨?_,?_,listed.nodup,?_,?_,?_,?_⟩,writable,isize ▸ built.small,fun n => ?_⟩
  · rw [nfree,free]
    refine listed.chain.frame fun x member => ?_
    rw [low,low,same x (.inl member)]
  · rw [isize,fsize]
    exact listed.range
  · rw [free]
    exact listed.slots
  · rw [isize,fsize]
    exact listed.sizes
  · rw [nfree]
    exact listed.begun
  · rw [tfree]
    exact listed.total
  · rw [inodeGet_congr built.begun built.small isize fun x low high => same x (.inr ⟨low,high⟩),isize]
    exact built.inodes n

theorem Built.write (used : b ∉ l) (inside : fs.isize ≤ b) (small : b < 2^22) (data : Block) :
    writeBlock fs b data = .ok {fs with image := update fs.image b data,modified := true} ∧
      Built {fs with image := update fs.image b data,modified := true} l table := by
  constructor
  · rw [writeBlock,if_neg (not_or.mpr ⟨by rw [built.writable]; decide,Nat.not_lt.mpr inside⟩),place_small small]
  refine built.congr (by exact rfl) (by exact rfl) built.writable ⟨rfl,rfl,rfl⟩ fun x member => update_of_ne ?_ _ _
  rintro rfl
  rcases member with member | ⟨_,below⟩
  · exact used member
  · exact absurd inside (Nat.not_le.mpr below)

theorem Built.alloc (taken : blockAlloc fs = .ok (t,b)) : ∃ rest, l = b :: rest ∧
    Built t rest table ∧ t.image = fs.image ∧ Sizes fs t ∧ t.tinode = fs.tinode := by
  cases l with
  | nil =>
    rw [built.listed.exhausted] at taken
    cases taken
  | cons first rest =>
    obtain ⟨u,found,listed,image,kept⟩ := built.listed.alloc
    rw [found] at taken
    cases taken
    refine ⟨rest,rfl,⟨listed,kept.writable.trans built.writable,kept.sizes.1 ▸ built.small,fun n => ?_⟩,image,
      kept.sized,kept.inodes.2.2⟩
    rw [inodeGet_congr built.begun built.small kept.sizes.1 fun x _ _ => by rw [image],kept.sizes.1]
    exact built.inodes n

theorem Built.save (mode : inode.mode < 2^16) (saved : inodeSave fs inode now true = .ok t) :
    Built t l (update table inode.number (stored inode now)) ∧ t = {fs with image := t.image} ∧
      ∀ x, x = 0 ∨ fs.isize ≤ x → t.image x = fs.image x := by
  obtain ⟨only,data,inodes⟩ := inodeSave_get built.begun built.small mode saved
  have isize : t.isize = fs.isize := by rw [only]
  have fsize : t.fsize = fs.fsize := by rw [only]
  have array : t.nfree = fs.nfree ∧ t.free = fs.free ∧ t.tfree = fs.tfree := by
    rw [only]
    exact ⟨rfl,rfl,rfl⟩
  have writable : t.writable = true := by
    rw [only]
    exact built.writable
  have listed := built.listed
  have chain : Chain (low t.image) t.nfree t.free l := by
    rw [array.1,array.2.1]
    refine listed.chain.frame fun x member => ?_
    rw [low,low,data x (.inr (listed.range x member).1)]
  refine ⟨⟨⟨chain,?_,listed.nodup,?_,?_,?_,?_⟩,writable,isize ▸ built.small,fun n => ?_⟩,only,data⟩
  · rw [isize,fsize]
    exact listed.range
  · rw [array.2.1]
    exact listed.slots
  · rw [isize,fsize]
    exact listed.sizes
  · rw [array.1]
    exact listed.begun
  · rw [array.2.2]
    exact listed.total
  rw [inodes n,isize,built.inodes n,update_apply]
  by_cases same : n = inode.number
  · rw [if_pos same,if_pos same,if_neg]
    -- the inode could not have been saved otherwise
    intro outside
    have bad : inode.number = 0 ∨ Fsutil.inodes fs < inode.number := by
      rw [inodes_small built.begun built.small,← same]
      exact outside
    rw [inodeSave,if_neg (by rw [built.writable]; decide),if_neg (fun both => absurd both.1 (by decide)),if_pos bad] at saved
    cases saved
  · rw [if_neg same,if_neg same]

theorem Built.saveNew (mode : inode.mode < 2^16) (saved : saveNew now fs inode = .ok t) :
    Built t l (update table inode.number (stored inode now)) ∧ Sizes fs t ∧
      t.tinode = (fs.tinode + 2^32 - 1) % 2^32 ∧ ∀ x, x = 0 ∨ fs.isize ≤ x → t.image x = fs.image x := by
  rw [Fsutil.saveNew] at saved
  obtain ⟨u,wrote,counted⟩ := Lib.Run.except_bind_ok saved
  obtain ⟨here,only,data⟩ := built.save mode wrote
  cases counted
  have sizes : Sizes fs u := by
    rw [only]
    exact Sizes.images _ _
  refine ⟨here.congr (by exact rfl) (by exact rfl) here.writable ⟨rfl,rfl,rfl⟩ fun _ _ =>
    rfl,⟨sizes.sizes,sizes.list,sizes.rest⟩,?_,data⟩
  rw [only]

def directoryInode (now number nlink bno : Nat) : Inode := {noInode with
  number
  mode := modeFdir + 0o777
  size := bsdfsBsize
  nlink
  addr := fun i => if i = 0 then bno else 0
  atime := now
  mtime := now
  ctime := now}

theorem Built.createDirectory {number nlink : Nat} {buf : Block}
    (small : ∀ b rest, l = b :: rest → b < 2^22) (made : createDirectory now fs number nlink buf = .ok t) :
    ∃ b rest, l = b :: rest ∧ Built t rest (update table number (stored (directoryInode now number nlink b) now)) ∧
      Sizes fs t ∧ t.tinode = (fs.tinode + 2^32 - 1) % 2^32 ∧ t.image b = buf ∧
      ∀ x, x ≠ b → x = 0 ∨ fs.isize ≤ x → t.image x = fs.image x := by
  rw [Fsutil.createDirectory] at made
  obtain ⟨⟨u,b⟩,taken,made⟩ := Lib.Run.except_bind_ok made
  obtain ⟨v,wrote,made⟩ := Lib.Run.except_bind_ok made
  obtain ⟨rest,head,left,image,sizes,tinode⟩ := built.alloc taken
  have used : b ∉ rest := (nodup_cons.mp (head ▸ built.listed.nodup)).1
  have inside : fs.isize ≤ b := (built.listed.range b (by rw [head]; exact mem_cons_self)).1
  obtain ⟨written,after⟩ := left.write used (sizes.sizes.1 ▸ inside) (small b rest head) buf
  have same := Except.ok.inj (wrote.symm.trans written)
  subst same
  obtain ⟨here,sizes',tinode',data⟩ := @Built.saveNew _ t rest table (directoryInode now number nlink b) now after
    (show modeFdir + 0o777 < 2^16 by decide) made
  have isize : u.isize = fs.isize := sizes.sizes.1
  refine ⟨b,rest,head,here,⟨?_,?_,?_⟩,?_,?_,fun x other place => ?_⟩
  · exact (sizes.trans ⟨sizes'.sizes,sizes'.list,sizes'.rest⟩).sizes
  · exact (sizes.trans ⟨sizes'.sizes,sizes'.list,sizes'.rest⟩).list
  · exact (sizes.trans ⟨sizes'.sizes,sizes'.list,sizes'.rest⟩).rest
  · rw [tinode']
    exact congrArg (fun n => (n + 2^32 - 1) % 2^32) tinode
  · rw [data b (.inr (isize ▸ inside))]
    exact update_self ..
  · rw [data x (isize ▸ place),← image]
    exact update_of_ne other _ _

end

theorem clearInodes_eq (ns : List Nat) : ∀ {fs : Fs}, fs.tinode < 2^32 → clearInodes fs ns =
    {fs with image := fun x => if x ∈ ns then Block.zero else fs.image x,tinode := (fs.tinode + 16 * ns.length) % 2^32} := by
  induction ns with
  | nil =>
    intro fs small
    rw [clearInodes,length_nil,Nat.mul_zero,Nat.add_zero,Nat.mod_eq_of_lt small]
    simp
  | cons n ns ih =>
    intro fs small
    rw [clearInodes,ih (Nat.mod_lt _ (by decide))]
    have image : (fun x => if x ∈ ns then Block.zero else update fs.image n Block.zero x) =
        fun x => if x ∈ n :: ns then Block.zero else fs.image x := by
      funext x
      rw [update_apply]
      by_cases later : x ∈ ns
      · rw [if_pos later,if_pos (mem_cons_of_mem n later)]
      · simp [later]
    have count : ((fs.tinode + inodesPerBlock) % 2^32 + 16 * ns.length) % 2^32 = (fs.tinode + 16 * (n :: ns).length) % 2^32 := by
      rw [inodesPerBlock,length_cons]
      omega
    dsimp only
    rw [image,count]

def emptyInode (n : Nat) : Inode := {noInode with number := n}

theorem inodeAt_zero (o n : Nat) : inodeAt Block.zero o n = emptyInode n := by
  rw [inodeAt,emptyInode,noInode]
  dsimp only
  simp only [Block.word_zero,Nat.zero_mod,Nat.zero_div]

theorem Listed.clear (listed : Listed fs l) (small : fs.isize ≤ 2^18 - 1) (writable : fs.writable = true)
    (none : fs.tinode = 0) :
    ∃ t, clearInodes fs ((List.range (fs.isize - 1)).map (1 + ·)) = t ∧ Built t l emptyInode ∧ Sizes fs t ∧
    t.tinode = 16 * (fs.isize - 1) := by
  have begun := listed.sizes.1
  have member : ∀ x, x ∈ (List.range (fs.isize - 1)).map (1 + ·) ↔ 1 ≤ x ∧ x < fs.isize := fun x => by
    simp only [mem_map,mem_range]
    exact ⟨fun ⟨k,below,same⟩ => by omega,fun both => ⟨x - 1,by omega,by omega⟩⟩
  have count : (fs.tinode + 16 * ((List.range (fs.isize - 1)).map (1 + ·)).length) % 2^32 = 16 * (fs.isize - 1) := by
    rw [none,length_map,length_range]
    omega
  rw [clearInodes_eq _ (by omega),count]
  refine ⟨_,rfl,⟨⟨?_,listed.range,listed.nodup,listed.slots,listed.sizes,listed.begun,listed.total⟩,writable,small,fun n => ?_⟩,
    ⟨⟨rfl,rfl,rfl⟩,⟨rfl,rfl⟩,rfl,rfl,rfl,rfl,rfl,rfl⟩,rfl⟩
  · refine listed.chain.frame fun x inside => ?_
    have data := (listed.range x inside).1
    dsimp only [low]
    rw [if_neg fun under => absurd ((member x).mp under).2 (Nat.not_lt.mpr data)]
  rw [inodeGet_at (by exact begun) (by exact small)]
  dsimp only
  split
  next => rfl
  next inside => rw [if_pos ((member _).mpr (by omega)),inodeAt_zero]

/-- The array of free inodes has inodes of mode 0, and numbers that fit into a word. -/
structure Spare (fs : Fs) : Prop where
  few : fs.ninode ≤ 32
  unused : ∀ i : Fin 32, i < fs.ninode → ∃ inode, inodeGet fs (fs.inode i) = .ok inode ∧ inode.mode = 0
  words : ∀ i, fs.inode i < 2^32

theorem Spare.push {n : Nat} (spare : Spare fs) (room : fs.ninode < 32) (found : inodeGet fs n = .ok inode)
    (unused : inode.mode = 0) (fits : n < 2^32) :
    Spare {fs with inode := update fs.inode ⟨fs.ninode,room⟩ n,ninode := fs.ninode + 1} := by
  refine ⟨room,fun i => ?_,fun i => ?_⟩
  · dsimp only
    intro below
    rw [update_apply]
    split
    next => exact ⟨inode,found,unused⟩
    next other =>
      have apart : i.val ≠ fs.ninode := fun same => other (Fin.ext same)
      exact spare.unused i (by omega)
  · dsimp only
    rw [update_apply]
    split
    next => exact fits
    next => exact spare.words i

theorem inodeBuildList_spec : ∀ (inums : List Nat) {fs t : Fs}, Spare fs → (∀ n ∈ inums, n < 2^32) →
    inodeBuildList fs inums = .ok t → t = {fs with ninode := t.ninode,inode := t.inode} ∧ Spare t
  | [],fs,t,spare,_,built => by
    rw [inodeBuildList] at built
    cases built
    exact ⟨rfl,spare⟩
  | inum :: inums,fs,t,spare,fits,built => by
    rw [inodeBuildList] at built
    obtain ⟨inode,found,built⟩ := Lib.Run.except_bind_ok built
    have rest : ∀ n ∈ inums, n < 2^32 := fun n member => fits n (mem_cons_of_mem inum member)
    split at built
    next => exact inodeBuildList_spec inums spare rest built
    next unused =>
      split at built
      next room =>
        have pushed := spare.push room found (not_not.mp unused) (fits inum mem_cons_self)
        dsimp only at built
        split at built
        next =>
          cases built
          exact ⟨rfl,pushed⟩
        next =>
          obtain ⟨only,listed⟩ := inodeBuildList_spec inums pushed rest built
          exact ⟨by rw [only],listed⟩
      next => cases built

def reopened (fs : Fs) (writable : Bool) : Fs := {fs with
  writable
  dirty := false
  modified := false
  utime := fs.utime % 2^32
  lasti := 0
  nbehind := 0
  flags := 0}

theorem superWords_free (fs : Fs) (i : Fin 200) : superWords fs (5 + i) = fs.free i := by
  have bound := i.isLt
  rw [superWords,if_neg (by omega),if_neg (by omega),if_neg (by omega),if_neg (by omega),if_neg (by omega),dif_pos (by omega)]
  exact congrArg fs.free (Fin.ext (Nat.add_sub_cancel_left 5 i))

theorem superWords_inode (fs : Fs) (i : Fin 32) : superWords fs (206 + i) = fs.inode i := by
  have bound := i.isLt
  rw [superWords,if_neg (by omega),if_neg (by omega),if_neg (by omega),if_neg (by omega),if_neg (by omega),dif_neg (by omega),
    if_neg (by omega),dif_pos (by omega)]
  exact congrArg fs.inode (Fin.ext (Nat.add_sub_cancel_left 206 i))

theorem superWords_fsmnt (fs : Fs) (i : Fin 7) : superWords fs (245 + i) = fs.fsmnt i := by
  have bound := i.isLt
  rw [superWords,if_neg (by omega),if_neg (by omega),if_neg (by omega),if_neg (by omega),if_neg (by omega),dif_neg (by omega),
    if_neg (by omega),dif_neg (by omega),if_neg (by omega),if_neg (by omega),if_neg (by omega),if_neg (by omega),
    if_neg (by omega),if_neg (by omega),if_neg (by omega),dif_pos (by omega)]
  exact congrArg fs.fsmnt (Fin.ext (Nat.add_sub_cancel_left 245 i))

theorem superWords_time (fs : Fs) (now j : Nat) :
    superWords {fs with utime := now} j = if j = 242 then now else superWords fs j := by
  rw [superWords,superWords]
  by_cases time : j = 242
  · subst time
    rfl
  · simp only [time,if_false]

theorem fsOpen_synced {writable : Bool} (fits : ∀ j, j ≠ 242 → superWords t j < 2^32)
    (here : ∀ j < 256, (t.image 0).word j = superWords t j % 2^32) : fsOpen t.image writable = .ok (reopened t writable) := by
  have word : ∀ j, j ≠ 242 → j < 256 → (t.image 0).word j = superWords t j := fun j other inside => by
    rw [here j inside,Nat.mod_eq_of_lt (fits j other)]
  have free : (fun i : Fin 200 => (t.image 0).word (5 + i)) = t.free := funext fun i => by
    rw [word (5 + i) (by omega) (by omega),superWords_free]
  have inode : (fun i : Fin 32 => (t.image 0).word (206 + i)) = t.inode := funext fun i => by
    rw [word (206 + i) (by omega) (by omega),superWords_inode]
  have fsmnt : (fun i : Fin 7 => (t.image 0).word (245 + i)) = t.fsmnt := funext fun i => by
    rw [word (245 + i) (by omega) (by omega),superWords_fsmnt]
  rw [fsOpen,word 0 (by decide) (by decide),word 255 (by decide) (by decide),
    if_neg (by exact fun bad => bad.elim (· rfl) (· rfl)),
    free,inode,fsmnt,here 242 (by decide)]
  simp only [word 1 (by decide) (by decide),word 2 (by decide) (by decide),word 3 (by decide) (by decide),
    word 4 (by decide) (by decide),word 205 (by decide) (by decide),word 238 (by decide) (by decide),
    word 239 (by decide) (by decide),word 240 (by decide) (by decide),word 241 (by decide) (by decide),
    word 243 (by decide) (by decide),word 244 (by decide) (by decide),word 252 (by decide) (by decide),
    word 253 (by decide) (by decide),word 254 (by decide) (by decide)]
  rfl

end
section
variable {now kbytes swapKbytes : Nat} {image : Nat → Block} {stale : Block} {made : Fs}

def inodeBlocks (fsize : Nat) : Nat := 1 + (fsize / 16 + 15) / 16

def swapBlocks (swapKbytes : Nat) : Nat := swapKbytes * 1024 % 2^32 / 1024

def newFs (image : Nat → Block) (fsize swapsz : Nat) : Fs where
  image := update image (fsize - 1) ((image (fsize - 1)).fill 1023 1 fun _ => 0)
  writable := true
  dirty := false
  modified := false
  isize := inodeBlocks fsize
  fsize
  swapsz
  nfree := 0
  free := fun _ => 0
  ninode := 0
  inode := fun _ => 0
  flock := 0
  fmod := 0
  ilock := 0
  ronly := 0
  utime := 0
  tfree := 0
  tinode := 0
  fsmnt := fun _ => 0
  lasti := 0
  nbehind := 0
  flags := 0

def finish (now : Nat) (fs : Fs) : Except Fault Fs := do
  let fs ← inodeBuildList fs ((List.range (inodes fs)).map (1 + ·))
  fsSync fs now true

theorem fsCreate_stages (created : fsCreate now image stale kbytes swapKbytes = .ok made) : 2 ≤ inodeBlocks (kbytes % 2^32) ∧
    ∃ first freed one lost root full, blockFree (newFs image (kbytes % 2^32) (swapBlocks swapKbytes)) stale 0 = .ok first ∧
      freeAll stale first (freeBlocks first) = .ok freed ∧
      createInode1 now (clearInodes freed ((range (freed.isize - 1)).map (1 + ·))) = .ok one ∧
      createLostFoundDirectory now one = .ok lost ∧ createRootDirectory now lost = .ok root ∧
      (if root.swapsz = 0 then full = root else createSwapFile now root = .ok full) ∧ finish now full = .ok made := by
  unfold fsCreate at created
  extract_lets fsize isize fs0 at created
  split at created
  next => cases created
  next sound =>
    obtain ⟨first,zero,created⟩ := Lib.Run.except_bind_ok created
    obtain ⟨freed,listed,created⟩ := Lib.Run.except_bind_ok created
    extract_lets cleared at created
    obtain ⟨one,begun,created⟩ := Lib.Run.except_bind_ok created
    obtain ⟨lost,found,created⟩ := Lib.Run.except_bind_ok created
    obtain ⟨root,rooted,created⟩ := Lib.Run.except_bind_ok created
    refine ⟨Nat.not_lt.mp sound,first,freed,one,lost,root,?_⟩
    split at created
    next some =>
      obtain ⟨full,swapped,created⟩ := Lib.Run.except_bind_ok created
      exact ⟨full,zero,listed,begun,found,rooted,by rw [if_neg some]; exact swapped,created⟩
    next none =>
      obtain ⟨full,same,created⟩ := Lib.Run.except_bind_ok created
      cases same
      exact ⟨root,zero,listed,begun,found,rooted,by rw [if_pos (not_not.mp none)],created⟩

def newTable (now data : Nat) : Nat → Inode :=
    update (update (update emptyInode 1 (stored {noInode with number := 1,mode := modeFreg} now))
    lostfoundInode (stored (directoryInode now lostfoundInode 2 data) now))
    rootInode (stored (directoryInode now rootInode 3 (data + 1)) now)

/-- A file system of some number of blocks with its two directories, past the swap area. -/
structure Rooted (now fsize swapsz data : Nat) (fs : Fs) : Prop where
  built : Built fs (List.range' (data + 2) (fsize - (data + 2))) (newTable now data)
  sizes : fs.isize = inodeBlocks fsize ∧ fs.fsize = fsize ∧ fs.swapsz = swapsz
  begun : 2 ≤ fs.isize
  area : data = fs.isize + swapsz
  room : data + 2 ≤ fsize
  lost : fs.image data = lostFoundBlock
  root : fs.image (data + 1) = rootBlock swapsz
  tinode : fs.tinode = 16 * (fs.isize - 1) - 3
  spare : fs.ninode = 0 ∧ fs.inode = fun _ => 0
  rest : fs.flock = 0 ∧ fs.fmod = 0 ∧ fs.ilock = 0 ∧ fs.ronly = 0 ∧ fs.utime = 0 ∧ fs.fsmnt = fun _ => 0

theorem inodeBlocks_small {fsize : Nat} (small : fsize < 2^22 + 200) : inodeBlocks fsize ≤ 2^18 - 1 := by
  rw [inodeBlocks]
  omega

def started (image : Nat → Block) (fsize swapsz : Nat) : Fs := {newFs image fsize swapsz with nfree := 1,dirty := true}

theorem blockFree_zero (stale : Block) (image : Nat → Block) (fsize swapsz : Nat) :
    blockFree (newFs image fsize swapsz) stale 0 = .ok (started image fsize swapsz) := by
  have same : update (fun _ => 0 : Slots) (slot ((0 : Nat) : Int)) 0 = fun _ => 0 := update_eq_self ..
  exact congrArg (fun free => Except.ok {started image fsize swapsz with free}) same

theorem started_listed {fsize swapsz : Nat} (begun : 2 ≤ inodeBlocks fsize) (small : fsize < 2^22 + 200) :
    Listed (started image fsize swapsz) [] :=
  ⟨.last 0 (by decide) rfl,fun _ none => absurd none not_mem_nil,nodup_nil,fun _ => Nat.two_pow_pos 32,
    ⟨show 1 ≤ inodeBlocks fsize by omega,show fsize < 2^32 by omega⟩,Nat.le_refl 1,rfl⟩

theorem cleared_built {fsize swapsz : Nat} {freed : Fs} (begun : 2 ≤ inodeBlocks fsize) (small : fsize < 2^22 + 200)
    (swap : swapsz < 2^22) (freeing : freeAll stale (started image fsize swapsz)
    (freeBlocks (started image fsize swapsz)) = .ok freed) :
    ∃ fs, clearInodes freed ((List.range (freed.isize - 1)).map (1 + ·)) = fs ∧ Sizes (started image fsize swapsz) fs ∧
      fs.tinode = 16 * (fs.isize - 1) ∧
      Built fs (List.range' (fsize - (fsize - (fs.isize + swapsz)))
      (fsize - (fsize - (fsize - (fs.isize + swapsz))))) emptyInode := by
  have few := inodeBlocks_small small
  have volume : inodeBlocks fsize ≤ fsize := by
    rw [inodeBlocks] at begun ⊢
    omega
  have listed := @started_listed image fsize swapsz begun small
  have none : [] = List.range' fsize (fsize - fsize) := by
    rw [Nat.sub_self]
    rfl
  have count : fsize - (inodeBlocks fsize + swapsz) % 2^32 = fsize - (inodeBlocks fsize + swapsz) := by
    rw [Nat.mod_eq_of_lt (by omega)]
  rw [none] at listed
  obtain ⟨t,done,list,kept⟩ := freeAll_listed stale (fsize - (inodeBlocks fsize + swapsz)) fsize
    listed rfl (show inodeBlocks fsize + _ ≤ fsize by omega) (Nat.le_refl fsize) small
  have same : freed = t := by
    have blocks : freeBlocks (started image fsize swapsz) = (List.range (fsize - (inodeBlocks fsize + swapsz))).map
      fun j => fsize - 1 - j := by
      rw [← count]
      rfl
    rw [blocks,done] at freeing
    exact (Except.ok.inj freeing).symm
  subst same
  have isize : freed.isize = inodeBlocks fsize := kept.sizes.1
  obtain ⟨fs,cleared,built,sizes,tinode⟩ := list.clear (isize ▸ few) kept.writable kept.inodes.2.2
  have isize' : fs.isize = freed.isize := sizes.sizes.1
  refine ⟨fs,cleared,kept.sized.trans sizes,isize' ▸ tinode,?_⟩
  rw [isize',isize]
  exact built

theorem fsCreate_rooted {fsize swapsz : Nat} {freed one lost root : Fs} (begun : 2 ≤ inodeBlocks fsize)
    (small : fsize ≤ 2^22 ∨ (swapsz = 0 ∧ fsize < 2^22 + 200)) (swap : swapsz < 2^22)
    (freeing : freeAll stale (started image fsize swapsz) (freeBlocks (started image fsize swapsz)) = .ok freed)
    (first : createInode1 now (clearInodes freed ((range (freed.isize - 1)).map (1 + ·))) = .ok one)
    (found : createLostFoundDirectory now one = .ok lost) (rooted : createRootDirectory now lost = .ok root) :
    Rooted now fsize swapsz (inodeBlocks fsize + swapsz) root := by
  have bound : fsize < 2^22 + 200 := by omega
  have few := inodeBlocks_small bound
  obtain ⟨fs,cleared,sizes0,tinode0,built0⟩ := cleared_built begun bound swap freeing
  have isize : fs.isize = inodeBlocks fsize := sizes0.sizes.1
  rw [cleared,createInode1] at first
  obtain ⟨built1,sizes1,tinode1,data1⟩ := built0.saveNew (show modeFreg < 2^16 by decide) first
  rw [createLostFoundDirectory] at found
  rw [createRootDirectory] at rooted
  have fits : ∀ b rest, range' (fsize - (fsize - (fs.isize + swapsz)))
    (fsize - (fsize - (fsize - (fs.isize + swapsz)))) = b :: rest →
      b = inodeBlocks fsize + swapsz ∧ rest = range' (b + 1) (fsize - (b + 1)) ∧ b < 2^22 ∧ b < fsize := fun b rest parts => by
    obtain ⟨head,some,tail⟩ := range'_eq_cons_iff.mp parts
    rw [isize] at head some tail
    have here : b = inodeBlocks fsize + swapsz := by omega
    refine ⟨here,?_,by omega,by omega⟩
    rw [tail]
    exact congrArg (range' (b + 1)) (by omega)
  obtain ⟨b,rest,head,built2,sizes2,tinode2,lost2,data2⟩ :=
    built1.createDirectory (fun b rest parts => (fits b rest parts).2.2.1) found
  obtain ⟨here,tail,low,room⟩ := fits b rest head
  have fits' : ∀ c others, rest = c :: others → c = b + 1 ∧ others = range' (b + 2) (fsize - (b + 2)) ∧ c < 2^22 ∧ c < fsize :=
    fun c others parts => by
      rw [tail] at parts
      obtain ⟨head,some,tail⟩ := range'_eq_cons_iff.mp parts
      refine ⟨head.symm,?_,by omega,by omega⟩
      rw [tail,← head]
      exact congrArg (range' (b + 2)) (by omega)
  obtain ⟨c,others,head',built3,sizes3,tinode3,lost3,data3⟩ :=
    built2.createDirectory (fun c rest parts => (fits' c rest parts).2.2.1) rooted
  obtain ⟨here',tail',_,room'⟩ := fits' c others head'
  have sizes := ((sizes0.trans sizes1).trans sizes2).trans sizes3
  have same : lost.isize = inodeBlocks fsize := ((sizes0.trans sizes1).trans sizes2).sizes.1
  have swapped : lost.swapsz = swapsz := ((sizes0.trans sizes1).trans sizes2).sizes.2.2
  have count : root.isize = inodeBlocks fsize := sizes.sizes.1
  subst here' tail'
  rw [← here]
  refine ⟨?_,sizes.sizes,by omega,by omega,by omega,?_,?_,?_,sizes.list,sizes.rest⟩
  · exact built3
  · rw [data3 b (by omega) (.inr (by omega)),lost2]
  · rw [lost3,swapped]
  · rw [tinode3,tinode2,tinode1,tinode0,count,isize]
    omega

theorem dite_lt {c : Prop} [Decidable c] {yes : c → Nat} {no : ¬c → Nat} {top : Nat} (below : ∀ h, yes h < top)
    (below' : ∀ h, no h < top) : dite c yes no < top := by
  by_cases h : c
  · rw [dif_pos h]
    exact below h
  rw [dif_neg h]
  exact below' h

theorem superWords_lt {fs : Fs} {l : List Nat} (listed : Listed fs l) (few : fs.isize < 2^32) (spare : Spare fs)
    (swap : fs.swapsz < 2^32) (tinode : fs.tinode < 2^32)
    (flags : fs.flock = 0 ∧ fs.fmod = 0 ∧ fs.ilock = 0 ∧ fs.ronly = 0) (fsmnt : fs.fsmnt = fun _ => 0)
    {j : Nat} (other : j ≠ 242) : superWords fs j < 2^32 := by
  obtain ⟨k,_,nfree,bound,_⟩ := listed.parts
  have sizes := listed.sizes
  have ninode := spare.few
  have total : fs.tfree < 2^32 := by
    have := length_lt listed.nodup fun x member => (listed.range x member).2
    have := listed.total
    omega
  have magic : fsmagic1 < 2^32 := by decide
  have magic' : fsmagic2 < 2^32 := by decide
  have volume : fs.fsize < 2^32 := sizes.2
  have count : fs.nfree < 2^32 := by omega
  have count' : fs.ninode < 2^32 := by omega
  have locks : fs.flock < 2^32 ∧ fs.ilock < 2^32 := by omega
  have marks : fs.fmod < 2^32 ∧ fs.ronly < 2^32 := by omega
  have names : ∀ i, fs.fsmnt i < 2^32 := fun i => by
    rw [fsmnt]
    exact Nat.two_pow_pos 32
  have zero : 0 < 2^32 := Nat.two_pow_pos 32
  have free := listed.slots
  have inode := spare.words
  unfold superWords
  generalize 2 ^ 32 = top at *
  repeat' first
    | refine iteInduction (motive := (· < top)) (fun _ => ?_) fun _ => ?_
    | refine dite_lt (fun _ => ?_) fun _ => ?_
  all_goals first
    | assumption
    | exact free _
    | exact inode _
    | exact names _
    | exact locks.1
    | exact locks.2
    | exact marks.1
    | exact marks.2
    | exact absurd ‹j = 242› other

theorem finish_spec {fs : Fs} {l : List Nat} {table : Nat → Inode} (built : Built fs l table)
    (none : fs.ninode = 0 ∧ fs.inode = fun _ => 0)
    (finished : finish now fs = .ok made) : Built made l table ∧ Spare made ∧ (∀ x, 1 ≤ x → made.image x = fs.image x) ∧
      (∀ j < 256, (made.image 0).word j = superWords made j % 2^32) ∧
      (∃ b, made.image 0 = Block.writeWords b fun j => some (superWords made j)) ∧
      made = {fs with ninode := made.ninode,inode := made.inode,utime := now,image := made.image,dirty := false} := by
  rw [finish] at finished
  obtain ⟨t,listed,synced⟩ := Lib.Run.except_bind_ok finished
  have begun := built.begun
  have small := built.small
  have spare : Spare fs := ⟨by omega,fun i below => by omega,fun i => by rw [none.2]; exact Nat.two_pow_pos 32⟩
  obtain ⟨only,spared⟩ := inodeBuildList_spec _ spare (fun n member => by
    obtain ⟨k,below,rfl⟩ := mem_map.mp member
    have := mem_range.mp below
    rw [inodes_small begun small] at this
    omega) listed
  have writable : t.writable = true := by
    rw [only]
    exact built.writable
  rw [fsSync,if_neg (by rw [writable]; decide),if_neg (fun both => absurd both.1 (by decide))] at synced
  cases synced
  have image : ∀ x, 1 ≤ x → update t.image 0 ((t.image 0).writeWords fun j => some (superWords {t with utime := now} j)) x =
      fs.image x := fun x high => by
    rw [update_of_ne (by omega),only]
  refine ⟨built.congr (by rw [only]) (by rw [only]) writable (by rw [only]; exact ⟨rfl,rfl,rfl⟩) fun x member =>
    ?_,?_,image,?_,?_,?_⟩
  · rcases member with member | ⟨high,_⟩
    · exact image x (begun.trans (built.listed.range x member).1)
    · exact image x high
  · refine ⟨spared.few,fun i below => ?_,spared.words⟩
    obtain ⟨inode,found,unused⟩ := spared.unused i below
    refine ⟨inode,?_,unused⟩
    rw [← found]
    refine inodeGet_congr (by rw [only]; exact begun) (by rw [only]; exact small) rfl fun x high _ => ?_
    exact update_of_ne (by omega) _ _
  · intro j inside
    dsimp only
    rw [update_self]
    exact Block.word_stored inside rfl
  · refine ⟨t.image 0,?_⟩
    dsimp only
    exact update_self ..
  · rw [only]

end
end Retrobsd.Fsutil

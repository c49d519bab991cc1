import Retrobsd.FreeList

/-! The file systems that fsutil keeps in image files: the superblock, the free list and inodes, and what makes a new file
system. An image is the blocks of the file. -/
namespace Retrobsd.Fsutil
open Function
open FreeList (Slots slot)

def bsdfsBsize : Nat := 1024
def rootInode : Nat := 2
def lostfoundInode : Nat := 3
def swapInode : Nat := 4
def inodesPerBlock : Nat := 16
def nicinod : Nat := 32
def nicfree : Nat := 200
def naddr : Nat := 7
def nshift : Nat := 8
def fsmagic1 : Nat := 0x3c3c5346
def fsmagic2 : Nat := 0x53463e3e

inductive Fault | zero | exit | bounds
  deriving DecidableEq

structure Fs where
  image : Nat → Block
  writable : Bool
  dirty : Bool
  modified : Bool
  isize : Nat
  fsize : Nat
  swapsz : Nat
  nfree : Nat
  free : Slots
  ninode : Nat
  inode : Fin 32 → Nat
  flock : Nat
  fmod : Nat
  ilock : Nat
  ronly : Nat
  utime : Nat
  tfree : Nat
  tinode : Nat
  fsmnt : Fin 7 → Nat
  lasti : Nat
  nbehind : Nat
  flags : Nat

structure Inode where
  number : Nat
  dirty : Bool
  mode : Nat
  nlink : Nat
  uid : Nat
  gid : Nat
  size : Nat
  addr : Fin 7 → Nat
  flags : Nat
  atime : Nat
  mtime : Nat
  ctime : Nat

def modeFmt : Nat := 0o170000
def modeFchr : Nat := 0o020000
def modeFdir : Nat := 0o040000
def modeFblk : Nat := 0o060000
def modeFreg : Nat := 0o100000

def noInode : Inode := ⟨0,false,0,0,0,0,0,fun _ => 0,0,0,0,0⟩

def place (bnum : Nat) : Nat := bnum * bsdfsBsize % 2^32 / bsdfsBsize

section
variable (fs : Fs)

def readBlock (bnum : Nat) : Except Fault Block := if bnum < fs.isize then .error .zero else .ok (fs.image (place bnum))

def writeBlock (bnum : Nat) (data : Block) : Except Fault Fs :=
  if fs.writable = false ∨ bnum < fs.isize then .error .zero
  else .ok {fs with image := update fs.image (place bnum) data,modified := true}

def freeBlock (stale : Block) (nfree : Nat) (free : Slots) : Block :=
  stale.writeWords fun j => if j = 0 then some nfree else if h : j - 1 < 200 then some (free ⟨j - 1,h⟩) else none

def blockFree (stale : Block) (bno : Nat) : Except Fault Fs := do
  let fs ← if nicfree ≤ fs.nfree then do
      let fs ← writeBlock fs bno (freeBlock stale fs.nfree fs.free)
      pure {fs with nfree := 0}
    else pure fs
  return {fs with
    free := update fs.free (slot fs.nfree) bno
    nfree := fs.nfree + 1
    dirty := true
    tfree := if bno ≠ 0 then (fs.tfree + 1) % 2^32 else fs.tfree}

/-- The turns of `again`, each of which takes an address off the array. -/
def allocTurns : Nat → Fs → Except Fault (Fs × Nat)
  | 0,_ => .error .zero
  | turns + 1,fs =>
    if fs.nfree = 0 then .error .zero
    else if nicfree < fs.nfree then .error .bounds
    else do
      let nfree := fs.nfree - 1
      let bno := fs.free (slot nfree)
      let fs := {fs with
        nfree
        tfree := (fs.tfree + 2^32 - 1) % 2^32
        free := update fs.free (slot nfree) 0
        dirty := true}
      let fs ← if nfree = 0 then do
          let buf ← readBlock fs bno
          pure {fs with nfree := buf.word 0,free := fun i => buf.word (i + 1)}
        else pure fs
      if bno = 0 then allocTurns turns fs else return (fs,bno)

def blockAlloc : Except Fault (Fs × Nat) := allocTurns (fs.nfree + 1) fs

end

def superWords (fs : Fs) (j : Nat) : Nat :=
  if j = 0 then fsmagic1
  else if j = 1 then fs.isize
  else if j = 2 then fs.fsize
  else if j = 3 then fs.swapsz
  else if j = 4 then fs.nfree
  else if h : 5 ≤ j ∧ j < 205 then fs.free ⟨j - 5,by omega⟩
  else if j = 205 then fs.ninode
  else if h : 206 ≤ j ∧ j < 238 then fs.inode ⟨j - 206,by omega⟩
  else if j = 238 then fs.flock
  else if j = 239 then fs.fmod
  else if j = 240 then fs.ilock
  else if j = 241 then fs.ronly
  else if j = 242 then fs.utime
  else if j = 243 then fs.tfree
  else if j = 244 then fs.tinode
  else if h : 245 ≤ j ∧ j < 252 then fs.fsmnt ⟨j - 245,by omega⟩
  else if j = 255 then fsmagic2
  else 0

def fsSync (fs : Fs) (now : Nat) (force : Bool) : Except Fault Fs :=
  if fs.writable = false then .error .zero
  else if force = false ∧ fs.dirty = false then .ok fs
  else
    let fs := {fs with utime := now}
    .ok {fs with image := update fs.image 0 ((fs.image 0).writeWords fun j => some (superWords fs j)),dirty := false}

def fsOpen (image : Nat → Block) (writable : Bool) : Except Fault Fs :=
  let w := (image 0).word
  if w 0 ≠ fsmagic1 ∨ w 255 ≠ fsmagic2 then .error .zero
  else .ok {
    image
    writable
    dirty := false
    modified := false
    isize := w 1
    fsize := w 2
    swapsz := w 3
    nfree := w 4
    free := fun i => w (5 + i)
    ninode := w 205
    inode := fun i => w (206 + i)
    flock := w 238
    fmod := w 239
    ilock := w 240
    ronly := w 241
    utime := w 242
    tfree := w 243
    tinode := w 244
    fsmnt := fun i => w (245 + i)
    lasti := w 252
    nbehind := w 253
    flags := w 254}

def inodes (fs : Fs) : Nat := (fs.isize + 2^32 - 1) * inodesPerBlock % 2^32

def inodePlace (inum : Nat) : Nat × Nat :=
  let offset := (inum + inodesPerBlock - 1) * bsdfsBsize % 2^32 / inodesPerBlock
  (offset / bsdfsBsize,offset % bsdfsBsize / 4)

def inodeGet (fs : Fs) (inum : Nat) : Except Fault Inode :=
  if inum = 0 ∨ inodes fs < inum then .error .zero
  else
    let (b,o) := inodePlace inum
    let w k := (fs.image b).word (o + k)
    .ok ⟨inum,false,w 0 % 2^16,w 0 / 2^16,w 1,w 2,w 3,fun i => w (4 + i),w 12,w 13,w 14,w 15⟩

def inodeWords (inode : Inode) (now k : Nat) : Nat :=
  if k = 0 then inode.mode + 2^16 * inode.nlink
  else if k = 1 then inode.uid
  else if k = 2 then inode.gid
  else if k = 3 then inode.size
  else if h : 4 ≤ k ∧ k < 11 then inode.addr ⟨k - 4,by omega⟩
  else if k = 12 then inode.flags
  else if k = 13 then now
  else if k = 14 then inode.mtime
  else if k = 15 then inode.ctime
  else 0

def inodeSave (fs : Fs) (inode : Inode) (now : Nat) (force : Bool) : Except Fault Fs :=
  if fs.writable = false then .error .zero
  else if force = false ∧ inode.dirty = false then .ok fs
  else if inode.number = 0 ∨ inodes fs < inode.number then .error .zero
  else
    let (b,o) := inodePlace inode.number
    .ok {fs with image := update fs.image b ((fs.image b).writeWords fun j =>
      if o ≤ j ∧ j < o + 16 then some (inodeWords inode now (j - o)) else none)}

/-- How many levels of indirect blocks lead to a block of a file past the direct ones, and its index below them. -/
def levels (lbn : Nat) : Option (Nat × Nat) :=
  let bn := lbn - (naddr - 3)
  if bn < 2 ^ nshift then some (1,bn)
  else if bn - 2 ^ nshift < 2 ^ (2 * nshift) then some (2,bn - 2 ^ nshift)
  else if bn - 2 ^ nshift - 2 ^ (2 * nshift) < 2 ^ (3 * nshift) then some (3,bn - 2 ^ nshift - 2 ^ (2 * nshift))
  else none

def mapIndirect (fs : Fs) (bn : Nat) : Nat → Nat → Except Fault Nat
  | 0,nb => .ok nb
  | level + 1,nb => do
    let block ← readBlock fs nb
    let nb := block.word (bn / 2 ^ (level * nshift) % 2 ^ nshift)
    if nb = 0 then throw .zero
    mapIndirect fs bn level nb

theorem direct_lt {lbn : Nat} (h : lbn < 4) : lbn < 7 := by omega

def mapBlock (fs : Fs) (inode : Inode) (lbn : Nat) : Except Fault Nat :=
  if h : lbn < 4 then .ok (inode.addr ⟨lbn,direct_lt h⟩)
  else match levels lbn with
    | none => .error .zero
    | some (level,bn) =>
      let nb := inode.addr (Fin.ofNat 7 (naddr - 4 + level))
      if nb = 0 then .error .zero else mapIndirect fs bn level nb

section

def putEntry (b : Block) (o ino reclen : Nat) (name : List UInt8) : Block := b.fill o (8 + name.length) fun k =>
  if k < 4 then UInt8.ofNat (ino / 256 ^ k)
  else if k < 6 then UInt8.ofNat (reclen / 256 ^ (k - 4))
  else if k < 8 then UInt8.ofNat (name.length / 256 ^ (k - 6))
  else name.getD (k - 8) 0

def dot : List UInt8 := ".".toUTF8.toList
def dotdot : List UInt8 := "..".toUTF8.toList
def lostFoundName : List UInt8 := "lost+found".toUTF8.toList
def swapName : List UInt8 := "swap".toUTF8.toList

def rootBlock (swapsz : Nat) : Block :=
  let b := putEntry (putEntry Block.zero 0 rootInode 12 dot) 12 rootInode 12 dotdot
  if swapsz ≠ 0 then putEntry (putEntry b 24 lostfoundInode 20 lostFoundName) 44 swapInode (bsdfsBsize - 12 - 12 - 20) swapName
  else putEntry b 24 lostfoundInode (bsdfsBsize - 12 - 12) lostFoundName

def lostFoundBlock : Block := putEntry (putEntry Block.zero 0 lostfoundInode 12 dot) 12 rootInode (bsdfsBsize - 12) dotdot

variable (now : Nat)

def saveNew (fs : Fs) (inode : Inode) : Except Fault Fs := do
  let fs ← inodeSave fs inode now true
  return {fs with tinode := (fs.tinode + 2^32 - 1) % 2^32}

def createInode1 (fs : Fs) : Except Fault Fs := saveNew now fs {noInode with number := 1,mode := modeFreg}

def createDirectory (fs : Fs) (number nlink : Nat) (buf : Block) : Except Fault Fs := do
  let (fs,bno) ← blockAlloc fs
  let fs ← writeBlock fs bno buf
  saveNew now fs {noInode with
    number
    mode := modeFdir + 0o777
    size := bsdfsBsize
    nlink
    addr := fun i => if i = 0 then bno else 0
    atime := now
    mtime := now
    ctime := now}

def createRootDirectory (fs : Fs) : Except Fault Fs := createDirectory now fs rootInode 3 (rootBlock fs.swapsz)

def createLostFoundDirectory (fs : Fs) : Except Fault Fs := createDirectory now fs lostfoundInode 2 lostFoundBlock

def newIndirect (fs : Fs) : Except Fault (Fs × Nat) := do
  let (fs,bno) ← match blockAlloc fs with
    | .error .bounds => throw .bounds
    | .error _ => throw .exit
    | .ok found => pure found
  match writeBlock fs bno Block.zero with
  | .error _ => throw .exit
  | .ok fs => return (fs,bno)

def mapSwapIndirect (addr bn : Nat) : Nat → Fs → Nat → Except Fault Fs
  | 0,fs,_ => .ok fs
  | level + 1,fs,indir => do
    let block ← match readBlock fs indir with
      | .error _ => throw .exit
      | .ok block => pure block
    let i := bn / 2 ^ (level * nshift) % 2 ^ nshift
    if level = 0 then
      match writeBlock fs indir (block.putWord i addr) with
      | .error _ => throw .exit
      | .ok fs => return fs
    if block.word i ≠ 0 then mapSwapIndirect addr bn level fs (block.word i)
    else
      let (fs,newb) ← match blockAlloc fs with
        | .error .bounds => throw .bounds
        | .error _ => throw .exit
        | .ok found => pure found
      match writeBlock fs indir (block.putWord i newb) with
      | .error _ => throw .exit
      | .ok fs =>
        match writeBlock fs newb Block.zero with
        | .error _ => throw .exit
        | .ok fs => mapSwapIndirect addr bn level fs newb

def mapBlockSwap (fs : Fs) (inode : Inode) (lbn : Nat) : Except Fault (Fs × Inode) :=
  let addr := (fs.isize + lbn) % 2^32
  if h : lbn < 4 then .ok (fs,{inode with addr := update inode.addr ⟨lbn,direct_lt h⟩ addr})
  else match levels lbn with
    | none => .error .exit
    | some (level,bn) => do
      let slot := Fin.ofNat 7 (naddr - 4 + level)
      let (fs,inode) ← if inode.addr slot = 0 then do
          let (fs,indir) ← newIndirect fs
          pure (fs,{inode with addr := update inode.addr slot indir})
        else pure (fs,inode)
      let fs ← mapSwapIndirect addr bn level fs (inode.addr slot)
      return (fs,inode)

def mapSwap (fs : Fs) (inode : Inode) : List Nat → Except Fault (Fs × Inode)
  | [] => .ok (fs,inode)
  | lbn :: lbns => do
    let (fs,inode) ← mapBlockSwap fs inode lbn
    mapSwap fs inode lbns

def createSwapFile (fs : Fs) : Except Fault Fs := do
  let (fs,inode) ← mapSwap fs {noInode with
    number := swapInode
    mode := modeFreg + 0o400
    size := fs.swapsz * bsdfsBsize % 2^32
    nlink := 1
    flags := 3
    dirty := true
    atime := now
    mtime := now
    ctime := now} (List.range fs.swapsz)
  inodeSave fs inode now false

def inodeBuildList (fs : Fs) : List Nat → Except Fault Fs
  | [] => .ok fs
  | inum :: inums => do
    let inode ← inodeGet fs inum
    if inode.mode ≠ 0 then inodeBuildList fs inums
    else if h : fs.ninode < 32 then
      let fs := {fs with inode := update fs.inode ⟨fs.ninode,h⟩ inum,ninode := fs.ninode + 1}
      if nicinod ≤ fs.ninode then return fs else inodeBuildList fs inums
    else throw .bounds

def freeBlocks (fs : Fs) : List Nat := (List.range (fs.fsize - (fs.isize + fs.swapsz) % 2^32)).map fun k => fs.fsize - 1 - k

def freeAll (stale : Block) (fs : Fs) : List Nat → Except Fault Fs
  | [] => .ok fs
  | n :: ns => do
    let fs ← blockFree fs stale n
    freeAll stale fs ns

/-- The blocks of inodes are written one after the other, which is not by `writeBlock`. -/
def clearInodes (fs : Fs) : List Nat → Fs
  | [] => fs
  | n :: ns => clearInodes
    {fs with image := update fs.image n Block.zero,tinode := (fs.tinode + inodesPerBlock) % 2^32} ns

def fsCreate (image : Nat → Block) (stale : Block) (kbytes swapKbytes : Nat) : Except Fault Fs := do
  let fsize := kbytes % 2^32
  let isize := 1 + (fsize / 16 + inodesPerBlock - 1) / inodesPerBlock
  if isize < 2 then throw .zero
  let fs : Fs := {
    image := update image (fsize - 1) ((image (fsize - 1)).fill 1023 1 fun _ => 0)
    writable := true
    dirty := false
    modified := false
    isize
    fsize
    swapsz := swapKbytes * 1024 % 2^32 / bsdfsBsize
    nfree := 0
    free := fun _ => 0
    ninode := 0
    inode := fun _ => 0
    flock := 0
    fmod := 0
    ilock := 0
    ronly := 0
    utime := 0
    tfree := 0
    tinode := 0
    fsmnt := fun _ => 0
    lasti := 0
    nbehind := 0
    flags := 0}
  let fs ← blockFree fs stale 0
  let fs ← freeAll stale fs (freeBlocks fs)
  let fs := clearInodes fs ((List.range (fs.isize - 1)).map (1 + ·))
  let fs ← createInode1 now fs
  let fs ← createLostFoundDirectory now fs
  let fs ← createRootDirectory now fs
  let fs ← if fs.swapsz ≠ 0 then createSwapFile now fs else pure fs
  let fs ← inodeBuildList fs ((List.range (inodes fs)).map (1 + ·))
  fsSync fs now true

end
end Retrobsd.Fsutil

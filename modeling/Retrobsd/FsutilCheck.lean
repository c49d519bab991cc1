import Retrobsd.Fsutil

/-! `fs_check` of fsutil: what it reports of a file system, and what it repairs of one that may be written. -/
namespace Retrobsd.Fsutil
open Function
open FreeList (Slots slot)

def maxdup : Nat := 10
def maxbad : Nat := 10
def dupListSize : Nat := 100
def linkListSize : Nat := 20

inductive InodeState | ustate | fstate | dstate | clear
  deriving DecidableEq

/-- What is printed, other than the headings of the phases and the totals. -/
inductive Report
  | badSize | ioError (blk : Nat) | bad (blk inum : Nat) | excessiveBad (inum : Nat) | dup (blk inum : Nat)
  | excessiveDup (inum : Nat) | dupTableOverflow | linkTableOverflow | misaligned (inum : Nat) | partially (inum : Nat)
  | rootUnallocated | rootNotDirectory | rootDups | outOfRange (inum : Nat) | unallocated (inum : Nat) | dupBad (inum : Nat)
  | unref (inum : Nat) | noLostFound | lostFoundWrite | noSpace | connected (inum : Nat) | clearing (inum : Nat)
  | linkCount (inum : Nat) (count should : Int) | inodeInFreeList | badFreeCount | excessiveBadFree | excessiveDupFree
  | badBlocksFree (n : Nat) | dupBlocksFree (n : Nat) | missing | badFreeList | salvage | modified | endless
  deriving DecidableEq

structure Ret where
  alterd : Bool
  keepon : Bool
  stop : Bool
  deriving DecidableEq

def keepon : Ret := ⟨false,true,false⟩
def skip : Ret := ⟨false,false,false⟩
def stop : Ret := ⟨false,false,true⟩

structure Dirent where
  ino : Nat
  reclen : Nat
  namlen : Nat
  name : List UInt8

/-- The state of a check. `dupList` goes up to `dup_end`, and `dupMulti` is the index of `dup_multi`. -/
structure Check where
  fs : Fs
  blockMap : Nat → Bool
  freeMap : Nat → Bool
  stateMap : Nat → InodeState
  linkCount : Nat → Int
  dupList : List Nat
  dupMulti : Nat
  badLinks : List Nat
  bufData : Block
  bufBno : Nat
  bufDirty : Bool
  lostFound : Nat
  corrupted : Bool
  badBlocks : Nat
  dupBlocks : Nat
  findName : List UInt8
  findResult : Nat
  lostInode : Nat
  filesize : Nat
  files : Nat
  used : Nat
  reports : List Report

abbrev Scanner := Check → Inode → Nat → Check × Ret

def outrange (fs : Fs) (x : Nat) : Bool := x < fs.isize || fs.fsize ≤ x

def isDir (inode : Inode) : Bool := inode.mode &&& modeFmt == modeFdir

namespace Check
variable (c : Check)

def report (r : Report) : Check := {c with reports := c.reports ++ [r]}

def setInodeState (inum : Nat) (s : InodeState) : Check := {c with stateMap := update c.stateMap inum s}

def flushBuf : Check :=
  if c.bufDirty && c.fs.writable then
    match writeBlock c.fs c.bufBno c.bufData with
    | .ok fs => {c with fs,bufDirty := false}
    | .error _ => {c.report (.ioError c.bufBno) with bufDirty := false}
  else {c with bufDirty := false}

def getBuf (blk : Nat) : Check × Bool :=
  if c.bufBno = blk then (c,true)
  else
    let c := c.flushBuf
    match readBlock c.fs blk with
    | .ok data => ({c with bufData := data,bufBno := blk},true)
    | .error _ => ({c.report (.ioError blk) with bufBno := 2^32 - 1},false)

end Check

def half (b : Block) (i : Nat) : Nat := b.byteAt (2 * i + 1) * 2^8 + b.byteAt (2 * i)

def scanEach (func : Check → Nat → Check × Ret) : Check → List Nat → Check × Ret
  | c,[] => (c,keepon)
  | c,nb :: nbs =>
    let (c,ret) := func c nb
    if ret.stop then (c,ret) else scanEach func c nbs

def scanIndirectBlock (addr : Bool) (func : Scanner) (inode : Inode) : Nat → Check → Nat → Check × Ret
  | below,c,blk =>
    let (c,ret) := if addr then func c inode blk else (c,keepon)
    if ret.keepon = false then (c,ret)
    else if outrange c.fs blk then (c,skip)
    else match readBlock c.fs blk with
      | .error _ => (c.report (.ioError blk),skip)
      | .ok data =>
        let nbs := ((List.range 512).map (half data)).filter (· ≠ 0)
        match below with
        | 0 => scanEach (fun c nb => func c inode nb) c nbs
        | below + 1 => scanEach (scanIndirectBlock addr func inode below) c nbs

def scanInode (addr : Bool) (func : Scanner) (c : Check) (inode : Inode) : Check × Ret :=
  if inode.mode &&& modeFmt = modeFblk ∨ inode.mode &&& modeFmt = modeFchr then (c,keepon)
  else
    let c := {c with filesize := inode.size}
    let direct := ([0,1,2,3].map inode.addr).filter (· ≠ 0)
    let (c,ret) := scanEach (fun c nb => func c inode nb) c direct
    if ret.stop then (c,ret)
    else
      let (c,ret) := if inode.addr 4 ≠ 0 then scanIndirectBlock addr func inode 0 c (inode.addr 4) else (c,keepon)
      if ret.stop then (c,ret)
      else
        let (c,ret) := if inode.addr 5 ≠ 0 then scanIndirectBlock addr func inode 1 c (inode.addr 5) else (c,keepon)
        if ret.stop then (c,ret)
        else
          let (c,ret) := if inode.addr 6 ≠ 0 then scanIndirectBlock addr func inode 2 c (inode.addr 6) else (c,keepon)
          if ret.stop then (c,ret) else (c,keepon)

def addDup (c : Check) (blk : Nat) : Check :=
  if blk ∈ c.dupList.take c.dupMulti then {c with dupList := c.dupList ++ [blk]}
  else
    let later := match c.dupList.drop c.dupMulti with
      | [] => []
      | first :: rest => rest ++ [first]
    {c with dupList := c.dupList.take c.dupMulti ++ blk :: later,dupMulti := c.dupMulti + 1}

def pass1 : Scanner := fun c inode blk =>
  if outrange c.fs blk then
    let c := (c.report (.bad blk inode.number)).setInodeState inode.number .clear
    let c := {c with badBlocks := c.badBlocks + 1}
    if maxbad ≤ c.badBlocks then (c.report (.excessiveBad inode.number),stop) else (c,skip)
  else if c.blockMap blk then
    let c := (c.report (.dup blk inode.number)).setInodeState inode.number .clear
    let c := {c with dupBlocks := c.dupBlocks + 1}
    if maxdup ≤ c.dupBlocks then (c.report (.excessiveDup inode.number),stop)
    else if dupListSize ≤ c.dupList.length then (c.report .dupTableOverflow,stop)
    else (addDup c blk,keepon)
  else ({c with used := c.used + 1,blockMap := update c.blockMap blk true},keepon)

def pass1b : Scanner := fun c inode blk =>
  if outrange c.fs blk then (c,skip)
  else
    let k := c.dupList.idxOf blk
    if k < c.dupMulti then
      let c := (c.report (.dup blk inode.number)).setInodeState inode.number .clear
      let last := c.dupMulti - 1
      let c := {c with dupList := (c.dupList.set k (c.dupList.getD last 0)).set last blk,dupMulti := last}
      (c,if last = 0 then stop else keepon)
    else (c,keepon)

def direntUnpack (b : Block) (o : Nat) : Dirent :=
  let namlen := b.byteAt (o + 6) + 2^8 * b.byteAt (o + 7)
  ⟨b.byteAt o + 2^8 * b.byteAt (o + 1) + 2^16 * b.byteAt (o + 2) + 2^24 * b.byteAt (o + 3),
    b.byteAt (o + 4) + 2^8 * b.byteAt (o + 5),namlen,(List.range namlen).map fun k => b.byte (o + 8 + k)⟩

def cname (name : List UInt8) : List UInt8 := name.takeWhile (· ≠ 0)

def direntPack (b : Block) (o : Nat) (d : Dirent) : Block :=
  let name := cname d.name
  b.fill o (8 + (name.length + 3) / 4 * 4) fun k =>
    if k < 4 then UInt8.ofNat (d.ino / 256 ^ k)
    else if k < 6 then UInt8.ofNat (d.reclen / 256 ^ (k - 4))
    else if k < 8 then UInt8.ofNat (d.namlen / 256 ^ (k - 6))
    else name.getD (k - 8) 0

/-- Each entry of a block of a directory goes to a handler, and is written back if the handler alters it. No more turns
are made than the block has bytes. -/
def scanEntries (func : Check → Dirent → Check × Dirent × Ret) (blk : Nat) : Nat → Check → Nat → Check × Ret
  | 0,c,_ => (c,if 0 < c.filesize then keepon else stop)
  | turns + 1,c,o =>
    if o < bsdfsBsize ∧ 0 < c.filesize then
      let (c,found) := c.getBuf blk
      if found = false then ({c with filesize := (c.filesize + 2^64 - (bsdfsBsize - o)) % 2^64},skip)
      else
        let d := direntUnpack c.bufData o
        if d.reclen = 0 then (c,if 0 < c.filesize then keepon else stop)
        else
          let (c,d,n) := func c d
          let (c,n) := if n.alterd then
              let (c,found) := c.getBuf blk
              if found then ({c with bufData := direntPack c.bufData o d,bufDirty := true},n) else (c,{n with alterd := false})
            else (c,n)
          if n.stop then (c,n)
          else scanEntries func blk turns {c with filesize := (c.filesize + 2^64 - d.reclen) % 2^64} (o + d.reclen)
    else (c,if 0 < c.filesize then keepon else stop)

def scanDirectory (func : Check → Dirent → Check × Dirent × Ret) : Scanner := fun c _ blk =>
  if outrange c.fs blk then ({c with filesize := (c.filesize + 2^64 - bsdfsBsize) % 2^64},skip)
  else scanEntries func blk (bsdfsBsize + 1) c 0

/-- Entries of inodes that are not there are cleared, and the others counted. Directories are gone into by `descend`. -/
def pass2 (descend : Check → Nat → Check) (c : Check) (d : Dirent) : Check × Dirent × Ret :=
  let inum := d.ino
  let clear c := if c.fs.writable then (c,{d with ino := 0},{keepon with alterd := true}) else (c,d,keepon)
  let counted (c : Check) := {c with linkCount := update c.linkCount inum (c.linkCount inum - 1)}
  let go c : InodeState → Check × Dirent × Ret
    | .fstate => (counted c,d,keepon)
    | .dstate => (descend (counted c) inum,d,keepon)
    | _ => (c,d,keepon)
  if inum = 0 then (c,d,keepon)
  else if inodes c.fs < inum ∨ inum < rootInode then (c.report (.outOfRange inum),d,keepon)
  else match c.stateMap inum with
    | .ustate => clear (c.report (.unallocated inum))
    | .clear =>
      let c := c.report (.dupBad inum)
      if c.fs.writable then clear c
      else match inodeGet c.fs inum with
        | .error _ => (c,d,keepon)
        | .ok inode =>
          let s := if isDir inode then InodeState.dstate else .fstate
          go (c.setInodeState inum s) s
    | s => go c s

/-- An inode that is gone into is no directory to go into any more, so that the depth is bounded by their number. -/
def scanPass2 : Nat → Check → Nat → Check
  | 0,c,_ => c.report .endless
  | deeper + 1,c,inum =>
    let c := c.setInodeState inum .fstate
    match inodeGet c.fs inum with
    | .error _ => c
    | .ok inode => {(scanInode false (scanDirectory (pass2 (scanPass2 deeper))) c inode).1 with filesize := c.filesize}

def findInode (c : Check) (d : Dirent) : Check × Dirent × Ret :=
  if d.ino = 0 then (c,d,keepon)
  else if c.findName = cname d.name then
    (if rootInode ≤ d.ino ∧ d.ino < inodes c.fs then {c with findResult := d.ino} else c,d,stop)
  else (c,d,keepon)

def digits (n : Nat) : List UInt8 :=
  let ds := (Nat.toDigits 10 n).map fun d => UInt8.ofNat d.toNat
  List.replicate (5 - ds.length) 48 ++ ds

def makeLostEntry (c : Check) (d : Dirent) : Check × Dirent × Ret :=
  if d.ino ≠ 0 then (c,d,keepon)
  else (c,{d with ino := c.lostInode,name := 35 :: digits c.lostInode},⟨true,false,true⟩)

def dotdotToLostFound (c : Check) (d : Dirent) : Check × Dirent × Ret :=
  if cname d.name = dotdot then (c,{d with ino := c.lostFound},⟨true,false,true⟩) else (c,d,keepon)

def findLostFound (c : Check) : Check × Nat :=
  match inodeGet c.fs rootInode with
  | .error _ => (c,0)
  | .ok root =>
    let c := (scanInode false (scanDirectory findInode) {c with findName := lostFoundName,findResult := 0} root).1
    (c,c.findResult)

variable (now : Nat)

def saveOr (c : Check) (inode : Inode) (r : Report) : Check × Bool :=
  match inodeSave c.fs inode now true with
  | .ok fs => ({c with fs},true)
  | .error _ => (c.report r,false)

def relinkDirectory (c : Check) (inode : Inode) : Check × Bool :=
  let c := (scanInode false (scanDirectory dotdotToLostFound) c inode).1
  match inodeGet c.fs c.lostFound with
  | .error _ => (c.report (.connected inode.number),true)
  | .ok lf =>
    let c := {c with linkCount := update c.linkCount lf.number (c.linkCount lf.number + 1)}
    let (c,saved) := saveOr now c {lf with nlink := (lf.nlink + 1) % 2^16} .lostFoundWrite
    if saved then (c.report (.connected inode.number),true) else (c,false)

def moveToLostFound (c : Check) (inode : Inode) : Check × Bool :=
  let c := c.report (.unref inode.number)
  if c.fs.writable = false then (c,false)
  else
    let c := if c.lostFound = 0 then
        let (c,found) := findLostFound c
        {c with lostFound := found}
      else c
    if c.lostFound = 0 then (c.report .noLostFound,false)
    else match inodeGet c.fs c.lostFound with
      | .error _ => (c.report .noLostFound,false)
      | .ok lf =>
        if isDir lf = false ∨ c.stateMap c.lostFound ≠ .fstate then (c.report .noLostFound,false)
        else
          let (lf,(c,saved)) := if lf.size % bsdfsBsize ≠ 0 then
              let lf := {lf with size := (lf.size + bsdfsBsize - 1) / bsdfsBsize * bsdfsBsize}
              (lf,saveOr now c lf .lostFoundWrite)
            else (lf,c,true)
          if saved = false then (c,false)
          else
            let (c,ret) := scanInode false (scanDirectory makeLostEntry) {c with lostInode := inode.number} lf
            if ret.alterd = false then (c.report .noSpace,false)
            else
              let c := {c with linkCount := update c.linkCount inode.number (c.linkCount inode.number - 1)}
              if isDir inode then relinkDirectory now c inode else (c,true)

def pass4 : Scanner := fun c _ blk =>
  if outrange c.fs blk then (c,skip)
  else if c.blockMap blk then
    let k := c.dupList.idxOf blk
    if k < c.dupList.length then
      ({c with dupList := (c.dupList.set k (c.dupList.getLastD 0)).dropLast},keepon)
    else ({c with blockMap := update c.blockMap blk false},keepon)
  else (c,keepon)

def inodeClear (inode : Inode) : Inode :=
  {inode with dirty := true,mode := 0,nlink := 0,uid := 0,size := 0,addr := fun _ => 0,atime := 0,mtime := 0}

def clearInode (c : Check) (inum : Nat) (msg : Bool) : Check :=
  match inodeGet c.fs inum with
  | .error _ => c
  | .ok inode =>
    let c := if msg then c.report (.clearing inum) else c
    if c.fs.writable then
      let c := (scanInode true pass4 {c with files := c.files - 1} inode).1
      match inodeSave c.fs (inodeClear inode) now true with
      | .ok fs => {c with fs}
      | .error _ => c
    else c

def adjustLinkCount (c : Check) (inum : Nat) (lcnt : Int) : Check :=
  match inodeGet c.fs inum with
  | .error _ => c
  | .ok inode =>
    if (inode.nlink : Int) = lcnt then
      let (c,moved) := moveToLostFound now c inode
      if moved then c else clearInode now c inum false
    else
      let c := c.report (.linkCount inum inode.nlink (inode.nlink - lcnt))
      if c.fs.writable then
        match inodeSave c.fs {inode with nlink := ((inode.nlink - lcnt) % 2^16).toNat} now true with
        | .ok fs => {c with fs}
        | .error _ => c
      else c

def pass5 (c : Check) (blk free : Nat) : Check × Nat × Ret :=
  if outrange c.fs blk then
    let c := {c with corrupted := true,badBlocks := c.badBlocks + 1}
    if maxbad ≤ c.badBlocks then (c.report .excessiveBadFree,free,stop) else (c,free,skip)
  else if c.freeMap blk then
    let c := {c with corrupted := true,dupBlocks := c.dupBlocks + 1}
    if dupListSize ≤ c.dupBlocks then (c.report .excessiveDupFree,free,stop) else (c,free,keepon)
  else ({c with freeMap := update c.freeMap blk true},free + 1,keepon)

def freeArray (c : Check) (free : Nat) : List Nat → Check × Nat × Bool
  | [] => (c,free,true)
  | blk :: blks =>
    let (c,free,ret) := pass5 c blk free
    if ret.stop then (c,free,false) else freeArray c free blks

def freeTurns : Nat → Check → Nat → Nat → Slots → Check × Nat
  | 0,c,free,_,_ => (c.report .endless,free)
  | turns + 1,c,free,nfree,list =>
    if nfree = 0 ∨ nicfree < nfree then ({c.report .badFreeCount with corrupted := true},free)
    else
      let (c,free,going) := freeArray c free (((List.range (nfree - 1)).map fun k => list (slot (nfree - 1 - k : Nat))))
      if going = false then (c,free)
      else if list 0 = 0 then (c,free)
      else
        let (c,free,ret) := pass5 c (list 0) free
        if ret ≠ keepon then (c,free)
        else match readBlock c.fs (list 0) with
          | .error _ => (c.report (.ioError (list 0)),free)
          | .ok data => freeTurns turns c free (data.word 0) fun i => data.word (i + 1)

def checkFreeList (c : Check) : Check × Nat :=
  if c.fs.nfree = 0 then (c,0) else freeTurns (c.fs.fsize + dupListSize + 1) c 0 c.fs.nfree c.fs.free

def checkFreeInodeList (c : Check) : Check :=
  let listed := (List.range c.fs.ninode).map fun i => if h : i < 32 then c.fs.inode ⟨i,h⟩ else 0
  match listed.findIdx? (fun inum => c.stateMap inum ≠ .ustate) with
  | none => c
  | some i =>
    let c := c.report .inodeInFreeList
    if c.fs.writable then
      {c with fs := {c.fs with
        ninode := (i + 2^32 - 1) % 2^32
        inode := fun k => if i ≤ k.val then 0 else c.fs.inode k
        dirty := true}}
    else c

def makeFreeList (stale : Block) (c : Check) : Check × Nat :=
  let fs := {c.fs with nfree := 0,flock := 0,fmod := 0,ilock := 0,ronly := 0,dirty := true}
  let idle := ((List.range (c.fs.fsize - c.fs.isize)).map fun k => c.fs.fsize - 1 - k).filter fun n => !c.blockMap n
  match blockFree fs stale 0 >>= fun fs => freeAll stale fs idle with
  | .ok fs => ({c with fs},idle.length)
  | .error _ => (c,0)

def phase1 (c : Check) (inum : Nat) : Check :=
  match inodeGet c.fs inum with
  | .error _ => c
  | .ok inode =>
    let (c,inode) := if inode.mode &&& modeFmt ≠ 0 then
        let c := {c with files := c.files + 1,linkCount := update c.linkCount inum inode.nlink}
        let c := if inode.nlink = 0 then
            if c.badLinks.length < linkListSize then {c with badLinks := c.badLinks ++ [inum]} else c.report .linkTableOverflow
          else c
        let c := c.setInodeState inum (if isDir inode then .dstate else .fstate)
        let c := (scanInode true pass1 {c with badBlocks := 0,dupBlocks := 0} inode).1
        let sound := c.stateMap inum = .dstate ∨ c.stateMap inum = .fstate
        (if sound ∧ isDir inode = true ∧ inode.size % 4 ≠ 0 then c.report (.misaligned inum) else c,inode)
      else if inode.mode ≠ 0 then (c.report (.partially inum),if c.fs.writable then inodeClear inode else inode)
      else (c,inode)
    match inodeSave c.fs inode now false with
    | .ok fs => {c with fs}
    | .error _ => c

def lastAllocated (fs : Fs) : Nat := (((List.range (inodes fs)).map (1 + ·)).filter fun inum => match inodeGet fs inum with
    | .ok inode => inode.mode &&& modeFmt ≠ 0
    | .error _ => false).getLastD 0

def phase1b (c : Check) : List Nat → Check
  | [] => c
  | inum :: inums =>
    if c.stateMap inum = .ustate then phase1b c inums
    else match inodeGet c.fs inum with
      | .error _ => phase1b c inums
      | .ok inode =>
        let (c,ret) := scanInode true pass1b c inode
        if ret.stop then c else phase1b c inums

def phase2 (c : Check) : Option Check :=
  let deep := inodes c.fs + 1
  match c.stateMap rootInode with
  | .ustate => none
  | .fstate =>
    let c := c.report .rootNotDirectory
    if c.fs.writable = false then none
    else match inodeGet c.fs rootInode with
      | .error _ => none
      | .ok inode =>
        let inode := {inode with mode := inode.mode % 2^12 + modeFdir}
        let c := match inodeSave c.fs inode now true with
          | .ok fs => {c with fs}
          | .error _ => c
        some (scanPass2 deep (c.setInodeState rootInode .dstate) rootInode)
  | .dstate => some (scanPass2 deep c rootInode)
  | .clear => some (scanPass2 deep ((c.report .rootDups).setInodeState rootInode .dstate) rootInode)

/-- From a directory that has not been come to, its parents are gone to as far as they have not. Where they lead around,
this does not end. -/
def phase3 : Nat → Check → Nat → Check
  | 0,c,_ => c.report .endless
  | turns + 1,c,ino =>
    match inodeGet c.fs ino with
    | .error _ => c
    | .ok inode =>
      let c := (scanInode false (scanDirectory findInode) {c with findName := dotdot,findResult := 0} inode).1
      if c.findResult = 0 then
        let (c,moved) := moveToLostFound now c inode
        if moved then scanPass2 (inodes c.fs + 1) c ino else c
      else if c.stateMap c.findResult = .dstate then phase3 turns c c.findResult
      else c

def phase4 (c : Check) (inum : Nat) : Check :=
  match c.stateMap inum with
  | .ustate => c
  | .fstate =>
    if c.linkCount inum ≠ 0 then adjustLinkCount now c inum (c.linkCount inum)
    else if inum ∈ c.badLinks then clearInode now c inum true
    else c
  | .dstate | .clear => clearInode now c inum true

def phase5 (stale : Block) (c : Check) : Check :=
  let c := checkFreeInodeList c
  let (c,free) := checkFreeList {c with badBlocks := 0,dupBlocks := 0,freeMap := c.blockMap}
  let c := if c.badBlocks ≠ 0 then c.report (.badBlocksFree c.badBlocks) else c
  let c := if c.dupBlocks ≠ 0 then c.report (.dupBlocksFree c.dupBlocks) else c
  let c := if c.corrupted = false ∧ (c.used + free) % 2^32 ≠ (c.fs.fsize + 2^32 - c.fs.isize) % 2^32 then
      {c.report .missing with corrupted := true}
    else c
  let c := if c.corrupted then {c.report .badFreeList with corrupted := c.fs.writable} else c
  if c.corrupted then (makeFreeList stale (c.report .salvage)).1 else c

def startCheck (fs : Fs) : Check where
  fs
  blockMap := fun _ => false
  freeMap := fun _ => false
  stateMap := fun _ => .ustate
  linkCount := fun _ => 0
  dupList := []
  dupMulti := 0
  badLinks := []
  bufData := Block.zero
  bufBno := 2^32 - 1
  bufDirty := false
  lostFound := 0
  corrupted := false
  badBlocks := 0
  dupBlocks := 0
  findName := []
  findResult := 0
  lostInode := 0
  filesize := 0
  files := 0
  used := 0
  reports := []

def fsCheck (stale : Block) (fs : Fs) : List Report × Bool :=
  if fs.fsize ≤ fs.isize then ([.badSize],false)
  else
    let last := lastAllocated fs
    let c := ((List.range (inodes fs)).map (1 + ·)).foldl (phase1 now) (startCheck fs)
    let c := if c.dupList ≠ [] then phase1b c ((List.range last).map (1 + ·)) else c
    match phase2 now c with
    | none => (c.reports ++ [if c.stateMap rootInode = .ustate then .rootUnallocated else .rootNotDirectory],false)
    | some c =>
      let connected := (List.range (last + 1)).drop rootInode
      let c := connected.foldl (fun c inum => if c.stateMap inum = .dstate then phase3 now (inodes fs + 1) c inum else c) c
      let c := (connected.foldl (phase4 now) c).flushBuf
      let c := (phase5 stale c).flushBuf
      (if c.fs.modified then c.reports ++ [.modified] else c.reports,true)

end Retrobsd.Fsutil

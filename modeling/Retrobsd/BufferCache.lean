import Retrobsd.Block
import Retrobsd.Lib.Rings

/-! The buffer cache of `ufs_bio.c` and the strategy routine of `rdisk.c`. Buffers
are linked into free lists and hash chains through the pointers of `buf.h`, and
`sleep` ends a call with the channel that it waits for. Transfers complete inside
the strategy routine, as they do in the driver. -/
namespace Retrobsd.BufferCache
open Lib.Rings

abbrev Dev := Int

def nodev : Dev := -1

def major (dev : Dev) : Nat := (dev / 256 % 256).toNat

def minor (dev : Dev) : Nat := (dev % 256).toNat

def makedev (x y : Nat) : Dev := x * 256 + y

structure Flags where
  bRead : Bool
  bDone : Bool
  bError : Bool
  bBusy : Bool
  bWanted : Bool
  bAge : Bool
  bAsync : Bool
  bDelwri : Bool
  bInval : Bool
  bLocked : Bool
deriving DecidableEq

def Flags.none : Flags := ⟨false,false,false,false,false,false,false,false,false,false⟩

structure Buf where
  flags : Flags
  bBcount : Nat
  bError : Nat
  bDev : Dev
  bBlkno : Nat
  data : Block

/-- The free lists `BQ_LOCKED`, `BQ_LRU` and `BQ_AGE`. -/
abbrev Queue := Fin 3

def bqLocked : Queue := 0

def bqLru : Queue := 1

def bqAge : Queue := 2

/-- The heads of hash chains; the head of a free list serves as one as well. -/
inductive Bucket where
  | bufhash (i : Fin 16)
  | bfreelist (q : Queue)
deriving DecidableEq

def bufhash (dev : Dev) (bn : Nat) : Bucket := .bufhash (Fin.ofNat 16 ((dev + bn) % 16).toNat)

inductive Chan (n : Nat) where
  | buf (i : Fin n)
  | bfreelist
deriving DecidableEq

inductive Fault (n : Nat) where
  | panic (message : String)
  | sleeping (chan : Chan n)
  | null
deriving DecidableEq

/-- What the tables of devices say: the entries of `disks` and of `bdevsw`. -/
structure Config where
  nrdsk : Nat
  nblkdev : Nat
  readonly : Nat → Bool
  tape : Nat → Bool

/-- A system with one card, of the five block devices that `bdevsw` has. -/
def sdCard : Config := ⟨1,5,fun _ => false,fun _ => false⟩

structure Diskflags where
  opens : Nat
  start : Fin 4 → Nat
  len : Fin 4 → Nat
  blocks : Nat

/-- `wanted` is `B_WANTED` of the first free list, `woken` the channels on which
`wakeup` was called, and `media` the blocks of each disk. -/
structure Cache (n : Nat) where
  buf : Fin n → Buf
  av : Links (Node Queue (Fin n))
  hash : Links (Node Bucket (Fin n))
  wanted : Bool
  woken : List (Chan n)
  uError : Nat
  dflags : Nat → Diskflags
  media : Nat → Nat → Block

variable {n : Nat} (cfg : Config)

namespace Cache

def modify (s : Cache n) (i : Fin n) (f : Buf → Buf) : Cache n := {s with buf := Function.update s.buf i (f (s.buf i))}

def setFlags (s : Cache n) (i : Fin n) (f : Flags → Flags) : Cache n := s.modify i (fun b => {b with flags := f b.flags})

def wakeup (s : Cache n) (c : Chan n) : Cache n := {s with woken := s.woken ++ [c]}

end Cache

def notavail (s : Cache n) (i : Fin n) : Cache n :=
    ({s with av := s.av.unlink (.item i)} : Cache n).setFlags i (fun f => {f with bBusy := true})

def brelseWakeup (s : Cache n) (i : Fin n) : Cache n :=
  let s := if (s.buf i).flags.bWanted then s.wakeup (.buf i) else s
  if s.wanted then ({s with wanted := false} : Cache n).wakeup .bfreelist else s

def brelseError (b : Buf) : Buf :=
  if b.flags.bError then
    if b.flags.bLocked then {b with flags := {b.flags with bError := false}} else {b with bDev := nodev}
  else b

def freeQueue (f : Flags) : Queue × Bool :=
  if f.bError || f.bInval then (bqAge,true)
  else if f.bLocked then (bqLocked,false)
  else if f.bAge then (bqAge,false)
  else (bqLru,false)

def putFree (s : Cache n) (i : Fin n) : Cache n :=
  match freeQueue (s.buf i).flags with
  | (q,true) => {s with av := s.av.insertHead (.head q) (.item i)}
  | (q,false) => {s with av := s.av.insertBefore (.head q) (.item i)}

def brelse (s : Cache n) (i : Fin n) : Cache n :=
  let s := (brelseWakeup s i).modify i brelseError
  (putFree s i).setFlags i (fun f => {f with bWanted := false,bBusy := false,bAsync := false,bAge := false})

def biodone (s : Cache n) (i : Fin n) : Except (Fault n) (Cache n) :=
  if (s.buf i).flags.bDone then .error (.panic "dup biodone")
  else
    let s := s.setFlags i (fun f => {f with bDone := true})
    if (s.buf i).flags.bAsync then .ok (brelse s i)
    else .ok ((s.setFlags i (fun f => {f with bWanted := false})).wakeup (.buf i))

def offset (s : Cache n) (dev : Dev) (blkno : Nat) : Nat :=
  (if h : 0 < minor dev ∧ minor dev ≤ 4 then (s.dflags (major dev)).start ⟨minor dev - 1,by omega⟩ else 0) + blkno

def rdstrategy (s : Cache n) (i : Fin n) : Except (Fault n) (Cache n) :=
  let b := s.buf i
  let root := major b.bDev
  if root ≥ cfg.nrdsk then .ok s
  else if b.flags.bRead then
    biodone (s.modify i (fun b => {b with data := s.media root (offset s b.bDev b.bBlkno)})) i
  else if cfg.readonly root then biodone s i
  else
    let blocks := Function.update (s.media root) (offset s b.bDev b.bBlkno) b.data
    biodone {s with media := Function.update s.media root blocks} i

def geterror (b : Buf) : Nat := if b.flags.bError then (if b.bError = 0 then 5 else b.bError) else 0

def biowait (s : Cache n) (i : Fin n) : Except (Fault n) (Cache n) :=
  if (s.buf i).flags.bDone then
    .ok (if s.uError = 0 then {s with uError := geterror (s.buf i)} else s)
  else .error (.sleeping (.buf i))

def bwrite (s : Cache n) (i : Fin n) : Except (Fault n) (Cache n) := do
  let flag := (s.buf i).flags
  let s := s.modify i (fun b => {b with
    flags := {b.flags with bRead := false,bDone := false,bError := false,bDelwri := false}
    bBcount := devBsize})
  let s ← rdstrategy cfg s i
  if !flag.bAsync then
    let s ← biowait s i
    return brelse s i
  else if flag.bDelwri then return s.setFlags i (fun f => {f with bAge := true})
  else return s

def bawrite (s : Cache n) (i : Fin n) : Except (Fault n) (Cache n) :=
    bwrite cfg (s.setFlags i (fun f => {f with bAsync := true})) i

def bdwrite (s : Cache n) (i : Fin n) : Except (Fault n) (Cache n) :=
  if cfg.tape (major (s.buf i).bDev) then bawrite cfg s i
  else .ok (brelse (s.setFlags i (fun f => {f with bDelwri := true,bDone := true})) i)

def names (s : Cache n) (dev : Dev) (blkno : Nat) (i : Fin n) : Bool :=
  decide ((s.buf i).bBlkno = blkno) && decide ((s.buf i).bDev = dev) && !(s.buf i).flags.bInval

def chain (s : Cache n) (h : Bucket) : List (Fin n) := items s.hash (n + 1) (s.hash.forw (.head h))

def lookup (s : Cache n) (dev : Dev) (blkno : Nat) : Option (Fin n) := (chain s (bufhash dev blkno)).find? (names s dev blkno)

def incore (s : Cache n) (dev : Dev) (blkno : Nat) : Bool := (lookup s dev blkno).isSome

def firstFree (s : Cache n) : Option (Fin n) :=
  match s.av.forw (.head bqAge) with
  | .item i => some i
  | .head _ => match s.av.forw (.head bqLru) with
    | .item i => some i
    | .head _ => none

inductive Turn (n : Nat) where
  | empty (s : Cache n)
  | pushed (s : Cache n)
  | found (s : Cache n) (i : Fin n)

def newbufTurn (s : Cache n) : Except (Fault n) (Turn n) :=
  match firstFree s with
  | none => .ok (.empty {s with wanted := true})
  | some i => do
    let s := notavail s i
    if (s.buf i).flags.bDelwri then
      let s ← bawrite cfg s i
      return .pushed s
    else return .found (s.setFlags i (fun _ => {Flags.none with bBusy := true})) i

def newbufLoop : Nat → Cache n → Except (Fault n) (Cache n × Fin n)
  | 0,_ => .error (.sleeping .bfreelist)
  | fuel + 1,s => do
    match ← newbufTurn cfg s with
    | .empty _ => .error (.sleeping .bfreelist)
    | .pushed s => newbufLoop fuel s
    | .found s i => .ok (s,i)

def getnewbuf (s : Cache n) : Except (Fault n) (Cache n × Fin n) := newbufLoop cfg (n + 1) s

def assign (s : Cache n) (i : Fin n) (h : Bucket) (label : Buf → Buf) : Cache n :=
  let s := s.modify i (fun b => {b with bBcount := 0})
  let s := {s with hash := (s.hash.unlink (.item i)).insertAfter (.head h) (.item i)}
  s.modify i (fun b => {label b with bError := 0})

def assignBlock (s : Cache n) (i : Fin n) (dev : Dev) (blkno : Nat) : Cache n :=
  assign s i (bufhash dev blkno) (fun b => {b with bDev := dev,bBlkno := blkno})

def getblk (s : Cache n) (dev : Dev) (blkno : Nat) : Except (Fault n) (Cache n × Fin n) :=
  if major dev ≥ cfg.nblkdev then .error (.panic "blkdev")
  else match lookup s dev blkno with
    | some i => if (s.buf i).flags.bBusy then .error (.sleeping (.buf i)) else .ok (notavail s i,i)
    | none => do
      let (s,i) ← getnewbuf cfg s
      return (assignBlock s i dev blkno,i)

def geteblk (s : Cache n) : Except (Fault n) (Cache n × Fin n) := do
  let (s,i) ← getnewbuf cfg s
  let s := s.setFlags i (fun f => {f with bInval := true})
  return (assign s i (.bfreelist bqAge) (fun b => {b with bDev := nodev}),i)

def startRead (s : Cache n) (i : Fin n) (async : Bool) : Except (Fault n) (Cache n) :=
  let s := s.modify i (fun b => {b with
    flags := {b.flags with bRead := true,bAsync := b.flags.bAsync || async},bBcount := devBsize})
  rdstrategy cfg s i

def present (s : Cache n) (i : Fin n) : Bool := (s.buf i).flags.bDone || (s.buf i).flags.bDelwri

def bread (s : Cache n) (dev : Dev) (blkno : Nat) : Except (Fault n) (Cache n × Fin n) := do
  let (s,i) ← getblk cfg s dev blkno
  if present s i then return (s,i)
  let s ← startRead cfg s i false
  let s ← biowait s i
  return (s,i)

def readFirst (s : Cache n) (i : Fin n) : Except (Fault n) (Cache n) :=
  if present s i then .ok s else startRead cfg s i false

def readAhead (s : Cache n) (dev : Dev) (rablkno : Nat) : Except (Fault n) (Cache n) :=
  if rablkno = 0 ∨ incore s dev rablkno then .ok s
  else do
    let (s,i) ← getblk cfg s dev rablkno
    if present s i then return brelse s i
    startRead cfg s i true

def breada (s : Cache n) (dev : Dev) (blkno rablkno : Nat) : Except (Fault n) (Cache n × Fin n) := do
  if incore s dev blkno then
    let s ← readAhead cfg s dev rablkno
    bread cfg s dev blkno
  else
    let (s,i) ← getblk cfg s dev blkno
    let s ← readFirst cfg s i
    let s ← readAhead cfg s dev rablkno
    let s ← biowait s i
    return (s,i)

def unsettled (s : Cache n) (dev : Dev) (blkno : Nat) : Option (Fin n) := (chain s (bufhash dev blkno)).find? (fun i =>
    names s dev blkno i && ((s.buf i).flags.bBusy || (s.buf i).flags.bDelwri))

def blkflushLoop (dev : Dev) (blkno : Nat) : Nat → Cache n → Except (Fault n) (Cache n)
  | 0,s => .ok s
  | fuel + 1,s => match unsettled s dev blkno with
    | none => .ok s
    | some i =>
      if (s.buf i).flags.bBusy then .error (.sleeping (.buf i))
      else do
        let s ← bwrite cfg (notavail s i) i
        blkflushLoop dev blkno fuel s

def blkflush (s : Cache n) (dev : Dev) (blkno : Nat) : Except (Fault n) (Cache n) := blkflushLoop cfg dev blkno (n + 1) s

def queue (s : Cache n) (q : Queue) : List (Fin n) := items s.av (n + 1) (s.av.forw (.head q))

def delayed (s : Cache n) (dev : Dev) : Option (Fin n) := (queue s bqLocked ++ queue s bqLru ++ queue s bqAge).find? (fun i =>
    (s.buf i).flags.bDelwri && decide (dev = (s.buf i).bDev))

def bflushLoop (dev : Dev) : Nat → Cache n → Except (Fault n) (Cache n)
  | 0,s => .ok s
  | fuel + 1,s => match delayed s dev with
    | none => .ok s
    | some i => do
      let s := s.setFlags i (fun f => {f with bAsync := true})
      let s ← bwrite cfg (notavail s i) i
      bflushLoop dev fuel s

def bflush (s : Cache n) (dev : Dev) : Except (Fault n) (Cache n) := bflushLoop cfg dev (n + 1) s

def binval (s : Cache n) (dev : Dev) : Cache n := (List.finRange 16).foldl (fun s h => (chain s (.bufhash h)).foldl (fun s i =>
    if (s.buf i).bDev = dev then s.setFlags i (fun f => {f with bInval := true}) else s) s) s

/-- Zeroed memory, with the heads of all lists linked to themselves as `bhinit` and
the first loop of `binit` leave them. -/
def blank (media : Nat → Nat → Block) : Cache n where
  buf := fun _ => ⟨Flags.none,0,0,0,0,Block.zero⟩
  av := ⟨id,id⟩
  hash := ⟨id,id⟩
  wanted := false
  woken := []
  uError := 0
  dflags := fun _ => ⟨0,fun _ => 0,fun _ => 0,0⟩
  media

def initBuf (s : Cache n) (i : Fin n) : Cache n :=
  let s := s.modify i (fun b => {b with bDev := nodev,bBcount := 0})
  let s := {s with hash := s.hash.insertAfter (.head (.bfreelist bqAge)) (.item i)}
  brelse (s.setFlags i (fun _ => {Flags.none with bBusy := true,bInval := true})) i

def binit (media : Nat → Nat → Block) : Cache n := (List.finRange n).foldl initBuf (blank media)

end Retrobsd.BufferCache

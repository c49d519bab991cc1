import Retrobsd.FreeList

/-! Regular files: `bmap` of `ufs_bmap.c`, `rwip` of `sys_inode.c` and `itrunc` of
`ufs_inode.c`. The blocks of the volume are what the buffer cache presents, so that
a block that is read, changed and written is one that is changed in place. -/
namespace Retrobsd.FileData
open Function (update)

open FreeList (Volume)

def ndaddr : Nat := 4

def nindir : Nat := 256

/-- The inode in core: `append` is set if `i_flags` has one of the `APPEND` bits. -/
structure Inode where
  iNumber : Nat
  iSize : Nat
  iAddr : Fin 7 → Nat
  append : Bool

structure File where
  volume : Volume
  ip : Inode

inductive Fault where
  | sleeping
  | enospc (v : Volume)
  | efbig
  | eperm

def ib (level : Nat) : Fin 7 := Fin.ofNat 7 (ndaddr + level)

def balloc (v : Volume) (clrbuf : Bool) : Except Fault (Volume × Nat) :=
  match FreeList.balloc v clrbuf with
  | .error _ => .error .sleeping
  | .ok (v,none) => .error (.enospc v)
  | .ok (v,some bno) => .ok (v,bno)

def free (v : Volume) (ino bno : Nat) : Except Fault Volume :=
  match FreeList.free v ino bno with
  | .error _ => .error .sleeping
  | .ok v => .ok v

def indirection : Nat → Nat → Nat → Option (Nat × Nat)
  | 0,_,_ => none
  | j + 1,nb,bn =>
    let nb := nb * 256
    if bn < nb then some (3 - j,bn) else indirection j nb (bn - nb)

/-- Fetch through the indirect blocks; `none` is the address -1. -/
def fetch (write : Bool) (bn : Nat) : Nat → Volume → Nat → Except Fault (Volume × Option Nat)
  | 0,v,nb => .ok (v,some nb)
  | sh + 1,v,nb =>
    let bap := v.disk nb
    let i := bn / 256^sh % 256
    if bap.word i = 0 then
      if write then do
        let (v,nbp) ← balloc v true
        fetch write bn sh {v with disk := update v.disk nb (bap.putWord i nbp)} nbp
      else .ok (v,none)
    else fetch write bn sh v (bap.word i)

def fetchAddr (f : File) (i : Fin 7) (write clrbuf : Bool) : Except Fault (File × Option Nat) :=
  if f.ip.iAddr i = 0 then
    if write then do
      let (v,nb) ← balloc f.volume clrbuf
      return (⟨v,{f.ip with iAddr := update f.ip.iAddr i nb}⟩,some nb)
    else .ok (f,none)
  else .ok (f,some (f.ip.iAddr i))

def bmap (f : File) (bn : Nat) (write clrbuf : Bool) : Except Fault (File × Option Nat) :=
  if bn < ndaddr then fetchAddr f (Fin.ofNat 7 bn) write clrbuf
  else match indirection 3 1 (bn - ndaddr) with
    | none => .error .efbig
    | some (levels,bn) => do
      let (f,nb) ← fetchAddr f (Fin.ofNat 7 (3 + levels)) write true
      match nb with
      | none => return (f,none)
      | some nb =>
        let (v,nb) ← fetch write bn levels f.volume nb
        return ({f with volume := v},nb)

/-- `uiomove` out of the vectors of a write, which returns the bytes and what is left. -/
def uiomove : Nat → List (List UInt8) → List UInt8 × List (List UInt8)
  | _,[] => ([],[])
  | n,base :: iov =>
    if n = 0 then ([],base :: iov)
    else if base.length = 0 then uiomove n iov
    else if base.length > n then (base.take n,base.drop n :: iov)
    else if n - base.length = 0 then (base,[] :: iov)
    else
      let (bytes,left) := uiomove (n - base.length) iov
      (base ++ bytes,left)

def storeBlock (f : File) (bn : Nat) (b : Block) : File := {f with volume := {f.volume with disk := update f.volume.disk bn b}}

def extendTo (f : File) (upto : Nat) : File :=
  if upto > f.ip.iSize then {f with ip := {f.ip with iSize := upto}} else f

/-- The loop of a write. A block that is written as a whole is not read: whatever the
buffer has is overwritten. Every turn moves one byte at least. -/
def writeLoop : Nat → File → Nat → List (List UInt8) → Nat → Except Fault File
  | 0,f,_,_,_ => .ok f
  | fuel + 1,f,offset,iov,resid => do
    let lbn := offset / 1024
    let on := offset % 1024
    let n := min (1024 - on) resid
    let (f,bn) ← bmap f lbn true (n ≠ 1024)
    match bn with
    | none => return f
    | some bn =>
      let f := extendTo f (offset + n)
      let (bytes,iov) := uiomove n iov
      let f := storeBlock f bn ((f.volume.disk bn).fill on n fun k => bytes.getD k 0)
      if resid - n ≠ 0 ∧ n ≠ 0 then writeLoop fuel f (offset + n) iov (resid - n) else return f

/-- `rwip` with `UIO_WRITE`; `rlim` is the limit of the process on the size of files. -/
def write (rlim : Nat) (f : File) (append : Bool) (offset : Nat) (iov : List (List UInt8)) : Except Fault File :=
  let resid := iov.flatten.length
  let offset := if append then f.ip.iSize else offset
  if f.ip.append ∧ offset ≠ f.ip.iSize then .error .eperm
  else if resid = 0 then .ok f
  else if offset + resid > rlim then .error .efbig
  else writeLoop resid f offset iov resid

def readBuffer (f : File) : Option Nat → Block
  | none => Block.zero
  | some bn => f.volume.disk bn

def readLoop (f : File) : Nat → Nat → Nat → Except Fault (List UInt8)
  | 0,_,_ => .ok []
  | fuel + 1,offset,resid =>
    if f.ip.iSize ≤ offset then .ok []
    else do
      let lbn := offset / 1024
      let on := offset % 1024
      let n := min (min (1024 - on) resid) (f.ip.iSize - offset)
      let (_,bn) ← bmap f lbn false false
      let bytes := (List.range n).map fun k => (readBuffer f bn).byte (on + k)
      if resid - n ≠ 0 ∧ n ≠ 0 then return bytes ++ (← readLoop f fuel (offset + n) (resid - n)) else return bytes

def read (f : File) (offset resid : Nat) : Except Fault (List UInt8) :=
  if resid = 0 then .ok [] else readLoop f resid offset resid

def slotsAbove (last : Int) : List Nat := ((List.range nindir).filter fun i : Nat => decide (last < (i : Int))).reverse

def clearAbove (b : Block) (last : Int) : Block := b.writeWords fun j => if last < (j : Int) then some 0 else none

/-- Level 0 is `SINGLE`, whose loop is `trsingle`. The addresses are cleared on disk
before the blocks are freed, so they are taken from a copy. -/
def indirtrunc (ino : Nat) : Nat → Volume → Nat → Int → Except Fault Volume
  | 0,v,bn,lastbn =>
    let cpy := v.disk bn
    let v := {v with disk := update v.disk bn (clearAbove cpy lastbn)}
    (slotsAbove lastbn).foldlM (fun v i => if cpy.word i ≠ 0 then free v ino (cpy.word i) else .ok v) v
  | level + 1,v,bn,lastbn => do
    let factor : Int := (nindir^(level + 1) : Nat)
    let last := if lastbn > 0 then lastbn / factor else lastbn
    let cpy := v.disk bn
    let v := {v with disk := update v.disk bn (clearAbove cpy last)}
    let v ← (slotsAbove last).foldlM (fun v i =>
      if cpy.word i ≠ 0 then do
        let v ← indirtrunc ino level v (cpy.word i) (-1)
        free v ino (cpy.word i)
      else .ok v) v
    if lastbn ≥ 0 ∧ cpy.word last.toNat ≠ 0 then indirtrunc ino level v (cpy.word last.toNat) (lastbn % factor) else .ok v

def lastiblock (lastblock : Int) : Nat → Int
  | 0 => lastblock - ndaddr
  | level + 1 => lastiblock lastblock level - (nindir^(level + 1) : Nat)

def truncLevels (tip : Inode) (lastblock : Int) : List Nat → Volume → Except Fault (Volume × Bool)
  | [],v => .ok (v,false)
  | level :: levels,v => do
    let last := lastiblock lastblock level
    let bn := tip.iAddr (ib level)
    let v ← if bn ≠ 0 then do
        let v ← indirtrunc tip.iNumber level v bn (if last < 0 then -1 else last)
        if last < 0 then free v tip.iNumber bn else .ok v
      else .ok v
    if last ≥ 0 then return (v,true) else truncLevels tip lastblock levels v

def truncDirect (tip : Inode) (lastblock : Int) (v : Volume) : Except Fault Volume := [3,2,1,0].foldlM (fun v i =>
    if lastblock < (i : Nat) ∧ tip.iAddr (Fin.ofNat 7 i) ≠ 0 then free v tip.iNumber (tip.iAddr (Fin.ofNat 7 i)) else .ok v) v

def freeBlocks (tip : Inode) (lastblock : Int) (v : Volume) : Except Fault Volume :=
  (truncLevels tip lastblock [2,1,0] v).bind fun r => if r.2 then .ok r.1 else truncDirect tip lastblock r.1

def keptAddr (tip : Inode) (lastblock : Int) (i : Fin 7) : Nat :=
  if i.val < ndaddr then if lastblock < i.val then 0 else tip.iAddr i
  else if lastiblock lastblock (i.val - ndaddr) < 0 then 0 else tip.iAddr i

def zeroTail (f : File) (length : Nat) : Except Fault File :=
  let offset := length % 1024
  if offset ≠ 0 then do
    let (f,bn) ← bmap f (length / 1024) true true
    match bn with
    | none => return f
    | some bn => return storeBlock f bn ((f.volume.disk bn).fill offset (1024 - offset) fun _ => 0)
  else .ok f

def shrink (f : File) (length : Nat) : Except Fault File := do
  let lastblock : Int := ((length + 1024 - 1) / 1024 : Nat) - 1
  let f ← zeroTail f length
  let tip := f.ip
  let oip := {tip with iSize := length,iAddr := keptAddr tip lastblock}
  let v ← freeBlocks tip lastblock f.volume
  return ⟨v,oip⟩

def itrunc (f : File) (length : Nat) : Except Fault File :=
  if f.ip.iSize = length then .ok f
  else if f.ip.iSize < length then do
    let (f,bn) ← bmap f ((length - 1) / 1024) true true
    match bn with
    | none => return f
    | some _ => return {f with ip := {f.ip with iSize := length}}
  else shrink f length

end Retrobsd.FileData

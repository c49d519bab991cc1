import Retrobsd.Block

/-! `balloc` and `free` of `ufs_alloc.c`. The state holds the in-core super block
of one mounted file system and the contents of the blocks of its device as the
buffer cache presents them. -/
namespace Retrobsd.FreeList
open Function

def nicfree : Nat := 200

abbrev Slots := Fin 200 → Nat

structure Fs where
  fsIsize : Nat
  fsFsize : Nat
  fsNfree : Int
  fsFree : Slots
  fsFlock : Nat
  fsFmod : Nat
  fsTime : Nat
  fsTfree : Nat
  fsFsmnt : String
  fsFlags : Nat

inductive Message where
  | badBlock (bn : Nat)
  | badBlockOf (bn ino : Nat)
  | fserr (fsmnt cp : String)
  | writeFailed (fsmnt : String)
deriving DecidableEq

/-- `superblock` is what block `SUPERB` holds, and `failing` tells the blocks whose
transfer ends with an error. -/
structure Volume where
  fs : Fs
  disk : Nat → Block
  superblock : Fs
  failing : Nat → Bool
  time : Nat
  console : List Message

inductive Fault where
  | sleeping
deriving DecidableEq

def dfNfree (b : Block) : Int := signed (b.word 0)

def dfFree (b : Block) : Slots := fun i => b.word (i + 1)

def putFblk (b : Block) (nfree : Int) (free : Slots) : Block := b.writeWords (fun j => if j = 0 then some (unsigned nfree)
    else if h : j - 1 < 200 then some (free ⟨j - 1,h⟩) else none)

def slot (i : Int) : Fin 200 := Fin.ofNat 200 i.toNat

def badblock (fs : Fs) (bn : Nat) : Bool := decide (bn < fs.fsIsize ∨ bn ≥ fs.fsFsize)

def say (v : Volume) (m : List Message) : Volume := {v with console := v.console ++ m}

/-- The loop that takes the last address off `fs_free`; each turn lowers a count
that is at most `NICFREE` after the first. -/
def takeLast : Nat → Volume → Volume × Option Nat
  | 0,v => (v,none)
  | fuel + 1,v =>
    if v.fs.fsNfree ≤ 0 then (v,none)
    else if v.fs.fsNfree > nicfree then (say v [.fserr v.fs.fsFsmnt "bad free count"],none)
    else
      let nfree := v.fs.fsNfree - 1
      let bno := v.fs.fsFree (slot nfree)
      let v := {v with fs := {v.fs with fsNfree := nfree}}
      if bno = 0 then (v,none)
      else if badblock v.fs bno then takeLast fuel (say v [.badBlock bno,.fserr v.fs.fsFsmnt "bad block"])
      else (v,some bno)

def refill (v : Volume) (bno : Nat) : Volume :=
  let fs := if v.failing bno then v.fs
    else {v.fs with fsNfree := dfNfree (v.disk bno),fsFree := dfFree (v.disk bno)}
  let fs := {fs with fsFmod := 0,fsTime := v.time}
  {v with fs := {fs with fsFlock := 0},superblock := {fs with fsFlock := v.fs.fsFlock + 1}}

def nospace (v : Volume) : Volume × Option Nat := (say {v with fs := {v.fs with fsNfree := 0,fsTfree := 0}}
    [.fserr v.fs.fsFsmnt "file system full",.writeFailed v.fs.fsFsmnt],none)

def handOut (v : Volume) (bno : Nat) (clrbuf : Bool) : Volume × Option Nat := ({v with
    disk := if clrbuf then update v.disk bno Block.zero else v.disk
    fs := {v.fs with fsFmod := 1,fsTfree := (v.fs.fsTfree + 2^32 - 1) % 2^32}},some bno)

def balloc (v : Volume) (clrbuf : Bool) : Except Fault (Volume × Option Nat) :=
  if v.fs.fsFlock ≠ 0 then .error .sleeping
  else match takeLast (nicfree + 1) v with
    | (v,none) => .ok (nospace v)
    | (v,some bno) =>
      if v.fs.fsNfree ≤ 0 then
        let v := refill v bno
        if v.fs.fsNfree ≤ 0 then .ok (nospace v) else .ok (handOut v bno clrbuf)
      else .ok (handOut v bno clrbuf)

def startArray (fs : Fs) : Fs :=
  if fs.fsNfree ≤ 0 then {fs with fsNfree := 1,fsFree := update fs.fsFree 0 0} else fs

def spill (v : Volume) (bno : Nat) : Volume :=
  if v.fs.fsNfree ≥ nicfree then
    {v with
      disk := update v.disk bno (putFblk (v.disk bno) v.fs.fsNfree v.fs.fsFree)
      fs := {v.fs with fsNfree := 0,fsFlock := 0}}
  else v

def free (v : Volume) (ino bno : Nat) : Except Fault Volume :=
  if badblock v.fs bno then
    .ok (say v [.badBlock bno,.fserr v.fs.fsFsmnt "bad block",.badBlockOf bno ino])
  else if v.fs.fsFlock ≠ 0 then .error .sleeping
  else
    let v := spill {v with fs := startArray v.fs} bno
    .ok {v with fs := {v.fs with
      fsNfree := v.fs.fsNfree + 1
      fsFree := update v.fs.fsFree (slot v.fs.fsNfree) bno
      fsTfree := (v.fs.fsTfree + 1) % 2^32
      fsFmod := 1}}

end Retrobsd.FreeList

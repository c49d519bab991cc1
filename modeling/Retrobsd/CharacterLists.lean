import Retrobsd.Lib.Indices

/-! Character lists of `tty_subr.c` and their set up by `cinit`. Addresses are
numbers and `NULL` is 0. A block of 32 bytes starts with its link and keeps
characters in the other 28; loads and stores that are not at a block, or not at
a character of one, are faults. -/
namespace Retrobsd.CharacterLists

/-- The array `cfree`, which like every object is not at the null address. -/
structure Pool where
  cfree : Nat
  nclist : Nat
  placed : 0 < cfree

structure Clist where
  cCc : Int
  cCf : Nat
  cCl : Nat
deriving DecidableEq

structure Kernel (ι : Type) where
  cNext : Nat → Nat
  cInfo : Nat → UInt8
  cfreelist : Nat
  cfreecount : Int
  cwaiting : Bool
  clists : ι → Clist

inductive Fault where
  | wild
  | stuck
deriving DecidableEq

def round (p : Nat) : Nat := p / 32 * 32

def Pool.block (pool : Pool) (b : Nat) : Bool :=
    b % 32 == 0 && decide (pool.cfree ≤ b) && decide (b + 32 ≤ pool.cfree + 32 * pool.nclist)

def Pool.info (pool : Pool) (p : Nat) : Bool := pool.block (round p) && decide (4 ≤ p % 32)

section
variable {ι : Type} [DecidableEq ι] (pool : Pool)

def Kernel.set (k : Kernel ι) (q : ι) (p : Clist) : Kernel ι := {k with clists := Function.update k.clists q p}

def loadNext (k : Kernel ι) (bp : Nat) : Except Fault Nat :=
  if pool.block bp then .ok (k.cNext bp) else .error .wild

def storeNext (k : Kernel ι) (bp next : Nat) : Except Fault (Kernel ι) :=
  if pool.block bp then .ok {k with cNext := Function.update k.cNext bp next} else .error .wild

def load (k : Kernel ι) (p : Nat) : Except Fault UInt8 :=
  if pool.info p then .ok (k.cInfo p) else .error .wild

def store (k : Kernel ι) (p : Nat) (c : UInt8) : Except Fault (Kernel ι) :=
  if pool.info p then .ok {k with cInfo := Function.update k.cInfo p c} else .error .wild

def copyOut (k : Kernel ι) : Nat → Nat → Except Fault (List UInt8)
  | _,0 => .ok []
  | p,n + 1 => do
    let c ← load pool k p
    let rest ← copyOut k (p + 1) n
    .ok (c :: rest)

def copyIn : Kernel ι → Nat → List UInt8 → Except Fault (Kernel ι)
  | k,_,[] => .ok k
  | k,p,c :: cs => do
    let k ← store pool k p c
    copyIn k (p + 1) cs

/-- `bp->c_next = cfreelist; cfreelist = bp; cfreecount += CBSIZE;` -/
def release (k : Kernel ι) (bp : Nat) : Except Fault (Kernel ι) := do
  let k ← storeNext pool k bp k.cfreelist
  .ok {k with cfreelist := bp,cfreecount := k.cfreecount + 28}

def releaseWaking (k : Kernel ι) (bp : Nat) : Except Fault (Kernel ι) := do
  let k ← release pool k bp
  .ok {k with cwaiting := false}

def allocate (k : Kernel ι) : Except Fault (Kernel ι × Option Nat) :=
  if k.cfreelist = 0 then .ok (k,none)
  else do
    let next ← loadNext pool k k.cfreelist
    let taken ← storeNext pool {k with cfreelist := next,cfreecount := k.cfreecount - 28} k.cfreelist 0
    .ok (taken,some k.cfreelist)

def allocateAfter (k : Kernel ι) (cp : Nat) : Except Fault (Kernel ι × Option Nat) := do
  let k ← storeNext pool k (cp - 32) k.cfreelist
  allocate pool k

/-- After `n` characters from the front: the block that they used up goes back to
`cfreelist`. -/
def consume (k : Kernel ι) (q : ι) (n : Nat) : Except Fault (Kernel ι) :=
  let p : Clist := {k.clists q with cCf := (k.clists q).cCf + n,cCc := (k.clists q).cCc - n}
  if p.cCc ≤ 0 then releaseWaking pool (k.set q {p with cCf := 0,cCl := 0}) (round (p.cCf - 1))
  else if p.cCf % 32 = 0 then do
    let next ← loadNext pool k (p.cCf - 32)
    releaseWaking pool (k.set q {p with cCf := next + 4}) (p.cCf - 32)
  else .ok (k.set q p)

def getc (k : Kernel ι) (q : ι) : Except Fault (Kernel ι × Int) :=
  if (k.clists q).cCc ≤ 0 then .ok (k.set q ⟨0,0,0⟩,-1)
  else do
    let c ← load pool k (k.clists q).cCf
    let k ← consume pool k q 1
    .ok (k,c.toNat)

/-- Each turn moves at least one character, so that `cc` bounds their number. -/
def qToBLoop : Nat → Kernel ι → ι → Int → Except Fault (Kernel ι × List UInt8)
  | 0,_,_,_ => .error .stuck
  | turns + 1,k,q,cc =>
    if cc = 0 then .ok (k,[])
    else do
      let nc : Int := min (min (32 - ((k.clists q).cCf % 32 : Nat) : Int) cc) (k.clists q).cCc
      let moved ← copyOut pool k (k.clists q).cCf nc.toNat
      let k ← consume pool k q nc.toNat
      if (k.clists q).cCc ≤ 0 then .ok (k,moved)
      else do
        let (k,rest) ← qToBLoop turns k q (cc - nc)
        .ok (k,moved ++ rest)

def qToB (k : Kernel ι) (q : ι) (cc : Int) : Except Fault (Kernel ι × List UInt8) :=
  if cc ≤ 0 then .ok (k,[])
  else if (k.clists q).cCc ≤ 0 then .ok (k.set q ⟨0,0,0⟩,[])
  else qToBLoop pool (cc.toNat + 1) k q cc

/-- A `char` is signed here. -/
def charValue (c : UInt8) : Int := if c.toNat < 128 then c.toNat else c.toNat - 256

def flagged (c : UInt8) (flag : BitVec 32) : Bool := BitVec.ofInt 32 (charValue c) &&& flag != 0

/-- How far `while (p < end)` goes before a flagged character. -/
def scan (k : Kernel ι) (flag : BitVec 32) : Nat → Nat → Except Fault Nat
  | _,0 => .ok 0
  | p,n + 1 => do
    let c ← load pool k p
    if flagged c flag then .ok 0
    else do
      let later ← scan k flag (p + 1) n
      .ok (later + 1)

def ndqb (k : Kernel ι) (q : ι) (flag : BitVec 32) : Except Fault Int :=
  let p := k.clists q
  if p.cCc ≤ 0 then .ok (-p.cCc)
  else do
    let cc := min (round (p.cCf + 28) - p.cCf : Int) p.cCc
    if flag = 0 then .ok cc
    else do
      let n ← scan pool k flag p.cCf cc.toNat
      .ok n

def ndflushLoop : Nat → Kernel ι → ι → Int → Except Fault (Kernel ι)
  | 0,_,_,_ => .error .stuck
  | turns + 1,k,q,cc =>
    let p := k.clists q
    if cc > 0 ∧ p.cCc ≠ 0 then do
      let bp := round p.cCf
      let stop := if bp = round (p.cCl - 1) then p.cCl else bp + 32
      let rem : Int := (stop : Int) - p.cCf
      if cc ≥ rem then do
        let next ← loadNext pool k bp
        let k ← releaseWaking pool (k.set q {p with cCc := p.cCc - rem,cCf := next + 4}) bp
        ndflushLoop turns k q (cc - rem)
      else
        let k := k.set q {p with cCc := p.cCc - cc,cCf := p.cCf + cc.toNat}
        if (k.clists q).cCc ≤ 0 then releaseWaking pool k bp else .ok k
    else .ok k

def ndflush (k : Kernel ι) (q : ι) (cc : Int) : Except Fault (Kernel ι) :=
  if (k.clists q).cCc ≤ 0 then .ok k
  else do
    let k ← ndflushLoop pool ((k.clists q).cCc.toNat + 1) k q cc
    if (k.clists q).cCc ≤ 0 then .ok (k.set q ⟨0,0,0⟩) else .ok k

def firstRoom (k : Kernel ι) (q : ι) : Except Fault (Kernel ι × Option Nat) := do
  match ← allocate pool k with
  | (k,none) => .ok (k,none)
  | (k,some bp) => .ok (k.set q {k.clists q with cCf := bp + 4},some (bp + 4))

def nextRoom (k : Kernel ι) (cp : Nat) : Except Fault (Kernel ι × Option Nat) :=
  if cp % 32 = 0 then do
    let (k,taken) ← allocateAfter pool k cp
    .ok (k,taken.map (· + 4))
  else .ok (k,some cp)

def Clist.blank (p : Clist) : Bool := decide (p.cCl = 0) || decide (p.cCc < 0)

def putcRoom (k : Kernel ι) (q : ι) : Except Fault (Kernel ι × Option Nat) :=
  if (k.clists q).blank then firstRoom pool k q else nextRoom pool k (k.clists q).cCl

def putc (k : Kernel ι) (c : Int) (q : ι) : Except Fault (Kernel ι × Int) := do
  match ← putcRoom pool k q with
  | (k,none) => .ok (k,-1)
  | (k,some cp) =>
    let k ← store pool k cp (UInt8.ofNat (c % 256).toNat)
    .ok (k.set q {k.clists q with cCc := (k.clists q).cCc + 1,cCl := cp + 1},0)

def bToQLoop : Nat → Kernel ι → Nat → List UInt8 → Except Fault (Kernel ι × Nat × List UInt8)
  | 0,_,_,_ => .error .stuck
  | turns + 1,k,cq,cp =>
    if cp = [] then .ok (k,cq,cp)
    else do
      match ← nextRoom pool k cq with
      | (k,none) => .ok (k,cq,cp)
      | (k,some cq) =>
        let nc := min cp.length (32 - cq % 32)
        let k ← copyIn pool k cq (cp.take nc)
        bToQLoop turns k (cq + nc) (cp.drop nc)

def bToQRoom (k : Kernel ι) (q : ι) : Except Fault (Kernel ι × Option Nat) :=
  if (k.clists q).blank then firstRoom pool k q else .ok (k,some (k.clists q).cCl)

def bToQ (k : Kernel ι) (cp : Nat → UInt8) (cc : Int) (q : ι) : Except Fault (Kernel ι × Int) :=
  if cc ≤ 0 then .ok (k,0)
  else do
    match ← bToQRoom pool k q with
    | (k,none) => .ok (k,cc)
    | (k,some cq) =>
      let (k,cq,left) ← bToQLoop pool (cc.toNat + 1) k cq ((List.range cc.toNat).map cp)
      .ok (k.set q {k.clists q with cCl := cq,cCc := (k.clists q).cCc + (cc - left.length)},left.length)

def nextc (k : Kernel ι) (q : ι) (cp : Nat) : Except Fault Nat :=
  if (k.clists q).cCc ≠ 0 ∧ cp + 1 ≠ (k.clists q).cCl then
    if (cp + 1) % 32 = 0 then do
      let next ← loadNext pool k (cp + 1 - 32)
      .ok (next + 4)
    else .ok (cp + 1)
  else .ok 0

def findBefore (k : Kernel ι) (cl : Nat) : Nat → Nat → Except Fault Nat
  | 0,_ => .error .stuck
  | turns + 1,bp => do
    let next ← loadNext pool k bp
    if next = cl then .ok bp else findBefore k cl turns next

def dropLast (k : Kernel ι) (q : ι) (p : Clist) : Except Fault (Kernel ι) := do
  let obp ← findBefore pool k (round p.cCl) (pool.nclist + 1) (round p.cCf)
  let bp ← loadNext pool k obp
  let k ← release pool (k.set q {p with cCl := obp + 32}) bp
  storeNext pool k obp 0

def unputc (k : Kernel ι) (q : ι) : Except Fault (Kernel ι × Int) :=
  if (k.clists q).cCc ≤ 0 then .ok (k,-1)
  else do
    let p : Clist := {k.clists q with cCl := (k.clists q).cCl - 1,cCc := (k.clists q).cCc - 1}
    let c ← load pool k p.cCl
    if p.cCc ≤ 0 then do
      let k ← release pool (k.set q {p with cCf := 0,cCl := 0}) (round p.cCl)
      .ok (k,charValue c)
    else if p.cCl % 32 = 4 then do
      let k ← dropLast pool k q p
      .ok (k,charValue c)
    else .ok (k.set q p,charValue c)

def cinitLoop : Nat → Kernel ι → Nat → Except Fault (Kernel ι)
  | 0,k,cp => if cp + 32 ≤ pool.cfree + 32 * pool.nclist then .error .stuck else .ok k
  | turns + 1,k,cp =>
    if cp + 32 ≤ pool.cfree + 32 * pool.nclist then do
      let k ← release pool k cp
      cinitLoop turns k (cp + 32)
    else .ok k

def cinit (k : Kernel ι) : Except Fault (Kernel ι) := cinitLoop pool pool.nclist k (round (pool.cfree + 31))

def boot (next : Nat → Nat) (info : Nat → UInt8) : Kernel ι := ⟨next,info,0,0,false,fun _ => ⟨0,0,0⟩⟩

end

end Retrobsd.CharacterLists

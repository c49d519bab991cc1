import Retrobsd.BufferCache

/-! The parts of the disk driver `rdisk.c` that use buffers of the cache: opening
and closing a disk, its partition table, and the functions that look for
partitions. The hardware answers each request with the next `Response`. -/
namespace Retrobsd.Rdisk
open BufferCache

/-- The answer to one request: the error number, the sector that holds the
partition table unless the read fails, and the size. -/
structure Response where
  errno : Nat
  mbr : Option Block
  blocks : Nat

structure Kernel (n : Nat) where
  cache : Cache n
  tick : Nat

abbrev Driver (n : Nat) := StateT (Kernel n) (Except (Fault n))

variable {n : Nat} [NeZero n] (cfg : Config) (hw : Nat → Response)

def onCache {α : Type} (f : Cache n → Except (Fault n) (Cache n × α)) : Driver n α := fun k =>
  match f k.cache with
  | .ok (s,a) => .ok (a,{k with cache := s})
  | .error e => .error e

def change (f : Cache n → Cache n) : Driver n Unit := onCache fun s => .ok (f s,())

def respond : Driver n Response := fun k => .ok (hw k.tick,{k with tick := k.tick + 1})

def enxio : Nat := 6

def enodev : Nat := 19

/-- `mbr->partitions[i]` starts at byte 446 + 16 i. -/
def partitionStatus (b : Block) (i : Nat) : Nat := b.byteAt (446 + 16 * i)

def partitionType (b : Block) (i : Nat) : Nat := b.byteAt (446 + 16 * i + 4)

def le32 (b : Block) (k : Nat) : Nat := b.byteAt k + 2^8 * b.byteAt (k + 1) + 2^16 * b.byteAt (k + 2) + 2^24 * b.byteAt (k + 3)

def lbastart (b : Block) (i : Nat) : Nat := le32 b (446 + 16 * i + 8)

def lbalength (b : Block) (i : Nat) : Nat := le32 b (446 + 16 * i + 12)

def rdiskFs : Nat := 0xb7

def rdiskSwap : Nat := 0xb8

def pActive : Nat := 0x80

/-- The sector is read into a buffer that keeps the label of its last block. When
the read fails, the first buffer of the pool is released in its place. -/
def readMbr (root : Nat) : Driver n (Option (Fin n)) :=
  if root ≥ cfg.nrdsk then return none
  else do
    let i ← onCache (getnewbuf cfg)
    let r ← respond hw
    match r.mbr with
    | none =>
      change (fun s => brelse s 0)
      return none
    | some mbr =>
      change (fun s => s.modify i (fun b => {b with data := fun k => if k.val < 512 then mbr k else b.data k}))
      return some i

def mbrOf (i : Fin n) : Driver n Block := fun k => .ok ((k.cache.buf i).data,k)

def setDflags (root : Nat) (f : Diskflags → Diskflags) : Driver n Unit :=
  change fun s => {s with dflags := Function.update s.dflags root (f (s.dflags root))}

def initDevice (root : Nat) : Driver n Nat :=
  if root ≥ cfg.nrdsk then return enodev
  else do
    let r ← respond hw
    if r.errno ≠ 0 then return r.errno
    match ← readMbr cfg hw root with
    | none => return enxio
    | some i =>
      let mbr ← mbrOf i
      let size ← respond hw
      setDflags root fun d =>
        {d with start := fun p => lbastart mbr p / 2,len := fun p => lbalength mbr p / 2,blocks := size.blocks}
      change (fun s => brelse s i)
      return 0

def opens (root : Nat) : Driver n Nat := fun k => .ok ((k.cache.dflags root).opens,k)

/-- `opens` is an unsigned character. -/
def openDevice (root : Nat) : Driver n Nat :=
  if root ≥ cfg.nrdsk then return enodev
  else do
    let e ← if (← opens root) = 0 then initDevice cfg hw root else pure 0
    if e ≠ 0 then return e
    setDflags root fun d => {d with opens := (d.opens + 1) % 256}
    return 0

def closeDevice (root : Nat) : Driver n Nat :=
  if root ≥ cfg.nrdsk then return enodev
  else do
    if (← opens root) = 0 then return enxio
    setDflags root fun d => {d with opens := d.opens - 1}
    if (← opens root) = 0 then
      let _ ← respond hw
    return 0

def rdopen (dev : Dev) : Driver n Nat :=
  if major dev ≥ cfg.nrdsk then return enodev
  else do
    let e ← openDevice cfg hw (major dev)
    if e ≠ 0 then return e
    let r ← respond hw
    return r.errno

def rdclose (dev : Dev) : Driver n Nat :=
  if major dev ≥ cfg.nrdsk then return enodev
  else do
    let _ ← closeDevice cfg hw (major dev)
    return 0

theorem partition_lt {dev : Dev} (h : 0 < minor dev ∧ minor dev ≤ 4) : minor dev - 1 < 4 := by omega

def partitionLength (dev : Dev) : Driver n Nat := fun k =>
  .ok (if h : 0 < minor dev ∧ minor dev ≤ 4 then (k.cache.dflags (major dev)).len ⟨minor dev - 1,partition_lt h⟩ else 0,k)

def rdsize (dev : Dev) : Driver n Nat :=
  if major dev ≥ cfg.nrdsk then return enodev
  else if minor dev = 0 then do
    let r ← respond hw
    return r.blocks
  else do
    if (← rdopen cfg hw dev) ≠ 0 then return 0
    let blocks ← partitionLength dev
    let _ ← rdclose cfg hw dev
    return blocks

inductive Ioctl where
  | rdgetmediasize
  | rdreinit
deriving DecidableEq

/-- `bflush` is called with the major number alone. -/
def rdioctl (dev : Dev) : Ioctl → Driver n Nat
  | .rdgetmediasize => rdsize cfg hw dev
  | .rdreinit => do
    onCache fun s => (bflush cfg s (major dev)).map (·,())
    let _ ← initDevice cfg hw (major dev)
    return 0

def partitionTypeOf (dev : Dev) : Driver n Nat :=
  if minor dev < 1 ∨ minor dev > 4 then return 0
  else do
    if (← rdopen cfg hw dev) ≠ 0 then return 0
    let found ← readMbr cfg hw (major dev)
    let _ ← rdclose cfg hw dev
    match found with
    | none => throw .null
    | some i =>
      let mbr ← mbrOf i
      change (fun s => brelse s i)
      return partitionType mbr (minor dev - 1)

def activePartition (mbr : Block) (type : Nat) : Option Nat :=
  (List.range 4).find? fun j => decide (partitionType mbr j = type) && decide (partitionStatus mbr j / pActive % 2 = 1)

def longest (mbr : Block) (root type : Nat) (best : Nat × Dev) : Nat × Dev := (List.range 4).foldl (fun best j =>
    if partitionType mbr j = type ∧ lbalength mbr j > best.1 then (lbalength mbr j,makedev root (j + 1)) else best) best

def scanDisk (type root : Nat) (best : Nat × Dev) : Driver n (Option Dev × (Nat × Dev)) := do
  if (← rdopen cfg hw (makedev root 0)) ≠ 0 then return (none,best)
  match ← readMbr cfg hw root with
  | none =>
    let _ ← rdclose cfg hw (makedev root 0)
    return (none,best)
  | some i =>
    let mbr ← mbrOf i
    change (fun s => brelse s i)
    let _ ← rdclose cfg hw (makedev root 0)
    return ((activePartition mbr type).map (fun j => makedev root (j + 1)),longest mbr root type best)

def scanDisks (type : Nat) : List Nat → Nat × Dev → Driver n (Option Dev × (Nat × Dev))
  | [],best => return (none,best)
  | root :: roots,best => do
    let (found,best) ← scanDisk cfg hw type root best
    match found with
    | some dev => return (some dev,best)
    | none => scanDisks type roots best

def getBootDevice : Driver n Dev := do
  let (found,_) ← scanDisks cfg hw rdiskFs (List.range cfg.nrdsk) (0,nodev)
  return found.getD nodev

def getSwapDevice : Driver n Dev := do
  let (found,best) ← scanDisks cfg hw rdiskSwap (List.range cfg.nrdsk) (0,nodev)
  return found.getD best.2

def listSizes (mbr : Block) (root type : Nat) : List Nat → Driver n (List (Dev × Nat))
  | [] => return []
  | j :: js => do
    if partitionType mbr j = type then
      let size ← rdsize cfg hw (makedev root (j + 1))
      let rest ← listSizes mbr root type js
      return (makedev root (j + 1),size) :: rest
    else listSizes mbr root type js

def rdiskListPartitions (type : Nat) : List Nat → Driver n (List (Dev × Nat))
  | [] => return []
  | root :: roots => do
    if (← initDevice cfg hw root) ≠ 0 then rdiskListPartitions type roots
    else
      let whole ← rdsize cfg hw (makedev root 0)
      match ← readMbr cfg hw root with
      | none =>
        let rest ← rdiskListPartitions type roots
        return (makedev root 0,whole) :: rest
      | some i =>
        let mbr ← mbrOf i
        let sizes ← listSizes cfg hw mbr root type (List.range 4)
        change (fun s => brelse s i)
        let rest ← rdiskListPartitions type roots
        return (makedev root 0,whole) :: sizes ++ rest

end Retrobsd.Rdisk

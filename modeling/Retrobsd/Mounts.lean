import Retrobsd.BufferCache
import Retrobsd.Lib.Hoare

/-! The mount table of `ufs_mount.c`, the opens and closes of block devices in `sys_inode.c`,
and the counts of the disk driver `rdisk.c`, with the references and locks of the inodes and
the busy buffers. What lookups, devices and the cache answer is given by the environment, one
`Response` after the other; of a buffer only `B_BUSY` is kept. -/
namespace Retrobsd.Mounts
open Function
open BufferCache (Dev nodev major minor makedev)

abbrev nmount : Nat := 2

abbrev ninode : Nat := 24

abbrev nfile : Nat := 24

def ntmp : Nat := 3

def nblkdev : Nat := 5

inductive Fmt where
  | none
  | ifreg
  | ifdir
  | ifchr
  | ifblk
deriving DecidableEq

structure Inode where
  iFmt : Fmt
  iRdev : Dev
  iDev : Dev
  iNumber : Nat
  iNlink : Nat
  iFs : Fin nmount
  iCount : Nat
  iLocked : Bool
  iMount : Bool

structure Flags where
  mntRdonly : Bool
  mntSynchronous : Bool
  mntNoexec : Bool
  mntNosuid : Bool
  mntNodev : Bool
  mntAsync : Bool
  mntNoatime : Bool
  mntUpdate : Bool

structure Fs where
  fsMagic : Bool
  fsFmod : Bool
  fsIlock : Bool
  fsFlock : Bool
  fsRonly : Bool
  fsNbehind : Nat
  fsLasti : Nat
  fsFlags : Flags

inductive Covered where
  | none
  | boot
  | inode (i : Fin ninode)
deriving DecidableEq

structure Mount where
  mDev : Dev
  mFilsys : Fs
  mInodp : Covered

structure File where
  fCount : Nat
  fData : Option (Fin ninode)
  opened : Fmt × Dev

abbrev Errno := {e : Nat // e ≠ 0}

structure Response (n : Nat) where
  errno : Nat
  mbr : Bool
  buf : Fin n
  bError : Bool
  super : Fs
  dirty : Bool
  denied : Nat
  found : Except Errno (Fin ninode × Inode)

/-- A call of a close routine by `closei`: what the routine belongs to, and what was opened. -/
structure Close where
  called : Fmt × Dev
  opened : Fmt × Dev
deriving DecidableEq

/-- `opens` is what the driver counts for each disk, and `unmatched` the opens of a block device
less the closes of it; `others` are the references of inodes that neither table has. -/
structure Kernel (n : Nat) where
  inode : Fin ninode → Inode
  mount : Fin nmount → Mount
  file : Fin nfile → File
  opens : Nat → Nat
  busy : Finset (Fin n)
  unmatched : Dev → Int
  closes : List Close
  others : Fin ninode → Nat
  lastf : Nat
  securelevel : Int
  tick : Nat

inductive Fault where
  | disabled
  | sleeping
  | panic (message : String)
  | null
deriving DecidableEq

abbrev Call (n : Nat) := StateT (Kernel n) (Except Fault)

structure Config where
  nrdsk : Nat
  nchrdev : Nat
  swapdev : Dev

def enxio : Nat := 6
def enoent : Nat := 2
def eio : Nat := 5
def eperm : Nat := 1
def enotblk : Nat := 15
def ebusy : Nat := 16
def enodev : Nat := 19
def enotdir : Nat := 20
def einval : Nat := 22
def enfile : Nat := 23
def emfile : Nat := 24

variable {n : Nat}

section
variable (hw : Nat → Response n)

def respond : Call n (Response n) := fun k => .ok (hw k.tick,{k with tick := k.tick + 1})

def getnewbuf : Call n (Fin n) := do
  let r ← respond hw
  if r.buf ∈ (← get).busy then throw .sleeping
  modify fun k => {k with busy := insert r.buf k.busy}
  return r.buf

def brelse (b : Fin n) : Call n Unit := modify fun k => {k with busy := k.busy.erase b}

def bread (_dev : Dev) (_blkno : Nat) : Call n (Fin n × Bool) := do
  let b ← getnewbuf hw
  let r ← respond hw
  return (b,r.bError)

end

section
variable [NeZero n] (cfg : Config) (hw : Nat → Response n)

def readMbr (root : Nat) : Call n (Option (Fin n)) :=
  if root ≥ cfg.nrdsk then return none
  else do
    let b ← getnewbuf hw
    let r ← respond hw
    if r.mbr then return some b
    brelse 0
    return none

def initDevice (root : Nat) : Call n Nat :=
  if root ≥ cfg.nrdsk then return enodev
  else do
    let r ← respond hw
    if r.errno ≠ 0 then return r.errno
    match ← readMbr cfg hw root with
    | none => return enxio
    | some b =>
      brelse b
      return 0

def setOpens (root count : Nat) : Call n Unit := modify fun k => {k with opens := update k.opens root count}

def openDevice (root : Nat) : Call n Nat :=
  if root ≥ cfg.nrdsk then return enodev
  else do
    let e ← if (← get).opens root = 0 then initDevice cfg hw root else pure 0
    if e ≠ 0 then return e
    setOpens root (((← get).opens root + 1) % 256)
    return 0

def closeDevice (root : Nat) : Call n Nat :=
  if root ≥ cfg.nrdsk then return enodev
  else do
    if (← get).opens root = 0 then return enxio
    setOpens root ((← get).opens root - 1)
    return 0

def rdopen (dev : Dev) : Call n Nat :=
  if major dev ≥ cfg.nrdsk then return enodev
  else do
    let e ← openDevice cfg hw (major dev)
    if e ≠ 0 then return e
    let r ← respond hw
    return r.errno

def rdclose (dev : Dev) : Call n Nat :=
  if major dev ≥ cfg.nrdsk then return enodev
  else do
    let _ ← closeDevice cfg (major dev)
    return 0

def swopen (dev : Dev) : Call n Nat :=
  if minor dev = 64 then rdopen cfg hw cfg.swapdev
  else if minor dev ≥ ntmp then return enodev
  else return 0

def swclose (dev : Dev) : Call n Nat :=
  if minor dev = 64 then rdclose cfg cfg.swapdev
  else if minor dev ≥ ntmp then return enodev
  else return 0

/-- `bdevsw`: four entries for disks, and the last for the swap space. -/
def dOpen (dev : Dev) : Call n Nat := do
  let e ← if major dev < 4 then rdopen cfg hw dev else swopen cfg hw dev
  if e = 0 then modify fun k => {k with unmatched := update k.unmatched dev (k.unmatched dev + 1)}
  return e

def dClose (dev : Dev) : Call n Nat := do
  modify fun k => {k with unmatched := update k.unmatched dev (k.unmatched dev - 1)}
  if major dev < 4 then rdclose cfg dev else swclose cfg dev

end

section
variable (hw : Nat → Response n)

def setInode (i : Fin ninode) (f : Inode → Inode) : Call n Unit :=
    modify fun k => {k with inode := update k.inode i (f (k.inode i))}

/-- An inode that is unlocked is referred to and locked. One that nobody refers to may have
been read into its place before that. -/
def namei : Call n (Except Nat (Fin ninode)) := do
  let r ← respond hw
  match r.found with
  | .error e => return .error e.val
  | .ok (i,new) =>
    let ip := (← get).inode i
    if ip.iLocked ∨ ip.iMount then throw .sleeping
    if ip.iCount = 0 then setInode i fun _ => {new with iCount := 1,iLocked := true,iMount := false}
    else setInode i fun ip => {ip with iCount := ip.iCount + 1,iLocked := true}
    return .ok i

/-- `IUPDAT`: the block of the inode is read, and written back. -/
def iupdat (i : Fin ninode) : Call n Unit := do
  let r ← respond hw
  let k ← get
  if r.dirty ∧ (k.mount (k.inode i).iFs).mFilsys.fsRonly = false then
    let (b,_) ← bread hw (k.inode i).iDev (k.inode i).iNumber
    brelse b

/-- The blocks that `itrunc` gives back are left out. -/
def irele (i : Fin ninode) : Call n Unit := do
  let k ← get
  let ip := k.inode i
  if ip.iCount = 1 then
    setInode i fun ip => {ip with iLocked := true}
    if ip.iNlink = 0 ∧ (k.mount ip.iFs).mFilsys.fsRonly = false then
      setInode i fun ip => {ip with iFmt := .none,iRdev := 0}
    iupdat hw i
    setInode i fun ip => {ip with iLocked := false,iMount := false}
  setInode i fun ip => {ip with iCount := ip.iCount - 1}

def iput (i : Fin ninode) : Call n Unit := do
  setInode i fun ip => {ip with iLocked := false}
  irele hw i

def iflushLoop (k : Kernel n) (dev : Dev) : List (Fin ninode) → Int → Int
  | [],count => count
  | i :: rest,count =>
    let ip := k.inode i
    if ip.iDev = dev then
      if ip.iCount ≠ 0 then -1 else iflushLoop k dev rest count
    else if ip.iCount ≠ 0 ∧ ip.iFmt = .ifblk ∧ ip.iRdev = dev then iflushLoop k dev rest (count + 1)
    else iflushLoop k dev rest count

def iflush (dev : Dev) : Call n Int := do return iflushLoop (← get) dev (List.finRange ninode) 0

end

section
variable [NeZero n] (cfg : Config) (hw : Nat → Response n)

def setMount (mp : Fin nmount) (f : Mount → Mount) : Call n Unit :=
    modify fun k => {k with mount := update k.mount mp (f (k.mount mp))}

def findMount (k : Kernel n) (p : Mount → Bool) : Option (Fin nmount) := (List.finRange nmount).find? fun mp => p (k.mount mp)

def mounted (dev : Dev) (mp : Mount) : Bool := decide (mp.mInodp ≠ .none) && decide (dev = mp.mDev)

def unused (mp : Mount) : Bool := decide (mp.mInodp = .none)

def getmdev (suser : Bool) : Call n (Except Nat Dev) := do
  if !suser then return .error eperm
  match ← namei hw with
  | .error e => return .error (if e = enoent then enodev else e)
  | .ok i =>
    let ip := (← get).inode i
    if ip.iFmt ≠ .ifblk then
      iput hw i
      return .error enotblk
    let dev := ip.iRdev
    iput hw i
    if major dev ≥ nblkdev then return .error enxio
    return .ok dev

/-- How far `mountfs` has come when it fails: the entry, the buffer and whether to close. -/
def mountfsOut (dev : Dev) (i : Fin ninode) (mp : Option (Fin nmount)) (tp : Option (Fin n)) (needclose : Bool)
    (error : Nat) : Call n Nat := do
  iput hw i
  match mp with
  | none => pure ()
  | some mp => setMount mp fun mp => {mp with mInodp := .none}
  match tp with
  | none => pure ()
  | some tp => brelse tp
  if needclose then
    let _ ← dClose cfg dev
  return if error = 0 then eio else error

def mountfs (dev : Dev) (flags : Flags) (i : Fin ninode) : Call n Nat := do
  let ronly := flags.mntRdonly
  let error ← dOpen cfg hw dev
  if error ≠ 0 then mountfsOut cfg hw dev i none none false error
  else
    let (tp,bError) ← bread hw dev 0
    if bError then mountfsOut cfg hw dev i none (some tp) true 0
    else if (findMount (← get) (mounted dev)).isSome then mountfsOut cfg hw dev i none (some tp) false ebusy
    else match findMount (← get) unused with
      | none => mountfsOut cfg hw dev i none (some tp) true emfile
      | some mp =>
        let r ← respond hw
        setMount mp fun _ => {mInodp := .inode i,mDev := dev,mFilsys := r.super}
        brelse tp
        if r.super.fsMagic = false then mountfsOut cfg hw dev i (some mp) none true einval
        else
          setMount mp fun mp => {mp with mFilsys := {mp.mFilsys with
            fsRonly := ronly,fsFmod := if ronly then mp.mFilsys.fsFmod else true,fsIlock := false,fsFlock := false
            fsNbehind := 0,fsLasti := 1,fsFlags := flags}}
          setInode i fun ip => {ip with iMount := true,iLocked := false}
          return 0

def updateFlags (old new : Flags) : Flags := {old with
    mntNosuid := new.mntNosuid,mntNodev := new.mntNodev,mntNoexec := new.mntNoexec,mntAsync := new.mntAsync
    mntSynchronous := new.mntSynchronous,mntNoatime := new.mntNoatime}

def updateMount (dev : Dev) (i : Fin ninode) (flags : Flags) : Call n Nat := do
  let k ← get
  let ip := k.inode i
  let mp := k.mount ip.iFs
  if ip.iNumber ≠ 2 then return einval
  if dev ≠ mp.mDev then return einval
  if mp.mFilsys.fsRonly = false ∧ flags.mntRdonly then return eperm
  if mp.mFilsys.fsRonly ∧ flags.mntRdonly = false then
    setMount ip.iFs fun mp => {mp with mFilsys := {mp.mFilsys with
      fsRonly := false,fsFlags := {mp.mFilsys.fsFlags with mntRdonly := false}}}
  setMount ip.iFs fun mp => {mp with mFilsys := {mp.mFilsys with fsFlags := updateFlags mp.mFilsys.fsFlags flags}}
  return 0

/-- The error that `smount` leaves in `u_error`. The names for `statfs` are left out. -/
def smount (suser : Bool) (flags : Flags) : Call n Nat := do
  match ← getmdev hw suser with
  | .error e => return e
  | .ok dev =>
    match ← namei hw with
    | .error e => return e
    | .ok i =>
      let ip := (← get).inode i
      if ip.iFmt ≠ .ifdir then
        iput hw i
        return enotdir
      else if flags.mntUpdate then
        let error ← updateMount dev i flags
        iput hw i
        return error
      else if ip.iCount ≠ 1 ∨ ip.iNumber = 2 then
        iput hw i
        return ebusy
      else mountfs cfg hw dev flags i

def syncinodes (mp : Fin nmount) : List (Fin ninode) → Call n Unit
  | [] => return ()
  | i :: rest => do
    let r ← respond hw
    let ip := (← get).inode i
    if ip.iFs = mp ∧ ip.iLocked = false ∧ ip.iCount ≠ 0 ∧ r.dirty then
      setInode i fun ip => {ip with iLocked := true,iCount := ip.iCount + 1}
      iupdat hw i
      iput hw i
    syncinodes mp rest

/-- `bflush`, which gives back every buffer that it takes, is left out. -/
def ufsSync (mp : Fin nmount) : Call n Unit := do
  let fs := ((← get).mount mp).mFilsys
  if fs.fsFmod ∧ fs.fsFlags.mntRdonly then throw (.panic "sync: rofs")
  syncinodes hw mp (List.finRange ninode)
  if ((← get).mount mp).mFilsys.fsFmod then
    let b ← getnewbuf hw
    setMount mp fun mp => {mp with mFilsys := {mp.mFilsys with fsFmod := false}}
    brelse b

def setAsync (mp : Fin nmount) (async : Bool) : Call n Unit :=
  setMount mp fun mp => {mp with mFilsys := {mp.mFilsys with fsFlags := {mp.mFilsys.fsFlags with mntAsync := async}}}

def unmount1 (suser : Bool) : Call n Nat := do
  match ← getmdev hw suser with
  | .error e => return e
  | .ok dev =>
    match findMount (← get) (mounted dev) with
    | none => return einval
    | some mp =>
      let aflag := ((← get).mount mp).mFilsys.fsFlags.mntAsync
      setAsync mp false
      ufsSync hw mp
      if (← iflush dev) < 0 then
        setAsync mp (((← get).mount mp).mFilsys.fsFlags.mntAsync || aflag)
        return ebusy
      else match ((← get).mount mp).mInodp with
        | .inode i =>
          setInode i fun ip => {ip with iMount := false}
          irele hw i
          setMount mp fun mp => {mp with mInodp := .none,mDev := 0}
          let _ ← dClose cfg dev
          return 0
        | _ => throw .null

end

section
variable [NeZero n] (cfg : Config) (hw : Nat → Response n)

def setFile (fp : Fin nfile) (f : File → File) : Call n Unit := modify fun k => {k with file := update k.file fp (f (k.file fp))}

def falloc : Call n (Option (Fin nfile)) := do
  let k ← get
  match ((List.finRange nfile).rotate k.lastf).find? fun fp => decide ((k.file fp).fCount = 0) with
  | none => return none
  | some fp =>
    setFile fp fun fp => {fp with fCount := 1,fData := none}
    modify fun k => {k with lastf := fp + 1}
    return some fp

def isdisk (dev : Dev) (type : Fmt) : Bool := decide (major dev ≤ 4) && decide (type = .ifblk)

def iskmemdev (dev : Dev) : Bool := decide (major dev = 1) && decide (minor dev ≤ 1)

def chrtoblk (dev : Dev) : Dev :=
  if major dev = 3 then makedev 0 (minor dev) else if major dev = 6 then makedev 1 (minor dev) else nodev

def ufsMountedon (k : Kernel n) (dev : Dev) : Nat := if (findMount k (mounted dev)).isSome then ebusy else 0

def openi (i : Fin ninode) (fwrite : Bool) : Call n Nat := do
  let k ← get
  let ip := k.inode i
  let dev := ip.iRdev
  let mntNodev := (k.mount ip.iFs).mFilsys.fsFlags.mntNodev
  match ip.iFmt with
  | .ifchr =>
    if mntNodev then return enxio
    if major dev ≥ cfg.nchrdev then return enxio
    if fwrite then
      if k.securelevel ≥ 2 ∧ isdisk dev .ifchr then return eperm
      if k.securelevel ≥ 1 then
        if chrtoblk dev ≠ nodev ∧ ufsMountedon k (chrtoblk dev) ≠ 0 then return ebusy
        if iskmemdev dev then return eperm
    let r ← respond hw
    return r.errno
  | .ifblk =>
    if mntNodev then return enxio
    if major dev ≥ nblkdev then return enxio
    if k.securelevel ≥ 2 ∧ fwrite ∧ isdisk dev .ifblk then return eperm
    if k.securelevel > 0 ∧ ufsMountedon k dev ≠ 0 then return ebusy
    dOpen cfg hw dev
  | _ => return 0

/-- `vn_open` of a file that is there; what it checks before `openi` is in `denied`. -/
def vnOpen (fwrite : Bool) : Call n (Except Nat (Fin ninode)) := do
  match ← namei hw with
  | .error e => return .error e
  | .ok i =>
    let r ← respond hw
    if r.denied ≠ 0 then
      iput hw i
      return .error r.denied
    else
      setInode i fun ip => {ip with iLocked := false}
      let error ← openi cfg hw i fwrite
      if error ≠ 0 then
        iput hw i
        return .error error
      else return .ok i

def copen (fwrite : Bool) : Call n Nat := do
  match ← falloc with
  | none => return enfile
  | some fp =>
    match ← vnOpen cfg hw fwrite with
    | .error e =>
      setFile fp fun fp => {fp with fCount := 0}
      return e
    | .ok i =>
      let ip := (← get).inode i
      setFile fp fun fp => {fp with fData := some i,opened := (ip.iFmt,ip.iRdev)}
      return 0

def aliases (k : Kernel n) (mode : Fmt) (dev : Dev) (fp : File) : Bool :=
  decide (fp.fCount ≠ 0) && match fp.fData with
    | none => false
    | some i => decide ((k.inode i).iRdev = dev) && decide ((k.inode i).iFmt = mode)

def closei (i : Fin ninode) (opened : Fmt × Dev) : Call n Unit := do
  let k ← get
  let mode := (k.inode i).iFmt
  let dev := (k.inode i).iRdev
  let aliased := (List.finRange nfile).any fun fp => aliases k mode dev (k.file fp)
  match mode with
  | .ifchr =>
    if aliased then return ()
    modify fun k => {k with closes := k.closes ++ [⟨(mode,dev),opened⟩]}
  | .ifblk =>
    if (findMount k (mounted dev)).isSome then return ()
    if aliased then return ()
    modify fun k => {k with closes := k.closes ++ [⟨(mode,dev),opened⟩]}
    let _ ← dClose cfg dev
  | _ => return ()

def vnClosefile (fp : Fin nfile) : Call n Unit := do
  let f := (← get).file fp
  match f.fData with
  | none => throw .null
  | some i =>
    setFile fp fun fp => {fp with fData := none}
    irele hw i
    closei cfg i f.opened

def closef (fp : Fin nfile) : Call n Unit := do
  let f := (← get).file fp
  if f.fCount > 1 then setFile fp fun fp => {fp with fCount := fp.fCount - 1}
  else
    vnClosefile cfg hw fp
    setFile fp fun fp => {fp with fCount := 0}

def dupit (fp : Fin nfile) : Call n Unit := setFile fp fun fp => {fp with fCount := fp.fCount + 1}

/-- `unlink` of a file, for the part that it has in the inode. -/
def unlink : Call n Nat := do
  match ← namei hw with
  | .error e => return e
  | .ok i =>
    let r ← respond hw
    if r.denied = 0 then setInode i fun ip => {ip with iNlink := ip.iNlink - 1}
    iput hw i
    return r.denied

end

section
variable [NeZero n] (cfg : Config) (hw : Nat → Response n)

/-- System calls, and what else goes on: references and locks of inodes, and buffers, that
come and go with other calls. -/
inductive Op (n : Nat) where
  | copen (fwrite : Bool)
  | dup (fp : Fin nfile)
  | close (fp : Fin nfile)
  | unlink
  | smount (suser : Bool) (flags : Flags)
  | umount (suser : Bool)
  | hold
  | drop (i : Fin ninode)
  | lock (i : Fin ninode) (locked : Bool)
  | take
  | give (b : Fin n)
  | modified (mp : Fin nmount)
  | secure (level : Int)

def setOthers (i : Fin ninode) (f : Nat → Nat) : Call n Unit :=
    modify fun k => {k with others := update k.others i (f (k.others i))}

def hold : Call n Unit := do
  match ← namei hw with
  | .error _ => return ()
  | .ok i =>
    setInode i fun ip => {ip with iLocked := false}
    setOthers i (· + 1)

def drop (i : Fin ninode) : Call n Unit := do
  let k ← get
  if k.others i = 0 ∨ (k.inode i).iLocked then throw .disabled
  setOthers i (· - 1)
  irele hw i

def lock (i : Fin ninode) (locked : Bool) : Call n Unit := do
  if (← get).others i = 0 then throw .disabled
  setInode i fun ip => {ip with iLocked := locked}

def perform : Op n → Call n Nat
  | .copen fwrite => copen cfg hw fwrite
  | .dup fp => do
    if ((← get).file fp).fCount = 0 then throw .disabled
    dupit fp
    return 0
  | .close fp => do
    if ((← get).file fp).fCount = 0 then throw .disabled
    closef cfg hw fp
    return 0
  | .unlink => unlink hw
  | .smount suser flags => smount cfg hw suser flags
  | .umount suser => unmount1 cfg hw suser
  | .hold => do
    hold hw
    return 0
  | .drop i => do
    drop hw i
    return 0
  | .lock i locked => do
    lock i locked
    return 0
  | .take => do
    let _ ← getnewbuf hw
    return 0
  | .give b => do
    brelse b
    return 0
  | .modified mp => do
    setMount mp fun mp => {mp with mFilsys := {mp.mFilsys with fsFmod := true}}
    return 0
  | .secure level => do
    modify fun k => {k with securelevel := level}
    return 0

def step (k : Kernel n) (op : Op n) : Except Fault (Kernel n) := (perform cfg hw op k).map (·.2)

def someFs : Fs := ⟨true,false,false,false,false,0,1,⟨false,false,false,false,false,false,false,false⟩⟩

def freeInode : Inode := ⟨.none,0,0,0,0,0,0,false,false⟩

/-- The root filesystem is mounted, its root directory in use, and the disks of the root and
of the swap space are open. -/
def boot (rootdev swapdev : Dev) : Kernel n where
  inode i := if i = 0 then {freeInode with iFmt := .ifdir,iDev := rootdev,iNumber := 2,iNlink := 2,iCount := 2} else freeInode
  mount mp := if mp = 0 then ⟨rootdev,someFs,.boot⟩ else ⟨0,someFs,.none⟩
  file _ := ⟨0,none,(.none,0)⟩
  opens root := (if root = major rootdev then 1 else 0) + if root = major swapdev then 1 else 0
  busy := ∅
  unmatched _ := 0
  closes := []
  others i := if i = 0 then 2 else 0
  lastf := 0
  securelevel := 0
  tick := 0

end

end Retrobsd.Mounts

import Retrobsd.Directory
import Retrobsd.Lib.Hoare
import Retrobsd.Symlinks

/-! `namei` of `ufs_namei.c` with `iget`, `igrab`, `iput` and `irele` of `ufs_inode.c`, and what a
call has of the locks and references of inodes and of the buffers. The rest of the kernel, the
other processes included, is an environment: it is another one after every wait and after every
write of this call to a table that it shares with others. A label of the source is a step of a
walk, and a loop that has not ended after some number of turns is taken to hang. -/
namespace Retrobsd.Namei
open Directory (Name Search SlotStatus dirblksiz dirsiz noteSlot nextBlock advance)
open Symlinks (Memory maxpathlen maxsymlinks maxnamlen slash copyIn bcopy)

def rootino : Nat := 2
def inopb : Nat := 16
def nmount : Nat := 2
def nchnamlen : Nat := 15
def nogroup : Nat := 65535

def ifmt : Nat := 0o170000
def ifdir : Nat := 0o040000
def iflnk : Nat := 0o120000
def ifchr : Nat := 0o020000
def ifblk : Nat := 0o060000
def isvtx : Nat := 0o1000
def iwrite : Nat := 0o200
def iexec : Nat := 0o100
def immutable : Nat := 0x202

abbrev Errno := {e : Nat // e ≠ 0}

def eperm : Errno := ⟨1,by decide⟩
def enoent : Errno := ⟨2,by decide⟩
def eacces : Errno := ⟨13,by decide⟩
def enotdir : Errno := ⟨20,by decide⟩
def eisdir : Errno := ⟨21,by decide⟩
def einval : Errno := ⟨22,by decide⟩
def enfile : Errno := ⟨23,by decide⟩
def erofs : Errno := ⟨30,by decide⟩
def eloop : Errno := ⟨62,by decide⟩
def enametoolong : Errno := ⟨63,by decide⟩

def itod (x : Nat) : Nat := (x + inopb - 1) / inopb
def inohash (dev ino : Nat) : Nat := (dev + ino) % 16
def nhash (h i d : Nat) : Nat := (h + i + 13 * d) % 2^32 % 16
def roundup (x y : Int) : Int := (x + (y - 1)).tdiv y * y

def hashOf (name : Name) : Nat := name.zipIdx.foldl (fun h c => (h + c.1.toNat * (c.2 + 1)) % 2^32) 0

/-- `changed`: one of `IUPD`, `IACC`, `ICHG` and `IMOD` is on. -/
structure Inode where
  iNumber : Nat
  iDev : Nat
  iId : Nat
  iMode : Nat
  iNlink : Int
  iUid : Nat
  iGid : Nat
  iFlags : Nat
  iSize : Int
  fsRonly : Bool
  changed : Bool

structure Mount (ι : Type) where
  mInodp : Option ι
  mDev : Nat

structure Namecache (ι : Type) where
  ncIp : Option ι
  ncIno : Nat
  ncDev : Nat
  ncId : Nat
  ncName : Name

/-- The kernel as others leave it: `count` and `locked` are the references and locks of others, `itrunc` is the
error of `itrunc` and `ifree` for an inode without links, and `bmap` gives -1 for a hole. -/
structure View (ι : Type) where
  inode : ι → Inode
  locked : ι → Bool
  count : ι → Nat
  imount : ι → Bool
  ihead : Nat → List ι
  ifreeh : Option ι
  mount : Nat → Mount ι
  nchash : Nat → List Nat
  namecache : Nat → Namecache ι
  bmap : ι → Nat → Except Errno Int
  disk : Nat → Int → Except Errno Memory
  itrunc : ι → Option Errno
  dirchk : Bool

abbrev Held (ι : Type) := (ι → Int) × (ι → Int) × Int

section
variable {ι : Type} [DecidableEq ι]

def lockOf (ip : ι) : Held ι := (Pi.single ip 1,0,0)

def refOf (ip : ι) : Held ι := (0,Pi.single ip 1,0)

def bufOf : Held ι := (0,0,1)

end

structure Hint where
  prevoffset : Nat
  inumber : Nat
  dev : Nat

structure Nameidata (ι : Type) where
  niPdir : Option ι
  niIp : Option ι
  niOffset : Int
  niCount : Int
  niEndoff : Int
  dIno : Nat
  dReclen : Nat
  dName : Name

structure State (ι : Type) where
  clock : Nat
  held : Held ι
  uError : Nat
  ncache : Hint
  ni : Nameidata ι

inductive Stop where
  | hang
  | null
  | panic (message : String)
deriving DecidableEq

inductive Op where
  | lookup
  | create
  | delete
deriving DecidableEq

/-- What a call is asked for, and what belongs to its process. `copystr` is the name as it is
taken from the process, and `path` is where the buffer on the stack begins. -/
structure Request (ι : Type) where
  op : Op
  lockparent : Bool
  nocache : Bool
  follow : Bool
  copystr : Except Errno (List UInt8)
  stack : Memory
  path : Nat
  uCdir : ι
  uRdir : Option ι
  rootdir : ι
  uUid : Nat
  uGroups : List Nat

abbrev Call (ι : Type) := StateT (State ι) (Except Stop)

section
variable {ι : Type} [DecidableEq ι] (env : Nat → View ι)

def view : Call ι (View ι) := do return env (← get).clock

def pass : Call ι Unit := modify fun s => {s with clock := s.clock + 1}

def gain (h : Held ι) : Call ι Unit := modify fun s => {s with held := s.held + h}

def lose (h : Held ι) : Call ι Unit := modify fun s => {s with held := s.held - h}

def fail (e : Errno) : Call ι Unit := modify fun s => {s with uError := e.val}

def report (e : Errno) : Call ι Unit := modify fun s => {s with uError := if s.uError = 0 then e.val else s.uError}

def when (c : Prop) [Decidable c] (a : Call ι Unit) : Call ι Unit := if c then a else pure ()

def isLocked (ip : ι) : Call ι Bool := do return (env (← get).clock).locked ip || decide (0 < (← get).held.1 ip)

def ilock (ip : ι) : Nat → Call ι Unit
  | 0 => throw .hang
  | turns + 1 => do
    if ← isLocked env ip then
      pass
      ilock ip turns
    else gain (lockOf ip)

def iunlock (ip : ι) : Call ι Unit := lose (lockOf ip)

def igrab (turns : Nat) (ip : ι) : Call ι Unit := do
  ilock env ip turns
  gain (refOf ip)
  pass

def bread (dev : Nat) (blkno : Int) : Call ι (Option Memory) := do
  gain bufOf
  pass
  match (← view env).disk dev blkno with
  | .error e =>
    report e
    return none
  | .ok m => return some m

def brelse : Call ι Unit := lose bufOf

def iupdat (ip : ι) : Call ι Unit := do
  let x := (← view env).inode ip
  if !x.changed || x.fsRonly then return ()
  else
    let _ ← bread env x.iDev (itod x.iNumber)
    brelse

def reclaim (ip : ι) : Call ι Unit := do
  pass
  match (← view env).itrunc ip with
  | some e => report e
  | none => pure ()

def irele (ip : ι) : Call ι Unit := do
  let v ← view env
  when ((v.count ip : Int) + (← get).held.2.1 ip = 1) do
    when ((v.inode ip).iNlink ≤ 0 ∧ (v.inode ip).fsRonly = false) (reclaim env ip)
    iupdat env ip
    modify fun s => {s with held := (Function.update s.held.1 ip 0,s.held.2)}
    pass
  lose (refOf ip)

def iput (ip : ι) : Call ι Unit := do
  iunlock ip
  irele env ip

def readInode (dev ino : Nat) : Call ι (Option ι) := do
  let v ← view env
  match v.ifreeh with
  | none =>
    fail enfile
    return none
  | some ip =>
    if (v.count ip : Int) + (← get).held.2.1 ip ≠ 0 then throw (.panic "free inode isn't")
    else
      gain (lockOf ip + refOf ip)
      let m ← bread env dev (itod ino)
      brelse
      match m with
      | none =>
        iput env ip
        return none
      | some _ => return some ip

def iget : Nat → Nat → Nat → Call ι (Option ι)
  | 0,_,_ => throw .hang
  | turns + 1,dev,ino => do
    let v ← view env
    match (v.ihead (inohash dev ino)).find? fun ip => ino = (v.inode ip).iNumber ∧ dev = (v.inode ip).iDev with
    | some ip =>
      if ← isLocked env ip then
        pass
        iget turns dev ino
      else if v.imount ip then
        match (List.range nmount).find? fun k => (v.mount k).mInodp = some ip with
        | some k => iget turns (v.mount k).mDev rootino
        | none => throw (.panic "no imt")
      else
        gain (lockOf ip + refOf ip)
        pass
        return some ip
    | none => readInode env dev ino

end

structure Vars (ι : Type) where
  memory : Memory
  cp : Nat
  dp : ι
  nlink : Nat

structure Component where
  name : Name
  isdotdot : Bool
  makeentry : Bool

structure Scan where
  s : Search
  bp : Option Memory
  numdirpasses : Nat
  endsearch : Int

inductive Label (ι : Type) where
  | dirloop
  | dirloop2
  | search (c : Component)
  | searchloop (c : Component) (d : Scan)
  | notfound (c : Component) (d : Scan)
  | found (c : Component) (d : Scan) (m : Memory)
  | haveino (pdp : ι)

inductive Next (ι : Type) where
  | goto (label : Label ι) (x : Vars ι)
  | retNULL
  | retDP (dp : ι)

/-- The memory `m` begins with the buffer, and does not end with it. -/
def half (m : Memory) (o : Nat) : Nat := (m o).toNat + 2^8 * (m (o + 1)).toNat

def quad (m : Memory) (o : Nat) : Nat := half m o + 2^16 * half m (o + 2)

def dIno (m : Memory) (ep : Nat) : Nat := quad m ep
def dReclen (m : Memory) (ep : Nat) : Nat := half m (ep + 4)
def dNamlen (m : Memory) (ep : Nat) : Nat := half m (ep + 6)
def dName (m : Memory) (ep : Nat) : Name := (List.range (dNamlen m ep)).map fun i => m (ep + 8 + i)

def dirbadentry (m : Memory) (ep : Nat) : Bool :=
  dReclen m ep % 4 ≠ 0 || dReclen m ep > dirblksiz - ep % dirblksiz || dReclen m ep < dirsiz (dNamlen m ep) ||
    dNamlen m ep > maxnamlen || (dName m ep).contains 0 || m (ep + 8 + dNamlen m ep) ≠ 0

def component (delete : Bool) (m : Memory) (cp : Nat) : Nat → Except Errno (Name × Nat)
  | 0 => if m cp = 0 ∨ m cp = slash then .ok ([],cp) else .error enametoolong
  | left + 1 =>
    if m cp = 0 ∨ m cp = slash then .ok ([],cp)
    else if m cp ≥ 128 ∧ (m cp = slash + 128 ∨ delete = false) then .error einval
    else match component delete m (cp + 1) left with
      | .error e => .error e
      | .ok (name,behind) => .ok (m cp :: name,behind)

def slashes (m : Memory) (cp : Nat) : Nat → Option Nat
  | 0 => none
  | turns + 1 => if m cp = slash then slashes m (cp + 1) turns else some cp

def strlen (m : Memory) (cp : Nat) : Nat → Option Nat
  | 0 => none
  | turns + 1 => if m cp = 0 then some 0 else (strlen m (cp + 1) turns).map (· + 1)

section
variable {ι : Type} [DecidableEq ι] (env : Nat → View ι) (nd : Request ι) (turns : Nat)

def Vars.last (x : Vars ι) : Prop := x.memory x.cp = 0

instance (x : Vars ι) : Decidable x.last := inferInstanceAs (Decidable (x.memory x.cp = 0))

def Request.docache (nd : Request ι) : Bool := !nd.nocache && nd.op ≠ .delete && !nd.lockparent

def access (ip : Inode) (mode : Nat) : Option Errno :=
  if mode = iwrite ∧ ip.iFlags &&& immutable ≠ 0 then some eperm
  else if mode = iwrite ∧ ip.fsRonly = true ∧ ip.iMode &&& ifmt ≠ ifchr ∧ ip.iMode &&& ifmt ≠ ifblk then some erofs
  else if nd.uUid = 0 then none
  else
    let m :=
      if nd.uUid ≠ ip.iUid then
        if (nd.uGroups.takeWhile (· ≠ nogroup)).contains ip.iGid then mode >>> 3 else mode >>> 6
      else mode
    if ip.iMode &&& m ≠ 0 then none else some eacces

def setNi (f : Nameidata ι → Nameidata ι) : Call ι Unit := modify fun s => {s with ni := f s.ni}

def bad (bp : Bool) (dp : Option ι) : Call ι (Next ι) := do
  when (bp = true) brelse
  match dp with
  | some dp =>
    iput env dp
    return .retNULL
  | none => return .retNULL

def bad2 (pdp : ι) (dp : Option ι) : Call ι (Next ι) := do
  irele env pdp
  bad env false dp

def bmap (ip : ι) (lbn : Nat) : Call ι Int := do
  pass
  match (← view env).bmap ip lbn with
  | .error e =>
    fail e
    return -1
  | .ok bn => return bn

def blkatoff (ip : ι) (offset : Nat) : Call ι (Option Memory) := do
  let bn ← bmap env ip (offset / 1024)
  if (← get).uError ≠ 0 then return none
  else if bn = -1 then return none
  else
    match ← bread env ((← view env).inode ip).iDev bn with
    | none =>
      brelse
      return none
    | some m => return some m

def dirloop (x : Vars ι) : Call ι (Next ι) := do
  let ip := (← view env).inode x.dp
  if ip.iMode &&& ifmt ≠ ifdir then
    fail enotdir
    bad env false (some x.dp)
  else
    match access nd ip iexec with
    | some e =>
      fail e
      bad env false (some x.dp)
    | none => return .goto .dirloop2 x

def verify (c : Component) (x : Vars ι) (ncp : Nat) (pdp dp : ι) : Call ι (Next ι) := do
  let v ← view env
  match (v.namecache ncp).ncIp with
  | none => throw .null
  | some ip =>
    if (v.namecache ncp).ncId ≠ (v.inode ip).iId then
      iput env dp
      ilock env pdp turns
      pass
      return .goto (.search c) {x with dp := pdp}
    else
      setNi fun ni => {ni with dIno := (v.inode dp).iNumber}
      return .goto (.haveino pdp) {x with dp}

def hit (c : Component) (x : Vars ι) (ncp : Nat) (ip : ι) : Call ι (Next ι) := do
  let dp := if !c.isdotdot || nd.uRdir ≠ some x.dp then ip else x.dp
  if x.dp = dp then
    gain (refOf dp)
    verify env turns c x ncp x.dp dp
  else if c.isdotdot then
    iunlock x.dp
    igrab env turns dp
    verify env turns c x ncp x.dp dp
  else
    igrab env turns dp
    iunlock x.dp
    verify env turns c x ncp x.dp dp

def lookCache (c : Component) (x : Vars ι) : Call ι (Next ι) := do
  let v ← view env
  let ip := v.inode x.dp
  match (v.nchash (nhash (hashOf c.name) ip.iNumber ip.iDev)).find? fun k =>
      (v.namecache k).ncIno = ip.iNumber ∧ (v.namecache k).ncDev = ip.iDev ∧ (v.namecache k).ncName = c.name with
  | none => return .goto (.search c) x
  | some ncp =>
    match (v.namecache ncp).ncIp with
    | none => throw .null
    | some ip =>
      if (v.namecache ncp).ncId ≠ (v.inode ip).iId ∨ c.makeentry = false then
        pass
        return .goto (.search c) x
      else hit env nd turns c x ncp ip

def dirloop2 (x : Vars ι) : Call ι (Next ι) := do
  match component (nd.op = .delete) x.memory x.cp maxnamlen with
  | .error e =>
    fail e
    bad env false (some x.dp)
  | .ok (name,cp) =>
    let x := {x with cp}
    setNi fun ni => {ni with dName := name}
    if name = [] then
      if nd.op ≠ .lookup ∨ nd.lockparent = true then
        fail eisdir
        bad env false (some x.dp)
      else return .retDP x.dp
    else if name.length > nchnamlen then return .goto (.search ⟨name,name = [46,46],false⟩) x
    else lookCache env nd turns ⟨name,name = [46,46],!(x.last ∧ nd.docache = false)⟩ x

/-- Where the search begins: where the last `LOOKUP` of the process ended, when that was in the
same directory. -/
def search (c : Component) (x : Vars ι) : Call ι (Next ι) := do
  let ip := (← view env).inode x.dp
  let u := (← get).ncache
  let slotstatus : SlotStatus := if nd.op = .create ∧ x.last then .none else .found
  if nd.op ≠ .lookup ∨ ip.iNumber ≠ u.inumber ∨ ip.iDev ≠ u.dev then
    return .goto (.searchloop c ⟨⟨0,0,0,slotstatus,-1,0,0,0,0⟩,none,1,roundup ip.iSize dirblksiz⟩) x
  else
    let offset := if (u.prevoffset : Int) > ip.iSize then 0 else u.prevoffset
    modify fun s => {s with ncache := {s.ncache with prevoffset := offset}}
    if offset % 1024 ≠ 0 then
      match ← blkatoff env x.dp offset with
      | none => bad env false (some x.dp)
      | some m =>
        return .goto (.searchloop c ⟨⟨offset,offset / 1024,offset % 1024,slotstatus,-1,0,0,0,0⟩,some m,2,
          roundup ((← view env).inode x.dp).iSize dirblksiz⟩) x
    else
      return .goto (.searchloop c ⟨⟨offset,offset / 1024,0,slotstatus,-1,0,0,0,0⟩,none,2,roundup ip.iSize dirblksiz⟩) x

def examine (dirchk : Bool) (c : Component) (d : Scan) (m : Memory) : Label ι :=
  let s := nextBlock d.s
  let ep := s.entryoffsetinblock
  if dReclen m ep = 0 ∨ dirchk = true ∧ dirbadentry m ep = true then
    let i := dirblksiz - ep % dirblksiz
    .searchloop c {d with s := {s with niOffset := s.niOffset + i,entryoffsetinblock := ep + i},bp := some m}
  else
    let s := noteSlot (dirsiz c.name.length) (dIno m ep) (dReclen m ep) (dNamlen m ep) s
    if dIno m ep ≠ 0 ∧ dName m ep = c.name then .found c {d with s,bp := some m} m
    else .searchloop c {d with s := advance (dIno m ep) (dReclen m ep) s,bp := some m}

def searchloop (c : Component) (d : Scan) (x : Vars ι) : Call ι (Next ι) := do
  if (d.s.niOffset : Int) < d.endsearch then
    if d.s.niOffset % 1024 = 0 then
      when (d.bp.isSome = true) brelse
      match ← blkatoff env x.dp d.s.niOffset with
      | none => bad env false (some x.dp)
      | some m => return .goto (examine (← view env).dirchk c d m) x
    else
      match d.bp with
      | none => throw .null
      | some m => return .goto (examine (← view env).dirchk c d m) x
  else return .goto (.notfound c d) x

def slotOf (size : Int) (s : Search) (ni : Nameidata ι) : Nameidata ι :=
  if s.slotstatus = .none then
    let offset := roundup size dirblksiz
    {ni with niOffset := offset,niCount := 0,niEndoff := roundup offset dirblksiz}
  else
    let enduseful := if (s.enduseful : Int) < s.slotoffset + s.slotsize then s.slotoffset + s.slotsize else s.enduseful
    {ni with niOffset := s.slotoffset,niCount := s.slotsize,niEndoff := roundup enduseful dirblksiz}

def notfound (c : Component) (d : Scan) (x : Vars ι) : Call ι (Next ι) := do
  if d.numdirpasses = 2 then
    let u := (← get).ncache
    return .goto (.searchloop c {d with s := {d.s with niOffset := 0},numdirpasses := 1,endsearch := u.prevoffset}) x
  else
    let ip := (← view env).inode x.dp
    if nd.op = .create ∧ x.last ∧ ip.iNlink ≠ 0 then
      match access nd ip iwrite with
      | some e =>
        fail e
        bad env d.bp.isSome (some x.dp)
      | none =>
        setNi (slotOf ip.iSize d.s)
        pass
        when (d.bp.isSome = true) brelse
        setNi fun ni => {ni with niPdir := some x.dp}
        return .retNULL
    else
      fail enoent
      bad env d.bp.isSome (some x.dp)

/-- The directory is left as it is for `dirremove`, with the inode of the entry when its parent is
to be locked as well. -/
def foundDelete (d : Scan) (ino : Nat) (x : Vars ι) : Call ι (Next ι) := do
  let ip := (← view env).inode x.dp
  match access nd ip iwrite with
  | some e =>
    fail e
    bad env false (some x.dp)
  | none =>
    setNi fun ni => {ni with
      niPdir := some x.dp
      niOffset := d.s.niOffset
      niCount := if d.s.niOffset % dirblksiz = 0 then 0 else d.s.niOffset - d.s.prevoff}
    if nd.lockparent then
      if ip.iNumber = ino then
        gain (refOf x.dp)
        return .retDP x.dp
      else
        match ← iget env turns ip.iDev ino with
        | none =>
          iput env x.dp
          bad env false none
        | some dp =>
          let v ← view env
          let pdir := v.inode x.dp
          if pdir.iMode &&& isvtx ≠ 0 ∧ nd.uUid ≠ 0 ∧ nd.uUid ≠ pdir.iUid ∧ (v.inode dp).iUid ≠ nd.uUid then
            iput env x.dp
            fail eperm
            bad env false (some dp)
          else return .retDP dp
    else return .retDP x.dp

def foundRewrite (ino : Nat) (x : Vars ι) : Call ι (Next ι) := do
  let ip := (← view env).inode x.dp
  match access nd ip iwrite with
  | some e =>
    fail e
    bad env false (some x.dp)
  | none =>
    setNi fun ni => {ni with niPdir := some x.dp}
    if ip.iNumber = ino then
      fail eisdir
      bad env false (some x.dp)
    else
      match ← iget env turns ip.iDev ino with
      | none =>
        iput env x.dp
        bad env false none
      | some dp => return .retDP dp

def enter (c : Component) (pdp : ι) (x : Vars ι) : Call ι (Next ι) := do
  when (c.makeentry = true) pass
  return .goto (.haveino pdp) x

def descend (c : Component) (ino : Nat) (x : Vars ι) : Call ι (Next ι) := do
  let ip := (← view env).inode x.dp
  if c.isdotdot then
    iunlock x.dp
    match ← iget env turns ip.iDev ino with
    | none => bad2 env x.dp none
    | some dp => enter c x.dp {x with dp}
  else if ip.iNumber = ino then
    gain (refOf x.dp)
    enter c x.dp x
  else
    let dp ← iget env turns ip.iDev ino
    iunlock x.dp
    match dp with
    | none => bad2 env x.dp none
    | some dp => enter c x.dp {x with dp}

/-- `..` in the root of a mounted file system is looked up where that is mounted. -/
def climb (k : Nat) (x : Vars ι) : Call ι (Next ι) := do
  iput env x.dp
  match ((← view env).mount k).mInodp with
  | none => throw .null
  | some dp =>
    ilock env dp turns
    gain (refOf dp)
    return .goto .dirloop2 {x with dp,cp := x.cp - 2}

def proceed (c : Component) (ino : Nat) (x : Vars ι) : Call ι (Next ι) :=
  if nd.op = .create ∧ nd.lockparent = true ∧ x.last then foundRewrite env nd turns ino x
  else descend env turns c ino x

def dotdot (c : Component) (ino : Nat) (x : Vars ι) : Call ι (Next ι) := do
  let v ← view env
  let ip := v.inode x.dp
  if nd.uRdir = some x.dp then
    setNi fun ni => {ni with dIno := ip.iNumber}
    proceed env nd turns {c with makeentry := false} ip.iNumber x
  else if ino = rootino ∧ ip.iNumber = rootino then
    match ((List.range nmount).drop 1).find? fun k => (v.mount k).mInodp.isSome ∧ (v.mount k).mDev = ip.iDev with
    | some k => climb env turns k x
    | none => proceed env nd turns c ino x
  else proceed env nd turns c ino x

def settle (c : Component) (d : Scan) (ino : Nat) (x : Vars ι) : Call ι (Next ι) :=
  if nd.op = .delete ∧ x.last then foundDelete env nd turns d ino x
  else if c.isdotdot then dotdot env nd turns c ino x
  else proceed env nd turns c ino x

def found (c : Component) (d : Scan) (m : Memory) (x : Vars ι) : Call ι (Next ι) := do
  let ip := (← view env).inode x.dp
  let ep := d.s.entryoffsetinblock
  when ((ep + dirsiz (dNamlen m ep) : Nat) > ip.iSize) pass
  when (x.last ∧ nd.op = .lookup) do
    modify fun s => {s with ncache := ⟨d.s.niOffset / dirblksiz * dirblksiz,ip.iNumber,ip.iDev⟩}
  setNi fun ni => {ni with dIno := dIno m ep,dReclen := dReclen m ep}
  brelse
  settle env nd turns c d (dIno m ep) x

def Request.top (nd : Request ι) : ι := nd.uRdir.getD nd.rootdir

def massage (m : Memory) (cp : Nat) (size : Int) (pathlen : Nat) (block : Memory) : Memory :=
  let size := (size % 2^32).toNat
  copyIn (bcopy m cp ((nd.path + size) % 2^32) pathlen) nd.path size block

def restart (pdp : ι) (x : Vars ι) : Call ι (Next ι) := do
  if x.memory x.cp = slash then
    irele env pdp
    match slashes x.memory x.cp turns with
    | none => throw .hang
    | some cp =>
      ilock env nd.top turns
      gain (refOf nd.top)
      return .goto .dirloop {x with cp,dp := nd.top}
  else
    ilock env pdp turns
    return .goto .dirloop {x with dp := pdp}

def expand (pdp : ι) (pathlen : Nat) (x : Vars ι) : Call ι (Next ι) := do
  let ip := (← view env).inode x.dp
  if (ip.iSize + pathlen) % 2^32 ≥ (maxpathlen : Int) - 1 then
    fail enametoolong
    bad2 env pdp (some x.dp)
  else if x.nlink + 1 > maxsymlinks then
    fail eloop
    bad2 env pdp (some x.dp)
  else
    let bn ← bmap env x.dp 0
    match ← bread env ip.iDev bn with
    | none =>
      brelse
      bad2 env pdp (some x.dp)
    | some block =>
      let size := ((← view env).inode x.dp).iSize
      brelse
      iput env x.dp
      restart env nd turns pdp {x with memory := massage nd x.memory x.cp size pathlen block,cp := nd.path,nlink := x.nlink + 1}

def answer (pdp : ι) (x : Vars ι) : Call ι (Next ι) := do
  if nd.lockparent then
    setNi fun ni => {ni with niPdir := some pdp}
    return .retDP x.dp
  else
    irele env pdp
    return .retDP x.dp

def haveino (pdp : ι) (x : Vars ι) : Call ι (Next ι) := do
  let ip := (← view env).inode x.dp
  if ip.iMode &&& ifmt = iflnk ∧ (nd.follow = true ∨ x.memory x.cp = slash) then
    match strlen x.memory x.cp turns with
    | none => throw .hang
    | some len => expand env nd turns pdp (len + 1) x
  else if x.memory x.cp = slash then
    match slashes x.memory x.cp turns with
    | none => throw .hang
    | some cp =>
      irele env pdp
      return .goto .dirloop {x with cp}
  else answer env nd pdp x

def step : Label ι → Vars ι → Call ι (Next ι)
  | .dirloop,x => dirloop env nd x
  | .dirloop2,x => dirloop2 env nd turns x
  | .search c,x => search env nd c x
  | .searchloop c d,x => searchloop env c d x
  | .notfound c d,x => notfound env nd c d x
  | .found c d m,x => found env nd turns c d m x
  | .haveino pdp,x => haveino env nd turns pdp x

def leave (ip : Option ι) : Call ι (Option ι) := do
  setNi fun ni => {ni with niIp := ip}
  return ip

def walk : Nat → Label ι → Vars ι → Call ι (Option ι)
  | 0,_,_ => throw .hang
  | n + 1,l,x => do
    match ← step env nd turns l x with
    | .goto l x => walk n l x
    | .retNULL => leave none
    | .retDP dp => leave (some dp)

def start : Call ι (Next ι) := do
  match nd.copystr with
  | .error e =>
    fail e
    return .retNULL
  | .ok text =>
    let memory := copyIn nd.stack nd.path text.length fun i => text.getD i 0
    match slashes memory nd.path turns with
    | none => throw .hang
    | some cp =>
      let dp := if memory nd.path = slash then nd.top else nd.uCdir
      ilock env dp turns
      gain (refOf dp)
      setNi fun ni => {ni with niEndoff := 0}
      return .goto .dirloop ⟨memory,cp,dp,0⟩

def namei : Call ι (Option ι) := do
  match ← start env nd turns with
  | .goto l x => walk env nd turns turns l x
  | .retNULL => leave none
  | .retDP dp => leave (some dp)

end

end Retrobsd.Namei

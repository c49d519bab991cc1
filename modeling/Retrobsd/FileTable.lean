import Retrobsd.Lib.Counting
import Retrobsd.Lib.Run

/-! The file table, the descriptors of the processes and the advisory locks:
`kern_descrip.c`, `copen` of `ufs_syscalls.c`, `ino_lock` and `ino_unlock` of
`sys_inode.c`, `pipe`, and what `fork`, `exec` and `exit` do to descriptors. A call runs
to its end, except that it may sleep for a lock; what the file system and the devices
answer is part of the operation. -/
namespace Retrobsd.FileTable
open Function

/-- The slots of `proc`; the descriptors and the slots of `file` follow. -/
abbrev Pid := Fin 10

abbrev Fd := Fin 30

abbrev Slot := Fin 24

/-- The bits of `f_flag`, and of the mode of `open` after `FFLAGS`. -/
structure Flags where
  fRead : Bool
  fWrite : Bool
  fNonblock : Bool
  fAppend : Bool
  fAsync : Bool
  fFsync : Bool
  fShlock : Bool
  fExlock : Bool
deriving DecidableEq

inductive Dtype where
  | inode
  | pipe
deriving DecidableEq

structure File where
  flag : Flags
  type : Dtype
  count : Nat
  data : Option Nat
deriving DecidableEq

/-- The locks of an inode. `sank` tells that a counter was decremented at zero. -/
structure Inode where
  ishlock : Bool
  iexlock : Bool
  ilwait : Bool
  shlockc : BitVec 16
  exlockc : BitVec 16
  sank : Bool
deriving DecidableEq

structure Cmd where
  sh : Bool
  ex : Bool
  nb : Bool
  un : Bool
deriving DecidableEq

/-- A call that sleeps in `ino_lock`; `opening` is the descriptor if it is an `open`. -/
structure Wait where
  fp : Slot
  ip : Nat
  cmd : Cmd
  opening : Option Fd
deriving DecidableEq

/-- How a call returns. The pseudo error `ERESTART` is negative. -/
inductive Reply where
  | opened (fd : Fd)
  | done
  | failed (error : Int)
deriving DecidableEq

/-- `ofile`, `pofile` and `lastfile` are those of the users' structures, and `reply` is how
the last call returned, if it did. -/
structure State where
  files : Slot → File
  lastf : Nat
  ofile : Pid × Fd → Option Slot
  pofile : Pid × Fd → Bool
  lastfile : Pid → Int
  alive : Pid → Bool
  wait : Pid → Option Wait
  inodes : Nat → Inode
  reply : Option (Pid × Reply)

inductive Fault where
  | null
  | endless
deriving DecidableEq

def State.setFile (s : State) (fp : Slot) (f : File) : State := {s with files := update s.files fp f}

def State.setInode (s : State) (ip : Nat) (n : Inode) : State := {s with inodes := update s.inodes ip n}

def State.setOfile (s : State) (p : Pid) (fd : Fd) (x : Option Slot) : State := {s with ofile := update s.ofile (p,fd) x}

def State.setPofile (s : State) (p : Pid) (fd : Fd) (x : Bool) : State := {s with pofile := update s.pofile (p,fd) x}

def State.setLastfile (s : State) (p : Pid) (last : Int) : State := {s with lastfile := update s.lastfile p last}

def State.setWait (s : State) (p : Pid) (w : Option Wait) : State := {s with wait := update s.wait p w}

def State.answer (s : State) (p : Pid) (r : Reply) : State := {s with reply := some (p,r)}

def State.setCount (s : State) (fp : Slot) (count : Nat) : State := s.setFile fp {s.files fp with count}

def File.setShlock (f : File) (b : Bool) : File := {f with flag := {f.flag with fShlock := b}}

def File.setExlock (f : File) (b : Bool) : File := {f with flag := {f.flag with fExlock := b}}

def unlockShared (s : State) (fp : Slot) (ip : Nat) : State :=
  let n := s.inodes ip
  (s.setInode ip {n with
    shlockc := n.shlockc - 1
    ishlock := if n.shlockc - 1 = 0 then false else n.ishlock
    sank := n.sank || decide (n.shlockc = 0)}).setFile fp ((s.files fp).setShlock false)

def unlockExclusive (s : State) (fp : Slot) (ip : Nat) : State :=
  let n := s.inodes ip
  (s.setInode ip {n with
    exlockc := n.exlockc - 1
    iexlock := if n.exlockc - 1 = 0 then false else n.iexlock
    ilwait := if n.exlockc - 1 = 0 then false else n.ilwait
    sank := n.sank || decide (n.exlockc = 0)}).setFile fp ((s.files fp).setExlock false)

/-- `ino_unlock` with the kinds `FSHLOCK` and `FEXLOCK`. Who is woken may go on at any time
anyway. -/
def inoUnlock (s : State) (fp : Slot) (sh ex : Bool) : State :=
  match (s.files fp).data with
  | none => s
  | some ip =>
    let kind := (s.files fp).flag
    let s := if sh && kind.fShlock then unlockShared s fp ip else s
    if ex && kind.fExlock then unlockExclusive s fp ip else s

def grantExclusive (s : State) (fp : Slot) (ip : Nat) : State :=
  let n := s.inodes ip
  (s.setInode ip {n with exlockc := n.exlockc + 1,iexlock := true}).setFile fp ((s.files fp).setExlock true)

def grantShared (s : State) (fp : Slot) (ip : Nat) : State :=
  let n := s.inodes ip
  (s.setInode ip {n with shlockc := n.shlockc + 1,ishlock := true}).setFile fp ((s.files fp).setShlock true)

inductive Verdict where
  | granted
  | refused (error : Int)
  | sleeps

def block (s : State) (ip : Nat) (cmd : Cmd) : State × Verdict :=
  if cmd.nb then (s,.refused 35) else (s.setInode ip {s.inodes ip with ilwait := true},.sleeps)

/-- `ino_lock` from `again` to its end or to the next sleep. Each turn drops a lock of the
file, of which there are two. -/
def lockLoop : Nat → State → Slot → Nat → Cmd → Except Fault (State × Verdict)
  | 0,_,_,_,_ => .error .endless
  | turns + 1,s,fp,ip,cmd =>
    if (s.inodes ip).iexlock then
      if (s.files fp).flag.fExlock then lockLoop turns (inoUnlock s fp false true) fp ip cmd
      else .ok (block s ip cmd)
    else if cmd.ex && (s.inodes ip).ishlock then
      if (s.files fp).flag.fShlock then lockLoop turns (inoUnlock s fp true false) fp ip cmd
      else .ok (block s ip cmd)
    else if cmd.ex then .ok (grantExclusive s fp ip,.granted)
    else if cmd.sh && !(s.files fp).flag.fShlock then .ok (grantShared s fp ip,.granted)
    else .ok (s,.granted)

def closef (s : State) (fp : Slot) : State :=
  if 1 < (s.files fp).count then s.setCount fp ((s.files fp).count - 1)
  else
    let f := s.files fp
    let s := if (f.flag.fShlock || f.flag.fExlock) && f.type = .inode then inoUnlock s fp true true else s
    s.setFile fp {s.files fp with count := 0,data := if f.type = .inode then none else f.data}

def closefAt (s : State) : Option Slot → State
  | none => s
  | some fp => closef s fp

/-- `ino_lock` has ended or sleeps, for `flock` or for the `open` of a descriptor. -/
def settle (s : State) (p : Pid) (w : Wait) : Verdict → State
  | .granted => s.answer p (match w.opening with | some fd => .opened fd | none => .done)
  | .refused error => match w.opening with
    | some fd => ((closef s w.fp).setOfile p fd none).answer p (.failed error)
    | none => s.answer p (.failed error)
  | .sleeps => {s.setWait p (some w) with reply := none}

def inoLock (s : State) (p : Pid) (fp : Slot) (cmd : Cmd) (opening : Option Fd) : Except Fault State :=
  match (s.files fp).data with
  | none => .error .null
  | some ip => (lockLoop 3 s fp ip cmd).map fun (s,verdict) => settle s p ⟨fp,ip,cmd,opening⟩ verdict

def raise (s : State) (p : Pid) (fd : Fd) : State := s.setLastfile p (max (s.lastfile p) fd.val)

def ufalloc (s : State) (p : Pid) (i : Int) : Option (State × Fd) :=
  match (List.finRange 30).find? (fun fd => decide (i ≤ fd.val) && (s.ofile (p,fd)).isNone) with
  | none => none
  | some fd => some (raise (s.setPofile p fd false) p fd,fd)

def freeFile (s : State) : Option Slot :=
  ((List.finRange 24).drop s.lastf ++ (List.finRange 24).take s.lastf).find? (fun fp => (s.files fp).count = 0)

def falloc (s : State) (p : Pid) : State × Except Int (Fd × Slot) :=
  match ufalloc s p 0 with
  | none => (s,.error 24)
  | some (s,fd) => match freeFile s with
    | none => (s,.error 23)
    | some fp =>
      ({(s.setOfile p fd (some fp)).setFile fp {s.files fp with count := 1,data := none} with lastf := fp.val + 1},.ok (fd,fp))

def getf (s : State) (p : Pid) (i : Int) : Option (Fd × Slot) :=
  if h : 0 ≤ i ∧ i < 30 then (s.ofile (p,⟨i.toNat,by omega⟩)).map fun fp => (⟨i.toNat,by omega⟩,fp) else none

def dupit (s : State) (p : Pid) (fd : Fd) (fp : Slot) : State :=
  raise (((s.setOfile p fd (some fp)).setPofile p fd false).setCount fp ((s.files fp).count + 1)) p fd

def dup2 (s : State) (p : Pid) (i j : Int) : State :=
  match getf s p i with
  | none => s.answer p (.failed 9)
  | some (_,fp) =>
    if h : 0 ≤ j ∧ j < 30 then
      if i = j then s.answer p .done
      else
        let fd : Fd := ⟨j.toNat,by omega⟩
        (dupit (closefAt s (s.ofile (p,fd))) p fd fp).answer p .done
    else s.answer p (.failed 9)

/-- An argument beyond six bits makes it `dup2`, which finds `j` in the next argument. -/
def dup (s : State) (p : Pid) (i j : Int) : State :=
  if i < 0 ∨ 64 ≤ i then dup2 s p (i % 64) j
  else match getf s p i with
    | none => s.answer p (.failed 9)
    | some (_,fp) => match ufalloc s p 0 with
      | none => s.answer p (.failed 24)
      | some (s,fd) => (dupit s p fd fp).answer p .done

inductive Fcntl where
  | dupfd (arg : Int)
  | setfd (exclose : Bool)
  | setfl (flags : Flags)
  | other

def fcntl (s : State) (p : Pid) (fdes : Int) (cmd : Fcntl) : State :=
  match getf s p fdes with
  | none => s.answer p (.failed 9)
  | some (fd,fp) => match cmd with
    | .dupfd arg =>
      if arg < 0 ∨ 30 ≤ arg then s.answer p (.failed 22)
      else match ufalloc s p arg with
        | none => s.answer p (.failed 24)
        | some (s,fd) => (dupit s p fd fp).answer p .done
    | .setfd exclose => (s.setPofile p fd exclose).answer p .done
    | .setfl flags =>
      let f := s.files fp
      (s.setFile fp {f with flag := {f.flag with
        fNonblock := flags.fNonblock,fAppend := flags.fAppend,fAsync := flags.fAsync,fFsync := flags.fFsync}}).answer p .done
    | .other => s.answer p .done

/-- `while (u.u_lastfile >= 0 && u.u_ofile[u.u_lastfile] == NULL) u.u_lastfile--;` with the
number of descriptors up to the last one. -/
def lastOpen (row : Fd → Option Slot) : Nat → Int
  | 0 => -1
  | n + 1 => if h : n < 30 then (if row ⟨n,h⟩ = none then lastOpen row n else n) else n

def lower (s : State) (p : Pid) : State := s.setLastfile p (lastOpen (fun fd => s.ofile (p,fd)) (s.lastfile p + 1).toNat)

def close (s : State) (p : Pid) (i error : Int) : State :=
  match getf s p i with
  | none => s.answer p (.failed 9)
  | some (fd,fp) => (closef (lower (s.setOfile p fd none) p) fp).answer p (if error = 0 then .done else .failed error)

/-- What `vn_open` returns: an inode, an error, or the error `ENODEV` of `fdopen`, which has
left the number of the minor device in `u_dupfd`. -/
inductive Opened where
  | opened (ip : Nat)
  | failed (error : Int) (bad : error ≠ 0)
  | fdopen (minor : Nat)

def exceeds (mode : Flags) (flag : Flags) : Bool := mode.fRead && !flag.fRead || mode.fWrite && !flag.fWrite

def dupfdopen (s : State) (p : Pid) (indx : Fd) (dfd : Nat) (mode : Flags) : State × Int :=
  if h : dfd < 30 then
    match s.ofile (p,⟨dfd,h⟩) with
    | none => (s,9)
    | some wfp =>
      if s.ofile (p,indx) = some wfp then (s,9)
      else if exceeds mode (s.files wfp).flag then (s,13)
      else
        (raise (((s.setOfile p indx (some wfp)).setPofile p indx (s.pofile (p,⟨dfd,h⟩))).setCount wfp
        ((s.files wfp).count + 1)) p indx,0)
  else (s,9)

def masked (flags : Flags) : Flags := {flags with fShlock := false,fExlock := false}

def openCmd (flags : Flags) : Cmd := ⟨!flags.fExlock,flags.fExlock,flags.fNonblock,false⟩

def copen (s : State) (p : Pid) (flags : Flags) (outcome : Opened) : Except Fault State :=
  match falloc s p with
  | (s,.error error) => .ok (s.answer p (.failed error))
  | (s,.ok (indx,fp)) =>
    let s := s.setFile fp {s.files fp with flag := masked flags,type := .inode}
    match outcome with
    | .failed error _ => .ok (((s.setCount fp 0).setOfile p indx none).answer p (.failed error))
    | .fdopen minor =>
      let (s,result) := dupfdopen (s.setCount fp 0) p indx minor flags
      -- `error = dupfdopen(..) == 0` assigns the comparison
      let error : Int := if result = 0 then 1 else 0
      if error ≠ 0 then .ok (s.answer p (.opened indx))
      else .ok ((s.setOfile p indx none).answer p (if error = 0 then .opened indx else .failed error))
    | .opened ip =>
      let s := s.setFile fp {s.files fp with data := some ip}
      if flags.fExlock || flags.fShlock then inoLock s p fp (openCmd flags) (some indx)
      else .ok (s.answer p (.opened indx))

def pipe (s : State) (p : Pid) (ialloc : Except Int Nat) : State :=
  match ialloc with
  | .error error => s.answer p (.failed error)
  | .ok ip => match falloc s p with
    | (s,.error error) => s.answer p (.failed error)
    | (s,.ok (r,rf)) => match falloc s p with
      | (s,.error error) => ((s.setCount rf 0).setOfile p r none).answer p (.failed error)
      | (s,.ok (_,wf)) =>
        let none : Flags := ⟨false,false,false,false,false,false,false,false⟩
        let s := s.setFile wf {s.files wf with flag := {none with fWrite := true}, type := .pipe,data := some ip}
        (s.setFile rf {s.files rf with flag := {none with fRead := true}, type := .pipe,data := some ip}).answer p .done

def fdsTo (last : Int) : List Fd := (List.finRange 30).filter fun fd => decide ((fd.val : Int) ≤ last)

def hold (s : State) : Option Slot → State
  | none => s
  | some fp => s.setCount fp ((s.files fp).count + 1)

def fork (s : State) (p child : Pid) : State :=
  if s.alive child then s.answer p (.failed 11)
  else
    let s := (fdsTo (s.lastfile p)).foldl (fun s fd => hold s (s.ofile (p,fd))) s
    {s with
      ofile := fun q => if q.1 = child then s.ofile (p,q.2) else s.ofile q
      pofile := fun q => if q.1 = child then s.pofile (p,q.2) else s.pofile q
      lastfile := update s.lastfile child (s.lastfile p)
      alive := update s.alive child true
      wait := update s.wait child none
      reply := some (p,.done)}

def execFd (p : Pid) (s : State) (fd : Fd) : State :=
  if s.pofile (p,fd) then ((closefAt s (s.ofile (p,fd))).setOfile p fd none).setPofile p fd false else s

def exec (s : State) (p : Pid) : State := (lower ((fdsTo (s.lastfile p)).foldl (execFd p) s) p).answer p .done

def exitFd (p : Pid) (s : State) (fd : Fd) : State := closefAt ((s.setOfile p fd none).setPofile p fd false) (s.ofile (p,fd))

def exit (s : State) (p : Pid) : State :=
  let s := (fdsTo (s.lastfile p)).foldl (exitFd p) s
  {s with alive := update s.alive p false,reply := none}

def flock (s : State) (p : Pid) (i : Int) (how : Cmd) : Except Fault State :=
  match getf s p i with
  | none => .ok (s.answer p (.failed 9))
  | some (_,fp) =>
    let flag := (s.files fp).flag
    if (s.files fp).type ≠ .inode then .ok (s.answer p (.failed 45))
    else if how.un then .ok ((inoUnlock s fp true true).answer p .done)
    else if !(how.sh || how.ex) then .ok (s.answer p .done)
    else
      let how := if how.ex then {how with sh := false} else how
      if flag.fExlock && how.ex || flag.fShlock && how.sh then .ok (s.answer p .done)
      else inoLock s p fp how none

/-- What a process does next. A sleeping one goes on when it is woken, or its wait is
interrupted and `tsleep` returns `ERESTART` or `EINTR`. -/
inductive Op where
  | opens (p : Pid) (flags : Flags) (outcome : Opened)
  | dup (p : Pid) (i j : Int)
  | dup2 (p : Pid) (i j : Int)
  | fcntl (p : Pid) (fdes : Int) (cmd : Fcntl)
  | pipe (p : Pid) (ialloc : Except Int Nat)
  | close (p : Pid) (i error : Int)
  | fork (p child : Pid)
  | exec (p : Pid)
  | exit (p : Pid)
  | flock (p : Pid) (i : Int) (how : Cmd)
  | wake (p : Pid)
  | interrupt (p : Pid) (restart : Bool)

def call (s : State) : Op → Except Fault State
  | .opens p flags outcome => copen s p flags outcome
  | .dup p i j => .ok (dup s p i j)
  | .dup2 p i j => .ok (dup2 s p i j)
  | .fcntl p fdes cmd => .ok (fcntl s p fdes cmd)
  | .pipe p ialloc => .ok (pipe s p ialloc)
  | .close p i error => .ok (close s p i error)
  | .fork p child => .ok (fork s p child)
  | .exec p => .ok (exec s p)
  | .exit p => .ok (exit s p)
  | .flock p i how => flock s p i how
  | .wake p => match s.wait p with
    | none => .ok {s with reply := none}
    | some w => (lockLoop 3 (s.setWait p none) w.fp w.ip w.cmd).map fun (s,verdict) => settle s p w verdict
  | .interrupt p restart => match s.wait p with
    | none => .ok {s with reply := none}
    | some w => .ok (settle (s.setWait p none) p w (.refused (if restart then -1 else 4)))

def Op.pid : Op → Pid
  | .opens p _ _ | .dup p _ _ | .dup2 p _ _ | .fcntl p _ _ | .pipe p _ | .close p _ _ | .fork p _ | .exec p | .exit p
  | .flock p _ _ | .wake p | .interrupt p _ => p

def Op.resumes : Op → Bool
  | .wake _ | .interrupt _ _ => true
  | _ => false

def step (s : State) (op : Op) : Except Fault State :=
  if s.alive op.pid && (op.resumes || (s.wait op.pid).isNone) then call s op else .ok {s with reply := none}

def noFile : File := ⟨⟨false,false,false,false,false,false,false,false⟩,.inode,0,none⟩

def start : State where
  files := fun _ => noFile
  lastf := 0
  ofile := fun _ => none
  pofile := fun _ => false
  lastfile := fun _ => -1
  alive := fun p => decide (p = 0)
  wait := fun _ => none
  inodes := fun _ => ⟨false,false,false,0,0,false⟩
  reply := none

end Retrobsd.FileTable

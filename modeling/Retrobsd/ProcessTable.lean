import Retrobsd.Lib.Run
import Retrobsd.Lib.Threads

/-! The process table: `newproc` and `fork1` of kern_fork.c, `exit` and `wait1` of
kern_exit.c and `pqinit` of kern_proc.c. The three lists share `p_nxt`, only allproc and
zombproc keep `p_prev`, and `p_hash` threads the chains of pidhash. NPROC is `n + 2`. -/
namespace Retrobsd.ProcessTable
open Function
open Lib.Threads

variable {n : Nat}

abbrev Slot (n : Nat) := Fin (n + 2)

inductive Head where
  | allproc | zombproc | freeproc
deriving DecidableEq

inductive Stat where
  | null | ssleep | swait | srun | sidl | szomb | sstop
deriving DecidableEq

structure Table (n : Nat) where
  /-- `allproc`, `zombproc`, `freeproc` with `p_nxt` and `p_prev`. -/
  links : Backed Head (Slot n)
  /-- `pidhash` with `p_hash`. -/
  hash : Store (Fin 16) (Slot n)
  pPptr : Slot n → Option (Slot n)
  pUid : Slot n → Int
  pPid : Slot n → Int
  pPpid : Slot n → Int
  pPgrp : Slot n → Int
  pStat : Slot n → Stat
  /-- `P_TRACED` -/
  traced : Slot n → Bool
  /-- `P_WAITED` -/
  waited : Slot n → Bool
  pXstat : Slot n → Int
  mpid : Int
  pidchecked : Int

inductive Fault where
  | panic (message : String)
  | endless
deriving DecidableEq

def pidhash (pid : Int) : Fin 16 := ⟨(pid % 16).toNat,by omega⟩

def Table.listed (s : Table n) (k : Head) : List (Slot n) := walk s.links.next (n + 2) (s.links.head k)

/-- The processes that `newproc` looks at: allproc, then zombproc. -/
def Table.known (s : Table n) : List (Slot n) := s.listed .allproc ++ s.listed .zombproc

def Table.ids (s : Table n) : List (Int × Int) := s.known.map fun p => (s.pPid p,s.pPgrp p)

/-- One pass over the processes: `mpid`, `pidchecked` and whether it goes back to `retry`. -/
def scan : List (Int × Int) → Int → Int → Int × Int × Bool
  | [],mpid,pidchecked => (mpid,pidchecked,false)
  | (pid,pgrp) :: rest,mpid,pidchecked =>
    let used := pid = mpid ∨ pgrp = mpid
    let mpid := if used then mpid + 1 else mpid
    if used ∧ mpid ≥ pidchecked then (mpid,pidchecked,true)
    else
      let pidchecked := if pid > mpid ∧ pidchecked > pid then pid else pidchecked
      let pidchecked := if pgrp > mpid ∧ pidchecked > pgrp then pgrp else pidchecked
      scan rest mpid pidchecked

def retry (ids : List (Int × Int)) : Nat → Int → Int → Option (Int × Int)
  | 0,_,_ => none
  | turns + 1,mpid,pidchecked =>
    let wraps := mpid ≥ 30000
    let mpid := if wraps then 100 else mpid
    let pidchecked := if wraps then 0 else pidchecked
    if mpid ≥ pidchecked then
      match scan ids mpid 30000 with
      | (mpid,pidchecked,true) => retry ids turns mpid pidchecked
      | (mpid,pidchecked,false) => some (mpid,pidchecked)
    else some (mpid,pidchecked)

def Table.enter (s : Table n) (parent child : Slot n) (mpid pidchecked : Int) : Table n :=
  let links : Backed Head (Slot n) := {s.links with head := update s.links.head .freeproc (s.links.next child)}
  let k := pidhash mpid
  {s with
    links := links.push .allproc child
    hash := ⟨update s.hash.head k (some child),update s.hash.next child (s.hash.head k)⟩
    pPptr := update s.pPptr child (some parent)
    pUid := update s.pUid child (s.pUid parent)
    pPid := update s.pPid child mpid
    pPpid := update s.pPpid child (s.pPid parent)
    pPgrp := update s.pPgrp child (s.pPgrp parent)
    pStat := update s.pStat child .srun
    traced := update s.traced child false
    waited := update s.waited child false
    mpid
    pidchecked}

def newproc (s : Table n) (parent : Slot n) : Except Fault (Table n) :=
  match retry s.ids (4 * s.ids.length + 4) (s.mpid + 1) s.pidchecked with
  | none => .error .endless
  | some (mpid,pidchecked) => match s.links.head .freeproc with
    | none => .error (.panic "no procs")
    | some child => .ok (s.enter parent child mpid pidchecked)

inductive Reply where
  | done
  | value (pid : Int)
  | reaped (pid status : Int)
  | error (errno : Nat)
  | sleeps
deriving DecidableEq

def eagain : Nat := 11
def echild : Nat := 10
def maxuprc : Nat := 20

def fork1 (s : Table n) (p : Slot n) (uid : Int) : Except Fault (Reply × Table n) :=
  let a := if uid ≠ 0 then s.known.countP (fun q => s.pUid q = uid) else 0
  match s.links.head .freeproc with
  | none => .ok (.error eagain,s)
  | some p2 =>
    if uid ≠ 0 ∧ (s.links.next p2 = none ∨ a > maxuprc) then .ok (.error eagain,s)
    else match newproc s p with
      | .error e => .error e
      | .ok t => .ok (.value (t.pPid p2),t)

/-- The fields of a zombie that the exit status and usage are written over. -/
structure Overlay (n : Nat) where
  pHash : Option (Slot n)
  pPgrp : Int

def Table.orphan (s : Table n) (p : Slot n) : Table n := {s with
    pPptr := fun q => if q ∈ s.known ∧ s.pPptr q = some p then some 1 else s.pPptr q
    pPpid := fun q => if q ∈ s.known ∧ s.pPptr q = some p then 1 else s.pPpid q
    traced := fun q => if q ∈ s.known ∧ s.pPptr q = some p then false else s.traced q}

def exit (s : Table n) (p : Slot n) (rv : Int) (dead : Overlay n) : Except Fault (Table n) :=
  if s.pPid p = 1 then .error (.panic "init died")
  else match s.hash.delete p (n + 2) (.head (pidhash (s.pPid p))) with
    | none => .error (.panic "exit")
    | some hash => .ok (Table.orphan {s with
        links := (s.links.unlink p).push .zombproc p
        hash := {hash with next := update hash.next p dead.pHash}
        pPgrp := update s.pPgrp p dead.pPgrp
        pStat := update s.pStat p .szomb
        traced := update s.traced p false
        pXstat := update s.pXstat p rv} p)

/-- The arguments of `wait4`; a copyout to `status` or `rusage` may fail. -/
structure Args where
  pid : Int
  statusError : Option Nat
  rusageError : Option Nat
  wnohang : Bool
  wuntraced : Bool

def Table.waitedFor (s : Table n) (q : Slot n) (pid : Int) (p : Slot n) : Bool :=
  s.pPptr p = some q ∧ (pid = -1 ∨ s.pPid p = pid ∨ s.pPgrp p = -pid)

def ontoFree (t : Backed Head (Slot n)) (p : Slot n) : Backed Head (Slot n) :=
  {t with next := update t.next p (t.head .freeproc),head := update t.head .freeproc (some p)}

def Table.release (s : Table n) (p : Slot n) : Table n := {s with
    links := ontoFree (s.links.unlink p) p
    pPptr := update s.pPptr p none
    pPid := update s.pPid p 0
    pPpid := update s.pPpid p 0
    pPgrp := update s.pPgrp p 0
    pStat := update s.pStat p .null
    traced := update s.traced p false
    waited := update s.waited p false
    pXstat := update s.pXstat p 0}

/-- `wait1` from its start or its `loop` up to the end or the next sleep. -/
def wait1 (s : Table n) (q : Slot n) (uap : Args) : Reply × Table n :=
  let pid := if uap.pid = 0 then -s.pPgrp q else uap.pid
  match (s.listed .zombproc).find? (s.waitedFor q pid) with
  | some p => match uap.statusError <|> uap.rusageError with
    | some error => (.error error,s)
    | none => (.reaped (s.pPid p) (s.pXstat p),s.release p)
  | none =>
    let found := (s.listed .allproc).filter (s.waitedFor q pid)
    match found.find? fun p => s.pStat p = .sstop ∧ ¬ s.waited p ∧ (s.traced p ∨ uap.wuntraced) with
    | some p => ((uap.statusError.map Reply.error).getD (.value (s.pPid p)),{s with waited := update s.waited p true})
    | none => (if found = [] then .error echild else if uap.wnohang then .value 0 else .sleeps,s)

inductive Op (n : Nat) where
  | fork (p : Slot n) (uid : Int)
  | exit (p : Slot n) (rv : Int) (dead : Overlay n)
  | wait4 (p : Slot n) (uap : Args)
  /-- `setpgrp` and the terminal driver give a process another group. -/
  | setpgrp (p : Slot n) (pgrp : Int)
  | setuid (p : Slot n) (uid : Int)
  /-- Signals, the scheduler and `ptrace` change the state of a process. -/
  | signalled (p : Slot n) (stat : Stat) (traced waited : Bool)

/-- Only processes on allproc make calls, the swapper does not exit, and a group is
the pid of a process. -/
def Op.able (s : Table n) : Op n → Bool
  | .fork p _ => p ∈ s.listed .allproc
  | .exit p _ _ => p ∈ s.listed .allproc ∧ p ≠ 0
  | .wait4 p _ => p ∈ s.listed .allproc
  | .setpgrp p pgrp => p ∈ s.listed .allproc ∧ ∃ q ∈ s.known, s.pPid q = pgrp
  | .setuid p _ => p ∈ s.listed .allproc
  | .signalled p _ _ _ => p ∈ s.listed .allproc

def call (s : Table n) : Op n → Except Fault (Table n)
  | .fork p uid => match fork1 s p uid with
    | .error e => .error e
    | .ok (_,t) => .ok t
  | .exit p rv dead => exit s p rv dead
  | .wait4 p uap => .ok (wait1 s p uap).2
  | .setpgrp p pgrp => .ok {s with pPgrp := update s.pPgrp p pgrp}
  | .setuid p uid => .ok {s with pUid := update s.pUid p uid}
  | .signalled p stat traced waited => .ok {s with
      pStat := update s.pStat p stat
      traced := update s.traced p traced
      waited := update s.waited p waited}

def step (s : Table n) (op : Op n) : Except Fault (Table n) := if op.able s then call s op else .ok s

/-- The table of zeros that the kernel starts with; no `p_prev` of it is ever read. -/
def zeroed (n : Nat) : Table n where
  links := ⟨⟨fun _ => none,fun _ => none⟩,fun _ => .head .freeproc⟩
  hash := ⟨fun _ => none,fun _ => none⟩
  pPptr _ := none
  pUid _ := 0
  pPid _ := 0
  pPpid _ := 0
  pPgrp _ := 0
  pStat _ := .null
  traced _ := false
  waited _ := false
  pXstat _ := 0
  mpid := 0
  pidchecked := 0

def free (n : Nat) : List (Slot n) := (List.finRange (n + 1)).reverse.map Fin.succ

def pqinit (s : Table n) : Table n :=
  let links := (free n).foldl ontoFree {s.links with head := update s.links.head .freeproc none}
  {s with links := {links with
    head := update (update links.head .allproc (some 0)) .zombproc none
    next := update links.next 0 none
    prev := update links.prev 0 (.head .allproc)}}

def start (n : Nat) : Table n := {pqinit (zeroed n) with pStat := update (zeroed n).pStat 0 .srun}

end Retrobsd.ProcessTable

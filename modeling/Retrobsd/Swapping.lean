import Retrobsd.ResourceMapRuns
import Retrobsd.SleepQueues

/-! Swapping: `swapin` and `swapout` of vm_swap.c, `sched` of vm_sched.c, what `newproc`
does to make the image of a child, the argument area of `execve`, and `longjmp`, which
exchanges the two user areas. A transfer to or from the disk is complete when the
strategy routine returns, so that `swap` does not sleep. -/
namespace Retrobsd.Swapping
open Function
open Lib.Extents Lib.Run ResourceMap
open SleepQueues (Slot Stat)

variable {n : Nat}

def userDataStart : Nat := 0x7f008000
def userDataEnd : Nat := 0x7f020000
def maxmem : Nat := 96 * 1024
def usize : Nat := 3072
def argSize : Nat := 5120 + 1024

def btod (size : Nat) : Nat := sizeT (size + 1023) / 1024

def minus (a b : Nat) : Nat := sizeT (a + 2^32 - b)

/-- What is in one place of the memory or of the disk: a byte, or in a user area the
pointer `u_procp` and the counter `u_ru.ru_nswap`. -/
inductive Cell (n : Nat) where
  | byte (b : UInt8)
  | procp (p : Slot n)
  | nswap (k : Nat)

structure User (n : Nat) where
  procp : Slot n
  nswap : Nat
  rest : Fin (usize - 2) → UInt8

def User.cell (u : User n) (i : Nat) : Cell n :=
  if i = 0 then .procp u.procp
  else if i = 1 then .nswap u.nswap
  else if h : i - 2 < usize - 2 then .byte (u.rest ⟨i - 2,h⟩) else .byte 0

def User.ofCells (cells : Nat → Cell n) : User n where
  procp := match cells 0 with
    | .procp p => p
    | _ => 0
  nswap := match cells 1 with
    | .nswap k => k
    | _ => 0
  rest i := match cells (i + 2) with
    | .byte b => b
    | _ => 0

inductive Place where
  | u | u0
  | block (b : Nat)
deriving DecidableEq

structure Proc where
  stat : Stat
  sload : Bool
  slock : Bool
  sswap : Bool
  /-- `P_SINTR` -/
  sintr : Bool
  time : Int
  nice : Int
  dsize : Nat
  ssize : Nat
  daddr : Nat
  saddr : Nat
  addr : Place

structure Image (n : Nat) where
  data : List (Cell n)
  stack : List (Cell n)
  u : User n

structure State (n : Nat) where
  procs : Slot n → Proc
  allproc : List (Slot n)
  /-- `swapmap` -/
  map : Map
  mem : Nat → Cell n
  u : User n
  u0 : User n
  disk : Nat → Cell n
  /-- The argument area of a process in `execve`, or 0. -/
  bno : Slot n → Nat
  /-- The variables of `sched`. -/
  inCore : Option (Slot n)
  swappedOut : Option (Slot n)
  /-- The image that a process had when it was last swapped out. -/
  went : Slot n → Image n
  /-- The images that were swapped in, as they had been swapped out and as they came. -/
  back : List (Image n × Image n)
  /-- The images of the parent, as the child's, and of the child on the disk after each fork. -/
  born : List (Image n × Image n)

inductive Fault where
  | panic (message : String)
  | map (e : ResourceMap.Fault)
deriving DecidableEq

def transfer {α : Type} (target : Nat → α) (dst count : Nat) (source : Nat → α) (src : Nat) : Nat → α :=
  fun a => if dst ≤ a ∧ a < dst + count then source (src + (a - dst)) else target a

def cells {α : Type} (source : Nat → α) (start count : Nat) : List α := (List.range count).map fun i => source (start + i)

def State.area (s : State n) : Place → User n
  | .u => s.u
  | _ => s.u0

def State.image (s : State n) (p : Slot n) : Image n where
  data := cells s.mem (s.procs p).daddr (s.procs p).dsize
  stack := cells s.mem (s.procs p).saddr (s.procs p).ssize
  u := s.area (s.procs p).addr

def Place.blkno : Place → Nat
  | .block b => b
  | _ => 0

def State.stored (s : State n) (p : Slot n) : Image n where
  data := cells s.disk ((s.procs p).daddr * 1024) (s.procs p).dsize
  stack := cells s.disk ((s.procs p).saddr * 1024) (s.procs p).ssize
  u := .ofCells fun i => s.disk ((s.procs p).addr.blkno * 1024 + i)

def State.withProc (s : State n) (p : Slot n) (proc : Proc) : State n := {s with procs := update s.procs p proc}

def swapout (s : State n) (q : Slot n) : Except Fault (State n) :=
  let p := s.procs q
  match malloc3 s.map (btod p.dsize) (btod p.ssize) (btod usize) with
  | .error e => .error (.map e)
  | .ok (_,none) => .error (.panic "out of swap space")
  | .ok (map,some a) =>
    let disk := transfer s.disk (a.getD 0 0 * 1024) p.dsize s.mem p.daddr
    let disk := transfer disk (a.getD 1 0 * 1024) p.ssize s.mem p.saddr
    let s := {s with u := {s.u with nswap := s.u.nswap + 1}}
    let disk := transfer disk (a.getD 2 0 * 1024) usize (s.area p.addr).cell 0
    .ok {s with
      map
      disk
      went := update s.went q (s.image q)
      procs := update s.procs q {p with
        daddr := a.getD 0 0,saddr := a.getD 1 0,addr := .block (a.getD 2 0)
        sload := false,slock := false,time := 0}}

def release (s : State n) (size addr : Nat) : Except Fault (State n) :=
  match mfree s.map size addr with
  | .error e => .error (.map e)
  | .ok (map,_) => .ok {s with map}

def fetch (s : State n) (core count blkno : Nat) : Except Fault (State n) :=
  if count = 0 then .ok s
  else release {s with mem := transfer s.mem core count s.disk (blkno * 1024)} (btod count) blkno

def swapin (s : State n) (q : Slot n) : Except Fault (State n) :=
  let p := s.procs q
  let saddr := minus userDataEnd p.ssize
  match fetch s userDataStart p.dsize p.daddr with
  | .error e => .error e
  | .ok s => match fetch s saddr p.ssize p.saddr with
    | .error e => .error e
    | .ok s => match release {s with u0 := .ofCells fun i => s.disk (p.addr.blkno * 1024 + i)} (btod usize) p.addr.blkno with
      | .error e => .error e
      | .ok s =>
        let s := s.withProc q {p with daddr := userDataStart,saddr,addr := .u0,sload := true,time := 0}
        .ok {s with back := (s.went q,s.image q) :: s.back}

def longestOut (s : State n) : List (Slot n) → Option (Slot n) → Int → Option (Slot n) × Int
  | [],found,outTime => (found,outTime)
  | q :: l,found,outTime =>
    let p := s.procs q
    let rptime := p.time - p.nice * 8
    if p.stat ≠ .srun ∨ p.sload then longestOut s l found outTime
    else if rptime > outTime then longestOut s l (some q) rptime
    else longestOut s l found outTime

def resident (s : State n) : Option (Slot n) := s.allproc.find? fun q => (s.procs q).stat ≠ .szomb ∧ q ≠ 0 ∧ (s.procs q).sload

def swappable (p : Proc) (outTime : Int) : Bool := ¬ p.slock ∧ (p.stat = .sstop ∨ p.stat = .ssleep ∧ p.sintr ∨
    (p.stat = .srun ∨ p.stat = .ssleep) ∧ outTime ≥ 2 ∧ p.time + p.nice ≥ 1)

def choose (s : State n) : State n :=
  let s := {s with inCore := none,swappedOut := none}
  match longestOut s s.allproc none (-20000) with
  | (none,_) => s
  | (some q,outTime) => match resident s with
    | none => {s with swappedOut := some q}
    | some p =>
      if swappable (s.procs p) outTime then
        {s.withProc p {s.procs p with sload := false} with inCore := some p,swappedOut := some q}
      else s

/-- `in_core` is not used again before it is cleared. -/
def swapoutChosen (s : State n) : Except Fault (State n) :=
  match s.inCore with
  | none => .ok s
  | some p => match swapout s p with
    | .error e => .error e
    | .ok s => .ok {s with inCore := none}

def swapinChosen (s : State n) : Except Fault (State n) :=
  match s.swappedOut with
  | none => .ok s
  | some q => match swapin s q with
    | .error e => .error e
    | .ok s => .ok {s with swappedOut := none}

def sched (s : State n) : Except Fault (State n) :=
  match swapoutChosen s with
  | .error e => .error e
  | .ok s => match swapinChosen s with
    | .error e => .error e
    | .ok s => .ok (choose s)

def longjmp (s : State n) : Place → State n
  | .u => s
  | _ =>
    let s := s.withProc s.u.procp {s.procs s.u.procp with addr := .u0}
    let s := {s with u := s.u0,u0 := s.u}
    s.withProc s.u.procp {s.procs s.u.procp with addr := .u}

def newproc (s : State n) (child : Slot n) : Except Fault (State n) :=
  let parent := s.u.procp
  let p := s.procs parent
  let s := {s.withProc child {p with stat := .srun,sload := true,slock := false,sswap := false,sintr := false,time := 0} with
    allproc := child :: s.allproc
    u := {s.u with procp := child}}
  match swapout s child with
  | .error e => .error e
  | .ok s =>
    let s := s.withProc child {s.procs child with sswap := true}
    let s := {s with u := {s.u with procp := parent}}
    let own := s.image parent
    .ok {s with born := ({own with u := {own.u with procp := child}},s.stored child) :: s.born}

inductive Op (n : Nat) where
  | sched
  | resumes (p : Slot n)
  | swtch
  | runs (mem : Nat → Cell n) (rest : Fin (usize - 2) → UInt8)
  | grows (sp : Nat)
  | execve
  | writes (p : Slot n) (args : Nat → Cell n)
  | getxfile (ts ds ss : Nat)
  | done
  | forks (child : Slot n)
  | exits
  | reaps (q : Slot n)
  | turns (p : Slot n) (stat : Stat) (slock sintr : Bool) (time nice : Int)

def act (s : State n) (p : Slot n) : Op n → Except Fault (State n)
  | .swtch => .ok (longjmp s (s.procs 0).addr)
  | .runs mem rest => .ok {s with mem,u := {s.u with rest}}
  | .grows sp =>
    if sp < (s.procs p).daddr + (s.procs p).dsize then .ok s
    else if (s.procs p).ssize < minus userDataEnd sp then
      .ok (s.withProc p {s.procs p with ssize := minus userDataEnd sp,saddr := sp})
    else .ok s
  | .execve =>
    if s.bno p ≠ 0 then .ok s
    else match malloc s.map (btod argSize) with
      | .error e => .error (.map e)
      | .ok (map,addr) => .ok {s with map,bno := update s.bno p addr}
  -- also what `main` does for init
  | .getxfile ts ds ss =>
    if sizeT (ts + ds + ss) > maxmem then .ok s
    else .ok (s.withProc p {s.procs p with
      dsize := ds, daddr := userDataStart, ssize := ss, saddr := minus userDataEnd ss})
  -- the delayed writes of the argument blocks are cancelled by now
  | .done =>
    if s.bno p = 0 then .ok s
    else release {s with bno := update s.bno p 0} (btod argSize) (s.bno p)
  | .forks child => if (s.procs child).stat ≠ .null ∨ s.bno p ≠ 0 then .ok s else newproc s child
  | .exits =>
    if p = 1 ∨ s.bno p ≠ 0 then .ok s
    else
      let s := {s.withProc p {s.procs p with stat := .szomb} with allproc := s.allproc.erase p}
      .ok (longjmp s (s.procs 0).addr)
  | .reaps q =>
    if (s.procs q).stat ≠ .szomb then .ok s
    else .ok (s.withProc q {s.procs q with stat := .null,sload := false,slock := false,sswap := false,sintr := false})
  | _ => .ok s

def Stat.alive (stat : Stat) : Bool := stat = .srun ∨ stat = .ssleep ∨ stat = .sstop

def step (s : State n) : Op n → Except Fault (State n)
  | .sched => if s.u.procp = 0 then sched s else .ok s
  | .resumes p =>
    if s.u.procp = 0 ∧ p ≠ 0 ∧ (s.procs p).stat = .srun ∧ (s.procs p).sload then
      .ok (longjmp (s.withProc p {s.procs p with sswap := false}) (s.procs p).addr)
    else .ok s
  | .writes p args =>
    if s.bno p = 0 then .ok s else .ok {s with disk := transfer s.disk (s.bno p * 1024) argSize args 0}
  | .turns p stat slock sintr time nice =>
    if p ≠ 0 ∧ Stat.alive (s.procs p).stat ∧ Stat.alive stat then
      .ok (s.withProc p {s.procs p with stat, slock, sintr, time, nice})
    else .ok s
  -- the first process that is made is init
  | .forks child =>
    if s.u.procp = 0 then (if (s.procs child).stat ≠ .null then .ok s else newproc s child) else act s s.u.procp (.forks child)
  | op => if s.u.procp = 0 then .ok s else act s s.u.procp op

def start (n : Nat) (map : Map) : State n where
  procs p := ⟨if p = 0 then .srun else .null,p = 0,false,false,false,0,0,0,0,0,0,.u⟩
  allproc := [0]
  map
  mem _ := .byte 0
  u := ⟨0,0,fun _ => 0⟩
  u0 := ⟨0,0,fun _ => 0⟩
  disk _ := .byte 0
  bno _ := 0
  inCore := none
  swappedOut := none
  went _ := ⟨[],[],⟨0,0,fun _ => 0⟩⟩
  back := []
  born := []

end Retrobsd.Swapping

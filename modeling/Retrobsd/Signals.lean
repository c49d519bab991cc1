import Retrobsd.Lib.Indices

/-! Signal state of processes: `kern_sig.c`, `kern_sig2.c`, `execsigs`, the parts of
`newproc`, `exit`, `wait1` and `pselect` that touch it, and `sigreturn`. A process
is its slot of the table together with its user area, and none is traced. -/
namespace Retrobsd.Signals
open Function

abbrev Mask := BitVec 32

def sigmask (sig : Nat) : Mask := 1#32 <<< (sig - 1)

def saKill : Nat := 0x01
def saCore : Nat := 0x02
def saStop : Nat := 0x04
def saTtystop : Nat := 0x08
def saIgnore : Nat := 0x10
def saCont : Nat := 0x20

def sigprop : List Nat := [0,saKill,saKill,saKill ||| saCore,saKill ||| saCore,saKill ||| saCore,
    saKill ||| saCore,saKill ||| saCore,
    saKill ||| saCore,saKill,saKill ||| saCore,saKill ||| saCore,saKill ||| saCore,saKill,saKill,saKill,saIgnore,saStop,
    saStop ||| saTtystop,saIgnore ||| saCont,saIgnore,saStop ||| saTtystop,saStop ||| saTtystop,saIgnore,saKill,saKill,
    saKill,saKill,saIgnore,saIgnore,saKill,saKill,0]

def prop (sig flag : Nat) : Bool := sigprop.getD sig 0 &&& flag != 0

def nsig : Nat := 32
def sighup : Nat := 1
def sigill : Nat := 4
def sigkill : Nat := 9
def sigstop : Nat := 17
def sigtstp : Nat := 18
def sigcont : Nat := 19
def sigchld : Nat := 20
def sigttin : Nat := 21
def sigttou : Nat := 22

def contsigmask : Mask := sigmask sigcont
def stopsigmask : Mask := sigmask sigstop ||| sigmask sigtstp ||| sigmask sigttin ||| sigmask sigttou
def sigcantmask : Mask := sigmask sigkill ||| sigmask sigstop

def sigDfl : Nat := 0
def sigIgn : Nat := 1

def nzero : Int := 0
def puser : Int := 50

inductive Stat where
  | free
  | sleep
  | run
  | idl
  | zomb
  | stop
deriving DecidableEq

/-- `stopping` is what `issignal` takes off when the process that it stopped goes
on, and `exiting` is set from the start of `exit`. -/
structure Proc (ι : Type) where
  pSig : Mask
  pSigmask : Mask
  pSigignore : Mask
  pSigcatch : Mask
  pStat : Stat
  pSintr : Bool
  pSvfork : Bool
  pNocldstop : Bool
  pWchan : Nat
  pNice : Int
  pPri : Int
  pPid : Nat
  pPptr : ι
  pPtracesig : Nat
  uSignal : Nat → Nat
  uSigmask : Nat → Mask
  uSigintr : Mask
  uSigonstack : Mask
  uOldmask : Mask
  uSasOldmask : Bool
  uSigtramp : Nat
  stopping : Option Mask
  exiting : Bool

inductive Message where
  | issig
deriving DecidableEq

structure Kernel (ι : Type) where
  procs : ι → Proc ι
  initproc : ι
  console : List Message

inductive Panic where
  | postsigAction
  | initDied
  | stuck
deriving DecidableEq

def ffs (m : Mask) : Nat := ((List.range 32).find? m.getLsbD).elim 0 (· + 1)

section
variable {ι : Type} [DecidableEq ι]

inductive Action where
  | hold
  | caught
  | dfl
deriving DecidableEq

def Proc.action (p : Proc ι) (mask : Mask) : Action :=
  if p.pSigmask &&& mask ≠ 0 then .hold else if p.pSigcatch &&& mask ≠ 0 then .caught else .dfl

def Proc.take (p : Proc ι) (mask : Mask) : Proc ι := {p with pSig := p.pSig &&& ~~~mask}

def setrun (p : Proc ι) : Proc ι := {p with pPri := if p.pPri > puser then puser else p.pPri,pStat := .run,pWchan := 0}

def dispatch (p : Proc ι) (sig : Nat) (action : Action) : Proc ι × Bool :=
  match p.pStat with
  | .sleep =>
    if !p.pSintr then (p,false)
    else if prop sig saCont ∧ action = .dfl then (p.take (sigmask sig),false)
    else if prop sig saStop then
      if action ≠ .dfl then (setrun p,false)
      else if p.pSvfork then (p,false)
      else ({p.take (sigmask sig) with pPtracesig := sig},true)
    else (setrun p,false)
  | .stop =>
    if sig = sigkill then (setrun p,false)
    else if prop sig saCont then
      let p := if action = .dfl then p.take (sigmask sig) else p
      if action = .caught ∨ p.pWchan = 0 then (setrun p,false) else ({p with pStat := .sleep},false)
    else if prop sig saStop then (p.take (sigmask sig),false)
    else if p.pWchan ≠ 0 ∧ p.pSintr then ({p with pWchan := 0},false)
    else (p,false)
  | _ => (p,false)

def Proc.renice (p : Proc ι) (sig : Nat) (action : Action) : Proc ι :=
  if p.pNice > nzero ∧ action = .dfl ∧ prop sig saKill then {p with pNice := nzero} else p

def Proc.dropStops (p : Proc ι) (sig : Nat) : Proc ι := if prop sig saCont then p.take stopsigmask else p

def Proc.raise (p : Proc ι) (sig : Nat) : Proc ι :=
  let p := if prop sig saStop then p.take contsigmask else p
  {p with pSig := p.pSig ||| sigmask sig}

/-- `psignal` on the process alone; the other result tells that it stops and its
parent is to be told. -/
def post (initproc : ι) (p : Proc ι) (sig : Nat) : Proc ι × Bool :=
  let mask := sigmask sig
  if p.pSigignore &&& mask ≠ 0 then (p,false)
  else
    let action := p.action mask
    let p := (p.renice sig action).dropStops sig
    if prop sig saStop ∧ prop sig saTtystop ∧ p.pPptr = initproc ∧ action = .dfl then (p,false)
    else
      let p := p.raise sig
      if action = .hold ∧ (¬ prop sig saCont ∨ p.pStat ≠ .stop) then (p,false) else dispatch p sig action

def Kernel.put (k : Kernel ι) (p : ι) (q : Proc ι) : Kernel ι := {k with procs := update k.procs p q}

/-- `psignal(parent, SIGCHLD)` unless the parent does not want it. -/
def notify (k : Kernel ι) (parent : ι) : Kernel ι :=
  if (k.procs parent).pNocldstop then k else k.put parent (post k.initproc (k.procs parent) sigchld).1

def stop (p : Proc ι) : Proc ι := {p with pStat := .stop}

def psignal (k : Kernel ι) (p : ι) (sig : Nat) : Kernel ι :=
  let (q,stops) := post k.initproc (k.procs p) sig
  let k := k.put p q
  if stops then
    let k := notify k q.pPptr
    k.put p (stop (k.procs p))
  else k

end

section
variable {ι : Type} [DecidableEq ι]

inductive Found where
  | nothing
  | again
  | stopped
  | signal (sig : Nat)
deriving DecidableEq

def Proc.deliverable (p : Proc ι) : Mask :=
  if p.pSvfork then p.pSig &&& ~~~p.pSigmask &&& ~~~stopsigmask else p.pSig &&& ~~~p.pSigmask

def issignalTurn (k : Kernel ι) (p : ι) : Kernel ι × Found :=
  let q := k.procs p
  if q.deliverable = 0 then (k,.nothing)
  else
    let sig := ffs q.deliverable
    let mask := sigmask sig
    let taken := k.put p (q.take mask)
    if mask &&& q.pSigignore ≠ 0 then (taken,.again)
    else if q.uSignal sig = sigDfl then
      if q.pPid ≤ 1 then (taken,.again)
      else if prop sig saStop then
        if q.pPptr = k.initproc ∧ prop sig saTtystop then (taken,.again)
        else
          let k := notify (k.put p {q with pPtracesig := sig}) q.pPptr
          (k.put p {stop (k.procs p) with stopping := some mask},.stopped)
      else if prop sig saIgnore then (taken,.again)
      else (k,.signal sig)
    else if q.uSignal sig = sigIgn then
      (if prop sig saCont then taken else {taken with console := taken.console ++ [.issig]},.again)
    else (k,.signal sig)

def resume (k : Kernel ι) (p : ι) : Kernel ι :=
  match (k.procs p).stopping with
  | none => k
  | some mask => k.put p {(k.procs p).take mask with stopping := none}

def fatalsig (k : Kernel ι) (p : ι) (sig : Nat) : Kernel ι :=
  let q := k.procs p
  psignal (k.put p {q with
    uSignal := update q.uSignal sig sigDfl
    pSigignore := q.pSigignore &&& ~~~sigmask sig
    pSigcatch := q.pSigcatch &&& ~~~sigmask sig
    pSigmask := q.pSigmask &&& ~~~sigmask sig}) p sig

def exit (k : Kernel ι) (p : ι) : Kernel ι := k.put p {k.procs p with pSigignore := BitVec.allOnes 32,pSig := 0,exiting := true}

/-- `trashed` tells that `sendsig` finds no place for its frame on the stack. -/
def postsig (k : Kernel ι) (p : ι) (sig : Nat) (trashed : Bool) : Except Panic (Kernel ι) :=
  let q := (k.procs p).take (sigmask sig)
  if q.uSignal sig ≠ sigDfl then
    if q.uSignal sig = sigIgn ∨ q.pSigmask &&& sigmask sig ≠ 0 then .error .postsigAction
    else
      let k := k.put p {q with uSasOldmask := false,pSigmask := q.pSigmask ||| (q.uSigmask sig ||| sigmask sig)}
      .ok (if trashed then fatalsig k p sigill else k)
  else .ok (exit (k.put p q) p)

/-- A turn of `issignal`, and `postsig` of what it finds when the caller is on its
way back to the user. -/
def cursig (k : Kernel ι) (p : ι) (returning trashed : Bool) : Except Panic (Kernel ι) :=
  match issignalTurn k p with
  | (k,.signal sig) => if returning then postsig k p sig trashed else .ok k
  | (k,_) => .ok k

end

section
variable {ι : Type} [DecidableEq ι]

structure Sigaction where
  saHandler : Nat
  saMask : Mask
  saRestart : Bool
  saOnstack : Bool
  saNocldstop : Bool

inductive Arg (α : Type) where
  | null
  | fault
  | value (a : α)

def setsigvec (p : Proc ι) (signum : Nat) (sa : Sigaction) : Proc ι :=
  let bit := sigmask signum
  let p := {p with
    uSignal := update p.uSignal signum sa.saHandler
    uSigmask := update p.uSigmask signum (sa.saMask &&& ~~~sigcantmask)
    uSigintr := if !sa.saRestart then p.uSigintr ||| bit else p.uSigintr &&& ~~~bit
    uSigonstack := if sa.saOnstack then p.uSigonstack ||| bit else p.uSigonstack &&& ~~~bit
    pNocldstop := if signum = sigchld then sa.saNocldstop else p.pNocldstop}
  if sa.saHandler = sigIgn ∨ prop signum saIgnore ∧ sa.saHandler = sigDfl then
    {p.take bit with
      pSigignore := if signum ≠ sigcont then p.pSigignore ||| bit else p.pSigignore
      pSigcatch := p.pSigcatch &&& ~~~bit}
  else
    {p with
      pSigignore := p.pSigignore &&& ~~~bit
      pSigcatch := if sa.saHandler = sigDfl then p.pSigcatch &&& ~~~bit else p.pSigcatch ||| bit}

/-- `osa` tells whether the old action is wanted and whether it could be copied out. -/
def sigaction (p : Proc ι) (signum : Int) (nsa : Arg Sigaction) (osa : Arg Unit) (sigtramp : Nat) : Proc ι :=
  let p := {p with uSigtramp := sigtramp}
  if signum ≤ 0 ∨ signum ≥ nsig then p
  else match nsa,osa with
    | .null,_ => p
    | _,.fault => p
    | .fault,_ => p
    | .value sa,_ => if signum.toNat = sigkill ∨ signum.toNat = sigstop then p else setsigvec p signum.toNat sa

def sigprocmask (p : Proc ι) (how : Int) (set : Arg Mask) : Proc ι :=
  match set with
  | .null => p
  | .fault => p
  | .value newmask =>
    if how = 1 then {p with pSigmask := p.pSigmask ||| (newmask &&& ~~~sigcantmask)}
    else if how = 2 then {p with pSigmask := p.pSigmask &&& ~~~newmask}
    else if how = 3 then {p with pSigmask := newmask &&& ~~~sigcantmask}
    else p

def sigsuspend (p : Proc ι) (set : Arg Mask) : Proc ι :=
  let nmask : Mask := match set with
    | .value m => m
    | _ => 0
  {p with uOldmask := p.pSigmask,uSasOldmask := true,pSigmask := nmask &&& ~~~sigcantmask}

/-- The mask that `pselect` sleeps with, if the user gave one that could be read. -/
def pselectSleeps (p : Proc ι) (maskp : Arg Mask) : Proc ι :=
  match maskp with
  | .value sigmsk => {p with uOldmask := p.pSigmask,uSasOldmask := true,pSigmask := sigmsk &&& ~~~sigcantmask}
  | _ => p

def pselectWakes (p : Proc ι) (maskp : Arg Mask) : Proc ι :=
  match maskp with
  | .value _ => {p with pSigmask := p.uOldmask}
  | _ => p

/-- `scp` is what the user's stack holds, if it is where a context may be. -/
def sigreturn (p : Proc ι) (scp : Arg Mask) : Proc ι :=
  match scp with
  | .value scMask => {p with pSigmask := scMask &&& ~~~sigcantmask}
  | _ => p

def Proc.reset (p : Proc ι) (nc : Nat) : Proc ι :=
  let mask := sigmask nc
  let p := {p with pSigcatch := p.pSigcatch &&& ~~~mask}
  let p := if prop nc saIgnore then
    {p.take mask with pSigignore := if nc ≠ sigcont then p.pSigignore ||| mask else p.pSigignore} else p
  {p with uSignal := update p.uSignal nc sigDfl}

def execsigsLoop : Nat → Proc ι → Except Panic (Proc ι)
  | 0,p => if p.pSigcatch = 0 then .ok p else .error .stuck
  | turns + 1,p => if p.pSigcatch = 0 then .ok p else execsigsLoop turns (p.reset (ffs p.pSigcatch))

def execsigs (p : Proc ι) : Except Panic (Proc ι) := (execsigsLoop 32 p).map fun p => {p with uSasOldmask := false}

/-- `newproc`: the child has the masks and the user area of its parent, and of its
slot the pending signals. -/
def newproc (k : Kernel ι) (p child : ι) (pid : Nat) : Kernel ι := k.put child {k.procs p with
    pStat := .run
    pSintr := false
    pSvfork := false
    pNocldstop := false
    pWchan := 0
    pPid := pid
    pPptr := p
    pSig := (k.procs child).pSig
    pPtracesig := (k.procs child).pPtracesig
    pPri := (k.procs child).pPri
    stopping := none}

/-- A child of a process that has gone gets `init` for a parent, and if stopped it
is hung up and continued. -/
def adopt (initproc : ι) (q : Proc ι) : Proc ι :=
  let q := {q with pPptr := initproc}
  if q.pStat = .stop then (post initproc (post initproc q sighup).1 sigcont).1 else q

/-- The rest of `exit`: what it leaves in the place of the masks is the status. -/
def zombie (k : Kernel ι) (p : ι) (left : Mask × Mask × Mask) : Except Panic (Kernel ι) :=
  if (k.procs p).pPid = 1 then .error .initDied
  else
    let gone := {k.procs p with
      pStat := .zomb,pSigmask := left.1,pSigignore := left.2.1,pSigcatch := left.2.2}
    let k := {k with procs := fun q =>
      if q = p then gone else if (k.procs q).pPptr = p then adopt k.initproc (k.procs q) else k.procs q}
    .ok (psignal k gone.pPptr sigchld)

def reap (k : Kernel ι) (p : ι) : Kernel ι := k.put p {k.procs p with
    pStat := .free,pPid := 0,pSig := 0,pSigcatch := 0,pSigignore := 0,pSigmask := 0,pWchan := 0
    pSintr := false,pSvfork := false,pNocldstop := false,exiting := false}

def siginit : Mask := (List.range nsig).foldl (fun m i => if prop i saIgnore ∧ i ≠ sigcont then m ||| sigmask i else m) 0

end

end Retrobsd.Signals

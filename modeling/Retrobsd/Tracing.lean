import Retrobsd.Signals

/-! `ptrace` and `procxmt` of `sys_process.c`, with what stops, wakes and ends the processes
that take part: `issignal`, `psignal`, `tsleep`, `wakeup`, `exit` and `wait1`. Between two
switches a process runs alone; signals and wakeups come in between. -/
namespace Retrobsd.Tracing
open Function
open Signals (Mask Stat Action sigmask ffs prop saStop saTtystop saIgnore saCont nsig sighup sigkill sigcont sigchld
  contsigmask stopsigmask sigDfl sigIgn)

abbrev Word := BitVec 32

def usize : Nat := 3072

def frameWords : Nat := 33

def frameStatus : Nat := 31

def framePc : Nat := 32

def stRp : Word := 0x08000000

/-- The memory of a process and its user area, with the place of the saved registers in it. -/
structure User where
  memory : Word → Word
  area : Nat → Word
  uFrame : Nat

def ptReadI : Int := 1
def ptReadD : Int := 2
def ptReadU : Int := 3
def ptWriteI : Int := 4
def ptWriteD : Int := 5
def ptWriteU : Int := 6
def ptContinue : Int := 7
def ptKill : Int := 8
def ptStep : Int := 9

structure Request where
  req : Int
  addr : Word
  data : Word
deriving DecidableEq

inductive Chan (n : Nat) where
  | ipc
  | proc (p : Fin n)
  | other (c : Nat)
deriving DecidableEq

/-- Where `issignal` was called: on the way out of the kernel, or in `tsleep` before or after
the sleep. -/
inductive Caller where
  | trap
  | before
  | after
deriving DecidableEq

/-- Where in the kernel a process is. A process in `exit` that sleeps is `leaving`. -/
inductive Place (n : Nat) where
  | gone
  | user
  | asleep (catches leaving : Bool)
  | issignal (caller : Caller)
  | stopped (caller : Caller) (mask : Mask)
  | traced (caller : Caller)
  | lockWait (p : Fin n) (request : Request)
  | answerWait (p : Fin n)
  | exiting
deriving DecidableEq

structure Proc (n : Nat) where
  pStat : Stat
  pTraced : Bool
  pWaited : Bool
  pSintr : Bool
  pSvfork : Bool
  pNocldstop : Bool
  pPid : Nat
  pPpid : Nat
  pPptr : Fin n
  pSig : Mask
  pSigmask : Mask
  pSigignore : Mask
  pSigcatch : Mask
  pWchan : Option (Chan n)
  pPtracesig : Int
  uSignal : Int → Nat
  user : User
  place : Place n

structure Ipc where
  ipLock : Nat
  ipReq : Int
  ipAddr : Word
  ipData : Word

/-- What `ptrace` returns for a request that was carried out. -/
def Ipc.answer (ipc : Ipc) : Option Word := if ipc.ipReq < 0 then none else some ipc.ipData

inductive Event (n : Nat) where
  | posted (tracer child : Fin n) (request : Request)
  | carried (child : Fin n) (user : User) (request : Request) (answer : Option Word)
  | returned (tracer : Fin n) (answer : Option Word)

structure Kernel (n : Nat) where
  procs : Fin n → Proc n
  ipc : Ipc
  initproc : Fin n
  events : List (Event n)

inductive Fault where
  | disabled
  | panic (message : String)
deriving DecidableEq

/-- The addresses of a user, and what stands before and behind `sigprop`. -/
structure Config where
  baduaddr : Word → Bool
  beyond : Int → Nat

variable {n : Nat}

def Proc.take (q : Proc n) (mask : Mask) : Proc n := {q with pSig := q.pSig &&& ~~~mask}

def unsleep (q : Proc n) : Proc n := {q with pWchan := none}

def setrun (q : Proc n) : Proc n := {unsleep q with pStat := .run}

def woken (chan : Chan n) (q : Proc n) : Proc n :=
  if q.pWchan = some chan then {q with pWchan := none,pStat := if q.pStat = .sleep then .run else q.pStat} else q

def Kernel.put (k : Kernel n) (p : Fin n) (q : Proc n) : Kernel n := {k with procs := update k.procs p q}

def wakeup (k : Kernel n) (chan : Chan n) : Kernel n := {k with procs := fun q => woken chan (k.procs q)}

def stop (k : Kernel n) (p : Fin n) : Kernel n :=
    wakeup (k.put p {k.procs p with pStat := .stop,pWaited := false}) (.proc (k.procs p).pPptr)

def Proc.action (q : Proc n) (mask : Mask) : Action :=
  if q.pTraced then .dfl else if q.pSigmask &&& mask ≠ 0 then .hold else if q.pSigcatch &&& mask ≠ 0 then .caught else .dfl

def dispatch (q : Proc n) (sig : Nat) (action : Action) : Proc n × Bool :=
  match q.pStat with
  | .sleep =>
    if !q.pSintr then (q,false)
    else if q.pTraced then (setrun q,false)
    else if prop sig saCont ∧ action = .dfl then (q.take (sigmask sig),false)
    else if prop sig saStop then
      if action ≠ .dfl then (setrun q,false)
      else if q.pSvfork then (q,false)
      else ({q.take (sigmask sig) with pPtracesig := sig},true)
    else (setrun q,false)
  | .stop =>
    if q.pTraced then (q,false)
    else if sig = sigkill then (setrun q,false)
    else if prop sig saCont then
      let q := if action = .dfl then q.take (sigmask sig) else q
      if action = .caught ∨ q.pWchan = none then (setrun q,false) else ({q with pStat := .sleep},false)
    else if prop sig saStop then (q.take (sigmask sig),false)
    else if q.pWchan ≠ none ∧ q.pSintr then (unsleep q,false)
    else (q,false)
  | _ => (q,false)

def Proc.dropStops (q : Proc n) (sig : Nat) : Proc n := if prop sig saCont then q.take stopsigmask else q

def Proc.raise (q : Proc n) (sig : Nat) : Proc n :=
  let q := if prop sig saStop then q.take contsigmask else q
  {q with pSig := q.pSig ||| sigmask sig}

/-- `psignal` on the process alone; the other result tells that it stops and its parent is to
be told. -/
def post (initproc : Fin n) (q : Proc n) (sig : Nat) : Proc n × Bool :=
  let mask := sigmask sig
  if q.pTraced = false ∧ q.pSigignore &&& mask ≠ 0 then (q,false)
  else
    let action := q.action mask
    let q := q.dropStops sig
    if prop sig saStop ∧ prop sig saTtystop ∧ q.pPptr = initproc ∧ action = .dfl then (q,false)
    else
      let q := q.raise sig
      if action = .hold ∧ (¬ prop sig saCont ∨ q.pStat ≠ .stop) then (q,false) else dispatch q sig action

def notify (k : Kernel n) (parent : Fin n) : Kernel n :=
  if (k.procs parent).pNocldstop then k else k.put parent (post k.initproc (k.procs parent) sigchld).1

def psignal (k : Kernel n) (p : Fin n) (sig : Nat) : Kernel n :=
  let (q,stops) := post k.initproc (k.procs p) sig
  let k := k.put p q
  if stops then stop (notify k q.pPptr) p else k

section
variable (cfg : Config)

def Proc.deliverable (q : Proc n) : Mask :=
  if q.pSvfork then q.pSig &&& ~~~q.pSigmask &&& ~~~stopsigmask else q.pSig &&& ~~~q.pSigmask

def Proc.signalled (q : Proc n) : Bool := decide (q.pSig ≠ 0 ∧ (q.pTraced = true ∨ q.pSig &&& ~~~q.pSigmask ≠ 0))

/-- `sigmask` of a number that a tracer chose: the shift takes five bits of it. -/
def maskOf (sig : Int) : Mask := sigmask (((sig - 1) % 32).toNat + 1)

def propOf (sig : Int) (flag : Nat) : Bool :=
  if 0 ≤ sig ∧ sig ≤ nsig then prop sig.toNat flag else cfg.beyond sig &&& flag != 0

def Kernel.goes (k : Kernel n) (p : Fin n) (place : Place n) : Kernel n := k.put p {k.procs p with place}

def finish (k : Kernel n) (p : Fin n) (caller : Caller) (signal : Bool) : Kernel n :=
  let q := k.procs p
  match caller with
  | .before =>
    if signal then k.put p {unsleep q with pStat := .run,pSintr := false,place := .user}
    else if q.pWchan = none then k.put p {q with pSintr := false,place := .user}
    else k.put p {q with pStat := .sleep,place := .asleep true false}
  | _ => k.goes p .user

def act (k : Kernel n) (p : Fin n) (caller : Caller) (sig : Int) : Kernel n :=
  let q := k.procs p
  let taken := k.put p {q.take (maskOf sig) with place := .issignal caller}
  if q.uSignal sig = sigDfl then
    if q.pPid ≤ 1 then taken
    else if propOf cfg sig saStop then
      if q.pTraced ∨ q.pPptr = k.initproc ∧ propOf cfg sig saTtystop then taken
      else stop (notify (k.put p {q with pPtracesig := sig,place := .stopped caller (maskOf sig)}) q.pPptr) p
    else if propOf cfg sig saIgnore then taken
    else finish k p caller true
  else if q.uSignal sig = sigIgn then taken
  else finish k p caller true

def issignalTurn (k : Kernel n) (p : Fin n) (caller : Caller) : Kernel n :=
  let q := k.procs p
  if q.deliverable = 0 then finish k p caller false
  else
    let sig := ffs q.deliverable
    let mask := sigmask sig
    if mask &&& q.pSigignore ≠ 0 ∧ q.pTraced = false then k.put p (q.take mask)
    else if q.pTraced = true ∧ q.pSvfork = false then
      stop (psignal (k.put p {q.take mask with pPtracesig := sig,place := .traced caller}) q.pPptr sigchld) p
    else act cfg k p caller sig

def released (k : Kernel n) (p : Fin n) (caller : Caller) : Kernel n :=
  let q := k.procs p
  let sig := q.pPtracesig
  if sig = 0 then k.goes p (.issignal caller)
  else
    let q := {q with pSig := q.pSig ||| maskOf sig}
    if q.pSigmask &&& maskOf sig ≠ 0 ∨ q.pTraced = false then k.put p {q with place := .issignal caller}
    else act cfg (k.put p q) p caller sig

end

section
variable (cfg : Config)

/-- What `procxmt` makes of a request: the child stops again, goes on or ends. -/
inductive Outcome where
  | stays (user : User) (answer : Option Word)
  | continues (user : User) (sig : Int) (answer : Word)
  | exits (answer : Word)

def User.setRegister (u : User) (register : Nat) (value : Word) : User :=
    {u with area := update u.area (u.uFrame + register) value}

def User.resume (u : User) (r : Request) : Outcome :=
  let u := if r.addr ≠ 1 then u.setRegister framePc r.addr else u
  if r.data.toInt > nsig then .stays u none else .continues u (r.data.setWidth 8).toInt r.data

/-- The switch of `procxmt`. An access at an odd address is an exception in the kernel. -/
def carry (u : User) (r : Request) : Except Fault Outcome :=
  if r.req = ptReadI ∨ r.req = ptReadD then
    if cfg.baduaddr r.addr then .ok (.stays u none)
    else if r.addr.toNat % 4 ≠ 0 then .error (.panic "exception")
    else .ok (.stays u (some (u.memory r.addr)))
  else if r.req = ptReadU then
    if r.addr.toInt < 0 ∨ r.addr.toInt ≥ usize then .ok (.stays u none) else .ok (.stays u (some (u.area (r.addr.toNat / 4))))
  else if r.req = ptWriteI ∨ r.req = ptWriteD then
    if cfg.baduaddr r.addr then .ok (.stays u none)
    else if r.addr.toNat % 4 ≠ 0 then .error (.panic "exception")
    else .ok (.stays {u with memory := update u.memory r.addr r.data} (some r.data))
  else if r.req = ptWriteU then
    let i := r.addr.toNat / 4
    if u.uFrame ≤ i ∧ i < u.uFrame + frameWords then .ok (.stays {u with area := update u.area i r.data} (some r.data))
    else .ok (.stays u none)
  else if r.req = ptStep then .ok ((u.setRegister frameStatus (u.area (u.uFrame + frameStatus) ||| stRp)).resume r)
  else if r.req = ptContinue then .ok (u.resume r)
  else if r.req = ptKill then .ok (.exits r.data)
  else .ok (.stays u none)

def Outcome.answer : Outcome → Option Word
  | .stays _ answer => answer
  | .continues _ _ answer => some answer
  | .exits answer => some answer

def exit (q : Proc n) : Proc n := {q with pTraced := false,pSigignore := BitVec.allOnes 32,pSig := 0,place := .exiting}

def answered (k : Kernel n) (p : Fin n) (r : Request) (outcome : Outcome) : Kernel n :=
  let user := (k.procs p).user
  let k := wakeup {k with ipc := {k.ipc with ipReq := 0}} .ipc
  let ipc := match outcome.answer with
    | some data => {k.ipc with ipData := data}
    | none => {k.ipc with ipReq := -1}
  {k with ipc,events := k.events ++ [Event.carried p user r outcome.answer]}

def proceeds (k : Kernel n) (p : Fin n) (caller : Caller) : Outcome → Kernel n
  | .stays user _ =>
    let k := k.put p {k.procs p with user}
    if (k.procs p).pTraced then stop k p else released cfg k p caller
  | .continues user sig _ => released cfg (k.put p {k.procs p with user,pPtracesig := sig}) p caller
  | .exits _ => k.put p (exit (k.procs p))

def answers (k : Kernel n) (p : Fin n) (caller : Caller) : Except Fault (Kernel n) :=
  let r : Request := ⟨k.ipc.ipReq,k.ipc.ipAddr,k.ipc.ipData⟩
  (carry cfg (k.procs p).user r).map fun outcome => proceeds cfg (answered k p r outcome) p caller outcome

def tracedResume (k : Kernel n) (p : Fin n) (caller : Caller) : Except Fault (Kernel n) :=
  if k.ipc.ipLock ≠ (k.procs p).pPid then
    .ok (if (k.procs p).pTraced then stop k p else released cfg k p caller)
  else answers cfg k p caller

def Proc.live (q : Proc n) : Bool := decide (q.pStat ≠ .free ∧ q.pStat ≠ .zomb)

def pfind (k : Kernel n) (pid : Int) : Option (Fin n) :=
  (List.finRange n).find? fun p => (k.procs p).live && decide (((k.procs p).pPid : Int) = pid)

def sleepIpc (k : Kernel n) (t : Fin n) (place : Place n) : Kernel n :=
  k.put t {k.procs t with pStat := .sleep,pWchan := some .ipc,place}

def ptraceReturns (k : Kernel n) (t : Fin n) : Kernel n :=
  let k := {k with ipc := {k.ipc with ipLock := 0},events := k.events ++ [Event.returned t k.ipc.answer]}
  wakeup (k.goes t .user) .ipc

def ptraceAnswer (k : Kernel n) (t p : Fin n) : Kernel n :=
  if k.ipc.ipReq > 0 then sleepIpc k t (.answerWait p) else ptraceReturns k t

def ptraceLock (k : Kernel n) (t p : Fin n) (r : Request) : Except Fault (Kernel n) :=
  if k.ipc.ipLock ≠ 0 then .ok (sleepIpc k t (.lockWait p r))
  else
    let q := k.procs p
    let k := {k with ipc := ⟨q.pPid,r.req,r.addr,r.data⟩,events := k.events ++ [Event.posted t p r]}
    if q.pStat = .stop ∨ q.pStat = .sleep ∨ q.pStat = .idl then
      .ok (ptraceAnswer (k.put p (setrun {q with pWaited := false})) t p)
    else .error (.panic "setrun")

def ptrace (k : Kernel n) (t : Fin n) (pid : Int) (r : Request) : Except Fault (Kernel n) :=
  if r.req ≤ 0 then .ok (k.put t {k.procs t with pTraced := true})
  else match pfind k pid with
    | none => .ok k
    | some p =>
      let q := k.procs p
      if q.pStat ≠ .stop ∨ q.pPpid ≠ (k.procs t).pPid ∨ q.pTraced = false then .ok k else ptraceLock k t p r

def resume (k : Kernel n) (p : Fin n) : Except Fault (Kernel n) :=
  let q := k.procs p
  match q.place with
  | .asleep catches leaving =>
    let place := if catches ∧ q.signalled then .issignal .after else if leaving then .exiting else .user
    .ok (k.put p {q with pSintr := false,place})
  | .issignal caller => .ok (issignalTurn cfg k p caller)
  | .stopped caller mask => .ok (k.put p {q.take mask with place := .issignal caller})
  | .traced caller => tracedResume cfg k p caller
  | .lockWait c r => ptraceLock k p c r
  | .answerWait c => .ok (ptraceAnswer k p c)
  | _ => .error .disabled

def tsleep (k : Kernel n) (p : Fin n) (chan : Chan n) (catches leaving : Bool) : Kernel n :=
  let q := {k.procs p with pWchan := some chan,pSintr := (k.procs p).pSintr || catches}
  if catches ∧ q.signalled then k.put p {q with place := .issignal .before}
  else k.put p {q with pStat := .sleep,place := .asleep catches leaving}

def endtsleep (q : Proc n) : Proc n :=
  if q.pWchan = none then q else if q.pStat = .sleep then setrun q else unsleep q

def newproc (k : Kernel n) (p child : Fin n) (pid : Nat) (isvfork : Bool) : Kernel n :=
  let q := k.procs p
  k.put child {k.procs child with
    pStat := .run,pTraced := false,pWaited := false,pSintr := false,pSvfork := isvfork,pNocldstop := false
    pPid := pid,pPpid := q.pPid,pPptr := p,pSigmask := q.pSigmask,pSigignore := q.pSigignore,pSigcatch := q.pSigcatch
    pWchan := none,uSignal := q.uSignal,user := q.user,place := .user}

def adopt (initproc : Fin n) (q : Proc n) : Proc n :=
  let q := {q with pPptr := initproc,pPpid := 1}
  if q.pTraced then (post initproc {q with pTraced := false} sigkill).1
  else if q.pStat = .stop then (post initproc (post initproc q sighup).1 sigcont).1
  else q

def survives (k : Kernel n) (p c : Fin n) : Proc n :=
  if c = p then {k.procs p with pStat := .zomb,place := .gone}
  else if (k.procs c).pPptr = p ∧ (k.procs c).pStat ≠ .free then adopt k.initproc (k.procs c)
  else k.procs c

def zombie (k : Kernel n) (p : Fin n) : Except Fault (Kernel n) :=
  let q := k.procs p
  if q.pPid = 1 then .error (.panic "init died")
  else
    let orphans := (List.finRange n).any fun c => decide (c ≠ p ∧ (k.procs c).pPptr = p ∧ (k.procs c).pStat ≠ .free)
    let k := {k with procs := survives k p}
    let k := if orphans then wakeup k (.proc k.initproc) else k
    .ok (wakeup (psignal k q.pPptr sigchld) (.proc q.pPptr))

/-- What `wait1` makes of a child: the slot is freed, or the stop noted. -/
def wait1 (q : Proc n) (untraced : Bool) : Except Fault (Proc n) :=
  if q.pStat = .zomb then
    .ok {q with
      pStat := .free,pPid := 0,pPpid := 0,pSig := 0,pSigcatch := 0,pSigignore := 0,pSigmask := 0,pWchan := none
      pTraced := false,pWaited := false,pSintr := false,pSvfork := false,pNocldstop := false}
  else if q.pStat = .stop ∧ q.pWaited = false ∧ (q.pTraced = true ∨ untraced = true) then .ok {q with pWaited := true}
  else .error .disabled

end

section
variable (cfg : Config)

structure Dispositions where
  mask : Mask
  ignore : Mask
  catches : Mask
  actions : Int → Nat
  nocldstop : Bool

inductive Op (n : Nat) where
  | ptrace (t : Fin n) (pid : Int) (r : Request)
  | resume (p : Fin n)
  | cursig (p : Fin n)
  | tsleep (p : Fin n) (chan : Chan n) (catches : Bool)
  | kill (p : Fin n) (sig : Nat)
  | wakeup (chan : Chan n)
  | endtsleep (p : Fin n)
  | fork (p child : Fin n) (pid : Nat) (isvfork : Bool)
  | endvfork (p : Fin n)
  | exit (p : Fin n)
  | zombie (p : Fin n)
  | wait (p child : Fin n) (untraced : Bool)
  | signals (p : Fin n) (d : Dispositions)
  | compute (p : Fin n) (user : User)

def Kernel.runs (k : Kernel n) (p : Fin n) (place : Place n) : Bool :=
  decide ((k.procs p).pStat = .run) && decide ((k.procs p).place = place)

def guard (allowed : Bool) (k : Kernel n) : Except Fault (Kernel n) := if allowed then .ok k else .error .disabled

def step (k : Kernel n) : Op n → Except Fault (Kernel n)
  | .ptrace t pid r => if k.runs t .user then ptrace k t pid r else .error .disabled
  | .resume p => if (k.procs p).pStat = .run then resume cfg k p else .error .disabled
  | .cursig p => guard (k.runs p .user) (if (k.procs p).signalled then k.goes p (.issignal .trap) else k)
  | .tsleep p chan catches =>
    if chan = .ipc then .error .disabled
    else if k.runs p .user then .ok (tsleep k p chan catches false)
    else guard (k.runs p .exiting) (tsleep k p chan catches true)
  | .kill p sig => guard ((k.procs p).live && decide (1 ≤ sig ∧ sig < nsig)) (psignal k p sig)
  | .wakeup chan => guard (decide (chan ≠ .ipc)) (wakeup k chan)
  | .endtsleep p => guard (decide ((k.procs p).pWchan ≠ some .ipc)) (k.put p (endtsleep (k.procs p)))
  | .fork p child pid isvfork =>
    guard (k.runs p .user && decide ((k.procs child).pStat = .free ∧ pid ≠ 0 ∧ ∀ q, (k.procs q).pStat ≠ .free →
    (k.procs q).pPid ≠ pid))
      (newproc k p child pid isvfork)
  | .endvfork p =>
    guard ((k.runs p .user || k.runs p .exiting) && (k.procs p).pSvfork)
    (wakeup (k.put p {k.procs p with pSvfork := false}) (.proc p))
  | .exit p => guard (k.runs p .user) (k.put p (exit (k.procs p)))
  | .zombie p => if k.runs p .exiting ∧ (k.procs p).pSvfork = false then zombie k p else .error .disabled
  | .wait p child untraced =>
    if k.runs p .user ∧ (k.procs child).pPptr = p ∧ child ≠ p then (wait1 (k.procs child) untraced).map (k.put child)
    else .error .disabled
  | .signals p d =>
    guard (k.runs p .user) (k.put p {k.procs p with
      pSigmask := d.mask,pSigignore := d.ignore,pSigcatch := d.catches,uSignal := d.actions,pNocldstop := d.nocldstop})
  | .compute p user => guard (k.runs p .user) (k.put p {k.procs p with user})

def someUser : User := ⟨fun _ => 0,fun _ => 0,700⟩

/-- Only `init` runs; it stands for the swapper as its own parent. -/
def boot (initproc : Fin n) : Kernel n where
  procs p := ⟨if p = initproc then .run else .free,false,false,false,false,false,if p = initproc then 1 else 0,0,
    initproc,0,0,0,0,
    none,0,fun _ => 0,someUser,if p = initproc then .user else .gone⟩
  ipc := ⟨0,0,0,0⟩
  initproc
  events := []

end

end Retrobsd.Tracing

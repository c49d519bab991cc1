import Retrobsd.Lib.Run
import Retrobsd.SignalKernel

/-! One process and its signal mask: `sigprocmask`, `sigsuspend`, `pselect`, the loop of
CURSIG and `postsig` on the way back to the user, the contexts that `sendsig` leaves on
the user's stack, and `sigreturn`. Signals may be posted at any moment, and `sendsig`
finds room for its frame. -/
namespace Retrobsd.SignalMasks
open Signals

variable {ι : Type}

/-- Where the process is. `select` is `select1` at its label `retry`, with whether it has
slept under the mask that it was given. -/
inductive Mode where
  | user
  | inside
  | suspend
  | select (maskp : Arg Mask) (slept : Bool)
  | selectSleep (maskp : Arg Mask)
  | out
  | dead

/-- The contexts on the stack hold `sc_mask`, the innermost first. `set` is the mask that `sigprocmask` left
outside of every handler, and `ended` the caught signal that ended the call and that the own mask blocks, until
its handler is started. -/
structure Thread (ι : Type) where
  proc : Proc ι
  initproc : ι
  mode : Mode
  frames : List Mask
  set : Mask
  ended : Option Nat

def look [DecidableEq ι] (initproc : ι) (q : Proc ι) : Proc ι × Found :=
  if q.deliverable = 0 then (q,.nothing)
  else
    let sig := ffs q.deliverable
    let mask := sigmask sig
    if mask &&& q.pSigignore ≠ 0 then (q.take mask,.again)
    else if q.uSignal sig = sigDfl then
      if q.pPid ≤ 1 then (q.take mask,.again)
      else if prop sig saStop then
        if q.pPptr = initproc ∧ prop sig saTtystop then (q.take mask,.again)
        else ({stop {q with pPtracesig := sig} with stopping := some mask},.stopped)
      else if prop sig saIgnore then (q.take mask,.again)
      else (q,.signal sig)
    else if q.uSignal sig = sigIgn then (q.take mask,.again)
    else (q,.signal sig)

def postsig (s : Thread ι) (sig : Nat) : Except Panic (Thread ι) :=
  let q := s.proc.take (sigmask sig)
  if q.uSignal sig ≠ sigDfl then
    if q.uSignal sig = sigIgn ∨ q.pSigmask &&& sigmask sig ≠ 0 then .error .postsigAction
    else
      let returnmask := if q.uSasOldmask then q.uOldmask else q.pSigmask
      .ok {s with
        proc := {q with uSasOldmask := false,pSigmask := q.pSigmask ||| (q.uSigmask sig ||| sigmask sig)}
        frames := returnmask :: s.frames
        ended := if s.ended = some sig then none else s.ended}
  else .ok {s with proc := {q with pSigignore := BitVec.allOnes 32,pSig := 0,exiting := true},mode := .dead}

def Thread.with (s : Thread ι) (q : Proc ι) : Thread ι := {s with proc := q}

def given : Arg Mask → Bool
  | .value _ => true
  | _ => false

def blocked (q : Proc ι) (sig : Nat) : Option Nat := if q.uSignal sig ≠ sigDfl ∧ has q.uOldmask sig then some sig else none

inductive Op where
  | sigaction (signum : Int) (nsa : Arg Sigaction) (osa : Arg Unit) (sigtramp : Nat)
  | sigprocmask (how : Int) (set : Arg Mask)
  | sigsuspend (set : Arg Mask)
  | pselect (maskp : Arg Mask)
  | sigreturn
  /-- Any other call, a trap or an interrupt, and its end. -/
  | enter
  | leave
  /-- `select1` goes to `done` because of what `selscan` says or of the time. -/
  | done
  | sleeps
  /-- Its sleep ends without a signal. -/
  | wakes (timeout : Bool)
  | look
  | resume
  | post (sig : Nat)
  | sched (stat : Stat) (sintr : Bool) (wchan : Nat) (pri nice : Int)

def call (s : Thread ι) : Op → Thread ι
  | .sigaction signum nsa osa sigtramp => {s with proc := sigaction s.proc signum nsa osa sigtramp,mode := .out}
  | .sigprocmask how set =>
    let q := sigprocmask s.proc how set
    {s with proc := q,mode := .out,set := if s.frames = [] then q.pSigmask else s.set}
  | .sigsuspend set => {s with proc := sigsuspend s.proc set,mode := .suspend}
  | .pselect .fault => {s with mode := .out}
  | .pselect maskp => {s with mode := .select maskp false}
  | .sigreturn => match s.frames with
    | [] => s
    | scMask :: frames => {s with proc := sigreturn s.proc (.value scMask),frames,mode := .out}
  | .enter => {s with mode := .inside}
  | _ => s

def cursig [DecidableEq ι] (s : Thread ι) : Except Panic (Thread ι) :=
  match look s.initproc s.proc, s.mode with
  | (q,.nothing),.out => .ok {s with proc := q,mode := .user}
  | (q,.signal sig),.out => postsig (s.with q) sig
  | (q,.signal sig),.suspend => .ok {s with proc := q,mode := .out,ended := blocked q sig}
  | (q,.signal sig),.selectSleep maskp => .ok {s with
      proc := pselectWakes q maskp,mode := .out,ended := if given maskp then blocked q sig else none}
  | (q,_),_ => .ok (s.with q)

def act [DecidableEq ι] (s : Thread ι) (op : Op) : Except Panic (Thread ι) :=
  match s.mode, op with
  | .user,op => .ok (call s op)
  | .inside,.leave => .ok {s with mode := .out}
  | .select _ _,.done => .ok {s with mode := .out}
  | .select maskp _,.sleeps => .ok {s with proc := pselectSleeps s.proc maskp,mode := .selectSleep maskp}
  | .selectSleep maskp,.wakes timeout => .ok {s with
      proc := pselectWakes s.proc maskp,mode := if timeout then .out else .select maskp (given maskp)}
  | .inside,.look | .suspend,.look | .selectSleep _,.look | .out,.look => cursig s
  | _,_ => .ok s

def step [DecidableEq ι] (s : Thread ι) : Op → Except Panic (Thread ι)
  | .post sig =>
    if 1 ≤ sig ∧ sig < nsig then
      let (q,stops) := post s.initproc s.proc sig
      .ok (s.with (if stops then stop q else q))
    else .ok s
  | .resume => match s.proc.stopping with
    | none => .ok s
    | some mask => .ok (s.with {s.proc.take mask with stopping := none})
  | .sched stat sintr wchan pri nice =>
    .ok (s.with {s.proc with pStat := stat,pSintr := sintr,pWchan := wchan,pPri := pri,pNice := nice})
  | op => if s.proc.stopping = none then act s op else .ok s

def start (initproc : ι) (p : Proc ι) : Thread ι where
  proc := {p with uSasOldmask := false,stopping := none}
  initproc
  mode := .user
  frames := []
  set := p.pSigmask
  ended := none

end Retrobsd.SignalMasks

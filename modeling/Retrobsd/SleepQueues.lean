import Retrobsd.Lib.Run
import Retrobsd.Lib.Threads

/-! The sleep queues and the run queue: `tsleep`, `endtsleep`, `unsleep`, `wakeup`,
`setrun`, `swtch`, `setrq` and `remrq` of kern_synch.c, what `psignal`, `stop` and
`issignal` of kern_sig.c do to them, and `sched` with `swapin` and `swapout`. A process
runs with interrupts disabled from where it queues itself in `tsleep` until another
process runs; what a signal is and how it is to be acted on is given from outside. -/
namespace Retrobsd.SleepQueues
open Function
open Lib.Run Lib.Threads

variable {n : Nat}

abbrev Slot (n : Nat) := Fin (n + 2)

/-- `&proc[i]`, `&runout` and `&runin`: the channels that these functions sleep on. -/
structure Layout (n : Nat) where
  proc : Slot n → Nat
  runout : Nat
  runin : Nat

inductive Queue where
  | slpque (k : Fin 16)
  | qs
deriving DecidableEq

inductive Stat where
  | null | ssleep | srun | sidl | szomb | sstop
deriving DecidableEq

/-- Where a process goes on: in its own code, in the signal check of `tsleep` that it
stopped in, in `tsleep` after the sleep, or in `swtch`, which it is about to enter. -/
inductive Point where
  | code | cursig | slept | yields
deriving DecidableEq

structure State (n : Nat) where
  queues : Store Queue (Slot n)
  stat : Slot n → Stat
  wchan : Slot n → Nat
  /-- `SLOAD` -/
  loaded : Slot n → Bool
  /-- `P_SINTR` -/
  sintr : Slot n → Bool
  /-- `P_TIMEOUT` -/
  timedOut : Slot n → Bool
  /-- There is a callout of `endtsleep` for the process. -/
  callout : Slot n → Bool
  pri : Slot n → Int
  pptr : Slot n → Slot n
  runout : Bool
  point : Slot n → Point
  /-- `none` while `swtch` looks for a process. -/
  running : Option (Slot n)

inductive Fault where
  | panic (message : String)
  /-- `unsleep` runs off the queue, or `wakeup` does not come to its end. -/
  | lost
deriving DecidableEq

def hash (chan : Nat) : Fin 16 := ⟨chan / 32 % 16,Nat.mod_lt _ (by decide)⟩

def State.listed (s : State n) (q : Queue) : List (Slot n) := walk s.queues.next (n + 2) (s.queues.head q)

def setrq (s : State n) (p : Slot n) : Except Fault (State n) :=
  if p ∈ s.listed .qs then .error (.panic "setrq") else .ok {s with queues := s.queues.push .qs p}

def remrq (s : State n) (p : Slot n) : Except Fault (State n) :=
  match s.queues.delete p (n + 2) (.head .qs) with
  | none => .error (.panic "remrq")
  | some queues => .ok {s with queues}

def unsleep (s : State n) (p : Slot n) : Except Fault (State n) :=
  if s.wchan p = 0 then .ok s
  else match s.queues.delete p (n + 2) (.head (.slpque (hash (s.wchan p)))) with
    | none => .error .lost
    | some queues => .ok {s with queues,wchan := update s.wchan p 0}

def runnable (s : State n) (p : Slot n) : Except Fault (State n) :=
  let s := {s with stat := update s.stat p .srun}
  if s.loaded p then setrq s p else .ok s

/-- The loop of `wakeup` from one cell of its queue on, for so many turns. -/
def wakeupFrom (L : Layout n) : Nat → Nat → Cell Queue (Slot n) → State n → Except Fault (State n)
  | 0,_,_,_ => .error .lost
  | turns + 1,chan,cell,s => match s.queues.get cell with
    | none => .ok s
    | some p =>
      if s.stat p ≠ .ssleep ∧ s.stat p ≠ .sstop then .error (.panic "wakeup")
      else if s.wchan p = chan then
        let s := {s with wchan := update s.wchan p 0,queues := s.queues.put cell (s.queues.next p)}
        if s.stat p = .ssleep then
          match runnable s p with
          | .error e => .error e
          | .ok s =>
            match if ¬ s.loaded p ∧ s.runout then
                wakeupFrom L turns L.runout (.head (.slpque (hash L.runout))) {s with runout := false} else .ok s with
            | .error e => .error e
            | .ok s => wakeupFrom L turns chan (.head (.slpque (hash chan))) s
        else wakeupFrom L turns chan cell s
      else wakeupFrom L turns chan (.link p) s

def wakeup (L : Layout n) (s : State n) (chan : Nat) : Except Fault (State n) :=
  wakeupFrom L ((n + 3) * (n + 3)) chan (.head (.slpque (hash chan))) s

def wakeRunout (L : Layout n) (s : State n) : Except Fault (State n) :=
  if s.runout then wakeup L {s with runout := false} L.runout else .ok s

def setrun (L : Layout n) (s : State n) (p : Slot n) : Except Fault (State n) :=
  let unslept := match s.stat p with
    | .sstop | .ssleep => unsleep s p
    | .sidl => .ok s
    | _ => .error (.panic "setrun")
  match unslept with
  | .error e => .error e
  | .ok s => match runnable s p with
    | .error e => .error e
    | .ok s => if s.loaded p then .ok s else wakeRunout L s

def stop (L : Layout n) (s : State n) (p : Slot n) : Except Fault (State n) :=
  wakeup L {s with stat := update s.stat p .sstop} (L.proc (s.pptr p))

inductive Action where
  | hold | caught | dfl
deriving DecidableEq

/-- A signal that is not ignored, as `psignal` knows it: is it `SIGKILL`, has it `SA_CONT` or `SA_STOP`, what is
to be done about it, and is the process traced or its parent waiting for it in `vfork`. -/
structure Signal where
  kill : Bool
  cont : Bool
  stops : Bool
  action : Action
  traced : Bool
  svfork : Bool

def sigchld (action : Action) (traced : Bool) : Signal := ⟨false,false,false,action,traced,false⟩

def Signal.runs (g : Signal) (s : State n) (p : Slot n) : Bool :=
  match s.stat p with
  | .ssleep => g.action ≠ .hold ∧ s.sintr p ∧ (g.traced ∨ ¬ (g.cont ∧ g.action = .dfl) ∧ (g.stops → g.action ≠ .dfl))
  | .sstop => ¬ g.traced ∧ (g.action ≠ .hold ∨ g.cont) ∧ (g.kill ∨ g.cont ∧ (g.action = .caught ∨ s.wchan p = 0))
  | _ => false

/-- `psignal` from where the signal is pending; `stopped` is done when it stops a
sleeping process at once. -/
def psignalWith (L : Layout n) (stopped : State n → Except Fault (State n)) (s : State n) (p : Slot n)
    (g : Signal) : Except Fault (State n) :=
  if g.action = .hold ∧ (¬ g.cont ∨ s.stat p ≠ .sstop) then .ok s
  else if g.runs s p then setrun L s p
  else match s.stat p with
    | .ssleep => if s.sintr p ∧ ¬ (g.cont ∧ g.action = .dfl) ∧ g.stops ∧ ¬ g.svfork then stopped s else .ok s
    | .sstop =>
      if g.traced then .ok s
      else if g.cont then .ok {s with stat := update s.stat p .ssleep}
      else if g.stops then .ok s
      else if s.wchan p ≠ 0 ∧ s.sintr p then unsleep s p
      else .ok s
    | _ => .ok s

/-- What becomes of the `SIGCHLD` for the parent of a process that stops, if it is sent
and not ignored. -/
structure Told where
  action : Action
  traced : Bool

/-- `psignal (p->p_pptr, SIGCHLD)`, which stops nobody. -/
def notify (L : Layout n) (s : State n) (p : Slot n) : Option Told → Except Fault (State n)
  | none => .ok s
  | some told => psignalWith L .ok s (s.pptr p) (sigchld told.action told.traced)

def notifyAndStop (L : Layout n) (s : State n) (p : Slot n) (told : Option Told) : Except Fault (State n) :=
  match notify L s p told with
  | .error e => .error e
  | .ok s => stop L s p

def psignal (L : Layout n) (s : State n) (p : Slot n) (g : Signal) (told : Option Told) : Except Fault (State n) :=
  psignalWith L (fun s => notifyAndStop L s p told) s p g

/-- What `CURSIG` finds: nothing, a signal to act on, or one to stop for. -/
inductive Look where
  | nothing
  | signal
  | stops (told : Option Told)

def resume (s : State n) (p : Slot n) : State n := {s with
    sintr := update s.sintr p false
    timedOut := update s.timedOut p false
    callout := update s.callout p false
    point := update s.point p .code}

def sleeps (L : Layout n) (s : State n) (p : Slot n) : Except Fault (State n) :=
  let s := {s with stat := update s.stat p .ssleep}
  match if p ≠ 0 then wakeup L s L.runin else .ok s with
  | .error e => .error e
  | .ok s => .ok {s with running := none,point := update s.point p .slept}

def cursig (L : Layout n) (s : State n) (p : Slot n) : Look → Except Fault (State n)
  | .signal => match if s.wchan p ≠ 0 then unsleep s p else .ok s with
    | .error e => .error e
    | .ok s => .ok (resume {s with stat := update s.stat p .srun} p)
  | .nothing => if s.wchan p = 0 then .ok (resume s p) else sleeps L s p
  | .stops told => match notifyAndStop L s p told with
    | .error e => .error e
    | .ok s => .ok {s with running := none,point := update s.point p .cursig}

def enqueue (s : State n) (p : Slot n) (chan : Nat) (timo : Bool) : State n := {s with
    wchan := update s.wchan p chan
    queues := s.queues.push (.slpque (hash chan)) p
    callout := update s.callout p timo}

def tsleep (L : Layout n) (s : State n) (p : Slot n) (chan : Nat) (timo : Bool) : Option Look → Except Fault (State n)
  | none => sleeps L (enqueue s p chan timo) p
  | some look => cursig L {enqueue s p chan timo with sintr := update s.sintr p true} p look

def endtsleep (L : Layout n) (s : State n) (p : Slot n) : Except Fault (State n) :=
  let s := {s with callout := update s.callout p false}
  if s.wchan p = 0 then .ok s
  else match if s.stat p = .ssleep then setrun L s p else unsleep s p with
    | .error e => .error e
    | .ok s => .ok {s with timedOut := update s.timedOut p true}

def best (s : State n) : List (Slot n) → Option (Slot n) → Int → Option (Slot n)
  | [],pp,_ => pp
  | p :: l,pp,pri => if s.loaded p ∧ s.pri p < pri then best s l (some p) (s.pri p) else best s l pp pri

/-- The loop of `swtch` once; without a process to run it idles. -/
def swtch (s : State n) : Except Fault (State n) :=
  match best s (s.listed .qs) none 128 with
  | none => .ok s
  | some p => match remrq s p with
    | .error e => .error e
    | .ok s => .ok {s with running := some p}

/-- What the process that runs does, and what may happen at any time: the interrupts
and the calls of `wakeup` and `psignal`. -/
inductive Op (n : Nat) where
  | tsleep (chan : Nat) (timo : Bool) (look : Option Look)
  | goesOn (look : Look)
  | yields
  | stops (told : Option Told)
  | forks (child : Slot n)
  | exits
  | reaps (p : Slot n)
  | sleepsOnRunout
  | swapsOut (p : Slot n)
  | swappedOut
  | swapsIn (p : Slot n)
  | swtch
  | wakeup (chan : Nat)
  | endtsleep (p : Slot n)
  | psignal (p : Slot n) (g : Signal) (told : Option Told)
  | setpri (p : Slot n) (pri : Int)

def code (L : Layout n) (s : State n) (p : Slot n) : Op n → Except Fault (State n)
  -- `runout` is the channel of process 0 alone, and no signal wakes that process
  | .tsleep chan timo look =>
    if chan = 0 ∨ chan = L.runout ∨ p = 0 ∧ look.isSome then .ok s else tsleep L s p chan timo look
  | .yields => if p = 0 then .ok s else match setrq s p with
    | .error e => .error e
    | .ok s => .ok {s with point := update s.point p .yields}
  | .stops told => if p = 0 then .ok s else match notifyAndStop L s p told with
    | .error e => .error e
    | .ok s => .ok {s with point := update s.point p .yields}
  -- the first process that is made is init, in slot 1
  | .forks child =>
    if s.stat child ≠ .null ∨ child = 1 ∧ p ≠ 0 then .ok s
    else wakeRunout L {s with
      stat := update s.stat child .srun
      wchan := update s.wchan child 0
      loaded := update s.loaded child false
      sintr := update s.sintr child false
      timedOut := update s.timedOut child false
      point := update s.point child .code
      pptr := update s.pptr child p}
  | .exits => if p = 0 ∨ p = 1 then .ok s else .ok {s with
      stat := update s.stat p .szomb
      pptr := fun q => if s.pptr q = p then 1 else s.pptr q
      running := none}
  | .reaps q => if s.stat q = .szomb then .ok {s with
      stat := update s.stat q .null
      wchan := update s.wchan q 0
      loaded := update s.loaded q false} else .ok s
  -- the rest is `sched`, with the process that it has chosen
  | .sleepsOnRunout => if p = 0 then tsleep L {s with runout := true} p L.runout false none else .ok s
  | .swapsOut q =>
    if p = 0 ∧ q ≠ 0 ∧ s.loaded q ∧ (s.stat q = .sstop ∨ s.stat q = .ssleep ∨ s.stat q = .srun) then
      let s := {s with loaded := update s.loaded q false}
      if s.stat q = .srun then remrq s q else .ok s
    else .ok s
  | .swappedOut => wakeRunout L s
  | .swapsIn q =>
    if p = 0 ∧ s.stat q = .srun ∧ ¬ s.loaded q then
      match setrq s q with
      | .error e => .error e
      | .ok s => .ok {s with loaded := update s.loaded q true}
    else .ok s
  | _ => .ok s

/-- The process that runs, wherever it is, or `swtch` when none does. -/
def acts (L : Layout n) (s : State n) (op : Op n) : Except Fault (State n) :=
  match s.running, op with
  | none,.swtch => swtch s
  | none,_ => .ok s
  | some p,op => match s.point p, op with
    | .code,op => code L s p op
    | .cursig,.goesOn look => cursig L s p look
    | .slept,.goesOn _ => .ok (resume s p)
    | .yields,.swtch => .ok {s with running := none,point := update s.point p .code}
    | _,_ => .ok s

def step (L : Layout n) (s : State n) : Op n → Except Fault (State n)
  | .wakeup chan => if chan = 0 then .ok s else wakeup L s chan
  | .endtsleep p => if s.callout p then endtsleep L s p else .ok s
  | .psignal p g told => psignal L s p g told
  | .setpri p pri => .ok {s with pri := update s.pri p pri}
  | op => acts L s op

def start (n : Nat) : State n where
  queues := ⟨fun _ => none,fun _ => none⟩
  stat p := if p = 0 then .srun else .null
  wchan _ := 0
  loaded p := p = 0
  sintr _ := false
  timedOut _ := false
  callout _ := false
  pri _ := 0
  pptr _ := 0
  runout := false
  point _ := .code
  running := some 0

end Retrobsd.SleepQueues

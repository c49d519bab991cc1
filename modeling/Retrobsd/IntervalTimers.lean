import Retrobsd.Lib.Indices

/-! The interval timers of a process. `hardclock` counts two of them down in ticks and `schedcpu` the third in seconds; `posted`
counts the signals, SIGALRM, SIGVTALRM and SIGPROF, that they have sent. -/
namespace Retrobsd.IntervalTimers
open Function

abbrev Long := BitVec 32

def hz : Long := 200

inductive Timer where | real | virtual | prof
deriving DecidableEq

structure Timeval where
  sec : Long
  usec : Long

structure Itimerval where
  interval : Timeval
  value : Timeval

structure KItimerval where
  interval : Long
  value : Long
  posted : Nat

abbrev Process := Timer → KItimerval

def count (t : KItimerval) : KItimerval :=
  if t.value = 0 then t
  else if t.value - 1 = 0 then {t with value := t.interval,posted := t.posted + 1}
  else {t with value := t.value - 1}

def hardclock (usermode noproc : Bool) (p : Process) : Process :=
  let p := if usermode then update p .virtual (count (p .virtual)) else p
  if noproc then p else update p .prof (count (p .prof))

def which : Nat → Option Timer
  | 0 => some .real
  | 1 => some .virtual
  | 2 => some .prof
  | _ => none

def unit (w : Timer) : Long := if w = .real then 1 else hz

def kernelValue (w : Timer) (t : Timeval) : Long := t.sec * unit w + if t.usec = 0 then 0 else unit w

def getitimer (p : Process) (w : Timer) : Itimerval := ⟨⟨(p w).interval.sdiv (unit w),0⟩,⟨(p w).value.sdiv (unit w),0⟩⟩

inductive Errno where | efault | einval

/-- `oitv` tells whether it can be written, `itv` is empty where it cannot be read, and both are absent where they are null. The error
of `getitimer` is lost where `itv` is copied. -/
def setitimer (p : Process) (number : Nat) (oitv : Option Bool) (itv : Option (Option Itimerval)) :
    Process × Option Itimerval × Option Errno :=
  match which number with
  | none => (p,none,some .einval)
  | some w =>
    let old := if oitv = some true then some (getitimer p w) else none
    match itv with
    | none => (p,old,if oitv = some false then some .efault else none)
    | some none => (p,old,some .efault)
    | some (some aitv) =>
      (update p w {p w with interval := kernelValue w aitv.interval,value := kernelValue w aitv.value},old,none)

inductive Event where
  | hardclock (usermode noproc : Bool)
  | schedcpu
  | setitimer (number : Nat) (oitv : Option Bool) (itv : Option (Option Itimerval))

def step (p : Process) : Event → Process
  | .hardclock usermode noproc => hardclock usermode noproc p
  | .schedcpu => update p .real (count (p .real))
  | .setitimer number oitv itv => (setitimer p number oitv itv).1

def ticks : Timer → Event → Bool
  | .real,.schedcpu => true
  | .virtual,.hardclock usermode _ => usermode
  | .prof,.hardclock _ noproc => !noproc
  | _,_ => false

def Sets (w : Timer) : Event → Prop
  | .setitimer number _ (some (some _)) => which number = some w
  | _ => False

/-- How often a timer goes off in `n` ticks: once where the interval is zero, as is what the division gives. -/
def fired (value interval n : Nat) : Nat := if value = 0 ∨ n < value then 0 else 1 + (n - value) / interval

variable {p : Process} {w : Timer}

theorem step_timer {e : Event} (kept : ¬ Sets w e) : step p e w = if ticks w e then count (p w) else p w := by
  cases e with
  | hardclock usermode noproc => cases usermode <;> cases noproc <;> cases w <;> simp [step,hardclock,ticks]
  | schedcpu => cases w <;> simp [step,ticks]
  | setitimer number oitv itv =>
    rw [step,setitimer]
    cases found : which number with
    | none => simp [ticks]
    | some v =>
      rcases itv with _ | _ | aitv
      · simp [ticks]
      · simp [ticks]
      · have other : w ≠ v := by
          rintro rfl
          exact kept found
        simp [ticks,other]

theorem count_fired (t : KItimerval) (n : Nat) : (count t).posted + fired (count t).value.toNat (count t).interval.toNat n =
    t.posted + fired t.value.toNat t.interval.toNat (n + 1) := by
  unfold count
  split_ifs with off done
  · simp [fired,off]
  · have one : t.value.toNat = 1 := by bv_omega
    have again : 1 + fired t.interval.toNat t.interval.toNat n = 1 + n / t.interval.toNat := by
      rw [fired]
      split_ifs with short
      · rw [Nat.div_eq_zero_iff.mpr short]
      · rw [@Nat.div_eq_sub_div t.interval.toNat n (by omega) (by omega),Nat.add_comm (_ / _)]
    simpa [fired,one,Nat.add_assoc] using again
  · have less : (t.value - 1).toNat + 1 = t.value.toNat := by bv_omega
    have some : (t.value - 1).toNat ≠ 0 := by bv_omega
    dsimp only
    generalize (t.value - 1).toNat = v at *
    simp [fired,← less,some]

/-- However the ticks of user and system mode, the seconds and the calls for other timers come in between, a timer that is not set
goes off after its value and then once in an interval. -/
theorem timers_exact (events : List Event) : ∀ p : Process, (∀ e ∈ events, ¬ Sets w e) → (events.foldl step p w).posted =
    (p w).posted + fired (p w).value.toNat (p w).interval.toNat (events.countP (ticks w)) := by
  induction events with
  | nil =>
    intro p _
    unfold fired
    rw [List.foldl_nil,List.countP_nil]
    split_ifs <;> omega
  | cons e events ih =>
    intro p kept
    rw [List.foldl_cons,List.countP_cons,ih (step p e) fun d member => kept d (List.mem_cons_of_mem e member),
      step_timer (kept e List.mem_cons_self)]
    split_ifs with ticked
    · exact count_fired _ _
    · rfl

def someEvents : List Event := [.hardclock true false,.schedcpu,.setitimer 0 none (some (some ⟨⟨1,0⟩,⟨1,0⟩⟩)),
    .hardclock true true]

theorem timers_exact_someEvents : (someEvents.foldl step (fun _ => ⟨1,2,0⟩) .virtual).posted = 0 + fired 2 1 2 :=
  timers_exact someEvents _ (by simp [someEvents,Sets,which])

end Retrobsd.IntervalTimers

import Retrobsd.Lib.Run

/-! The time of day: `hardclock` of `kern_clock.c` with `settimeofday`, `gettimeofday` and
`adjtime` of `kern_time.c`. -/
namespace Retrobsd.TimeOfDay
open Lib.Run

def hz : Int := 200
def usechz : Int := (1000000 + hz - 1) / hz

def long (x : Int) : Int := x.bmod (2^32)

structure Timeval where
  sec : Int
  usec : Int
deriving DecidableEq

/-- `reported` is what the last call has copied out to `olddelta`. -/
structure Clock where
  time : Timeval
  boottime : Int
  lbolt : Int
  adjdelta : Int
  reported : Option Timeval

def hardclock (c : Clock) : Clock :=
  let c :=
    if c.adjdelta ≠ 0 then
      if c.adjdelta > 0 then {c with lbolt := c.lbolt + 1,adjdelta := c.adjdelta - 1}
      else {c with lbolt := c.lbolt - 1,adjdelta := c.adjdelta + 1}
    else c
  let c := {c with lbolt := c.lbolt + 1}
  if c.lbolt ≥ hz then {c with lbolt := c.lbolt - hz,time := {c.time with sec := long (c.time.sec + 1)}} else c

def setthetime (c : Clock) (super : Bool) (tv : Timeval) : Clock :=
  if super then
    {c with
      boottime := long (c.boottime + (tv.sec - c.time.sec))
      time := tv
      lbolt := tv.usec.tdiv usechz}
  else c

def copyin (tv : Timeval) : Timeval := ⟨long tv.sec,long tv.usec⟩

/-- There is no `tv` where the pointer is null or cannot be read. -/
def settimeofday (c : Clock) (super : Bool) : Option Timeval → Clock
  | none => c
  | some tv => setthetime c super (copyin tv)

def gettimeofday (c : Clock) : Timeval := {c.time with usec := long (long c.lbolt * usechz)}

def carry : (turns : Nat) → (sec lbolt : Int) → Int × Int
  | 0,sec,lbolt => (sec,lbolt)
  | turns + 1,sec,lbolt => if lbolt ≥ hz then carry turns (long (sec + 1)) (lbolt - hz) else (sec,lbolt)

def stepClock (c : Clock) (atv : Timeval) (olddelta : Bool) : Clock :=
  let lbolt := c.lbolt + atv.usec.tdiv usechz
  let carried := carry lbolt.toNat (long (c.time.sec + atv.sec)) lbolt
  {c with
    time := {c.time with sec := carried.1}
    lbolt := carried.2
    reported := if olddelta then some ⟨0,0⟩ else none}

/-- The branch of `adjtime` that leaves the clock to `hardclock`. -/
def slewClock (c : Clock) (adjust : Int) (olddelta : Bool) : Clock := {c with
    adjdelta := adjust
    reported := if olddelta then some ⟨c.adjdelta.tdiv hz,c.adjdelta.tmod hz * usechz⟩ else none}

/-- `olddelta` tells whether the caller wants to know the old one. -/
def adjtime (c : Clock) (super : Bool) (delta : Option Timeval) (olddelta : Bool) : Clock :=
  if super then
    match delta with
    | none => {c with reported := none}
    | some tv =>
      let atv := copyin tv
      let adjust := long (long (atv.sec * hz) + atv.usec.tdiv usechz)
      if adjust > 0x7fff ∨ adjust < 0x8000 then stepClock c atv olddelta else slewClock c adjust olddelta
  else {c with reported := none}

inductive Op where
  | tick
  | settimeofday (super : Bool) (tv : Option Timeval)
  | adjtime (super : Bool) (delta : Option Timeval) (olddelta : Bool)

def step (c : Clock) : Op → Except Empty Clock
  | .tick => .ok (hardclock c)
  | .settimeofday super tv => .ok (settimeofday c super tv)
  | .adjtime super delta olddelta => .ok (adjtime c super delta olddelta)

def boot (sec : Int) : Clock := ⟨⟨long sec,0⟩,long sec,0,0,none⟩

def Proper : Op → Prop
  | .settimeofday _ (some tv) => 0 ≤ tv.usec ∧ tv.usec ≤ 999999
  | .adjtime _ (some delta) _ => -999999 ≤ delta.usec ∧ delta.usec ≤ 999999
  | _ => True

def total (c : Clock) : Int := c.time.sec * hz + c.lbolt + c.adjdelta

def ticks (delta : Timeval) : Int := delta.sec * hz + delta.usec.tdiv usechz

def Fits (delta : Timeval) : Prop := -0x8000 ≤ ticks delta ∧ ticks delta ≤ 0x7fff

/-- What is expected of a step: a time of day in its range, a tick that counts one, and a
small adjustment left to the ticks, with the one before it reported. -/
def Kept (c : Clock) (op : Op) : Prop := ∀ d, step c op = .ok d →
  (0 ≤ d.lbolt ∧ d.lbolt < hz) ∧ (0 ≤ (gettimeofday d).usec ∧ (gettimeofday d).usec ≤ 999999) ∧
    match op with
    | .tick => total d = total c + 1
    | .adjtime true (some delta) olddelta => Fits (copyin delta) →
      d.time = c.time ∧ d.lbolt = c.lbolt ∧ d.adjdelta = ticks (copyin delta) ∧
        (olddelta = true → d.reported = some ⟨c.adjdelta.tdiv hz,c.adjdelta.tmod hz * usechz⟩)
    | _ => True

def Benign (c : Clock) : Op → Prop
  | .tick => c.time.sec = 2^31 - 1 → c.lbolt + 1 < hz
  | .adjtime true (some delta) _ => (Fits (copyin delta) → ticks (copyin delta) = 0) ∧ 0 ≤ c.lbolt + delta.usec.tdiv usechz
  | _ => True

theorem long_range (x : Int) : -2^31 ≤ long x ∧ long x < 2^31 := by
  rw [long]
  constructor
  · exact Int.le_bmod (by decide)
  · exact Int.bmod_lt (by decide)

theorem long_id {x : Int} (low : -2^31 ≤ x) (high : x < 2^31) : long x = x := by
  rw [long,Int.bmod_def]
  omega

theorem adjtime_steps (c : Clock) (delta : Timeval) (olddelta : Bool) :
    adjtime c true (some delta) olddelta = stepClock c (copyin delta) olddelta := by
  rw [adjtime,if_pos rfl]
  dsimp only
  rw [if_pos]
  omega

variable {c : Clock}

theorem hardclock_total (room : c.time.sec < 2^31 - 1) (low : -2^31 ≤ c.time.sec) : total (hardclock c) = total c + 1 := by
  have next : long (c.time.sec + 1) = c.time.sec + 1 := long_id (by omega) (by omega)
  rw [total,total,hardclock]
  dsimp only
  split_ifs <;> simp only [next,hz] at * <;> omega

structure Sane (c : Clock) : Prop where
  low : 0 ≤ c.lbolt
  high : c.lbolt < hz
  still : c.adjdelta = 0
  early : -2^31 ≤ c.time.sec
  late : c.time.sec < 2^31

theorem gettimeofday_range (low : 0 ≤ c.lbolt) (high : c.lbolt < hz) :
    0 ≤ (gettimeofday c).usec ∧ (gettimeofday c).usec ≤ 999999 := by
  rw [hz] at high
  have same : long c.lbolt = c.lbolt := long_id (by omega) (by omega)
  have unit : usechz = 5000 := rfl
  rw [gettimeofday,same,unit,long_id (by omega) (by omega)]
  dsimp only
  omega

theorem hardclock_sane (sane : Sane c) : Sane (hardclock c) := by
  have high := sane.high
  have low := sane.low
  have wrapped := long_range (c.time.sec + 1)
  rw [hardclock,if_neg (not_not.mpr sane.still)]
  dsimp only
  split_ifs with full
  · refine ⟨?_,?_,sane.still,wrapped.1,wrapped.2⟩
    · dsimp only
      omega
    dsimp only
    rw [hz] at *
    omega
  · exact ⟨by dsimp only; omega,by dsimp only; omega,sane.still,sane.early,sane.late⟩

theorem tdiv_usec {usec : Int} (low : -999999 ≤ usec) (high : usec ≤ 999999) :
    -hz < usec.tdiv usechz ∧ usec.tdiv usechz < hz := by
  have unit : usechz = 5000 := rfl
  have sign : Int.sign 5000 = 1 := rfl
  rw [unit,hz,Int.tdiv_eq_ediv,sign]
  split_ifs <;> omega

theorem copyin_usec {tv : Timeval} (low : -999999 ≤ tv.usec) (high : tv.usec ≤ 999999) : (copyin tv).usec = tv.usec :=
  long_id (by omega) (by omega)

theorem carry_once {sec lbolt : Int} (high : lbolt < 2 * hz) :
    carry lbolt.toNat sec lbolt = if lbolt ≥ hz then (long (sec + 1),lbolt - hz) else (sec,lbolt) := by
  rw [hz] at high
  split_ifs with full
  · rw [hz] at full
    obtain ⟨turns,some⟩ : ∃ turns, lbolt.toNat = turns + 2 := ⟨lbolt.toNat - 2,by omega⟩
    have ends : ¬ lbolt - hz ≥ hz := by
      rw [hz]
      omega
    rw [some,carry,if_pos (by rw [hz]; omega),carry,if_neg ends]
  · cases lbolt.toNat with
    | zero => rfl
    | succ turns => rw [carry,if_neg full]

variable {atv : Timeval}

theorem stepClock_lbolt (sane : Sane c) (small : -hz < atv.usec.tdiv usechz ∧ atv.usec.tdiv usechz < hz)
    (olddelta : Bool) : (stepClock c atv olddelta).lbolt =
      if c.lbolt + atv.usec.tdiv usechz ≥ hz then c.lbolt + atv.usec.tdiv usechz - hz else c.lbolt + atv.usec.tdiv usechz := by
  have high := sane.high
  rw [stepClock]
  dsimp only
  rw [carry_once (by omega)]
  split_ifs <;> rfl

theorem stepClock_sane (sane : Sane c) (small : -hz < atv.usec.tdiv usechz ∧ atv.usec.tdiv usechz < hz)
    (positive : 0 ≤ c.lbolt + atv.usec.tdiv usechz) (olddelta : Bool) : Sane (stepClock c atv olddelta) := by
  have high := sane.high
  have lbolt := stepClock_lbolt sane small olddelta
  have seconds : -2^31 ≤ (stepClock c atv olddelta).time.sec ∧ (stepClock c atv olddelta).time.sec < 2^31 := by
    rw [stepClock]
    dsimp only
    rw [carry_once (by omega)]
    split_ifs
    · exact long_range _
    · exact long_range _
  refine ⟨?_,?_,sane.still,seconds.1,seconds.2⟩
  · rw [lbolt]
    split_ifs <;> omega
  rw [lbolt]
  split_ifs <;> omega

theorem stepClock_still (sane : Sane c) (second : atv.sec = 0) (none : atv.usec.tdiv usechz = 0)
    (olddelta : Bool) : (stepClock c atv olddelta).time = c.time ∧ (stepClock c atv olddelta).lbolt = c.lbolt := by
  have low := sane.low
  have high := sane.high
  have same : long c.time.sec = c.time.sec := long_id sane.early sane.late
  rw [stepClock]
  dsimp only
  rw [second,none,Int.add_zero,Int.add_zero,carry_once (by omega),if_neg (by omega),same]
  exact ⟨rfl,rfl⟩

theorem ticks_eq_zero (small : -hz < atv.usec.tdiv usechz ∧ atv.usec.tdiv usechz < hz) (none : ticks atv = 0) :
    atv.sec = 0 ∧ atv.usec.tdiv usechz = 0 := by
  rw [ticks,hz] at *
  omega

theorem boot_sane (sec : Int) :
    Sane (boot sec) := ⟨Int.le_refl 0,show (0 : Int) < hz by decide,rfl,(long_range sec).1,(long_range sec).2⟩

theorem tick_kept_iff (sane : Sane c) : Kept c .tick ↔ Benign c .tick := by
  have kept := hardclock_sane sane
  have high := sane.high
  constructor
  · intro expected full
    by_contra later
    have counted : total (hardclock c) = total c + 1 := (expected _ rfl).2.2
    have wrapped : long (c.time.sec + 1) = -2^31 := by
      rw [full]
      rfl
    have carried : hardclock c = {c with lbolt := c.lbolt + 1 - hz,time := {c.time with sec := long (c.time.sec + 1)}} := by
      rw [hardclock,if_neg (not_not.mpr sane.still)]
      dsimp only
      rw [if_pos (by omega)]
    rw [carried,total,total] at counted
    dsimp only at counted
    rw [wrapped,full,hz] at counted
    omega
  rintro early d ok
  cases ok
  refine ⟨⟨kept.low,kept.high⟩,gettimeofday_range kept.low kept.high,?_⟩
  by_cases last : c.time.sec = 2^31 - 1
  · have room := early last
    have stays : hardclock c = {c with lbolt := c.lbolt + 1} := by
      rw [hardclock,if_neg (not_not.mpr sane.still)]
      dsimp only
      rw [if_neg (by omega)]
    rw [stays]
    change c.time.sec * hz + (c.lbolt + 1) + c.adjdelta = c.time.sec * hz + c.lbolt + c.adjdelta + 1
    omega
  · have late := sane.late
    exact hardclock_total (by omega) sane.early

theorem adjtime_kept_iff (sane : Sane c) {delta : Timeval} {olddelta : Bool}
    (proper : Proper (.adjtime true (some delta) olddelta)) :
    Kept c (.adjtime true (some delta) olddelta) ↔ Benign c (.adjtime true (some delta) olddelta) := by
  have usec := copyin_usec proper.1 proper.2
  have small : -hz < (copyin delta).usec.tdiv usechz ∧ (copyin delta).usec.tdiv usechz < hz := by
    rw [usec]
    exact tdiv_usec proper.1 proper.2
  have steps := adjtime_steps c delta olddelta
  have lbolt := stepClock_lbolt sane small olddelta
  constructor
  · intro expected
    obtain ⟨range,-,adjusted⟩ := expected _ rfl
    rw [steps] at range adjusted
    refine ⟨?_,?_⟩
    · intro fits
      have set := (adjusted fits).2.2.1
      exact set.symm.trans sane.still
    have low := range.1
    have high := sane.high
    rw [lbolt] at low
    rw [← usec]
    split_ifs at low <;> omega
  rintro ⟨none,positive⟩ d ok
  cases ok
  rw [← usec] at positive
  have kept := stepClock_sane sane small positive olddelta
  rw [steps]
  refine ⟨⟨kept.low,kept.high⟩,gettimeofday_range kept.low kept.high,?_⟩
  intro fits
  obtain ⟨second,nothing⟩ := ticks_eq_zero small (none fits)
  obtain ⟨time,same⟩ := stepClock_still sane second nothing olddelta
  refine ⟨time,same,?_,?_⟩
  · rw [none fits]
    exact sane.still
  rintro rfl
  rw [sane.still]
  rfl

theorem kept_of_sane {op : Op} {d : Clock} (ok : step c op = .ok d) (kept : Sane d) (tick : op ≠ .tick)
    (adjtime : ∀ delta olddelta, op ≠ .adjtime true (some delta) olddelta) : Kept c op := by
  intro e same
  rw [ok] at same
  cases same
  refine ⟨⟨kept.low,kept.high⟩,gettimeofday_range kept.low kept.high,?_⟩
  split
  · exact absurd rfl tick
  · exact absurd rfl (adjtime _ _)
  · trivial

theorem settimeofday_sane (sane : Sane c) {super : Bool} {tv : Option Timeval} (proper : Proper (.settimeofday super tv)) :
    Sane (settimeofday c super tv) := by
  cases tv with
  | none => exact sane
  | some tv =>
    rw [settimeofday,setthetime]
    split_ifs
    · have same : (copyin tv).usec = tv.usec := copyin_usec (by have := proper.1; omega) proper.2
      have positive : 0 ≤ tv.usec.tdiv usechz := Int.tdiv_nonneg proper.1 (by decide)
      have small := (tdiv_usec (by have := proper.1; omega) proper.2).2
      refine ⟨?_,?_,sane.still,(long_range _).1,(long_range _).2⟩
      · dsimp only
        rwa [same]
      dsimp only
      rwa [same]
    · exact sane

theorem kept_iff (sane : Sane c) {op : Op} (proper : Proper op) : Kept c op ↔ Benign c op := by
  cases op with
  | tick => exact tick_kept_iff sane
  | settimeofday super tv =>
    refine ⟨fun _ => trivial,fun _ => ?_⟩
    exact kept_of_sane rfl (settimeofday_sane sane proper) (by simp) (by simp)
  | adjtime super delta olddelta =>
    have quiet : Sane {c with reported := none} := ⟨sane.low,sane.high,sane.still,sane.early,sane.late⟩
    cases super with
    | false =>
      refine ⟨fun _ => trivial,fun _ => ?_⟩
      exact kept_of_sane rfl quiet (by simp) (by simp)
    | true =>
      cases delta with
      | none =>
        refine ⟨fun _ => trivial,fun _ => ?_⟩
        exact kept_of_sane rfl quiet (by simp) (by simp)
      | some delta => exact adjtime_kept_iff sane proper

theorem step_sane {d : Clock} {op : Op} (sane : Sane c) (proper : Proper op) (benign : Benign c op)
    (ok : step c op = .ok d) : Sane d := by
  have quiet : Sane {c with reported := none} := ⟨sane.low,sane.high,sane.still,sane.early,sane.late⟩
  cases op with
  | tick =>
    cases ok
    exact hardclock_sane sane
  | settimeofday super tv =>
    cases ok
    exact settimeofday_sane sane proper
  | adjtime super delta olddelta =>
    cases ok
    cases super with
    | false => exact quiet
    | true =>
      cases delta with
      | none => exact quiet
      | some delta =>
        have usec := copyin_usec proper.1 proper.2
        rw [adjtime_steps]
        apply stepClock_sane sane
        · rw [usec]
          exact tdiv_usec proper.1 proper.2
        rw [usec]
        exact benign.2

/-- In every run of ticks and calls each step does what is expected of it if and only if each is benign: no tick
carries the seconds past the end of a `long`, and an adjustment takes no more ticks away than the second has and
none at all where it fits into a `short`. -/
theorem time_kept (sec : Int) (ops : List Op) (proper : ∀ op ∈ ops, Proper op) :
    Along step Kept (boot sec) ops ↔ Along step Benign (boot sec) ops :=
  Along.congr (fun _ _ sane now => kept_iff sane now) (fun _ _ _ sane now benign ok =>
  step_sane sane now benign ok) ops (boot sec)
    (boot_sane sec) (Along.of_forall (boot sec) proper)

def someOps : List Op := [.tick,.settimeofday true (some ⟨1000000000,999999⟩),.tick,.adjtime true (some ⟨360,999999⟩) true,.tick]

instance (tv : Timeval) : Decidable (Fits tv) := instDecidableAnd

instance (c : Clock) (op : Op) : Decidable (Benign c op) := by
  unfold Benign
  split <;> infer_instance

theorem time_kept_someOps : (∀ op ∈ someOps, Proper op) ∧ Along step Kept (boot 0) someOps := by
  have proper : ∀ op ∈ someOps, Proper op := by simp [someOps,Proper]
  exact ⟨proper,(time_kept 0 someOps proper).mpr (by decide +kernel)⟩

/-- A delta of one tick is not left to the ticks. -/
theorem small_adjustment_steps : ¬ Along step Kept (boot 0) [.adjtime true (some ⟨0,5000⟩) true] := by
  intro along
  have expected := along.1 _ rfl
  have adjusted := expected.2.2 (by decide +kernel)
  exact absurd adjusted.2.2.1 (by decide +kernel)

end Retrobsd.TimeOfDay

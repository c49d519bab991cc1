import Retrobsd.TracingRuns

/-! Whatever the processes do and whoever signals them, the requests of `ptrace` are answered one
after the other, and no tracer sleeps for an answer that nobody can give. -/
namespace Retrobsd.Tracing
open Lib.Run

section
variable {n : Nat} {cfg : Config} {k l : Kernel n} {p c : Fin n}

theorem guard_ok {allowed : Bool} (done : guard allowed k = .ok l) : allowed = true ∧ l = k := by
  rw [guard] at done
  split at done
  next yes =>
    cases done
    exact ⟨yes,rfl⟩
  next => cases done

theorem runs_iff {place : Place n} : k.runs p place = true ↔ (k.procs p).pStat = .run ∧ (k.procs p).place = place := by
  rw [Kernel.runs,Bool.and_eq_true,decide_eq_true_iff,decide_eq_true_iff]

section
variable (sound : Sound cfg k)
include sound

theorem Sound.runsOn {q : Proc n} (outside : ¬ (k.procs p).place.inside) (runs : (k.procs p).pStat = .run)
    (kin : q.pPid = (k.procs p).pPid ∧ q.pPpid = (k.procs p).pPpid ∧ q.pPptr = (k.procs p).pPptr)
    (stat : q.pStat = .run ∨ q.pStat = .sleep) (after : ¬ q.place.inside) (chan : q.pWchan ≠ some .ipc)
    (sintr : q.pSintr = true → q.place.catching) : Sound cfg (k.put p q) := by
  obtain ⟨pid,ppid,pptr⟩ := kin
  refine sound.put (calm_outside ⟨pid,ppid,pptr,?_,?_⟩ outside after (fun stopped => ?_) chan sintr)
  · rw [runs]
    rcases stat with stat | stat <;> simp [stat]
  · rw [runs]
    rcases stat with stat | stat <;> simp [stat]
  · rw [stopped] at stat
    rcases stat with bad | bad <;> cases bad

theorem Sound.chan_outside (outside : ¬ (k.procs p).place.inside) : (k.procs p).pWchan ≠ some .ipc :=
  fun ipc => outside ((sound.fit p).chan ipc).inside

theorem Sound.settles {q : Proc n} (kin : Kin (k.procs p) q) (stat : q.pStat = (k.procs p).pStat)
    (traced : q.pTraced = (k.procs p).pTraced) (place : q.place = (k.procs p).place) (chan : q.pWchan = (k.procs p).pWchan)
    (sintr : q.pSintr = (k.procs p).pSintr) : Sound cfg (k.put p q) := by
  have fit := sound.fit p
  refine sound.put ⟨kin,?_,fun _ => ⟨place,traced⟩,fun _ => .inl stat⟩
  constructor <;> simp only [stat,traced,place,chan,sintr]
  · exact fit.stops
  · exact fit.loops
  · exact fit.waits
  · exact fit.chan
  · exact fit.sintr

theorem resume_sound (runs : (k.procs p).pStat = .run) (done : resume cfg k p = .ok l) : Sound cfg l := by
  rw [resume] at done
  dsimp only at done
  split at done
  next catches leaving place =>
    cases done
    have outside : ¬ (k.procs p).place.inside := by rw [place]; exact id
    refine sound.runsOn outside runs ⟨rfl,rfl,rfl⟩ (.inl runs) ?_ (sound.chan_outside outside) fun bad => (nomatch bad)
    dsimp only
    split
    · exact id
    · split <;> exact id
  next caller place =>
    cases done
    exact issignalTurn_sound sound place runs
  next caller mask place =>
    cases done
    have outside : ¬ (k.procs p).place.inside := by rw [place]; exact id
    refine sound.runsOn outside runs ⟨rfl,rfl,rfl⟩ (.inl runs) id (sound.chan_outside outside) fun catches => ?_
    have catching := (sound.fit p).sintr catches
    rw [place] at catching
    cases caller <;> exact catching
  next caller place => exact tracedResume_sound sound place runs done
  next c r place =>
    have waits := sound.waiting p c r place
    exact ptraceLock_sound sound runs (.inr place) waits.child waits.stops waits.traced waits.other waits.req done
  next c place =>
    cases done
    exact ptraceAnswer_sound sound runs place
  next => cases done

theorem tsleep_sound {chan : Chan n} (other : chan ≠ .ipc) {catches leaving : Bool} (runs : (k.procs p).pStat = .run)
    (place : (k.procs p).place = .user ∧ leaving = false ∨ (k.procs p).place = .exiting ∧ leaving = true) :
    Sound cfg (tsleep k p chan catches leaving) := by
  have outside : ¬ (k.procs p).place.inside := by rcases place with ⟨place,_⟩ | ⟨place,_⟩ <;> rw [place] <;> exact id
  have away : some chan ≠ some Chan.ipc := fun same => other (Option.some.inj same)
  rw [tsleep]
  dsimp only
  split
  · exact sound.runsOn outside runs ⟨rfl,rfl,rfl⟩ (.inl runs) id away fun _ => trivial
  refine sound.runsOn outside runs ⟨rfl,rfl,rfl⟩ (.inr rfl) id away fun either => ?_
  change catches = true ∨ leaving = true
  rcases place with ⟨user,_⟩ | ⟨_,leaves⟩
  · have none := (sound.fit p).uninterrupted (.inl user)
    dsimp only at either
    rw [none,Bool.false_or] at either
    exact .inl either
  · exact .inr leaves

theorem endtsleep_sound (p : Fin n) : Sound cfg (k.put p (endtsleep (k.procs p))) := by
  refine sound.put ?_
  cases chan : (k.procs p).pWchan with
  | none =>
    rw [endtsleep,if_pos chan]
    exact Calm.refl (sound.fit p)
  | some c =>
    have timed : endtsleep (k.procs p) = woken c (k.procs p) := by
      rw [endtsleep,woken,if_neg (by rw [chan]; exact Option.some_ne_none c),if_pos chan]
      split <;> rfl
    rw [timed]
    exact woken_calm (sound.fit p) c

theorem step_sound {op : Op n} (done : step cfg k op = .ok l) : Sound cfg l := by
  cases op with
  | ptrace t pid r =>
    simp only [step] at done
    split at done
    next runs => exact ptrace_sound sound (runs_iff.mp runs).1 (runs_iff.mp runs).2 done
    next => cases done
  | resume p =>
    simp only [step] at done
    split at done
    next runs => exact resume_sound sound runs done
    next => cases done
  | cursig p =>
    obtain ⟨allowed,rfl⟩ := guard_ok done
    obtain ⟨runs,place⟩ := runs_iff.mp allowed
    have outside : ¬ (k.procs p).place.inside := by rw [place]; exact id
    split
    · refine sound.runsOn outside runs ⟨rfl,rfl,rfl⟩ (.inl runs) id (sound.chan_outside outside) fun catches => ?_
      have none := (sound.fit p).uninterrupted (.inl place)
      exact absurd (none.symm.trans catches) Bool.false_ne_true
    · exact sound
  | tsleep p chan catches =>
    simp only [step] at done
    split at done
    · cases done
    next other =>
      split at done
      next user =>
        cases done
        exact tsleep_sound sound other (runs_iff.mp user).1 (.inl ⟨(runs_iff.mp user).2,rfl⟩)
      next =>
        obtain ⟨exiting,rfl⟩ := guard_ok done
        exact tsleep_sound sound other (runs_iff.mp exiting).1 (.inr ⟨(runs_iff.mp exiting).2,rfl⟩)
  | kill p sig =>
    obtain ⟨_,rfl⟩ := guard_ok done
    exact sound.quiet (psignal_quiet sound.fit p sig)
  | wakeup chan =>
    obtain ⟨_,rfl⟩ := guard_ok done
    exact sound.quiet (wakeup_quiet sound.fit chan)
  | endtsleep p =>
    obtain ⟨_,rfl⟩ := guard_ok done
    exact endtsleep_sound sound p
  | fork p child pid isvfork =>
    obtain ⟨allowed,rfl⟩ := guard_ok done
    rw [Bool.and_eq_true,decide_eq_true_iff] at allowed
    obtain ⟨user,free,named,fresh⟩ := allowed
    exact newproc_sound sound (runs_iff.mp user).1 free named fresh isvfork
  | endvfork p =>
    obtain ⟨_,rfl⟩ := guard_ok done
    have done := sound.settles (p := p) (q := {k.procs p with pSvfork := false}) ⟨rfl,rfl,rfl,Iff.rfl,
      Iff.rfl⟩ rfl rfl rfl rfl rfl
    exact done.quiet (wakeup_quiet done.fit _)
  | exit p =>
    obtain ⟨allowed,rfl⟩ := guard_ok done
    obtain ⟨runs,place⟩ := runs_iff.mp allowed
    have outside : ¬ (k.procs p).place.inside := by rw [place]; exact id
    exact sound.runsOn outside runs ⟨rfl,rfl,rfl⟩ (.inl runs) id (sound.chan_outside outside) fun _ => trivial
  | zombie p =>
    simp only [step] at done
    split at done
    next allowed =>
      obtain ⟨runs,exiting⟩ := runs_iff.mp allowed.1
      exact zombie_sound sound exiting runs done
    next => cases done
  | wait p child untraced =>
    simp only [step] at done
    split at done
    next allowed =>
      obtain ⟨user,parent,_⟩ := allowed
      cases waited : wait1 (k.procs child) untraced with
      | error e =>
        rw [waited] at done
        cases done
      | ok q =>
        rw [waited] at done
        cases done
        exact wait1_sound sound (runs_iff.mp user).2 parent waited
    next => cases done
  | signals p d | compute p user =>
    obtain ⟨_,rfl⟩ := guard_ok done
    exact sound.settles ⟨rfl,rfl,rfl,Iff.rfl,Iff.rfl⟩ rfl rfl rfl rfl rfl

end

end

section
variable {n : Nat} {cfg : Config} {k : Kernel n}

theorem boot_sound (cfg : Config) (initproc : Fin n) : Sound cfg (boot initproc) := by
  have stat : ∀ p, ((boot initproc).procs p).pStat ≠ .free → p = initproc := by
    intro p used
    by_contra other
    exact used (if_neg other)
  have place : ∀ p, ((boot initproc).procs p).place = if p = initproc then .user else .gone := fun _ => rfl
  have outside : ∀ p, ¬ ((boot initproc).procs p).place.inside := by
    intro p
    rw [place]
    split <;> exact id
  have first : (boot initproc).procs initproc = ⟨.run,false,false,false,false,false,1,0,initproc,0,0,0,0,none,0,
    fun _ => 0,someUser,.user⟩ := by
    simp [boot]
  have self : (boot initproc).initproc = initproc := rfl
  refine ⟨fun p => ?_,⟨fun p used => ?_,fun p q used used' _ => ?_,?_,?_,?_,?_,fun p used other => ?_⟩,
    .inl ⟨rfl,le_refl _,fun t c there => ?_,?_⟩,
    fun t c r there => ?_,fun c caller there => ?_⟩
  · exact fit_outside (outside p) (fun _ => rfl) (fun bad => (nomatch bad)) fun bad => (nomatch bad)
  · rw [stat p used,first]
    exact Nat.one_ne_zero
  · rw [stat p used,stat q used']
  · rw [self,first]
  · rw [self,first]
    rfl
  · rw [self,first]
  · rw [self,first]
  · exact absurd (stat p used) other
  · exact outside t (by rw [there]; trivial)
  · exact ⟨[],by simp,rfl⟩
  · exact absurd (by rw [there]; trivial) (outside t)
  · exact absurd (by rw [there]; trivial) (outside c)

structure Handshake (cfg : Config) (k : Kernel n) : Prop where
  requests : ∃ es, Complete cfg es ∧ (k.events = es ∨ ∃ t c r, k.events = es ++ [.posted t c r] ∨
    ∃ u answer, Answers cfg u r answer ∧ k.events = es ++ [.posted t c r,.carried c u r answer])
  locked : k.ipc.ipLock ≠ 0 → ∃ t c, (k.procs t).place = .answerWait c ∧
    (∀ t' c', (k.procs t').place = .answerWait c' → t' = t ∧ c' = c) ∧
    (k.procs c).pPid = k.ipc.ipLock ∧ (k.procs c).pPptr = t ∧ (k.procs c).pStat ≠ .free ∧ (0 < k.ipc.ipReq → Ready (k.procs c))
  answers : ∀ t c, (k.procs t).place = .answerWait c → (k.procs t).pStat = .sleep →
    k.ipc.ipLock = (k.procs c).pPid ∧ 0 < k.ipc.ipReq ∧ (k.procs c).live = true ∧ ∃ caller,
    step cfg k (.resume c) = answers cfg k c caller
  waits : ∀ t c r, (k.procs t).place = .lockWait c r → (k.procs c).pPptr = t ∧ (k.procs c).pStat = .stop ∧
    (k.procs c).pTraced = true ∧ ((k.procs t).pStat = .sleep → k.ipc.ipLock ≠ 0)

theorem Sound.handshake (sound : Sound cfg k) : Handshake cfg k := by
  refine ⟨?_,fun locked => ?_,fun t c place asleep => ?_,fun t c r place => ?_⟩
  · rcases sound.block with idle | ⟨t,c,_,asking | answered⟩
    · exact ⟨_,idle.events,.inl rfl⟩
    · obtain ⟨es,complete,events⟩ := asking.events
      exact ⟨es,complete,.inr ⟨t,c,_,.inl events⟩⟩
    · obtain ⟨es,u,r,complete,right,events⟩ := answered.events
      exact ⟨es,complete,.inr ⟨t,c,r,.inr ⟨u,_,right,events⟩⟩⟩
  · rcases sound.block with idle | ⟨t,c,held,block⟩
    · exact absurd idle.lock locked
    refine ⟨t,c,held.tracer,held.only,held.lock.symm,held.child,held.used,fun asked => ?_⟩
    rcases block with asking | answered
    · exact asking.ready
    have done := answered.req
    omega
  · rcases sound.block with idle | ⟨t',c',held,block⟩
    · exact absurd place (idle.nobody t c)
    obtain ⟨rfl,rfl⟩ := held.only t c place
    rcases block with asking | answered
    · obtain ⟨caller,there⟩ := asking.ready.place
      have runs := asking.ready.runs
      refine ⟨held.lock,asking.req,live_iff.mpr (by rw [runs]; decide),caller,?_⟩
      simp only [step,if_pos runs,resume,there,tracedResume]
      exact if_neg (not_not.mpr held.lock)
    · rw [answered.runs] at asleep
      cases asleep
  · have waits := sound.waiting t c r place
    exact ⟨waits.child,waits.stops,waits.traced,waits.asleep⟩

/-- Every request is carried out once, by the child that it names, before its tracer returns with the answer.
The block is locked only for a tracer in `ptrace`, and until the request has been taken off the child runs and
looks at it next; so no tracer sleeps for an answer of a child that ended. -/
theorem handshake_kept (initproc : Fin n) (ops : List (Op n))
    (ran : run (step cfg) (boot initproc) ops = .ok k) : Handshake cfg k :=
  have kept := run_invariant (fun _ _ _ sound _ done => step_sound sound done) ops _ _ (boot_sound cfg initproc)
    (Along.of_forall _ fun _ _ => trivial) ran
  Sound.handshake kept

def someConfig : Config := ⟨fun _ => false,fun _ => 0⟩

/-- `init` has a child that it may trace, and that has been stopped by a signal. -/
def someStop : List (Op 2) := [.fork 0 1 2 false,.ptrace 1 0 ⟨0,0,0⟩,.kill 1 5,.cursig 1,.resume 1]

theorem handshake_kept_someStop :
    ∃ k, run (step someConfig) (boot 0) (someStop ++ [.ptrace 0 2 ⟨ptWriteD,8,7⟩,.resume 1,.resume 0]) = .ok k ∧
    k.events.length = 3 ∧ Handshake someConfig k := by
  have ended : returns (fun k => decide (k.events.length = 3))
      (run (step someConfig) (boot 0) (someStop ++ [.ptrace 0 2 ⟨ptWriteD,8,7⟩,.resume 1,.resume 0])) = true := by decide +kernel
  obtain ⟨k,ran,three⟩ := of_returns ended
  exact ⟨k,ran,of_decide_eq_true three,handshake_kept 0 _ ran⟩

/-- A child that was told to end has ended before its tracer runs again, and the block is still locked for it. -/
theorem locked_for_zombie : ∃ k :
    Kernel 2, run (step someConfig) (boot 0) (someStop ++ [.ptrace 0 2 ⟨ptKill,1,0⟩,.resume 1,.zombie 1]) = .ok k ∧
    ¬ (k.ipc.ipLock ≠ 0 → ∃ c, (k.procs c).pPid = k.ipc.ipLock ∧ (k.procs c).live = true) := by
  have ended : returns (fun k => decide (k.ipc.ipLock = 2 ∧ (k.procs 0).pPid = 1 ∧ (k.procs 1).live = false))
      (run (step someConfig) (boot 0) (someStop ++ [.ptrace 0 2 ⟨ptKill,1,0⟩,.resume 1,.zombie 1])) = true := by decide +kernel
  obtain ⟨k,ran,shown⟩ := of_returns ended
  obtain ⟨lock,init,ended⟩ := of_decide_eq_true shown
  refine ⟨k,ran,fun promised => ?_⟩
  obtain ⟨c,named,live⟩ := promised (by rw [lock]; decide)
  fin_cases c
  · rw [lock] at named
    exact absurd (init.symm.trans named) (by decide)
  · exact absurd (ended.symm.trans live) (by decide)

end

end Retrobsd.Tracing

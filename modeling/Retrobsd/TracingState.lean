import Retrobsd.Tracing

/-! What holds of a process that takes part in tracing or may come to, and the changes that
leave the tracers, the stopped children and the request block alone. -/
namespace Retrobsd.Tracing
open Signals (Mask Stat Action sigmask)

section
variable {n : Nat} {q r : Proc n}

def Place.waits : Place n → Prop
  | .lockWait _ _ | .answerWait _ => True
  | _ => False

def Place.inside : Place n → Prop
  | .lockWait _ _ | .answerWait _ | .traced _ => True
  | _ => False

theorem Place.waits.inside {place : Place n} (waits : place.waits) : place.inside := by
  cases place <;> first | exact waits | exact waits.elim

/-- The process is in a sleep that signals end, or was stopped on the way to it, or is in `exit` or behind it. -/
def Place.catching : Place n → Prop
  | .asleep catches leaving => catches = true ∨ leaving = true
  | .issignal .before | .stopped .before _ | .traced .before | .exiting | .gone => True
  | _ => False

theorem Place.waits.not_catching {place : Place n} (waits : place.waits) : ¬ place.catching := by
  cases place <;> first | exact waits.elim | exact fun bad => bad

structure Fit (q : Proc n) : Prop where
  stops : q.pStat = .stop → q.pTraced = true → ∃ caller, q.place = .traced caller
  loops : ∀ caller, q.place = .traced caller → q.pTraced = true → q.pStat = .run ∨ q.pStat = .stop
  waits : q.place.waits → q.pStat = .run ∧ q.pWchan = none ∨ q.pStat = .sleep ∧ q.pWchan = some .ipc
  chan : q.pWchan = some .ipc → q.place.waits
  sintr : q.pSintr = true → q.place.catching

theorem Fit.caller (fit : Fit q) {caller : Caller} (place : q.place = .issignal caller ∨ q.place = .traced caller)
    (catches : q.pSintr = true) : caller = .before := by
  have catching := fit.sintr catches
  rcases place with place | place <;> rw [place] at catching <;> cases caller <;> first | rfl | exact catching.elim

structure Kin (q r : Proc n) : Prop where
  pid : r.pPid = q.pPid
  ppid : r.pPpid = q.pPpid
  pptr : r.pPptr = q.pPptr
  free : r.pStat = .free ↔ q.pStat = .free
  zomb : r.pStat = .zomb ↔ q.pStat = .zomb

theorem Kin.refl (q : Proc n) : Kin q q := ⟨rfl,rfl,rfl,Iff.rfl,Iff.rfl⟩

theorem Kin.trans {s : Proc n} (first : Kin q r) (second : Kin r s) : Kin q s where
  pid := second.pid.trans first.pid
  ppid := second.ppid.trans first.ppid
  pptr := second.pptr.trans first.pptr
  free := second.free.trans first.free
  zomb := second.zomb.trans first.zomb

theorem Kin.live (kin : Kin q r) : r.live = q.live := by
  simp only [Proc.live,ne_eq,kin.free,kin.zomb]

structure Calm (q r : Proc n) : Prop extends Kin q r where
  fit : Fit r
  kept : q.place.inside ∨ r.place.inside → r.place = q.place ∧ r.pTraced = q.pTraced
  stat : q.place.waits ∨ q.place.inside ∧ q.pTraced = true → r.pStat = q.pStat ∨ q.place.waits ∧ r.pStat = .run

theorem Calm.refl (fit : Fit q) : Calm q q := ⟨Kin.refl q,fit,fun _ => ⟨rfl,rfl⟩,fun _ => .inl rfl⟩

theorem Calm.trans {s : Proc n} (first : Calm q r) (second : Calm r s) : Calm q s where
  toKin := first.toKin.trans second.toKin
  fit := second.fit
  kept inside := by
    have middle : r.place.inside := by
      rcases inside with before | after
      · rw [(first.kept (.inl before)).1]
        exact before
      rw [← (second.kept (.inr after)).1]
      exact after
    obtain ⟨place,traced⟩ := first.kept (.inr middle)
    obtain ⟨place',traced'⟩ := second.kept (.inl middle)
    exact ⟨place'.trans place,traced'.trans traced⟩
  stat inside := by
    obtain ⟨place,traced⟩ := first.kept (.inl (inside.elim Place.waits.inside And.left))
    have stat := first.stat inside
    have stat' := second.stat (by rw [place,traced]; exact inside)
    rw [place] at stat'
    rcases stat' with same | run
    · rw [same]
      exact stat
    · exact .inr run

theorem Calm.waits (calm : Calm q r) (waits : r.place.waits) : r.place = q.place ∧ (r.pStat = q.pStat ∨ r.pStat = .run) := by
  have place := (calm.kept (.inr waits.inside)).1
  exact ⟨place,(calm.stat (.inl (place ▸ waits))).imp_right And.right⟩

theorem Calm.loops (calm : Calm q r) {caller : Caller} (place : q.place = .traced caller) (traced : q.pTraced = true) :
    r.place = .traced caller ∧ r.pTraced = true ∧ r.pStat = q.pStat := by
  have inside : q.place.inside := by rw [place]; trivial
  obtain ⟨same,flag⟩ := calm.kept (.inl inside)
  refine ⟨same.trans place,flag.trans traced,(calm.stat (.inr ⟨inside,traced⟩)).elim id fun both => ?_⟩
  rw [place] at both
  exact both.1.elim

theorem Calm.looped (calm : Calm q r) {caller : Caller} (place : r.place = .traced caller) (traced : r.pTraced = true) :
    q.place = .traced caller ∧ q.pTraced = true ∧ r.pStat = q.pStat := by
  obtain ⟨same,flag⟩ := calm.kept (.inr (by rw [place]; trivial))
  have there := same.symm.trans place
  have before := flag.symm.trans traced
  exact ⟨there,before,(calm.loops there before).2.2⟩

theorem fit_outside (outside : ¬ r.place.inside) (stops : r.pStat = .stop → r.pTraced = false) (chan : r.pWchan ≠ some .ipc)
    (sintr : r.pSintr = true → r.place.catching) : Fit r where
  stops stopped traced := by
    rw [stops stopped] at traced
    cases traced
  loops caller place := absurd (by rw [place]; trivial) outside
  waits waits := absurd waits.inside outside
  chan asleep := absurd asleep chan
  sintr

theorem calm_outside (kin : Kin q r) (before : ¬ q.place.inside) (after : ¬ r.place.inside)
    (stops : r.pStat = .stop → r.pTraced = false)
    (chan : r.pWchan ≠ some .ipc) (sintr : r.pSintr = true → r.place.catching) : Calm q r where
  toKin := kin
  fit := fit_outside after stops chan sintr
  kept inside := inside.elim (fun inside => absurd inside before) fun inside => absurd inside after
  stat inside := absurd (inside.elim Place.waits.inside And.left) before

structure Poked (q r : Proc n) : Prop where
  place : r.place = q.place
  traced : r.pTraced = q.pTraced
  pid : r.pPid = q.pPid
  ppid : r.pPpid = q.pPpid
  pptr : r.pPptr = q.pPptr
  sintr : r.pSintr = q.pSintr
  wchan : r.pWchan = q.pWchan ∨ r.pWchan = none
  stat : r.pStat = q.pStat ∧ (r.pWchan = q.pWchan ∨ q.pStat = .stop ∧ q.pTraced = false) ∨ q.pStat = .sleep ∧
    q.pSintr = true ∧ r.pStat = .run ∨
    q.pStat = .stop ∧ q.pTraced = false ∧ (r.pStat = .run ∨ r.pStat = .sleep)

theorem Poked.refl (q : Proc n) : Poked q q := ⟨rfl,rfl,rfl,rfl,rfl,rfl,.inl rfl,.inl ⟨rfl,.inl rfl⟩⟩

theorem Poked.calm (poked : Poked q r) (fit : Fit q) : Calm q r := by
  have free : r.pStat = .free ↔ q.pStat = .free := by
    rcases poked.stat with ⟨same,_⟩ | ⟨was,_,now⟩ | ⟨was,_,now | now⟩
    · rw [same]
    all_goals rw [was,now]; decide
  have zomb : r.pStat = .zomb ↔ q.pStat = .zomb := by
    rcases poked.stat with ⟨same,_⟩ | ⟨was,_,now⟩ | ⟨was,_,now | now⟩
    · rw [same]
    all_goals rw [was,now]; decide
  have inside : q.place.waits ∨ q.place.inside ∧ q.pTraced = true → r.pStat = q.pStat := by
    intro inside
    rcases poked.stat with ⟨same,_⟩ | ⟨asleep,catches,_⟩ | ⟨stopped,untraced,_⟩
    · exact same
    · rcases inside with waits | ⟨inside,traced⟩
      · exact absurd (fit.sintr catches) waits.not_catching
      cases place : q.place <;> rw [place] at inside <;> try exact inside.elim
      · have loops := fit.loops _ place traced
        rw [asleep] at loops
        rcases loops with bad | bad <;> cases bad
      all_goals
        have waits : q.place.waits := by rw [place]; trivial
        exact absurd (fit.sintr catches) waits.not_catching
    · rcases inside with waits | ⟨_,traced⟩
      · have stat := fit.waits waits
        rw [stopped] at stat
        rcases stat with ⟨bad,_⟩ | ⟨bad,_⟩ <;> cases bad
      · rw [untraced] at traced
        cases traced
  refine ⟨⟨poked.pid,poked.ppid,poked.pptr,free,zomb⟩,⟨?_,?_,?_,?_,?_⟩,?_,?_⟩
  · intro stopped traced
    rw [poked.place]
    rw [poked.traced] at traced
    refine fit.stops ?_ traced
    rcases poked.stat with ⟨same,_⟩ | ⟨_,_,run⟩ | ⟨_,_,run | sleep⟩
    · exact same.symm.trans stopped
    · rw [stopped] at run
      cases run
    · rw [stopped] at run
      cases run
    · rw [stopped] at sleep
      cases sleep
  · intro caller place traced
    rw [poked.place] at place
    rw [poked.traced] at traced
    rw [inside (.inr ⟨by rw [place]; trivial,traced⟩)]
    exact fit.loops caller place traced
  · intro waits
    rw [poked.place] at waits
    rw [inside (.inl waits)]
    have stat := fit.waits waits
    rcases poked.stat with ⟨_,same | ⟨stopped,_⟩⟩ | ⟨_,bad,_⟩ | ⟨stopped,_⟩
    · rw [same]
      exact stat
    · rw [stopped] at stat
      rcases stat with ⟨bad,_⟩ | ⟨bad,_⟩ <;> cases bad
    · exact absurd (fit.sintr bad) waits.not_catching
    · rw [stopped] at stat
      rcases stat with ⟨bad,_⟩ | ⟨bad,_⟩ <;> cases bad
  · intro asleep
    rw [poked.place]
    refine fit.chan ?_
    rcases poked.wchan with same | none
    · exact same.symm.trans asleep
    rw [none] at asleep
    cases asleep
  · rw [poked.sintr,poked.place]
    exact fit.sintr
  · exact fun _ => ⟨poked.place,poked.traced⟩
  · exact fun some => .inl (inside some)

theorem setrun_poked (moves : q.pStat = .sleep ∧ q.pSintr = true ∨ q.pStat = .stop ∧ q.pTraced = false) :
    Poked q (setrun q) := by
  refine ⟨rfl,rfl,rfl,rfl,rfl,rfl,.inr rfl,.inr ?_⟩
  rcases moves with ⟨asleep,catches⟩ | ⟨stopped,untraced⟩
  · exact .inl ⟨asleep,catches,rfl⟩
  · exact .inr ⟨stopped,untraced,.inl rfl⟩

theorem dispatch_poked (q : Proc n) (sig : Nat) (action : Action) : Poked q (dispatch q sig action).1 := by
  have quiet : ∀ (sig : Mask) (number : Int), Poked q {q.take sig with pPtracesig := number} :=
    fun _ _ => ⟨rfl,rfl,rfl,rfl,rfl,rfl,.inl rfl,.inl ⟨rfl,.inl rfl⟩⟩
  rw [dispatch]
  split
  next asleep =>
    split_ifs with blocked traced cont stop caught svfork
    · exact Poked.refl q
    · exact setrun_poked (.inl ⟨asleep,by simpa using blocked⟩)
    · exact quiet _ _
    · exact setrun_poked (.inl ⟨asleep,by simpa using blocked⟩)
    · exact Poked.refl q
    · exact quiet _ _
    · exact setrun_poked (.inl ⟨asleep,by simpa using blocked⟩)
  next stopped =>
    have goesOn : q.pTraced = false → ∀ s : Proc n, s = q ∨ s = q.take (sigmask sig) →
        Poked q (if action = .caught ∨ s.pWchan = none then (setrun s,false) else ({s with pStat := .sleep},false)).1 := by
      rintro untraced s (rfl | rfl) <;> split <;>
        first
        | exact ⟨rfl,rfl,rfl,rfl,rfl,rfl,.inr rfl,.inr (.inr ⟨stopped,untraced,.inl rfl⟩)⟩
        | exact ⟨rfl,rfl,rfl,rfl,rfl,rfl,.inl rfl,.inr (.inr ⟨stopped,untraced,.inr rfl⟩)⟩
    split_ifs with traced kill cont dfl stop sleeps
    · exact Poked.refl q
    · exact setrun_poked (.inr ⟨stopped,by simpa using traced⟩)
    · exact goesOn (by simpa using traced) _ (.inr rfl)
    · exact goesOn (by simpa using traced) _ (.inl rfl)
    · exact quiet _ _
    · exact ⟨rfl,rfl,rfl,rfl,rfl,rfl,.inr rfl,.inl ⟨rfl,.inr ⟨stopped,by simpa using traced⟩⟩⟩
    · exact Poked.refl q
  next => exact Poked.refl q

theorem dispatch_stops {sig : Nat} {action : Action} (stops : (dispatch q sig action).2 = true) :
    q.pStat = .sleep ∧ q.pSintr = true ∧ q.pTraced = false := by
  rw [dispatch] at stops
  split at stops
  next asleep =>
    split_ifs at stops with blocked traced
    exact ⟨asleep,by simpa using blocked,by simpa using traced⟩
  next =>
    split_ifs at stops
    all_goals simp at stops
    all_goals split_ifs at stops
  next => cases stops

theorem raise_poked (q : Proc n) (sig : Nat) (poked : Poked (q.raise sig) r) : Poked q r := by
  rw [Proc.raise] at poked
  split at poked
  · exact ⟨poked.place,poked.traced,poked.pid,poked.ppid,poked.pptr,poked.sintr,poked.wchan,poked.stat⟩
  · exact ⟨poked.place,poked.traced,poked.pid,poked.ppid,poked.pptr,poked.sintr,poked.wchan,poked.stat⟩

theorem take_poked (q : Proc n) (mask : Mask) (poked : Poked (q.take mask) r) : Poked q r :=
  ⟨poked.place,poked.traced,poked.pid,poked.ppid,poked.pptr,poked.sintr,poked.wchan,poked.stat⟩

theorem post_poked (initproc : Fin n) (q : Proc n) (sig : Nat) : Poked q (post initproc q sig).1 := by
  have dropped : ∀ {r : Proc n}, Poked (q.dropStops sig) r → Poked q r := by
    intro r poked
    rw [Proc.dropStops] at poked
    split at poked
    · exact take_poked q _ poked
    · exact poked
  rw [post]
  split
  · exact Poked.refl q
  dsimp only
  split
  · exact dropped (Poked.refl _)
  split
  · exact dropped (raise_poked _ sig (Poked.refl _))
  · exact dropped (raise_poked _ sig (dispatch_poked _ sig _))

theorem post_stops {initproc : Fin n} {sig : Nat} (stops : (post initproc q sig).2 = true) :
    q.pStat = .sleep ∧ q.pSintr = true ∧ q.pTraced = false := by
  rw [post] at stops
  split at stops
  · cases stops
  dsimp only at stops
  split at stops
  · cases stops
  split at stops
  · cases stops
  have asleep := dispatch_stops stops
  have raised : ∀ s : Proc n, (s.raise sig).pStat = s.pStat ∧ (s.raise sig).pSintr = s.pSintr ∧
    (s.raise sig).pTraced = s.pTraced := by
    intro s
    rw [Proc.raise]
    split <;> exact ⟨rfl,rfl,rfl⟩
  rw [(raised _).1,(raised _).2.1,(raised _).2.2] at asleep
  rw [Proc.dropStops] at asleep
  split at asleep <;> exact asleep

theorem woken_calm (fit : Fit q) (chan : Chan n) : Calm q (woken chan q) := by
  rw [woken]
  split
  next found =>
    have free : (if q.pStat = .sleep then Stat.run else q.pStat) = .free ↔ q.pStat = .free := by
      split
      next asleep => rw [asleep]; decide
      next => rfl
    have zomb : (if q.pStat = .sleep then Stat.run else q.pStat) = .zomb ↔ q.pStat = .zomb := by
      split
      next asleep => rw [asleep]; decide
      next => rfl
    refine ⟨⟨rfl,rfl,rfl,free,zomb⟩,⟨?_,?_,?_,fun bad => (nomatch bad),fit.sintr⟩,fun _ => ⟨rfl,rfl⟩,?_⟩
    · intro stopped traced
      refine fit.stops ?_ traced
      dsimp only at stopped
      split at stopped
      · cases stopped
      · exact stopped
    · intro caller place traced
      have loops := fit.loops caller place traced
      dsimp only
      split
      · exact .inl rfl
      · exact loops
    · intro waits
      have stat := fit.waits waits
      refine .inl ⟨?_,rfl⟩
      dsimp only
      split
      · rfl
      next awake =>
        rcases stat with ⟨run,_⟩ | ⟨asleep,_⟩
        · exact run
        · exact absurd asleep awake
    · intro inside
      dsimp only
      split
      next asleep =>
        rcases inside with waits | ⟨inside,traced⟩
        · exact .inr ⟨waits,rfl⟩
        cases place : q.place <;> rw [place] at inside <;> try exact inside.elim
        · have loops := fit.loops _ place traced
          rw [asleep] at loops
          rcases loops with bad | bad <;> cases bad
        · exact .inr ⟨trivial,rfl⟩
        · exact .inr ⟨trivial,rfl⟩
      next => exact .inl rfl
  next => exact Calm.refl fit

end

section
variable {n : Nat} {k l : Kernel n} {p : Fin n}

@[simp] theorem put_initproc (k : Kernel n) (p : Fin n) (q : Proc n) : (k.put p q).initproc = k.initproc := rfl

@[simp] theorem put_self (k : Kernel n) (p : Fin n) (q : Proc n) : (k.put p q).procs p = q := Function.update_self _ _ _

theorem put_other (k : Kernel n) {c : Fin n} (q : Proc n) (other : c ≠ p) :
    (k.put p q).procs c = k.procs c := Function.update_of_ne other _ _

structure Quiet (k l : Kernel n) : Prop where
  ipc : l.ipc = k.ipc
  events : l.events = k.events
  initproc : l.initproc = k.initproc
  procs : ∀ p, Calm (k.procs p) (l.procs p)

theorem Quiet.trans {m : Kernel n} (first : Quiet k l) (second : Quiet l m) : Quiet k m :=
  ⟨second.ipc.trans first.ipc,second.events.trans first.events,second.initproc.trans first.initproc,
    fun p => (first.procs p).trans (second.procs p)⟩

theorem Quiet.fit (quiet : Quiet k l) (p : Fin n) : Fit (l.procs p) := (quiet.procs p).fit

theorem quiet_put (fit : ∀ p, Fit (k.procs p)) {q : Proc n} (calm : Calm (k.procs p) q) : Quiet k (k.put p q) := by
  refine ⟨rfl,rfl,rfl,fun c => ?_⟩
  rcases eq_or_ne c p with rfl | other
  · rw [put_self]
    exact calm
  rw [put_other k q other]
  exact Calm.refl (fit c)

theorem wakeup_quiet (fit : ∀ p, Fit (k.procs p)) (chan : Chan n) :
    Quiet k (wakeup k chan) := ⟨rfl,rfl,rfl,fun p => woken_calm (fit p) chan⟩

theorem notify_poked (k : Kernel n) (parent c : Fin n) : Poked (k.procs c) ((notify k parent).procs c) := by
  rw [notify]
  split
  · exact Poked.refl _
  rcases eq_or_ne c parent with rfl | other
  · rw [put_self]
    exact post_poked _ _ _
  rw [put_other k _ other]
  exact Poked.refl _

theorem notify_quiet (fit : ∀ p, Fit (k.procs p)) (parent : Fin n) : Quiet k (notify k parent) := by
  have procs : ∀ c, Calm (k.procs c) ((notify k parent).procs c) := fun c => (notify_poked k parent c).calm (fit c)
  refine ⟨?_,?_,?_,procs⟩ <;> rw [notify] <;> split <;> rfl

theorem stop_quiet (fit : ∀ p, Fit (k.procs p)) (busy : ¬ (k.procs p).place.waits) (untraced : (k.procs p).pTraced = false)
    (live : (k.procs p).pStat ≠ .free ∧ (k.procs p).pStat ≠ .zomb) : Quiet k (stop k p) := by
  have never : ∀ {a : Prop}, (k.procs p).pTraced = true → a := by
    intro a traced
    rw [untraced] at traced
    cases traced
  have stopped : Calm (k.procs p) {k.procs p with pStat := .stop,pWaited := false} :=
    ⟨⟨rfl,rfl,rfl,by simp [live.1],by simp [live.2]⟩,
      ⟨fun _ => never,fun _ _ => never,fun waits => absurd waits busy,(fit p).chan,(fit p).sintr⟩,
      fun _ => ⟨rfl,rfl⟩,fun inside => inside.elim (fun waits => absurd waits busy) fun both => never both.2⟩
  have put := quiet_put fit stopped
  exact put.trans (wakeup_quiet put.fit _)

theorem psignal_quiet (fit : ∀ p, Fit (k.procs p)) (p : Fin n) (sig : Nat) : Quiet k (psignal k p sig) := by
  have poked := post_poked k.initproc (k.procs p) sig
  have posted := quiet_put fit (poked.calm (fit p))
  rw [psignal]
  dsimp only
  split
  next stops =>
    obtain ⟨asleep,catches,untraced⟩ := post_stops stops
    have told := posted.trans (notify_quiet posted.fit (post k.initproc (k.procs p) sig).1.pPptr)
    have same := notify_poked (k.put p (post k.initproc (k.procs p) sig).1) (post k.initproc (k.procs p) sig).1.pPptr p
    rw [put_self] at same
    refine told.trans (stop_quiet told.fit ?_ ?_ ?_)
    · rw [same.place,poked.place]
      exact fun waits => waits.not_catching ((fit p).sintr catches)
    · rw [same.traced,poked.traced]
      exact untraced
    · have kin := (told.procs p).toKin
      rw [Ne,Ne,kin.free,kin.zomb,asleep]
      decide
  next => exact posted

end

end Retrobsd.Tracing

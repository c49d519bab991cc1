import Retrobsd.Signals

/-! The signals of a mask, what `u_signal` and the masks of a process say of each
other, and that posting a signal to a process keeps it so. -/
namespace Retrobsd.Signals

def has (m : Mask) (sig : Nat) : Bool := m.getLsbD (sig - 1)

@[simp] theorem has_or (m n : Mask) (sig : Nat) : has (m ||| n) sig = (has m sig || has n sig) := by
  simp [has]

@[simp] theorem has_and (m n : Mask) (sig : Nat) : has (m &&& n) sig = (has m sig && has n sig) := by
  simp [has]

@[simp] theorem has_zero (sig : Nat) : has 0 sig = false := by
  simp [has]

theorem has_not (m : Mask) {sig : Nat} (small : sig ≤ 32) : has (~~~m) sig = !has m sig := by
  have bound : sig - 1 < 32 := by omega
  simp [has,bound]

theorem has_sigmask {s sig : Nat} (low : 1 ≤ s) (first : 1 ≤ sig) (small : sig ≤ 32) :
    has (sigmask s) sig = decide (sig = s) := by
  have bound : sig - 1 < 32 := by omega
  rw [has,sigmask,BitVec.getLsbD_shiftLeft]
  simp only [bound,decide_true,Bool.true_and,BitVec.getLsbD_one]
  grind

theorem mask_ext {m n : Mask} (same : ∀ sig, 1 ≤ sig → sig ≤ 32 → has m sig = has n sig) : m = n := by
  apply BitVec.eq_of_getLsbD_eq
  intro i small
  exact same (i + 1) (by omega) (by omega)

theorem mask_eq_zero {m : Mask} : m = 0 ↔ ∀ sig, 1 ≤ sig → sig ≤ 32 → has m sig = false := by
  constructor
  · rintro rfl sig - -
    exact has_zero sig
  intro none
  apply mask_ext
  intro sig low high
  rw [none sig low high,has_zero]

theorem and_sigmask {m : Mask} {sig : Nat} (low : 1 ≤ sig) (high : sig ≤ 32) : m &&& sigmask sig = 0 ↔ has m sig = false := by
  rw [mask_eq_zero]
  constructor
  · intro none
    simpa [has_sigmask low low high] using none sig low high
  intro absent other first last
  rw [has_and,has_sigmask low first last]
  by_cases same : other = sig
  · rw [same,absent,Bool.false_and]
  · simp [same]

theorem ffs_spec {m : Mask} (set : m ≠ 0) : 1 ≤ ffs m ∧ ffs m ≤ 32 ∧ has m (ffs m) := by
  rw [ffs]
  cases found : (List.range 32).find? m.getLsbD with
  | none =>
    rw [List.find?_eq_none] at found
    exfalso
    apply set
    apply BitVec.eq_of_getLsbD_eq
    intro i small
    simpa using found i (List.mem_range.mpr small)
  | some i =>
    have inside := List.mem_range.mp (List.mem_of_find?_eq_some found)
    refine ⟨by simp,Nat.succ_le_of_lt inside,?_⟩
    simpa [has] using List.find?_some found

theorem prop_stop : ∀ sig ≤ 32, 1 ≤ sig → prop sig saStop = has stopsigmask sig := by decide

theorem has_contsigmask {sig : Nat} (low : 1 ≤ sig) (high : sig ≤ 32) : has contsigmask sig = decide (sig = sigcont) :=
  has_sigmask (by decide) low high

section
variable {ι : Type}

/-- A mask that leaves `SIGKILL` and `SIGSTOP` alone. -/
def Spares (m : Mask) : Prop := has m sigkill = false ∧ has m sigstop = false

theorem spares_or {m n : Mask} (first : Spares m) (second : Spares n) : Spares (m ||| n) := by
  simp [Spares,first.1,first.2,second.1,second.2]

theorem spares_and {m : Mask} (spares : Spares m) (n : Mask) : Spares (m &&& n) := by
  simp [Spares,spares.1,spares.2]

theorem spares_without (m : Mask) : Spares (m &&& ~~~sigcantmask) := by
  have kill : has (~~~sigcantmask) sigkill = false := by decide
  have stop : has (~~~sigcantmask) sigstop = false := by decide
  simp [Spares,kill,stop]

theorem spares_sigmask : ∀ sig ≤ 32, 1 ≤ sig → sig ≠ sigkill → sig ≠ sigstop → Spares (sigmask sig) := by
  unfold Spares
  decide

def handler (action : Nat) : Prop := action ≠ sigDfl ∧ action ≠ sigIgn

/-- The masks and `u_signal` of a process agree, `SIGKILL` and `SIGSTOP` can be
neither held nor ignored nor caught, and what is pending can be acted on. -/
structure Consistent (p : Proc ι) : Prop where
  held : Spares p.pSigmask
  ignored : Spares p.pSigignore
  caught : Spares p.pSigcatch
  catch_iff : ∀ sig, 1 ≤ sig → sig < nsig → (has p.pSigcatch sig ↔ handler (p.uSignal sig))
  ignore_iff : ∀ sig, 1 ≤ sig → sig < nsig → (has p.pSigignore sig ↔
    sig ≠ sigcont ∧ (p.uSignal sig = sigIgn ∨ p.uSignal sig = sigDfl ∧ prop sig saIgnore))
  pending : ∀ sig, 1 ≤ sig → sig ≤ 32 → has p.pSig sig → has p.pSigignore sig = false
  stops : has p.pSig sigcont → p.pSig &&& stopsigmask = 0
  signals : has p.pSig nsig = false ∧ has p.pSigcatch nsig = false ∧ has p.pSigignore nsig = false
  oldmask : Spares p.uOldmask
  masks : ∀ sig, Spares (p.uSigmask sig)

structure Lessens (p q : Proc ι) : Prop where
  pSigmask : q.pSigmask = p.pSigmask
  pSigignore : q.pSigignore = p.pSigignore
  pSigcatch : q.pSigcatch = p.pSigcatch
  uSignal : q.uSignal = p.uSignal
  uSigmask : q.uSigmask = p.uSigmask
  uOldmask : q.uOldmask = p.uOldmask
  pSig : ∀ sig, 1 ≤ sig → sig ≤ 32 → has q.pSig sig → has p.pSig sig

theorem Lessens.refl (p : Proc ι) : Lessens p p := ⟨rfl,rfl,rfl,rfl,rfl,rfl,fun _ _ _ set => set⟩

theorem Lessens.trans {p q r : Proc ι} (first : Lessens p q) (second : Lessens q r) : Lessens p r where
  pSigmask := second.pSigmask.trans first.pSigmask
  pSigignore := second.pSigignore.trans first.pSigignore
  pSigcatch := second.pSigcatch.trans first.pSigcatch
  uSignal := second.uSignal.trans first.uSignal
  uSigmask := second.uSigmask.trans first.uSigmask
  uOldmask := second.uOldmask.trans first.uOldmask
  pSig sig low high set := first.pSig sig low high (second.pSig sig low high set)

theorem Lessens.consistent {p q : Proc ι} (lessens : Lessens p q) (consistent : Consistent p) : Consistent q where
  held := lessens.pSigmask ▸ consistent.held
  ignored := lessens.pSigignore ▸ consistent.ignored
  caught := lessens.pSigcatch ▸ consistent.caught
  catch_iff := by
    rw [lessens.pSigcatch,lessens.uSignal]
    exact consistent.catch_iff
  ignore_iff := by
    rw [lessens.pSigignore,lessens.uSignal]
    exact consistent.ignore_iff
  pending sig low high set := by
    rw [lessens.pSigignore]
    exact consistent.pending sig low high (lessens.pSig sig low high set)
  stops set := by
    have none := consistent.stops (lessens.pSig sigcont (by decide) (by decide) set)
    rw [mask_eq_zero] at none ⊢
    intro sig low high
    have absent := none sig low high
    have less := lessens.pSig sig low high
    grind [has_and]
  signals := by
    rw [lessens.pSigcatch,lessens.pSigignore]
    refine ⟨?_,consistent.signals.2⟩
    have less := lessens.pSig nsig (by decide) (by decide)
    grind [consistent.signals]
  oldmask := lessens.uOldmask ▸ consistent.oldmask
  masks := lessens.uSigmask ▸ consistent.masks

theorem take_lessens (p : Proc ι) (mask : Mask) : Lessens p (p.take mask) where
  pSigmask := rfl
  pSigignore := rfl
  pSigcatch := rfl
  uSignal := rfl
  uSigmask := rfl
  uOldmask := rfl
  pSig sig _ _ set := by
    rw [Proc.take,has_and] at set
    exact (Bool.and_eq_true_iff.mp set).1

end

section
variable {ι : Type}

structure Stays (p q : Proc ι) : Prop where
  pPptr : q.pPptr = p.pPptr
  pPid : q.pPid = p.pPid
  exiting : q.exiting = p.exiting
  free : q.pStat = .free ↔ p.pStat = .free
  zomb : q.pStat = .zomb ↔ p.pStat = .zomb

theorem Stays.refl (p : Proc ι) : Stays p p := ⟨rfl,rfl,rfl,Iff.rfl,Iff.rfl⟩

variable {p : Proc ι} {sig : Nat}

theorem Stays.trans {q r : Proc ι} (first : Stays p q) (second : Stays q r) : Stays p r where
  pPptr := second.pPptr.trans first.pPptr
  pPid := second.pPid.trans first.pPid
  exiting := second.exiting.trans first.exiting
  free := second.free.trans first.free
  zomb := second.zomb.trans first.zomb

/-- A process from which signals may have been taken and which may have been set
running, stopped or put to sleep. -/
def Moved (p q : Proc ι) : Prop := Lessens p q ∧ Stays p q

theorem Moved.refl (p : Proc ι) : Moved p p := ⟨Lessens.refl p,Stays.refl p⟩

theorem Moved.trans {q r : Proc ι} (first : Moved p q) (second : Moved q r) :
    Moved p r := ⟨first.1.trans second.1,first.2.trans second.2⟩

theorem take_moved (p : Proc ι) (mask : Mask) : Moved p (p.take mask) := ⟨take_lessens p mask,⟨rfl,rfl,rfl,Iff.rfl,Iff.rfl⟩⟩

theorem restat_moved {stat : Stat} (free : stat = .free ↔ p.pStat = .free) (zomb : stat = .zomb ↔ p.pStat = .zomb)
    (wchan : Nat) (pri : Int) (ptracesig : Nat) :
    Moved p {p with pStat := stat,pWchan := wchan,pPri := pri,pPtracesig := ptracesig} :=
  ⟨⟨rfl,rfl,rfl,rfl,rfl,rfl,fun _ _ _ set => set⟩,⟨rfl,rfl,rfl,free,zomb⟩⟩

theorem dispatch_moved (p : Proc ι) (sig : Nat) (action : Action) : Moved p (dispatch p sig action).1 := by
  have taken := take_moved p (sigmask sig)
  rw [dispatch]
  split
  · next asleep =>
    have runs : Moved p (setrun p) := restat_moved (by simp [asleep]) (by simp [asleep]) _ _ _
    split_ifs
    · exact Moved.refl p
    · exact taken
    · exact runs
    · exact Moved.refl p
    · apply taken.trans
      exact restat_moved Iff.rfl Iff.rfl _ _ _
    · exact runs
  · next stopped =>
    have goesOn : ∀ {q : Proc ι}, q.pStat = .stop →
        Moved q (if action = .caught ∨ q.pWchan = 0 then (setrun q,false) else ({q with pStat := .sleep},false)).1 := by
      intro q stopped
      split <;> exact restat_moved (by simp [stopped]) (by simp [stopped]) _ _ _
    split_ifs
    · exact restat_moved (by simp [stopped]) (by simp [stopped]) _ _ _
    · exact taken.trans (goesOn stopped)
    · exact goesOn stopped
    · exact taken
    · exact restat_moved Iff.rfl Iff.rfl _ _ _
    · exact Moved.refl p
  · exact Moved.refl p

theorem renice_moved (p : Proc ι) (sig : Nat) (action : Action) : Moved p (p.renice sig action) := by
  rw [Proc.renice]
  split
  · exact ⟨⟨rfl,rfl,rfl,rfl,rfl,rfl,fun _ _ _ set => set⟩,⟨rfl,rfl,rfl,Iff.rfl,Iff.rfl⟩⟩
  · exact Moved.refl p

theorem dropStops_moved (p : Proc ι) (sig : Nat) : Moved p (p.dropStops sig) := by
  rw [Proc.dropStops]
  split
  · exact take_moved p stopsigmask
  · exact Moved.refl p

theorem dropStops_cont (p : Proc ι) : (p.dropStops sigcont).pSig &&& stopsigmask = 0 := by
  rw [Proc.dropStops,if_pos (by decide),mask_eq_zero]
  intro sig low high
  simp [Proc.take,has_not _ high]

theorem raise_stays (p : Proc ι) (sig : Nat) : Stays p (p.raise sig) := by
  rw [Proc.raise]
  split <;> exact ⟨rfl,rfl,rfl,Iff.rfl,Iff.rfl⟩

theorem has_raise (p : Proc ι) {other : Nat} (low : 1 ≤ sig) (first : 1 ≤ other) (last : other ≤ 32) :
    has (p.raise sig).pSig other = (has p.pSig other && !(prop sig saStop && decide (other = sigcont)) || decide
    (other = sig)) := by
  rw [Proc.raise]
  split
  · next stop => simp [Proc.take,stop,has_not _ last,has_sigmask low first last,has_contsigmask first last]
  · next go => simp [go,has_sigmask low first last]

theorem raise_eq (p : Proc ι) (sig : Nat) : p.raise sig = {p with pSig := (p.raise sig).pSig} := by
  rw [Proc.raise]
  split <;> rfl

theorem raise_consistent (consistent : Consistent p) (low : 1 ≤ sig) (high : sig < nsig)
    (heard : has p.pSigignore sig = false) (dropped : sig = sigcont → p.pSig &&& stopsigmask = 0) :
    Consistent (p.raise sig) := by
  have small : sig ≤ 32 := Nat.le_of_lt high
  rw [raise_eq]
  refine {consistent with pending := ?_,stops := ?_,signals := ⟨?_,consistent.signals.2⟩}
  · intro other first last set
    rw [has_raise p low first last] at set
    by_cases same : other = sig
    · rw [same]
      exact heard
    simp only [same,decide_false,Bool.or_false,Bool.and_eq_true] at set
    exact consistent.pending other first last set.1
  · intro set
    rw [has_raise p low (by decide) (by decide)] at set
    -- `SIGCONT` is pending after a stop signal is raised only if it is that signal
    have calm : prop sig saStop = false := by
      by_contra stop
      have same : sig = sigcont := by
        simp only [Bool.not_eq_false] at stop
        simpa [stop,eq_comm] using set
      rw [same] at stop
      exact stop (by decide)
    have none : p.pSig &&& stopsigmask = 0 := by
      by_cases same : sig = sigcont
      · exact dropped same
      apply consistent.stops
      simpa [calm,Ne.symm same] using set
    rw [mask_eq_zero] at none ⊢
    intro other first last
    have absent := none other first last
    rw [has_and] at absent ⊢
    rw [has_raise p low first last,calm]
    by_cases same : other = sig
    · rw [same,← prop_stop sig small low,calm,Bool.and_false]
    · simpa [same] using absent
  · rw [has_raise p low (by decide) (by decide)]
    have ne : nsig ≠ sig := Nat.ne_of_gt high
    simp [consistent.signals.1,ne]

variable [DecidableEq ι]

theorem post_ignored (initproc : ι) (ignored : p.pSigignore &&& sigmask sig ≠ 0) : post initproc p sig = (p,false) := by
  rw [post,if_pos ignored]

theorem post_stays (initproc : ι) (p : Proc ι) (sig : Nat) : Stays p (post initproc p sig).1 := by
  have first : Stays p ((p.renice sig (p.action (sigmask sig))).dropStops sig) :=
    ((renice_moved p sig _).trans (dropStops_moved _ sig)).2
  rw [post]
  split
  · exact Stays.refl p
  dsimp only
  split
  · exact first
  split
  · exact first.trans (raise_stays _ sig)
  · exact (first.trans (raise_stays _ sig)).trans (dispatch_moved _ sig _).2

theorem post_consistent (initproc : ι) (consistent : Consistent p) (low : 1 ≤ sig) (high : sig < nsig) :
    Consistent (post initproc p sig).1 := by
  have small : sig ≤ 32 := Nat.le_of_lt high
  have first := ((renice_moved p sig (p.action (sigmask sig))).trans (dropStops_moved _ sig)).1
  have start := first.consistent consistent
  rw [post]
  split
  · exact consistent
  next heard =>
  have deaf := (and_sigmask low small).mp (not_not.mp heard)
  rw [← first.pSigignore] at deaf
  have raised := raise_consistent start low high deaf (by
    rintro rfl
    exact dropStops_cont _)
  dsimp only
  split
  · exact start
  split
  · exact raised
  · exact (dispatch_moved _ sig _).1.consistent raised

end

end Retrobsd.Signals

import Retrobsd.SignalCalls

/-! The table of processes: what every slot of it holds, and that posting and taking
a signal, `fork`, `exit` and `wait` keep it so. -/
namespace Retrobsd.Signals

section
variable {ι : Type}

def Proc.live (p : Proc ι) : Prop := p.pStat ≠ .free ∧ p.pStat ≠ .zomb

instance (p : Proc ι) : Decidable p.live := instDecidableAnd

variable {p q : Proc ι} {sig : Nat} {k : Kernel ι}

theorem Stays.live (stays : Stays p q) : q.live ↔ p.live := by
  rw [Proc.live,Proc.live,Ne,Ne,Ne,Ne,stays.free,stays.zomb]

/-- What a slot of the table may hold. A process in `exit` takes no signal. -/
structure Fit (p : Proc ι) : Prop where
  running : p.live → p.exiting = false → Consistent p
  leaving : p.live → p.exiting = true → p.pSig = 0 ∧ p.pSigignore = BitVec.allOnes 32
  free : p.pStat = .free → p.pSig = 0

structure Sound (k : Kernel ι) : Prop where
  fit : ∀ p, Fit (k.procs p)
  parents : ∀ p, (k.procs p).live → (k.procs (k.procs p).pPptr).live
  init : (k.procs k.initproc).live ∧ (k.procs k.initproc).pPid = 1
  quiet : Message.issig ∉ k.console

theorem Moved.fit (moved : Moved p q) (fit : Fit p) : Fit q where
  running alive stays := by
    rw [moved.2.exiting] at stays
    exact moved.1.consistent (fit.running (moved.2.live.mp alive) stays)
  leaving alive leaves := by
    rw [moved.2.exiting] at leaves
    obtain ⟨none,all⟩ := fit.leaving (moved.2.live.mp alive) leaves
    refine ⟨?_,moved.1.pSigignore.trans all⟩
    rw [mask_eq_zero]
    intro sig low high
    have less := moved.1.pSig sig low high
    rw [none,has_zero] at less
    simpa using less
  free free := by
    have none := fit.free (moved.2.free.mp free)
    rw [mask_eq_zero]
    intro sig low high
    have less := moved.1.pSig sig low high
    rw [none,has_zero] at less
    simpa using less

theorem dispatch_stops {action : Action} (stops : (dispatch p sig action).2 = true) : p.pStat = .sleep := by
  rw [dispatch] at stops
  split at stops
  · next asleep => exact asleep
  · split_ifs at stops
    all_goals simp at stops
    all_goals split_ifs at stops
  · cases stops

theorem stop_moved (alive : p.live) (stopping : Option Mask) : Moved p {stop p with stopping} :=
  ⟨⟨rfl,rfl,rfl,rfl,rfl,rfl,fun _ _ _ set => set⟩,⟨rfl,rfl,rfl,by simp [stop,alive.1],by simp [stop,alive.2]⟩⟩

theorem deliverable_spec (high : sig ≤ 32) (set : has p.deliverable sig) : has p.pSig sig ∧ has p.pSigmask sig = false := by
  rw [Proc.deliverable] at set
  split at set <;> simp_all [has_not _ high]

variable [DecidableEq ι]

@[simp] theorem put_initproc (k : Kernel ι) (p : ι) (q : Proc ι) : (k.put p q).initproc = k.initproc := rfl

@[simp] theorem put_console (k : Kernel ι) (p : ι) (q : Proc ι) : (k.put p q).console = k.console := rfl

@[simp] theorem put_self (k : Kernel ι) (p : ι) (q : Proc ι) : (k.put p q).procs p = q := by
  simp [Kernel.put]

theorem put_other (k : Kernel ι) {p r : ι} (q : Proc ι) (ne : r ≠ p) : (k.put p q).procs r = k.procs r := by
  simp [Kernel.put,ne]

theorem put_live (k : Kernel ι) {p : ι} (alive : q.live ↔ (k.procs p).live) (r : ι) :
    ((k.put p q).procs r).live ↔ (k.procs r).live := by
  by_cases same : r = p
  · rw [same,put_self]
    exact alive
  · rw [put_other k q same]

theorem Sound.put (sound : Sound k) {p : ι} (fit : Fit q) (parent : q.pPptr = (k.procs p).pPptr)
    (pid : q.pPid = (k.procs p).pPid) (alive : q.live ↔ (k.procs p).live) : Sound (k.put p q) where
  fit r := by
    by_cases same : r = p
    · rw [same,put_self]
      exact fit
    rw [put_other k q same]
    exact sound.fit r
  parents r there := by
    rw [put_live k alive] at there ⊢
    by_cases same : r = p
    · rw [same,put_self,parent]
      exact sound.parents p (same ▸ there)
    rw [put_other k q same]
    exact sound.parents r there
  init := by
    rw [put_initproc,put_live k alive]
    refine ⟨sound.init.1,?_⟩
    by_cases same : k.initproc = p
    · rw [same,put_self,pid,← same]
      exact sound.init.2
    rw [put_other k q same]
    exact sound.init.2
  quiet := sound.quiet

theorem Sound.stays (sound : Sound k) {p : ι} (fit : Fit q) (stays : Stays (k.procs p) q) :
    Sound (k.put p q) := sound.put fit stays.pPptr stays.pPid stays.live

theorem Sound.moved (sound : Sound k) {p : ι} (moved : Moved (k.procs p) q) :
    Sound (k.put p q) := sound.stays (moved.fit (sound.fit p)) moved.2

theorem deaf_allOnes : ∀ sig ≤ 32, 1 ≤ sig → BitVec.allOnes 32 &&& sigmask sig ≠ 0 := by decide

theorem post_fit (initproc : ι) (fit : Fit p) (used : p.pStat ≠ .free) (low : 1 ≤ sig) (high : sig < nsig) :
    Fit (post initproc p sig).1 := by
  have stays := post_stays initproc p sig
  refine ⟨?_,?_,?_⟩
  · intro alive goes
    rw [stays.exiting] at goes
    exact post_consistent initproc (fit.running (stays.live.mp alive) goes) low high
  · intro alive leaves
    rw [stays.exiting] at leaves
    have left := fit.leaving (stays.live.mp alive) leaves
    rw [post_ignored initproc (left.2 ▸ deaf_allOnes sig (Nat.le_of_lt high) low)]
    exact left
  · intro free
    exact absurd (stays.free.mp free) used

theorem post_stops {initproc : ι} (stops : (post initproc p sig).2 = true) : p.pStat = .sleep := by
  rw [post] at stops
  split at stops
  · cases stops
  dsimp only at stops
  split at stops
  · cases stops
  split at stops
  · cases stops
  have asleep := dispatch_stops stops
  rw [raise_eq] at asleep
  rw [Proc.dropStops,Proc.renice] at asleep
  split_ifs at asleep <;> exact asleep

theorem post_sound (sound : Sound k) {p : ι} (used : (k.procs p).pStat ≠ .free) (low : 1 ≤ sig)
    (high : sig < nsig) : Sound (k.put p (post k.initproc (k.procs p) sig).1) :=
  sound.stays (post_fit k.initproc (sound.fit p) used low high) (post_stays k.initproc (k.procs p) sig)

theorem notify_sound (sound : Sound k) {parent : ι} (used : (k.procs parent).pStat ≠ .free) : Sound (notify k parent) := by
  rw [notify]
  split
  · exact sound
  · exact post_sound sound used (by decide) (by decide)

theorem notify_stays (k : Kernel ι) (parent p : ι) : Stays (k.procs p) ((notify k parent).procs p) := by
  rw [notify]
  split
  · exact Stays.refl _
  by_cases same : p = parent
  · rw [same,put_self]
    exact post_stays k.initproc (k.procs parent) sigchld
  rw [put_other k _ same]
  exact Stays.refl _

theorem psignal_sound (sound : Sound k) {p : ι} (used : (k.procs p).pStat ≠ .free) (low : 1 ≤ sig)
    (high : sig < nsig) : Sound (psignal k p sig) := by
  have posted := post_sound sound used low high
  have stays := post_stays k.initproc (k.procs p) sig
  rw [psignal]
  dsimp only
  split
  · next stops =>
    have asleep := post_stops stops
    have alive : (k.procs p).live := ⟨by simp [asleep],by simp [asleep]⟩
    have parent : ((k.put p (post k.initproc (k.procs p) sig).1).procs (post k.initproc (k.procs p) sig).1.pPptr).live := by
      rw [put_live k stays.live,stays.pPptr]
      exact sound.parents p alive
    have told := notify_sound posted parent.1
    apply told.moved
    apply stop_moved (p := (notify _ _).procs p) _ ((notify _ _).procs p).stopping
    rw [(notify_stays _ _ p).live,put_self,stays.live]
    exact alive
  · exact posted

end

section
variable {ι : Type} [DecidableEq ι]

structure Ready (p : Proc ι) (sig : Nat) : Prop where
  low : 1 ≤ sig
  high : sig < nsig
  action : p.uSignal sig ≠ sigIgn
  unheld : has p.pSigmask sig = false
  consistent : Consistent p

variable {k : Kernel ι} {p : ι}

section
variable (sound : Sound k)
include sound

theorem issignalTurn_sound (alive : (k.procs p).live) : Sound (issignalTurn k p).1 ∧ ∀ sig, (issignalTurn k p).2 = .signal sig →
      (issignalTurn k p).1 = k ∧ Ready (k.procs p) sig ∧ (k.procs p).exiting = false := by
  have taken : ∀ mask, Sound (k.put p ((k.procs p).take mask)) := fun mask => sound.moved (take_moved _ mask)
  rw [issignalTurn]
  dsimp only
  split
  · exact ⟨sound,by simp⟩
  next some =>
  obtain ⟨low,last,set⟩ := ffs_spec some
  obtain ⟨pending,unheld⟩ := deliverable_spec last set
  have goes : (k.procs p).exiting = false := by
    by_contra leaves
    have none := ((sound.fit p).leaving alive (by simpa using leaves)).1
    rw [none,has_zero] at pending
    cases pending
  have consistent := (sound.fit p).running alive goes
  have high : ffs (k.procs p).deliverable < nsig := by
    apply Nat.lt_of_le_of_ne last
    intro same
    have absent := consistent.signals.1
    rw [show nsig = 32 from rfl,← same,pending] at absent
    cases absent
  have ready : ∀ sig, sig = ffs (k.procs p).deliverable → (k.procs p).uSignal sig ≠ sigIgn → Ready (k.procs p) sig := by
    rintro sig rfl action
    exact ⟨low,high,action,unheld,consistent⟩
  split
  · exact ⟨taken _,by simp⟩
  next heard =>
  have unignored : has (k.procs p).pSigignore (ffs (k.procs p).deliverable) = false := by
    rw [BitVec.and_comm,not_not] at heard
    exact (and_sigmask low last).mp heard
  split
  · next dfl =>
    split
    · exact ⟨taken _,by simp⟩
    split
    · split
      · exact ⟨taken _,by simp⟩
      refine ⟨?_,by simp⟩
      have noted : Moved (k.procs p) {k.procs p with pPtracesig := ffs (k.procs p).deliverable} :=
        restat_moved Iff.rfl Iff.rfl _ _ _
      have parent := (put_live k noted.2.live (k.procs p).pPptr).mpr (sound.parents p alive)
      have told := notify_sound (sound.moved noted) parent.1
      apply told.moved
      apply stop_moved
      rw [(notify_stays _ _ p).live,put_self]
      exact alive
    · split
      · exact ⟨taken _,by simp⟩
      refine ⟨sound,?_⟩
      rintro sig ⟨⟩
      exact ⟨rfl,ready _ rfl (by rw [dfl]; decide),goes⟩
  · next other =>
    split
    · next ign =>
      -- an ignored signal that is pending can only be `SIGCONT`
      have cont : ffs (k.procs p).deliverable = sigcont := by
        have iff := consistent.ignore_iff _ low high
        grind
      rw [cont,if_pos (by decide)]
      exact ⟨taken _,by simp⟩
    · next caught =>
      refine ⟨sound,?_⟩
      rintro sig ⟨⟩
      exact ⟨rfl,ready _ rfl caught,goes⟩

theorem resume_sound (p : ι) : Sound (resume k p) := by
  rw [resume]
  split
  · exact sound
  next mask _ =>
  apply sound.moved
  apply (take_moved (k.procs p) mask).trans
  exact ⟨⟨rfl,rfl,rfl,rfl,rfl,rfl,fun _ _ _ set => set⟩,⟨rfl,rfl,rfl,Iff.rfl,Iff.rfl⟩⟩

theorem Sound.call {q : Proc ι} (alive : (k.procs p).live)
    (goes : (k.procs p).exiting = false) (consistent : Consistent q) (stays : Stays (k.procs p) q) : Sound (k.put p q) := by
  apply sound.stays _ stays
  refine ⟨fun _ _ => consistent,?_,?_⟩
  · intro _ leaves
    rw [stays.exiting,goes] at leaves
    cases leaves
  · intro free
    exact absurd (stays.free.mp free) alive.1

theorem fatalsig_sound (alive : (k.procs p).live) (goes : (k.procs p).exiting = false) : Sound (fatalsig k p sigill) := by
  rw [fatalsig]
  have consistent := (sound.fit p).running alive goes
  apply psignal_sound
  · apply sound.call alive goes
    · exact reset_masks_consistent consistent (by decide) (by decide) (by decide) (by decide) (by decide)
    · exact ⟨rfl,rfl,rfl,Iff.rfl,Iff.rfl⟩
  · rw [put_self]
    exact alive.1
  · decide
  · decide

theorem exit_sound (p : ι) : Sound (exit k p) := by
  have fit : Fit {k.procs p with pSigignore := BitVec.allOnes 32,pSig := 0,exiting := true} := by
    refine ⟨?_,fun _ _ => ⟨rfl,rfl⟩,fun _ => rfl⟩
    intro _ goes
    cases goes
  exact sound.put fit rfl rfl Iff.rfl

theorem postsig_sound (alive : (k.procs p).live)
    (goes : (k.procs p).exiting = false) {sig : Nat} (ready : Ready (k.procs p) sig) (trashed : Bool) :
    ∃ k', postsig k p sig trashed = .ok k' ∧ Sound k' := by
  have small : sig ≤ 32 := Nat.le_of_lt ready.high
  have taken := (take_lessens (k.procs p) (sigmask sig)).consistent ready.consistent
  rw [postsig]
  dsimp only
  split
  · next caught =>
    have allowed : ¬ (((k.procs p).take (sigmask sig)).uSignal sig = sigIgn ∨
        ((k.procs p).take (sigmask sig)).pSigmask &&& sigmask sig ≠ 0) := by
      rintro (ign | held)
      · exact ready.action ign
      · exact held ((and_sigmask ready.low small).mpr ready.unheld)
    rw [if_neg allowed]
    refine ⟨_,rfl,?_⟩
    have handled : has (k.procs p).pSigcatch sig :=
      (ready.consistent.catch_iff sig ready.low ready.high).mpr ⟨caught,ready.action⟩
    have other : ∀ {s : Nat}, has (k.procs p).pSigcatch s = false → sig ≠ s := by
      rintro s absent rfl
      rw [handled] at absent
      cases absent
    have spares : Spares (sigmask sig) := spares_sigmask sig small ready.low (other ready.consistent.caught.1)
      (other ready.consistent.caught.2)
    have held : Sound (k.put p {(k.procs p).take (sigmask sig) with
        uSasOldmask := false
        pSigmask := (k.procs p).pSigmask ||| ((k.procs p).uSigmask sig ||| sigmask sig)}) := by
      apply sound.call alive goes
      · exact {taken with
          held := spares_or ready.consistent.held (spares_or (ready.consistent.masks sig) spares)}
      · exact ⟨rfl,rfl,rfl,Iff.rfl,Iff.rfl⟩
    split
    · apply fatalsig_sound held
      · rw [put_self]
        exact alive
      rw [put_self]
      exact goes
    · exact held
  · refine ⟨_,rfl,?_⟩
    exact exit_sound (sound.moved (take_moved _ _)) p

theorem cursig_sound (alive : (k.procs p).live) (returning trashed : Bool) :
    ∃ k', cursig k p returning trashed = .ok k' ∧ Sound k' := by
  obtain ⟨after,found⟩ := issignalTurn_sound sound alive
  rw [cursig]
  split
  · next k' sig turn =>
    rw [turn] at after found
    obtain ⟨same,ready,goes⟩ := found sig rfl
    dsimp only at same
    subst same
    split
    · exact postsig_sound sound alive goes ready trashed
    · exact ⟨_,rfl,sound⟩
  · next turn =>
    rw [turn] at after
    exact ⟨_,rfl,after⟩

end

end

section
variable {ι : Type} [DecidableEq ι]

theorem newproc_sound {k : Kernel ι} (sound : Sound k) {p child : ι} (alive : (k.procs p).live)
    (goes : (k.procs p).exiting = false) (unused : (k.procs child).pStat = .free) (pid : Nat) :
    Sound (newproc k p child pid) := by
  have dead : ¬ (k.procs child).live := fun there => there.1 unused
  have apart : ∀ {r : ι}, (k.procs r).live → r ≠ child := by
    rintro r there rfl
    exact dead there
  have consistent := (sound.fit p).running alive goes
  have none := (sound.fit child).free unused
  have others : ∀ {r : ι}, r ≠ child → (newproc k p child pid).procs r = k.procs r := fun ne =>
    put_other k _ ne
  refine ⟨?_,?_,?_,sound.quiet⟩
  · intro r
    by_cases same : r = child
    · subst same
      rw [newproc,put_self,none]
      refine ⟨fun _ _ => ?_,?_,?_⟩
      · have less : Lessens (k.procs p) {k.procs p with pSig := 0} := ⟨rfl,rfl,rfl,rfl,rfl,rfl,by simp [has]⟩
        exact {less.consistent consistent with}
      · intro _ leaves
        change (k.procs p).exiting = true at leaves
        rw [goes] at leaves
        cases leaves
      · intro free
        rfl
    · rw [others same]
      exact sound.fit r
  · intro r there
    by_cases same : r = child
    · subst same
      rw [newproc,put_self]
      change ((newproc k p r pid).procs p).live
      rw [others (apart alive)]
      exact alive
    · rw [others same] at there ⊢
      rw [others (apart (sound.parents r there))]
      exact sound.parents r there
  · have kept : (newproc k p child pid).procs k.initproc = k.procs k.initproc := others (apart sound.init.1)
    change ((newproc k p child pid).procs k.initproc).live ∧ ((newproc k p child pid).procs k.initproc).pPid = 1
    rw [kept]
    exact sound.init

theorem adopt_fit (initproc : ι) {q : Proc ι} (fit : Fit q) : Fit (adopt initproc q) := by
  have moved : Fit {q with pPptr := initproc} := ⟨fun there goes => {fit.running there goes with},fit.leaving,fit.free⟩
  rw [adopt]
  dsimp only
  split
  · next stopped =>
    have used : (post initproc {q with pPptr := initproc} sighup).1.pStat ≠ .free := by
      rw [Ne,(post_stays initproc {q with pPptr := initproc} sighup).free]
      simp [stopped]
    apply post_fit initproc _ used (by decide) (by decide)
    exact post_fit initproc moved (by simp [stopped]) (by decide) (by decide)
  · exact moved

theorem adopt_stays (initproc : ι) (q : Proc ι) : Stays {q with pPptr := initproc} (adopt initproc q) := by
  rw [adopt]
  dsimp only
  split
  · exact (post_stays _ _ _).trans (post_stays _ _ _)
  · exact Stays.refl _

theorem zombie_sound {k : Kernel ι} (sound : Sound k) {p : ι} (alive : (k.procs p).live) (left : Mask × Mask × Mask) :
    (∃ k', zombie k p left = .ok k' ∧ Sound k') ∨ zombie k p left = .error .initDied := by
  rw [zombie]
  split
  · exact .inr rfl
  next other =>
  left
  refine ⟨_,rfl,?_⟩
  have notInit : k.initproc ≠ p := by
    rintro rfl
    exact other sound.init.2
  set gone := {k.procs p with pStat := .zomb,pSigmask := left.1,pSigignore := left.2.1,pSigcatch := left.2.2} with isGone
  set table : Kernel ι := {k with procs := fun q =>
    if q = p then gone else if (k.procs q).pPptr = p then adopt k.initproc (k.procs q) else k.procs q} with isTable
  have zomb : (table.procs p).pStat = .zomb := by simp [isTable,isGone]
  have dead : ¬ (table.procs p).live := fun there => there.2 zomb
  have kept : ∀ {q : ι}, q ≠ p → (k.procs q).pPptr ≠ p → table.procs q = k.procs q := by
    intro q ne others
    simp [isTable,ne,others]
  have adopted : ∀ {q : ι}, q ≠ p → (k.procs q).pPptr = p → table.procs q = adopt k.initproc (k.procs q) := by
    intro q ne mine
    simp [isTable,ne,mine]
  have lives : ∀ {q : ι}, q ≠ p → ((table.procs q).live ↔ (k.procs q).live) ∧ (table.procs q).pPid = (k.procs q).pPid := by
    intro q ne
    by_cases mine : (k.procs q).pPptr = p
    · rw [adopted ne mine]
      have stays := adopt_stays k.initproc (k.procs q)
      exact ⟨stays.live,stays.pPid⟩
    · rw [kept ne mine]
      exact ⟨Iff.rfl,rfl⟩
  have after : Sound table := by
    refine ⟨?_,?_,?_,sound.quiet⟩
    · intro q
      by_cases same : q = p
      · subst same
        refine ⟨fun there _ => absurd there dead,fun there _ => absurd there dead,?_⟩
        intro free
        rw [zomb] at free
        cases free
      by_cases mine : (k.procs q).pPptr = p
      · rw [adopted same mine]
        exact adopt_fit k.initproc (sound.fit q)
      rw [kept same mine]
      exact sound.fit q
    · intro q there
      have same : q ≠ p := by
        rintro rfl
        exact dead there
      by_cases mine : (k.procs q).pPptr = p
      · rw [adopted same mine,(adopt_stays k.initproc (k.procs q)).pPptr]
        exact (lives notInit).1.mpr sound.init.1
      rw [kept same mine]
      exact (lives mine).1.mpr (sound.parents q ((lives same).1.mp there))
    · exact ⟨(lives notInit).1.mpr sound.init.1,(lives notInit).2.trans sound.init.2⟩
  apply psignal_sound after _ (by decide) (by decide)
  by_cases self : gone.pPptr = p
  · rw [self,zomb]
    simp
  · exact ((lives self).1.mpr (sound.parents p alive)).1

theorem reap_sound {k : Kernel ι} (sound : Sound k) {p : ι} (zomb : (k.procs p).pStat = .zomb) : Sound (reap k p) := by
  have dead : ∀ {stat : Stat}, stat = .free ∨ stat = .zomb → ∀ {q : Proc ι}, q.pStat = stat → ¬ q.live := by
    rintro stat (rfl | rfl) q same there
    · exact there.1 same
    · exact there.2 same
  have gone : ¬ (k.procs p).live := dead (.inr rfl) zomb
  have freed : ∀ {q : ι}, (k.procs q).live → q ≠ p := by
    rintro q there rfl
    exact gone there
  have others : ∀ {q : ι}, q ≠ p → (reap k p).procs q = k.procs q := fun ne => put_other k _ ne
  have empty : ((reap k p).procs p).pStat = .free ∧ ((reap k p).procs p).pSig = 0 := by
    rw [reap,put_self]
    exact ⟨rfl,rfl⟩
  have absent := dead (.inl rfl) empty.1
  refine ⟨?_,?_,?_,sound.quiet⟩
  · intro q
    by_cases same : q = p
    · subst same
      exact ⟨fun there _ => absurd there absent,fun there _ => absurd there absent,fun _ => empty.2⟩
    rw [others same]
    exact sound.fit q
  · intro q there
    have same : q ≠ p := by
      rintro rfl
      exact absent there
    rw [others same] at there ⊢
    rw [others (freed (sound.parents q there))]
    exact sound.parents q there
  · change ((reap k p).procs k.initproc).live ∧ ((reap k p).procs k.initproc).pPid = 1
    rw [others (freed sound.init.1)]
    exact sound.init

end

end Retrobsd.Signals

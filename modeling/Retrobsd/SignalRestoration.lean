import Retrobsd.SignalMasks

/-! The mask that a process set is in force again whenever it runs outside of its
handlers. What carries this is that a call that leaves `SAS_OLDMASK` set also leaves a
signal that is about to be delivered. -/
namespace Retrobsd.SignalMasks
open Function List
open Signals Lib.Run

variable {ι : Type} {p q : Proc ι}

/-- `issignal` hands this signal out rather than drop it or stop for it. -/
def Acts (p : Proc ι) (sig : Nat) : Prop := p.uSignal sig ≠ sigDfl ∧ p.uSignal sig ≠ sigIgn ∨
    p.uSignal sig = sigDfl ∧ 1 < p.pPid ∧ prop sig saStop = false ∧ prop sig saIgnore = false

structure Due (p : Proc ι) (sig : Nat) : Prop where
  low : 1 ≤ sig
  high : sig ≤ 32
  deliverable : has p.deliverable sig = true
  heard : has p.pSigignore sig = false
  acts : Acts p sig

def Unblocked (p : Proc ι) (sig : Nat) : Prop :=
  ∀ other < sig, 1 ≤ other → has p.deliverable other = true → p.uSignal other ≠ sigDfl → has (p.uSigmask other) sig = false

structure Same (p q : Proc ι) : Prop where
  pSigmask : q.pSigmask = p.pSigmask
  pSigignore : q.pSigignore = p.pSigignore
  uSignal : q.uSignal = p.uSignal
  uSigmask : q.uSigmask = p.uSigmask
  uOldmask : q.uOldmask = p.uOldmask
  uSasOldmask : q.uSasOldmask = p.uSasOldmask
  pSvfork : q.pSvfork = p.pSvfork
  pPid : q.pPid = p.pPid
  stopping : q.stopping = p.stopping

theorem Same.refl (p : Proc ι) : Same p p := ⟨rfl,rfl,rfl,rfl,rfl,rfl,rfl,rfl,rfl⟩

theorem Same.trans {r : Proc ι} (first : Same p q) (second : Same q r) : Same p r :=
  ⟨second.pSigmask.trans first.pSigmask,second.pSigignore.trans first.pSigignore,second.uSignal.trans first.uSignal,
    second.uSigmask.trans first.uSigmask,second.uOldmask.trans first.uOldmask,second.uSasOldmask.trans first.uSasOldmask,
    second.pSvfork.trans first.pSvfork,second.pPid.trans first.pPid,second.stopping.trans first.stopping⟩

theorem take_same (p : Proc ι) (mask : Mask) : Same p (p.take mask) := ⟨rfl,rfl,rfl,rfl,rfl,rfl,rfl,rfl,rfl⟩

theorem dispatch_same (p : Proc ι) (sig : Nat) (action : Action) : Same p (dispatch p sig action).1 := by
  rw [dispatch]
  split
  · split_ifs <;> exact ⟨rfl,rfl,rfl,rfl,rfl,rfl,rfl,rfl,rfl⟩
  · dsimp only
    split_ifs <;> exact ⟨rfl,rfl,rfl,rfl,rfl,rfl,rfl,rfl,rfl⟩
  · exact Same.refl p

theorem renice_same (p : Proc ι) (sig : Nat) (action : Action) : Same p (p.renice sig action) := by
  rw [Proc.renice]
  split_ifs <;> exact ⟨rfl,rfl,rfl,rfl,rfl,rfl,rfl,rfl,rfl⟩

theorem dropStops_same (p : Proc ι) (sig : Nat) : Same p (p.dropStops sig) := by
  rw [Proc.dropStops]
  split_ifs
  · exact take_same p _
  · exact Same.refl p

theorem raise_same (p : Proc ι) (sig : Nat) : Same p (p.raise sig) := by
  rw [Proc.raise]
  split_ifs <;> exact ⟨rfl,rfl,rfl,rfl,rfl,rfl,rfl,rfl,rfl⟩

theorem post_same [DecidableEq ι] (initproc : ι) (p : Proc ι) (sig : Nat) : Same p (post initproc p sig).1 := by
  have prepared := (renice_same p sig (p.action (sigmask sig))).trans (dropStops_same _ sig)
  rw [post]
  dsimp only
  split_ifs
  · exact Same.refl p
  · exact prepared
  · exact prepared.trans (raise_same _ sig)
  · exact (prepared.trans (raise_same _ sig)).trans (dispatch_same _ sig _)

variable {sig other : Nat} {ended : Option Nat} {mode : Mode}

theorem ffs_le {m : Mask} (low : 1 ≤ sig) (high : sig ≤ 32) (set : has m sig = true) : ffs m ≤ sig := by
  rw [ffs]
  cases found : (range 32).find? m.getLsbD with
  | none => exact Nat.zero_le _
  | some i =>
    by_contra above
    have small : sig - 1 < i := by
      simp only [Option.elim] at above
      omega
    obtain ⟨_,before,after,split,none⟩ := List.find?_eq_some_iff_append.mp found
    have inside : sig - 1 ∈ before := by
      have lengths : before.length = i := by
        have there : (range 32)[before.length]? = some i := by rw [split]; simp
        obtain ⟨bound,value⟩ := List.getElem?_eq_some_iff.mp there
        simpa using value
      have there : (range 32)[sig - 1]? = some (sig - 1) := by
        rw [List.getElem?_range (by omega)]
      rw [split,List.getElem?_append_left (by omega)] at there
      exact mem_of_getElem? there
    have absent := none _ inside
    rw [has] at set
    simp [set] at absent

theorem deliverable_of_same (same : Same p q) (kept : has q.pSig sig = has p.pSig sig) :
    has q.deliverable sig = has p.deliverable sig := by
  simp only [Proc.deliverable,same.pSvfork,same.pSigmask]
  split_ifs <;> simp [kept]

theorem Due.same (due : Due p sig) (same : Same p q) (kept : has q.pSig sig = has p.pSig sig) : Due q sig := by
  refine ⟨due.low,due.high,?_,?_,?_⟩
  · rw [deliverable_of_same same kept]
    exact due.deliverable
  · rw [same.pSigignore]
    exact due.heard
  · rw [Acts,same.uSignal,same.pPid]
    exact due.acts

theorem has_take (p : Proc ι) (low : 1 ≤ sig) (first : 1 ≤ other) (last : other ≤ 32) (ne : other ≠ sig) :
    has (p.take (sigmask sig)).pSig other = has p.pSig other := by
  rw [Proc.take,has_and,has_not _ last,has_sigmask low first last]
  simp [ne]

theorem Due.take (due : Due p other) (low : 1 ≤ sig) (ne : other ≠ sig) : Due (p.take (sigmask sig)) other :=
  due.same (take_same p _) (has_take p low due.low due.high ne)

theorem Unblocked.less (unblocked : Unblocked p sig) (same : Same p q) (high : sig ≤ 32)
    (less : ∀ other, 1 ≤ other → other ≤ 32 → has q.pSig other = true → has p.pSig other = true) : Unblocked q sig := by
  intro other before low there caught
  rw [same.uSigmask]
  rw [same.uSignal] at caught
  refine unblocked other before low ?_ caught
  have pending := (deliverable_spec (by omega) there).1
  rw [← deliverable_of_same same (by rw [pending,less other low (by omega) pending])]
  exact there

theorem Unblocked.take (unblocked : Unblocked p sig) (high : sig ≤ 32) (mask : Mask) : Unblocked (p.take mask) sig :=
  unblocked.less (take_same p mask) high (take_lessens p mask).pSig

inductive Looked (p : Proc ι) : Proc ι × Found → Prop where
  | nothing (none : p.deliverable = 0) : Looked p (p,.nothing)
  | dropped {sig : Nat} (low : 1 ≤ sig) (idle : ¬ Due p sig) : Looked p (p.take (sigmask sig),.again)
  | stopped {sig : Nat} (low : 1 ≤ sig) (default : p.uSignal sig = sigDfl) (stops : prop sig saStop = true) :
      Looked p ({stop {p with pPtracesig := sig} with stopping := some (sigmask sig)},.stopped)
  | found {sig : Nat} (due : Due p sig) (first : ∀ other, 1 ≤ other → other ≤ 32 →
    has p.deliverable other = true → sig ≤ other) :
      Looked p (p,.signal sig)

theorem look_cases [DecidableEq ι] (initproc : ι) (p : Proc ι) : Looked p (look initproc p) := by
  rw [look]
  by_cases none : p.deliverable = 0
  · rw [if_pos none]
    exact .nothing none
  rw [if_neg none]
  obtain ⟨low,high,there⟩ := ffs_spec none
  have first : ∀ other, 1 ≤ other → other ≤ 32 → has p.deliverable other = true → ffs p.deliverable ≤ other :=
    fun other low high set => ffs_le low high set
  dsimp only
  split_ifs with ignored dfl system stops orphan quiet ign
  · refine .dropped low fun due => ignored ?_
    rw [BitVec.and_comm]
    exact (and_sigmask low high).mpr due.heard
  · exact .dropped low fun due => by
      rcases due.acts with ⟨caught,_⟩ | ⟨_,user,_⟩
      · exact caught dfl
      · omega
  · exact .dropped low fun due => by
      rcases due.acts with ⟨caught,_⟩ | ⟨_,_,still,_⟩
      · exact caught dfl
      · exact absurd (stops.symm.trans still) (by simp)
  · exact .stopped low dfl stops
  · exact .dropped low fun due => by
      rcases due.acts with ⟨caught,_⟩ | ⟨_,_,_,loud⟩
      · exact caught dfl
      · exact absurd (quiet.symm.trans loud) (by simp)
  all_goals
    have heard : has p.pSigignore (ffs p.deliverable) = false := by
      rw [BitVec.and_comm,not_not] at ignored
      exact (and_sigmask low high).mp ignored
  · exact .found ⟨low,high,there,heard,.inr ⟨dfl,by omega,by simpa using stops,by simpa using quiet⟩⟩ first
  · exact .dropped low fun due => by
      rcases due.acts with ⟨_,caught⟩ | ⟨other,_⟩
      · exact caught ign
      · exact dfl other
  · exact .found ⟨low,high,there,heard,.inl ⟨dfl,ign⟩⟩ first

theorem post_pending [DecidableEq ι] (initproc : ι) (p : Proc ι) (low : 1 ≤ sig) (first : 1 ≤ other) (last : other ≤ 32)
    (pending : has (post initproc p sig).1.pSig other = true) : other = sig ∨ has p.pSig other = true := by
  have before : ∀ q, q = (p.renice sig (p.action (sigmask sig))).dropStops sig → has q.pSig other = true →
    has p.pSig other = true := by
    rintro q rfl set
    exact ((renice_moved p sig _).trans (dropStops_moved _ sig)).1.pSig other first last set
  have raised : ∀ q : Proc ι, has (q.raise sig).pSig other = true → other = sig ∨ has q.pSig other = true := by
    intro q set
    rw [has_raise q low first last] at set
    grind
  rw [post] at pending
  dsimp only at pending
  split_ifs at pending
  · exact .inr pending
  · exact .inr (before _ rfl pending)
  · exact (raised _ pending).imp_right (before _ rfl)
  · exact (raised _ ((dispatch_moved _ sig _).1.pSig other first last pending)).imp_right (before _ rfl)

def InMode (p : Proc ι) (ended : Option Nat) : Mode → Prop
  | .user | .inside => p.uSasOldmask = false ∧ ended = none
  | .suspend => p.uSasOldmask = true ∧ ended = none
  | .select maskp slept => ended = none ∧ p.uSasOldmask = slept ∧ (slept = true → given maskp = true ∧ p.pSigmask = p.uOldmask)
  | .selectSleep maskp => ended = none ∧ p.uSasOldmask = given maskp
  | .out => (p.uSasOldmask = true → ∃ sig, Due p sig) ∧ ∀ sig, ended = some sig → Due p sig ∧ Unblocked p sig
  | .dead => True

def ownMask (p : Proc ι) : Mask := if p.uSasOldmask then p.uOldmask else p.pSigmask

structure Kept (s : Thread ι) : Prop where
  spares : Spares s.set
  own : s.frames = [] → ownMask s.proc = s.set
  saved : ∀ m, s.frames.getLast? = some m → m = s.set
  halted : ∀ m, s.proc.stopping = some m → ∃ sig, 1 ≤ sig ∧ m = sigmask sig ∧ s.proc.uSignal sig = sigDfl ∧
    prop sig saStop = true
  modes : InMode s.proc s.ended s.mode

theorem Due.halt (due : Due p sig) (stat : Stat) (ptracesig : Nat) (stopping : Option Mask) :
    Due {p with pStat := stat,pPtracesig := ptracesig,stopping} sig :=
  ⟨due.low,due.high,due.deliverable,due.heard,due.acts⟩

theorem InMode.halt (known : InMode p ended mode) (stat : Stat) (ptracesig : Nat)
    (stopping : Option Mask) : InMode {p with pStat := stat,pPtracesig := ptracesig,stopping} ended mode := by
  cases mode with
  | out => exact ⟨fun flag => (known.1 flag).imp fun _ due => due.halt _ _ _,fun sig last =>
    ⟨(known.2 sig last).1.halt _ _ _,(known.2 sig last).2⟩⟩
  | _ => exact known

theorem InMode.less (known : InMode p ended mode) (same : Same p q)
    (less : ∀ sig, 1 ≤ sig → sig ≤ 32 → has q.pSig sig = true → has p.pSig sig = true) (due : ∀ sig, Due p sig → Due q sig) :
    InMode q ended mode := by
  cases mode with
  | out =>
    refine ⟨fun flag => ?_,fun sig last => ?_⟩
    · rw [same.uSasOldmask] at flag
      exact (known.1 flag).imp due
    obtain ⟨waits,unblocked⟩ := known.2 sig last
    exact ⟨due sig waits,unblocked.less same waits.high less⟩
  | dead => trivial
  | user | inside | suspend | selectSleep =>
    simp only [InMode,same.uSasOldmask]
    exact known
  | select =>
    simp only [InMode,same.uSasOldmask,same.pSigmask,same.uOldmask]
    exact known

theorem InMode.take (known : InMode p ended mode) (low : 1 ≤ sig) (idle : ¬ Due p sig) :
    InMode (p.take (sigmask sig)) ended mode := by
  refine known.less (take_same p _) (take_lessens p _).pSig fun other due => due.take low ?_
  rintro rfl
  exact idle due

theorem ownMask_same (same : Same p q) : ownMask q = ownMask p := by
  simp only [ownMask,same.uSasOldmask,same.uOldmask,same.pSigmask]

theorem Kept.with {s : Thread ι} (kept : Kept s) (same : Same s.proc q) (known : InMode q s.ended s.mode) : Kept (s.with q) where
  spares := kept.spares
  own empty := (ownMask_same same).trans (kept.own empty)
  saved := kept.saved
  halted m stopping := by
    have before : s.proc.stopping = some m := by
      rw [← same.stopping]
      exact stopping
    obtain ⟨sig,low,mask,default,stops⟩ := kept.halted m before
    exact ⟨sig,low,mask,by rw [← default,← same.uSignal]; rfl,stops⟩
  modes := known

section
variable {s t : Thread ι}

theorem deliverable_or (p : Proc ι) (mask : Mask) (flag : Bool) (high : sig ≤ 32) :
    has ({p with uSasOldmask := flag,pSigmask := p.pSigmask ||| mask} : Proc ι).deliverable sig =
    (has p.deliverable sig && !has mask sig) := by
  simp only [Proc.deliverable]
  split_ifs <;> simp [has_not _ high] <;> grind

theorem ended_kept (due : Due p sig)
    (first : ∀ other, 1 ≤ other → other ≤ 32 → has p.deliverable other = true → sig ≤ other)
    (those : ended = none ∨ ended = some sig) : InMode p ended .out := by
  refine ⟨fun _ => ⟨sig,due⟩,fun waits last => ?_⟩
  rcases those with none | same
  · exact absurd (none.symm.trans last) (by simp)
  cases same.symm.trans last
  refine ⟨due,fun other less low there => ?_⟩
  exact absurd (first other low (Nat.le_trans (Nat.le_of_lt less) due.high) there) (Nat.not_le.mpr less)

theorem blocked_cases (q : Proc ι) (sig : Nat) : blocked q sig = none ∨ blocked q sig = some sig := by
  rw [blocked]
  split_ifs
  · exact .inr rfl
  · exact .inl rfl

theorem wakes_due {m : Mask} (due : Due p sig) (through : has p.uOldmask sig = false) : Due (pselectWakes p (.value m)) sig := by
  refine ⟨due.low,due.high,?_,due.heard,due.acts⟩
  have lets : has (~~~p.uOldmask) sig = true := by
    rw [has_not _ due.high,through]
    rfl
  have before := due.deliverable
  show has (if p.pSvfork then p.pSig &&& ~~~p.uOldmask &&& ~~~stopsigmask else p.pSig &&& ~~~p.uOldmask) sig = true
  rw [Proc.deliverable] at before
  cases vfork : p.pSvfork with
  | true =>
    simp only [vfork,if_true,has_and,Bool.and_eq_true] at before ⊢
    exact ⟨⟨before.1.1,lets⟩,before.2⟩
  | false =>
    simp only [vfork,Bool.false_eq_true,if_false,has_and,Bool.and_eq_true] at before ⊢
    exact ⟨before.1,lets⟩

theorem wakes_own {maskp : Arg Mask} (flag : p.uSasOldmask = given maskp) : ownMask (pselectWakes p maskp) = ownMask p := by
  cases maskp with
  | value m => simp [ownMask,pselectWakes,flag,given]
  | _ => rfl

theorem sigaction_masks (p : Proc ι) (signum : Int) (nsa : Arg Sigaction) (osa : Arg Unit) (sigtramp : Nat) (q : Proc ι)
    (named : q = sigaction p signum nsa osa sigtramp) :
    ownMask q = ownMask p ∧ q.uSasOldmask = p.uSasOldmask ∧ q.stopping = p.stopping := by
  have set : ∀ (p : Proc ι) signum sa, ownMask (setsigvec p signum sa) = ownMask p ∧
      (setsigvec p signum sa).uSasOldmask = p.uSasOldmask ∧ (setsigvec p signum sa).stopping = p.stopping := by
    intro p signum sa
    rw [setsigvec]
    dsimp only
    split_ifs <;> exact ⟨rfl,rfl,rfl⟩
  rw [named,sigaction.eq_def]
  dsimp only
  split
  · exact ⟨rfl,rfl,rfl⟩
  split
  · exact ⟨rfl,rfl,rfl⟩
  · exact ⟨rfl,rfl,rfl⟩
  · exact ⟨rfl,rfl,rfl⟩
  split
  · exact ⟨rfl,rfl,rfl⟩
  · exact set _ _ _

theorem sigprocmask_flags (p : Proc ι) (how : Int) (set : Arg Mask) :
    (sigprocmask p how set).uSasOldmask = p.uSasOldmask ∧ (sigprocmask p how set).stopping = p.stopping := by
  rw [sigprocmask.eq_def]
  split
  · exact ⟨rfl,rfl⟩
  · exact ⟨rfl,rfl⟩
  · split_ifs <;> exact ⟨rfl,rfl⟩

theorem sigprocmask_spares (p : Proc ι) (how : Int) (set : Arg Mask) (spares : Spares p.pSigmask) :
    Spares (sigprocmask p how set).pSigmask := by
  rw [sigprocmask.eq_def]
  split
  · exact spares
  · exact spares
  split_ifs
  · exact spares_or spares (spares_without _)
  · exact spares_and spares _
  · exact spares_without _
  · exact spares

theorem quiet (clear : p.uSasOldmask = false) : InMode p none .out :=
  ⟨fun flag => absurd (clear.symm.trans flag) Bool.false_ne_true,fun _ last => by cases last⟩

/-- In user mode outside of every handler the mask is the one that `sigprocmask` set last,
`SAS_OLDMASK` is clear, and no handler is owed for a signal that only the temporary mask
of a call let through. -/
def Restored (s : Thread ι) : Prop :=
  match s.mode with
  | .user => s.frames = [] → s.proc.pSigmask = s.set ∧ s.proc.uSasOldmask = false ∧ s.ended = none
  | _ => True

theorem Kept.restored (kept : Kept s) : Restored s := by
  have known := kept.modes
  rw [Restored]
  split
  next mode =>
    intro empty
    rw [mode] at known
    have own := kept.own empty
    rw [ownMask,known.1] at own
    exact ⟨own,known.1,known.2⟩
  · trivial

theorem Due.behind {waits : Nat} (due : Due p waits) (unblocked : Unblocked p waits) (low : 1 ≤ sig) (before : sig < waits)
    (there : has p.deliverable sig = true) (caught : p.uSignal sig ≠ sigDfl) (flag : Bool) :
    Due {p.take (sigmask sig) with uSasOldmask := flag,pSigmask := p.pSigmask ||| (p.uSigmask sig ||| sigmask sig)} waits := by
  have later := due.take low (Nat.ne_of_gt before)
  refine ⟨due.low,due.high,?_,later.heard,later.acts⟩
  have other : has (sigmask sig) waits = false := by
    rw [has_sigmask low due.low due.high]
    exact decide_eq_false (Nat.ne_of_gt before)
  refine (deliverable_or (p.take (sigmask sig)) _ flag due.high).trans ?_
  rw [later.deliverable,has_or,other,unblocked sig before low there caught]
  rfl

theorem postsig_kept (kept : Kept s) (out : s.mode = .out) (due : Due s.proc sig)
    (first : ∀ other, 1 ≤ other → other ≤ 32 → has s.proc.deliverable other = true → sig ≤ other) :
    ∃ t, postsig s sig = .ok t ∧ Kept t := by
  obtain ⟨_,unheld⟩ := deliverable_spec due.high due.deliverable
  have known := kept.modes
  rw [out] at known
  rw [postsig]
  dsimp only
  by_cases caught : (s.proc.take (sigmask sig)).uSignal sig = sigDfl
  · rw [if_neg (not_not.mpr caught)]
    exact ⟨_,rfl,kept.spares,kept.own,kept.saved,kept.halted,trivial⟩
  have heard : ¬ ((s.proc.take (sigmask sig)).uSignal sig = sigIgn ∨
    (s.proc.take (sigmask sig)).pSigmask &&& sigmask sig ≠ 0) := by
    rintro (ign | held)
    · rcases due.acts with ⟨_,handled⟩ | ⟨default,_⟩
      · exact handled ign
      · exact caught default
    · exact held ((and_sigmask due.low due.high).mpr unheld)
  rw [if_pos caught,if_neg heard]
  refine ⟨_,rfl,kept.spares,fun empty => absurd empty (cons_ne_nil _ _),?_,kept.halted,?_⟩
  · intro m last
    cases frames : s.frames with
    | nil =>
      simp only [frames,getLast?_singleton,Option.some.injEq] at last
      rw [← last,← kept.own frames]
      rfl
    | cons frame frames' =>
      simp only [frames,getLast?_cons_cons] at last
      exact kept.saved m (by rw [frames]; exact last)
  rw [out]
  refine ⟨fun flag => absurd flag Bool.false_ne_true,fun waits last => ?_⟩
  dsimp only at last
  split_ifs at last with same
  obtain ⟨later,unblocked⟩ := known.2 waits last
  have before : sig < waits := by
    refine Nat.lt_of_le_of_ne (first waits later.low later.high later.deliverable) ?_
    rintro rfl
    exact same last
  refine ⟨later.behind unblocked due.low before due.deliverable caught false,fun other less low there => ?_⟩
  have reach : has (s.proc.take (sigmask sig)).deliverable other = true := by
    have both := (deliverable_or (s.proc.take (sigmask sig)) _ false
      (Nat.le_trans (Nat.le_of_lt less) later.high)).symm.trans there
    simp only [Bool.and_eq_true] at both
    exact both.1
  exact unblocked.take later.high _ other less low reach

variable [DecidableEq ι]

/-- Something is left to deliver after this signal was posted, and what ended the call
is neither taken away nor put behind a handler that blocks it. -/
def Spared (s : Thread ι) (sig : Nat) (q : Proc ι) : Prop :=
  (s.proc.uSasOldmask = true → ∃ due, Due q due) ∧ ∀ waits, s.ended = some waits → has q.pSig waits = true ∧
    (sig < waits → has q.deliverable sig = true → q.uSignal sig ≠ sigDfl → has (q.uSigmask sig) waits = false)

/-- A `pselect` that slept under a mask ends when a signal is due that the own mask lets through, and not for
one that it blocks; and on the way back from it or from a `sigsuspend` the signal that is to be delivered is
spared. -/
def Fair (s : Thread ι) (op : Op) : Prop :=
  match s.mode, op with
  | .out,.post sig => 1 ≤ sig → sig < nsig → Spared s sig (post s.initproc s.proc sig).1
  | .select _ slept,.done => slept = true → ∃ sig, Due s.proc sig
  | .selectSleep maskp,.wakes true => given maskp = true → ∃ sig, Due (pselectWakes s.proc maskp) sig
  | .selectSleep maskp,.look => given maskp = true → ∀ sig, (look s.initproc s.proc).2 = .signal sig →
    has s.proc.uOldmask sig = false
  | _,_ => True

variable {sig : Nat} {p : Proc ι}

theorem post_inMode (kept : Kept s) (low : 1 ≤ sig) (high : sig < nsig) (fair : Fair s (.post sig)) :
    InMode (post s.initproc s.proc sig).1 s.ended s.mode := by
  have same := post_same s.initproc s.proc sig
  have known := kept.modes
  cases mode : s.mode with
  | out =>
    rw [mode] at known
    simp only [Fair,mode] at fair
    obtain ⟨left,spared⟩ := fair low high
    refine ⟨fun flag => left (same.uSasOldmask.symm.trans flag),fun waits last => ?_⟩
    obtain ⟨due,unblocked⟩ := known.2 waits last
    obtain ⟨pending,behind⟩ := spared waits last
    have before := (deliverable_spec due.high due.deliverable).1
    refine ⟨due.same same (pending.trans before.symm),fun other less first there caught => ?_⟩
    rcases eq_or_ne other sig with rfl | ne
    · exact behind less there caught
    have set := (deliverable_spec (Nat.le_trans (Nat.le_of_lt less) due.high) there).1
    have old := (post_pending s.initproc s.proc low first (Nat.le_trans (Nat.le_of_lt less) due.high) set).resolve_left ne
    rw [deliverable_of_same same (set.trans old.symm)] at there
    rw [same.uSignal] at caught
    rw [same.uSigmask]
    exact unblocked other less first there caught
  | dead => trivial
  | user | inside | suspend | selectSleep =>
    rw [mode] at known
    simp only [InMode,same.uSasOldmask]
    exact known
  | select =>
    rw [mode] at known
    simp only [InMode,same.uSasOldmask,same.pSigmask,same.uOldmask]
    exact known

theorem cursig_kept (kept : Kept s) (fair : Fair s .look) : ∃ t, cursig s = .ok t ∧ Kept t := by
  obtain ⟨found,named⟩ : ∃ found, found = look s.initproc s.proc := ⟨_,rfl⟩
  have looked := look_cases s.initproc s.proc
  rw [← named] at looked
  rw [cursig,← named]
  have known := kept.modes
  cases looked with
  | nothing none =>
    cases mode : s.mode with
    | out =>
      rw [mode] at known
      have idle : ∀ sig, ¬ Due s.proc sig := by
        intro sig due
        have there := due.deliverable
        rw [none,has_zero] at there
        cases there
      refine ⟨_,rfl,kept.spares,kept.own,kept.saved,kept.halted,?_,?_⟩
      · by_contra flag
        obtain ⟨sig,due⟩ := known.1 (by simpa using flag)
        exact idle sig due
      cases ended : s.ended with
      | none => rfl
      | some sig => exact absurd (known.2 sig ended).1 (idle sig)
    | _ => exact ⟨_,rfl,kept.with (Same.refl _) known⟩
  | dropped low idle =>
    exact ⟨s.with _,by cases s.mode <;> rfl,kept.with (take_same _ _) (known.take low idle)⟩
  | @stopped sig low default stops =>
    refine ⟨s.with {stop {s.proc with pPtracesig := sig} with stopping := some (sigmask sig)},by cases s.mode <;> rfl,
      kept.spares,kept.own,kept.saved,?_,known.halt _ _ _⟩
    rintro m ⟨⟩
    exact ⟨_,low,rfl,default,stops⟩
  | found due first =>
    cases mode : s.mode with
    | out => exact postsig_kept (kept.with (Same.refl _) known) mode due first
    | suspend => exact ⟨_,rfl,kept.spares,kept.own,kept.saved,kept.halted,ended_kept due first (blocked_cases _ _)⟩
    | selectSleep maskp =>
      rw [mode] at known
      have flag : s.proc.uSasOldmask = given maskp := known.2
      cases maskp with
      | value m =>
        simp only [Fair,mode] at fair
        have through := fair rfl _ (by rw [← named])
        have none : blocked s.proc _ = none := if_neg fun both => absurd (both.2.symm.trans through) (by simp)
        refine ⟨_,rfl,kept.spares,fun empty => ?_,kept.saved,kept.halted,fun _ => ⟨_,wakes_due (m := m) due through⟩,?_⟩
        · exact (wakes_own flag).trans (kept.own empty)
        intro waits last
        rw [none] at last
        cases last
      | _ => exact ⟨_,rfl,kept.spares,kept.own,kept.saved,kept.halted,fun up =>
        absurd (flag.symm.trans up) Bool.false_ne_true,fun _ last => by cases last⟩
    | _ =>
      rw [mode] at known
      refine ⟨_,rfl,kept.with (Same.refl _) ?_⟩
      rw [mode]
      exact known

theorem without_spared {m : Mask} (spares : Spares m) : m &&& ~~~sigcantmask = m := by
  refine mask_ext fun sig low high => ?_
  rw [has_and,has_not _ high,sigcantmask,has_or,has_sigmask (by decide) low high,has_sigmask (by decide) low high]
  rcases eq_or_ne sig sigkill with rfl | kill
  · simp [spares.1]
  rcases eq_or_ne sig sigstop with rfl | stop
  · simp [spares.2]
  · simp [kill,stop]

omit [DecidableEq ι] in
theorem call_kept (kept : Kept s) (user : s.mode = .user) (runs : s.proc.stopping = none) (op : Op) : Kept (call s op) := by
  have known := kept.modes
  rw [user] at known
  obtain ⟨clear,none⟩ := known
  have own : ∀ {q : Proc ι}, q.uSasOldmask = s.proc.uSasOldmask → ownMask q = q.pSigmask := by
    intro q same
    rw [ownMask,same,clear]
    rfl
  have still : ∀ {q : Proc ι}, q.stopping = s.proc.stopping → ∀ m, q.stopping = some m →
      ∃ sig, 1 ≤ sig ∧ m = sigmask sig ∧ q.uSignal sig = sigDfl ∧ prop sig saStop = true := by
    intro q same m stopping
    rw [same,runs] at stopping
    cases stopping
  cases op with
  | sigaction signum nsa osa sigtramp =>
    obtain ⟨masks,flag,stopping⟩ := sigaction_masks s.proc signum nsa osa sigtramp _ rfl
    refine ⟨kept.spares,fun empty => masks.trans (kept.own empty),kept.saved,still stopping,?_⟩
    simp only [call,none]
    exact quiet (flag.trans clear)
  | sigprocmask how set =>
    obtain ⟨flag,stopping⟩ := sigprocmask_flags s.proc how set
    have silent : InMode (call s (.sigprocmask how set)).proc s.ended .out := by
      rw [none]
      exact quiet (flag.trans clear)
    by_cases empty : s.frames = []
    · have mine := kept.own empty
      rw [own rfl] at mine
      refine ⟨?_,fun _ => ?_,fun m last => ?_,still stopping,silent⟩
      · simp only [call,empty,if_true]
        exact sigprocmask_spares s.proc how set (by rw [mine]; exact kept.spares)
      · simp only [call,empty,if_true]
        exact own flag
      · simp [call,empty] at last
    · refine ⟨?_,fun now => absurd now empty,fun m last => ?_,still stopping,silent⟩
      · simp only [call,empty,if_false]
        exact kept.spares
      simp only [call,empty,if_false]
      exact kept.saved m last
  | sigsuspend set =>
    refine ⟨kept.spares,fun empty => ?_,kept.saved,still rfl,rfl,none⟩
    have mine := kept.own empty
    rw [own rfl] at mine
    exact mine
  | pselect maskp =>
    cases maskp with
    | fault =>
      refine ⟨kept.spares,kept.own,kept.saved,still rfl,?_⟩
      simp only [call,none]
      exact quiet clear
    | null => exact ⟨kept.spares,kept.own,kept.saved,still rfl,none,clear,fun up => by cases up⟩
    | value m => exact ⟨kept.spares,kept.own,kept.saved,still rfl,none,clear,fun up => by cases up⟩
  | sigreturn =>
    rw [call]
    cases frames : s.frames with
    | nil => exact kept
    | cons m rest =>
      refine ⟨kept.spares,fun empty => ?_,fun x last => ?_,still rfl,?_⟩
      · have same : m = s.set := kept.saved m (by rw [frames,show rest = [] from empty]; rfl)
        refine (@own (sigreturn s.proc (.value m)) rfl).trans ?_
        rw [same]
        exact without_spared kept.spares
      · cases rest with
        | nil => cases last
        | cons y rest => exact kept.saved x (by rw [frames,getLast?_cons_cons]; exact last)
      · simp only [none]
        exact quiet clear
  | enter => exact ⟨kept.spares,kept.own,kept.saved,still rfl,clear,none⟩
  | _ => exact kept

theorem act_kept (kept : Kept s) (runs : s.proc.stopping = none) (op : Op) (fair : Fair s op) :
    ∃ t, act s op = .ok t ∧ Kept t := by
  have known := kept.modes
  rw [act.eq_def]
  split
  next mode => exact ⟨_,rfl,call_kept kept mode runs _⟩
  next mode =>
    rw [mode] at known
    refine ⟨_,rfl,kept.spares,kept.own,kept.saved,kept.halted,?_⟩
    simp only [known.2]
    exact quiet known.1
  next maskp slept mode =>
    rw [mode] at known
    simp only [Fair,mode] at fair
    refine ⟨_,rfl,kept.spares,kept.own,kept.saved,kept.halted,fun up => fair (known.2.1.symm.trans up),fun _ last => ?_⟩
    exact absurd (known.1.symm.trans last) (by simp)
  next maskp slept mode =>
    rw [mode] at known
    obtain ⟨none,flag,same⟩ := known
    have mine : s.frames = [] → s.proc.pSigmask = s.set := by
      intro empty
      have own := kept.own empty
      rw [ownMask,flag] at own
      cases slept with
      | true => exact (same rfl).2.trans own
      | false => exact own
    cases maskp with
    | value m => exact ⟨_,rfl,kept.spares,mine,kept.saved,kept.halted,none,rfl⟩
    | _ =>
      have never : slept = false := by
        by_contra up
        exact absurd (same (by simpa using up)).1 Bool.false_ne_true
      exact ⟨_,rfl,kept.spares,kept.own,kept.saved,kept.halted,none,flag.trans never⟩
  next maskp timeout mode =>
    rw [mode] at known
    obtain ⟨none,flag⟩ := known
    have own : s.frames = [] → ownMask (pselectWakes s.proc maskp) = s.set :=
      fun empty => (wakes_own flag).trans (kept.own empty)
    have stopping : (pselectWakes s.proc maskp).stopping = s.proc.stopping := by
      cases maskp <;> rfl
    have still : (pselectWakes s.proc maskp).uSasOldmask = s.proc.uSasOldmask := by
      cases maskp <;> rfl
    have halted : ∀ m, (pselectWakes s.proc maskp).stopping = some m →
        ∃ sig, 1 ≤ sig ∧ m = sigmask sig ∧ (pselectWakes s.proc maskp).uSignal sig = sigDfl ∧ prop sig saStop = true := by
      intro m set
      rw [stopping,runs] at set
      cases set
    refine ⟨_,rfl,kept.spares,own,kept.saved,halted,?_⟩
    cases timeout with
    | true =>
      simp only [Fair,mode] at fair
      refine ⟨fun up => fair (flag.symm.trans (still.symm.trans up)),fun _ last => ?_⟩
      exact absurd (none.symm.trans last) (by simp)
    | false =>
      refine ⟨none,still.trans flag,fun up => ⟨up,?_⟩⟩
      cases maskp with
      | value m => rfl
      | _ => cases up
  all_goals try exact cursig_kept kept fair
  exact ⟨s,rfl,kept⟩

theorem step_kept (kept : Kept s) (op : Op) (fair : Fair s op) : ∃ t, step s op = .ok t ∧ Kept t := by
  have acts : ∀ op, Fair s op → ∃ t, (if s.proc.stopping = none then act s op else .ok s) = .ok t ∧ Kept t := by
    intro op fair
    split_ifs with runs
    · exact act_kept kept runs op fair
    · exact ⟨s,rfl,kept⟩
  cases op with
  | post sig =>
    rw [step]
    split_ifs with known
    · have same := post_same s.initproc s.proc sig
      have inMode := post_inMode kept known.1 known.2 fair
      obtain ⟨q,stops,named⟩ : ∃ q stops, post s.initproc s.proc sig = (q,stops) := ⟨_,_,rfl⟩
      rw [named] at same inMode
      rw [named]
      refine ⟨_,rfl,?_⟩
      split_ifs
      · refine kept.with ?_ (inMode.halt .stop _ _)
        exact ⟨same.pSigmask,same.pSigignore,same.uSignal,same.uSigmask,same.uOldmask,same.uSasOldmask,
          same.pSvfork,same.pPid,same.stopping⟩
      · exact kept.with same inMode
    · exact ⟨s,rfl,kept⟩
  | resume =>
    rw [step]
    cases stopping : s.proc.stopping with
    | none => exact ⟨s,rfl,kept⟩
    | some mask =>
      obtain ⟨sig,low,rfl,default,stops⟩ := kept.halted mask stopping
      have idle : ¬ Due s.proc sig := by
        intro due
        rcases due.acts with ⟨caught,_⟩ | ⟨_,_,still,_⟩
        · exact caught default
        · exact absurd (stops.symm.trans still) (by simp)
      refine ⟨_,rfl,kept.spares,kept.own,kept.saved,fun m set => (Option.some_ne_none m set.symm).elim,?_⟩
      exact (kept.modes.take low idle).halt _ _ none
  | sched stat sintr wchan pri nice =>
    refine ⟨_,rfl,kept.with ⟨rfl,rfl,rfl,rfl,rfl,rfl,rfl,rfl,rfl⟩ ?_⟩
    refine kept.modes.less ⟨rfl,rfl,rfl,rfl,rfl,rfl,rfl,rfl,rfl⟩ (fun _ _ _ set => set) fun sig due => ?_
    exact ⟨due.low,due.high,due.deliverable,due.heard,due.acts⟩
  | _ => exact acts _ fair

/-- Signal masks, for every run of a process: while its steps are fair, every state that it
reaches is restored. -/
theorem masks_restored (initproc : ι) (p : Proc ι) (spares : Spares p.pSigmask) (ops : List Op)
    (fair : Along step Fair (start initproc p) ops) : ∃ t, run step (start initproc p) ops = .ok t ∧ Restored t := by
  have begun : Kept (start initproc p) := ⟨spares,fun _ => rfl,fun m last => absurd last (by simp [start]),
    fun m set => absurd set (by simp [start]),rfl,rfl⟩
  obtain ⟨t,ran,kept⟩ := run_total (fun s op kept fair => step_kept kept op fair) ops _ begun fair
  exact ⟨t,ran,kept.restored⟩

end

def someProc : Proc Nat where
  pSig := 0
  pSigmask := 0
  pSigignore := siginit
  pSigcatch := sigmask 30
  pStat := .run
  pSintr := false
  pSvfork := false
  pNocldstop := false
  pWchan := 0
  pNice := nzero
  pPri := puser
  pPid := 7
  pPptr := 3
  pPtracesig := 0
  uSignal := update (fun _ => sigDfl) 30 256
  uSigmask _ := 0
  uSigintr := 0
  uSigonstack := 0
  uOldmask := 0
  uSasOldmask := false
  uSigtramp := 64
  stopping := none
  exiting := false

/-- Signal 30 is blocked, `sigsuspend` waits for it, its handler runs and returns. -/
def someOps : List Op := [.sigprocmask 3 (.value (sigmask 30)),.look,.sigsuspend (.value 0),.look,.post 30,.look,.look,
    .look,.sigreturn,.look]

def Plain (s : Thread Nat) (op : Op) : Bool :=
  match s.mode, op with
  | .out,.post _ | .select _ _,.done | .selectSleep _,.wakes _ | .selectSleep _,.look => false
  | _,_ => true

theorem Plain.fair (s : Thread Nat) (op : Op) (plain : Plain s op = true) : Fair s op := by
  cases mode : s.mode <;> cases op <;> simp_all [Plain,Fair]

theorem masks_restored_someOps : Spares someProc.pSigmask ∧ Along step Fair (start 1 someProc) someOps ∧
    ∃ t, run step (start 1 someProc) someOps = .ok t ∧ Restored t := by
  have fair : Along step Fair (start 1 someProc) someOps := Along.imp Plain.fair (by decide)
  have spares : Spares someProc.pSigmask := ⟨by decide,by decide⟩
  exact ⟨spares,fair,masks_restored 1 someProc spares someOps fair⟩

def selectOps : List Op := [.sigprocmask 3 (.value (sigmask 30)),.look,.pselect (.value 0),.sleeps,.post 30,.look,.look]

theorem pselect_loses : ¬ ∀ ops, ∃ t, run step (start 1 someProc) ops = .ok t ∧ Restored t := by
  intro every
  obtain ⟨t,ran,restored⟩ := every selectOps
  have back : returns (fun t => (t.mode matches .user) && t.frames.isEmpty && t.proc.uSasOldmask)
    (run step (start 1 someProc) selectOps) = true := by
    decide
  obtain ⟨r,again,left⟩ := of_returns back
  cases ran.symm.trans again
  simp only [Bool.and_eq_true,List.isEmpty_iff] at left
  obtain ⟨⟨mode,empty⟩,flag⟩ := left
  rw [Restored] at restored
  split at restored
  · exact absurd ((restored empty).2.1.symm.trans flag) Bool.false_ne_true
  · simp at mode

end Retrobsd.SignalMasks

import Retrobsd.SignalState

/-! What the system calls, `exec` and the delivery of a signal make of the signal
state of the process that they are for. -/
namespace Retrobsd.Signals
open Function

section
variable {ι : Type}

theorem has_add (m : Mask) {s sig : Nat} (low : 1 ≤ s) (first : 1 ≤ sig) (last : sig ≤ 32) :
    has (m ||| sigmask s) sig = (has m sig || decide (sig = s)) := by
  rw [has_or,has_sigmask low first last]

theorem has_drop (m : Mask) {s sig : Nat} (low : 1 ≤ s) (first : 1 ≤ sig) (last : sig ≤ 32) :
    has (m &&& ~~~sigmask s) sig = (has m sig && !decide (sig = s)) := by
  rw [has_and,has_not _ last,has_sigmask low first last]

variable {p : Proc ι}

section
variable (consistent : Consistent p)
include consistent

theorem consistent_update {q : Proc ι} {signum handle : Nat} (low : 1 ≤ signum)
    (high : signum < nsig) (kill : signum ≠ sigkill) (stop : signum ≠ sigstop)
    (held : Spares q.pSigmask) (oldmask : q.uOldmask = p.uOldmask) (masks : ∀ sig, Spares (q.uSigmask sig))
    (uSignal : q.uSignal = update p.uSignal signum handle)
    (pSig : Lessens p {p with pSig := q.pSig})
    (caught : ∀ sig, 1 ≤ sig → sig ≤ 32 → (has q.pSigcatch sig ↔ if sig = signum then handler handle else has p.pSigcatch sig))
    (ignored : ∀ sig, 1 ≤ sig → sig ≤ 32 → (has q.pSigignore sig ↔ if sig = signum then
      sig ≠ sigcont ∧ (handle = sigIgn ∨ handle = sigDfl ∧ prop sig saIgnore) else has p.pSigignore sig))
    (gone : has q.pSig signum → has q.pSigignore signum = false) : Consistent q := by
  have apart : ∀ other, 1 ≤ other → other ≤ 32 → other ≠ signum →
      has q.pSigcatch other = has p.pSigcatch other ∧ has q.pSigignore other = has p.pSigignore other := by
    intro other first last ne
    have same := caught other first last
    have same' := ignored other first last
    rw [if_neg ne] at same same'
    exact ⟨Bool.eq_iff_iff.mpr same,Bool.eq_iff_iff.mpr same'⟩
  have less := pSig.consistent consistent
  refine ⟨held,?_,?_,?_,?_,?_,less.stops,?_,oldmask ▸ consistent.oldmask,masks⟩
  · constructor
    · rw [(apart sigkill (by decide) (by decide) kill.symm).2,consistent.ignored.1]
    · rw [(apart sigstop (by decide) (by decide) stop.symm).2,consistent.ignored.2]
  · constructor
    · rw [(apart sigkill (by decide) (by decide) kill.symm).1,consistent.caught.1]
    · rw [(apart sigstop (by decide) (by decide) stop.symm).1,consistent.caught.2]
  · intro sig first last
    rw [caught sig first (Nat.le_of_lt last),uSignal]
    by_cases same : sig = signum
    · simp [same]
    · simp [same,consistent.catch_iff sig first last]
  · intro sig first last
    rw [ignored sig first (Nat.le_of_lt last),uSignal]
    by_cases same : sig = signum
    · simp [same]
    · simp [same,consistent.ignore_iff sig first last]
  · intro sig first last set
    by_cases same : sig = signum
    · subst same
      exact gone set
    rw [(apart sig first last same).2]
    exact less.pending sig first last set
  · have last := apart nsig (by decide) (by decide) (Nat.ne_of_gt high)
    rw [last.1,last.2]
    exact less.signals

theorem setsigvec_consistent {signum : Nat} (low : 1 ≤ signum)
    (high : signum < nsig) (kill : signum ≠ sigkill) (stop : signum ≠ sigstop) (sa : Sigaction) :
    Consistent (setsigvec p signum sa) := by
  have masks : ∀ sig, Spares (update p.uSigmask signum (sa.saMask &&& ~~~sigcantmask) sig) := by
    intro sig
    rw [update_apply]
    split
    · exact spares_without _
    · exact consistent.masks sig
  rw [setsigvec]
  dsimp only
  split
  · next unseen =>
    apply consistent_update consistent low high kill stop
    · exact consistent.held
    · rfl
    · exact masks
    · rfl
    · exact take_lessens p (sigmask signum)
    · intro sig first last
      rw [has_drop _ low first last]
      by_cases same : sig = signum
      · simp only [same,decide_true,Bool.not_true,Bool.and_false,if_true,handler]
        grind
      · simp [same]
    · intro sig first last
      by_cases same : sig = signum
      · subst same
        simp only [if_true]
        split
        · next other =>
          rw [has_add _ low first last]
          simp only [decide_true,Bool.or_true,ne_eq,other,not_false_eq_true,true_and,true_iff]
          grind
        next cont =>
        have mine : has p.pSigignore sig = false := by
          have iff := consistent.ignore_iff sig low high
          grind
        simp only [mine]
        grind
      · simp only [same,if_false]
        split
        · rw [has_add _ low first last]
          simp [same]
        · exact Iff.rfl
    · intro set
      simp only [Proc.take] at set
      rw [has_drop _ low low (Nat.le_of_lt high)] at set
      simp at set
  · next seen =>
    apply consistent_update consistent low high kill stop
    · exact consistent.held
    · rfl
    · exact masks
    · rfl
    · exact Lessens.refl p
    · intro sig first last
      by_cases same : sig = signum
      · subst same
        simp only [if_true,handler]
        split
        · next dfl =>
          rw [has_drop _ low first last]
          simp [dfl]
        next caught =>
        rw [has_add _ low first last]
        simp only [decide_true,Bool.or_true,true_iff]
        grind
      · simp only [same,if_false]
        split
        · rw [has_drop _ low first last]
          simp [same]
        rw [has_add _ low first last]
        simp [same]
    · intro sig first last
      rw [has_drop _ low first last]
      by_cases same : sig = signum
      · subst same
        simp only [decide_true,Bool.not_true,Bool.and_false,if_true]
        grind
      · simp [same]
    · intro _
      rw [has_drop _ low low (Nat.le_of_lt high)]
      simp

theorem sigaction_consistent (signum : Int) (nsa : Arg Sigaction) (osa : Arg Unit)
    (sigtramp : Nat) : Consistent (sigaction p signum nsa osa sigtramp) := by
  have start : Consistent {p with uSigtramp := sigtramp} := {consistent with}
  unfold sigaction
  dsimp only
  split
  · exact start
  next known =>
  split
  · exact start
  · exact start
  · exact start
  split
  · exact start
  next free =>
  rw [not_or] at known free
  have high : signum < 32 := Int.not_le.mp known.2
  apply setsigvec_consistent start _ _ free.1 free.2
  · omega
  change signum.toNat < 32
  omega

theorem consistent_mask {m : Mask} (spares : Spares m) : Consistent {p with pSigmask := m} := {consistent with held := spares}

theorem sigprocmask_consistent (how : Int) (set : Arg Mask) : Consistent (sigprocmask p how set) := by
  cases set with
  | null => exact consistent
  | fault => exact consistent
  | value newmask =>
    rw [sigprocmask]
    split_ifs
    · exact consistent_mask consistent (spares_or consistent.held (spares_without _))
    · exact consistent_mask consistent (spares_and consistent.held _)
    · exact consistent_mask consistent (spares_without _)
    · exact consistent

theorem sigsuspend_consistent (set : Arg Mask) : Consistent (sigsuspend p set) :=
  {consistent with held := spares_without _,oldmask := consistent.held}

theorem pselectSleeps_consistent (maskp : Arg Mask) : Consistent (pselectSleeps p maskp) := by
  cases maskp with
  | null => exact consistent
  | fault => exact consistent
  | value sigmsk => exact {consistent with held := spares_without _,oldmask := consistent.held}

theorem pselectWakes_consistent (maskp : Arg Mask) : Consistent (pselectWakes p maskp) := by
  cases maskp with
  | null => exact consistent
  | fault => exact consistent
  | value sigmsk => exact consistent_mask consistent consistent.oldmask

theorem sigreturn_consistent (scp : Arg Mask) : Consistent (sigreturn p scp) := by
  cases scp with
  | null => exact consistent
  | fault => exact consistent
  | value scMask => exact consistent_mask consistent (spares_without _)

end

end

section
variable {ι : Type}

theorem reset_consistent {p : Proc ι} (consistent : Consistent p) {nc : Nat} (low : 1 ≤ nc) (last : nc ≤ 32)
    (set : has p.pSigcatch nc) : Consistent (p.reset nc) := by
  have differs : ∀ {sig : Nat}, has p.pSigcatch sig = false → nc ≠ sig := by
    rintro sig absent rfl
    rw [set] at absent
    cases absent
  have high : nc < nsig := Nat.lt_of_le_of_ne last (differs consistent.signals.2.1)
  have kill := differs consistent.caught.1
  have stop := differs consistent.caught.2
  have action := (consistent.catch_iff nc low high).mp set
  have heard : has p.pSigignore nc = false := by
    have iff := consistent.ignore_iff nc low high
    rw [handler] at action
    grind
  have dropped : ∀ sig, 1 ≤ sig → sig ≤ 32 →
      (has (p.pSigcatch &&& ~~~sigmask nc) sig ↔ if sig = nc then handler sigDfl else has p.pSigcatch sig) := by
    intro sig first last
    rw [has_drop _ low first last]
    by_cases same : sig = nc
    · simp [same,handler]
    · simp [same]
  rw [Proc.reset]
  dsimp only
  split
  · next ignore =>
    apply consistent_update consistent low high kill stop
    · exact consistent.held
    · rfl
    · exact consistent.masks
    · rfl
    · exact take_lessens p (sigmask nc)
    · exact dropped
    · intro sig first last
      by_cases same : sig = nc
      · subst same
        by_cases cont : sig = sigcont
        · rw [if_pos rfl,if_neg (not_not.mpr cont)]
          simp [cont,← cont ▸ heard]
        rw [if_pos rfl,if_pos cont,has_add _ low first last]
        simp [cont,ignore]
      · rw [if_neg same]
        split
        · rw [has_add _ low first last]
          simp [same]
        · rfl
    · intro present
      simp only [Proc.take] at present
      rw [has_drop _ low low last] at present
      simp at present
  · next keep =>
    apply consistent_update consistent low high kill stop
    · exact consistent.held
    · rfl
    · exact consistent.masks
    · rfl
    · exact Lessens.refl p
    · exact dropped
    · intro sig first last
      by_cases same : sig = nc
      · rw [if_pos same,same]
        simp [heard,keep,sigDfl,sigIgn]
      · rw [if_neg same]
    · intro _
      exact heard

def signals (m : Mask) : Finset Nat := (Finset.Icc 1 32).filter fun sig => has m sig

theorem mem_signals {m : Mask} {sig : Nat} : sig ∈ signals m ↔ (1 ≤ sig ∧ sig ≤ 32) ∧ has m sig := by
  simp [signals]

theorem reset_pSigcatch (p : Proc ι) (nc : Nat) : (p.reset nc).pSigcatch = p.pSigcatch &&& ~~~sigmask nc := by
  rw [Proc.reset]
  dsimp only
  split <;> rfl

theorem reset_signals (p : Proc ι) {nc : Nat} (low : 1 ≤ nc) :
    signals (p.reset nc).pSigcatch = (signals p.pSigcatch).erase nc := by
  ext sig
  rw [Finset.mem_erase,mem_signals,mem_signals,reset_pSigcatch]
  constructor
  · rintro ⟨⟨first,last⟩,set⟩
    rw [has_drop _ low first last] at set
    simp only [Bool.and_eq_true,Bool.not_eq_true',decide_eq_false_iff_not] at set
    exact ⟨set.2,⟨first,last⟩,set.1⟩
  · rintro ⟨ne,⟨first,last⟩,set⟩
    rw [has_drop _ low first last]
    simp [first,last,set,ne]

theorem reset_stays (p : Proc ι) (nc : Nat) : Stays p (p.reset nc) := by
  rw [Proc.reset]
  dsimp only
  split <;> exact ⟨rfl,rfl,rfl,Iff.rfl,Iff.rfl⟩

theorem execsigsLoop_ok : ∀ (turns : Nat) {p : Proc ι}, Consistent p → (signals p.pSigcatch).card ≤ turns →
    ∃ q, execsigsLoop turns p = .ok q ∧ Consistent q ∧ Stays p q
  | 0,p,consistent,few => by
    have none : p.pSigcatch = 0 := by
      rw [mask_eq_zero]
      intro sig first last
      by_contra set
      rw [Bool.not_eq_false] at set
      have member : sig ∈ signals p.pSigcatch := mem_signals.mpr ⟨⟨first,last⟩,set⟩
      rw [Finset.card_eq_zero.mp (Nat.le_zero.mp few)] at member
      simp at member
    exact ⟨p,by rw [execsigsLoop,if_pos none],consistent,Stays.refl p⟩
  | turns + 1,p,consistent,few => by
    by_cases none : p.pSigcatch = 0
    · exact ⟨p,by rw [execsigsLoop,if_pos none],consistent,Stays.refl p⟩
    obtain ⟨low,last,set⟩ := ffs_spec none
    have fewer : (signals (p.reset (ffs p.pSigcatch)).pSigcatch).card ≤ turns := by
      rw [reset_signals p low,Finset.card_erase_of_mem (mem_signals.mpr ⟨⟨low,last⟩,set⟩)]
      omega
    obtain ⟨q,ok,after,stays⟩ := execsigsLoop_ok turns (reset_consistent consistent low last set) fewer
    exact ⟨q,by rw [execsigsLoop,if_neg none,ok],after,(reset_stays p _).trans stays⟩

theorem execsigs_ok {p : Proc ι} (consistent : Consistent p) : ∃ q, execsigs p = .ok q ∧ Consistent q ∧ Stays p q := by
  have few : (signals p.pSigcatch).card ≤ 32 := by
    apply (Finset.card_filter_le _ _).trans
    simp
  obtain ⟨q,ok,after,stays⟩ := execsigsLoop_ok 32 consistent few
  refine ⟨{q with uSasOldmask := false},?_,{after with},{stays with}⟩
  rw [execsigs,ok]
  rfl

theorem reset_masks_consistent {p : Proc ι} (consistent : Consistent p) {sig : Nat} (low : 1 ≤ sig) (high : sig < nsig)
    (kill : sig ≠ sigkill) (stop : sig ≠ sigstop) (fatal : prop sig saIgnore = false) :
    Consistent {p with
      uSignal := update p.uSignal sig sigDfl
      pSigignore := p.pSigignore &&& ~~~sigmask sig
      pSigcatch := p.pSigcatch &&& ~~~sigmask sig
      pSigmask := p.pSigmask &&& ~~~sigmask sig} := by
  apply consistent_update consistent low high kill stop
  · exact spares_and consistent.held _
  · rfl
  · exact consistent.masks
  · rfl
  · exact Lessens.refl p
  · intro other first last
    rw [has_drop _ low first last]
    by_cases same : other = sig
    · simp [same,handler]
    · simp [same]
  · intro other first last
    rw [has_drop _ low first last]
    by_cases same : other = sig
    · simp [same,fatal,sigDfl,sigIgn]
    · simp [same]
  · intro _
    rw [has_drop _ low low (Nat.le_of_lt high)]
    simp

end

end Retrobsd.Signals

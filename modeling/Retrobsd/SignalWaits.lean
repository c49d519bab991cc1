import Retrobsd.SignalRestoration

/-! The loop of `sigwait`. Its `tsleep` comes back at once while `issignal` hands a signal
out, which `sigwait` neither takes nor looks at. -/
namespace Retrobsd.SignalWaits
open Signals SignalMasks

variable {ι : Type}

theorem take_lt (q : Proc ι) {sig : Nat} (low : 1 ≤ sig) (high : sig ≤ 32) (set : has q.pSig sig = true) :
    (q.take (sigmask sig)).pSig.toNat < q.pSig.toNat := by
  have less : (q.take (sigmask sig)).pSig.toNat ≤ q.pSig.toNat := by
    rw [Proc.take,BitVec.toNat_and]
    exact Nat.and_le_left
  apply Nat.lt_of_le_of_ne less
  intro same
  have gone : has (q.take (sigmask sig)).pSig sig = false := by
    rw [Proc.take,has_and,has_not _ high,has_sigmask low low high]
    simp
  rw [BitVec.eq_of_toNat_eq same,set] at gone
  cases gone

variable [DecidableEq ι]

/-- A turn of the loop of `issignal` for a process that may be traced. One that stops has given
up the processor. -/
def turn (initproc : ι) (traced : Bool) (q : Proc ι) : Proc ι × Found :=
  if q.deliverable = 0 then (q,.nothing)
  else
    let sig := ffs q.deliverable
    let mask := sigmask sig
    if mask &&& q.pSigignore ≠ 0 ∧ ¬ traced then (q.take mask,.again)
    else if traced ∧ ¬ q.pSvfork then ({stop (q.take mask) with pPtracesig := sig},.stopped)
    else if q.uSignal sig = sigDfl then
      if q.pPid ≤ 1 then (q.take mask,.again)
      else if prop sig saStop then
        if traced ∨ q.pPptr = initproc ∧ prop sig saTtystop then (q.take mask,.again)
        else ({stop {q with pPtracesig := sig} with stopping := some mask},.stopped)
      else if prop sig saIgnore then (q.take mask,.again)
      else (q,.signal sig)
    else if q.uSignal sig = sigIgn then (q.take mask,.again)
    else (q,.signal sig)

theorem turn_lt {initproc : ι} {traced : Bool} {q t : Proc ι} (again : turn initproc traced q = (t,.again)) :
    t.pSig.toNat < q.pSig.toNat := by
  by_cases none : q.deliverable = 0
  · rw [turn,if_pos none] at again
    cases again
  obtain ⟨low,high,there⟩ := ffs_spec none
  have less := take_lt q low high (deliverable_spec high there).1
  rw [turn,if_neg none] at again
  dsimp only at again
  split_ifs at again <;> cases again <;> exact less

def issignal (initproc : ι) (traced : Bool) (q : Proc ι) : Proc ι × Found :=
  match _looked : turn initproc traced q with
  | (t,.again) => issignal initproc traced t
  | r => r
termination_by q.pSig.toNat
decreasing_by exact turn_lt _looked

def cursig (initproc : ι) (traced : Bool) (q : Proc ι) : Proc ι × Found :=
  if q.pSig = 0 ∨ ¬ traced ∧ q.pSig &&& ~~~q.pSigmask = 0 then (q,.nothing) else issignal initproc traced q

/-- What `tsleep` comes to: it has given up the processor, or it is back at once. -/
inductive Slept where
  | gaveUp
  | back
deriving DecidableEq

/-- `tsleep (&u.u_signal[0], PPAUSE|PCATCH, 0)` up to where it gives up the processor.
`wchan` is the address that it sleeps on. -/
def tsleep (initproc : ι) (panicstr traced : Bool) (wchan : Nat) (q : Proc ι) : Proc ι × Slept :=
  if panicstr then (q,.back)
  else match cursig initproc traced {q with pWchan := wchan,pSintr := true} with
    | (q,.signal _) => ({q with pWchan := 0,pStat := .run,pSintr := false},.back)
    | (q,.stopped) => (q,.gaveUp)
    | (q,_) => ({q with pStat := .sleep},.gaveUp)

inductive Iteration where
  | found
  | slept
  | spun
deriving DecidableEq

def iteration (initproc : ι) (panicstr traced : Bool) (wchan : Nat) (wanted : Mask) (q : Proc ι) : Proc ι × Iteration :=
  if wanted &&& q.pSig ≠ 0 then (q,.found)
  else match tsleep initproc panicstr traced wchan q with
    | (q,.gaveUp) => (q,.slept)
    | (q,.back) => (q,.spun)

section

def Heard (traced : Bool) (q : Proc ι) (sig : Nat) : Prop := has q.pSigignore sig = false ∨ traced = true

def Stops (initproc : ι) (traced : Bool) (q : Proc ι) (sig : Nat) : Prop :=
  Heard traced q sig ∧ q.uSignal sig = sigDfl ∧ 1 < q.pPid ∧ prop sig saStop = true ∧ traced = false ∧
    ¬ (q.pPptr = initproc ∧ prop sig saTtystop = true)

/-- A signal that is not blocked is caught or fatal, and none before it stops the process. -/
structure Handed (initproc : ι) (traced : Bool) (q : Proc ι) (sig : Nat) : Prop where
  low : 1 ≤ sig
  high : sig ≤ 32
  deliverable : has q.deliverable sig = true
  heard : Heard traced q sig
  acts : Acts q sig
  first : ∀ other < sig, 1 ≤ other → has q.deliverable other = true → ¬ Stops initproc traced q other

def Spins (initproc : ι) (traced : Bool) (q : Proc ι) : Prop :=
    (traced = true → q.pSvfork = true) ∧ ∃ sig, Handed initproc traced q sig

variable {initproc : ι} {traced : Bool} {q t : Proc ι} {sig : Nat}

omit [DecidableEq ι] in
theorem heard_iff (low : 1 ≤ sig) (high : sig ≤ 32) : Heard traced q sig ↔ ¬ (sigmask sig &&& q.pSigignore ≠ 0 ∧ ¬ traced) := by
  rw [Heard,BitVec.and_comm,not_and_or,not_not,not_not,and_sigmask low high]

inductive Turned (initproc : ι) (traced : Bool) (q : Proc ι) : Proc ι × Found → Prop where
  | nothing (none : q.deliverable = 0) : Turned initproc traced q (q,.nothing)
  | dropped (some : q.deliverable ≠ 0) (idle : ¬ (Heard traced q (ffs q.deliverable) ∧ Acts q (ffs q.deliverable)))
      (goes : ¬ Stops initproc traced q (ffs q.deliverable)) :
      Turned initproc traced q (q.take (sigmask (ffs q.deliverable)),.again)
  | traced {t : Proc ι} (some : q.deliverable ≠ 0) (own : traced = true) (away : q.pSvfork = false) :
    Turned initproc traced q (t,.stopped)
  | stopped {t : Proc ι} (some : q.deliverable ≠ 0) (stops : Stops initproc traced q (ffs q.deliverable)) :
      Turned initproc traced q (t,.stopped)
  | signal (some : q.deliverable ≠ 0) (stays : traced = true → q.pSvfork = true) (heard : Heard traced q (ffs q.deliverable))
      (acts : Acts q (ffs q.deliverable)) : Turned initproc traced q (q,.signal (ffs q.deliverable))

theorem turn_cases (initproc : ι) (traced : Bool) (q : Proc ι) : Turned initproc traced q (turn initproc traced q) := by
  rw [turn]
  by_cases none : q.deliverable = 0
  · rw [if_pos none]
    exact .nothing none
  rw [if_neg none]
  obtain ⟨low,high,there⟩ := ffs_spec none
  dsimp only
  split_ifs with ignored away dfl system stops passed quiet ign
  · have unheard : ¬ Heard traced q (ffs q.deliverable) := fun heard => (heard_iff low high).mp heard ignored
    exact .dropped none (fun acts => unheard acts.1) fun stops => unheard stops.1
  · exact .traced none away.1 (by simpa using away.2)
  · refine .dropped none (fun acts => ?_) fun stops => absurd stops.2.2.1 (by omega)
    rcases acts.2 with ⟨caught,_⟩ | ⟨_,user,_⟩
    · exact caught dfl
    · omega
  · refine .dropped none (fun acts => ?_) fun halts => ?_
    · rcases acts.2 with ⟨caught,_⟩ | ⟨_,_,still,_⟩
      · exact caught dfl
      · exact absurd (stops.symm.trans still) (by simp)
    rcases passed with own | orphan
    · exact absurd (own.symm.trans halts.2.2.2.2.1) (by simp)
    · exact halts.2.2.2.2.2 orphan
  · rw [not_or] at passed
    exact .stopped none ⟨(heard_iff low high).mpr ignored,dfl,by omega,stops,by simpa using passed.1,passed.2⟩
  · refine .dropped none (fun acts => ?_) fun halts => stops halts.2.2.2.1
    rcases acts.2 with ⟨caught,_⟩ | ⟨_,_,_,loud⟩
    · exact caught dfl
    · exact absurd (quiet.symm.trans loud) (by simp)
  · exact .signal none (by simpa using away) ((heard_iff low high).mpr ignored)
      (.inr ⟨dfl,by omega,by simpa using stops,by simpa using quiet⟩)
  · refine .dropped none (fun acts => ?_) fun halts => dfl halts.2.1
    rcases acts.2 with ⟨_,caught⟩ | ⟨other,_⟩
    · exact caught ign
    · exact dfl other
  · exact .signal none (by simpa using away) ((heard_iff low high).mpr ignored) (.inl ⟨dfl,ign⟩)

omit [DecidableEq ι] in
theorem deliverable_take {mask : Mask} {other : Nat} (there : has (q.take mask).deliverable other = true) :
    has q.deliverable other = true := by
  unfold Proc.deliverable Proc.take at *
  dsimp only at there
  by_cases away : q.pSvfork = true <;> simp_all

omit [DecidableEq ι] in
theorem handed_take (low : 1 ≤ sig) (idle : ¬ (Heard traced q sig ∧ Acts q sig))
    (goes : ¬ Stops initproc traced q sig) (s : Nat) :
    Handed initproc traced (q.take (sigmask sig)) s ↔ Handed initproc traced q s := by
  have kept : ∀ other, 1 ≤ other → other ≤ 32 → other ≠ sig →
      has (q.take (sigmask sig)).deliverable other = has q.deliverable other := fun other first last ne =>
    deliverable_of_same (take_same q _) (has_take q low first last ne)
  constructor
  · intro handed
    have ne : s ≠ sig := by
      rintro rfl
      exact idle ⟨handed.heard,handed.acts⟩
    refine ⟨handed.low,handed.high,?_,handed.heard,handed.acts,?_⟩
    · rw [← kept s handed.low handed.high ne]
      exact handed.deliverable
    intro other before first there
    by_cases same : other = sig
    · rw [same]
      exact goes
    · exact handed.first other before first ((kept other first (by have := handed.high; omega) same).trans there)
  · intro handed
    have ne : s ≠ sig := by
      rintro rfl
      exact idle ⟨handed.heard,handed.acts⟩
    refine ⟨handed.low,handed.high,?_,handed.heard,handed.acts,?_⟩
    · rw [kept s handed.low handed.high ne]
      exact handed.deliverable
    intro other before first there
    exact handed.first other before first (deliverable_take there)

omit [DecidableEq ι] in
theorem spins_take (low : 1 ≤ sig) (idle : ¬ (Heard traced q sig ∧ Acts q sig)) (goes : ¬ Stops initproc traced q sig) :
    Spins initproc traced (q.take (sigmask sig)) ↔ Spins initproc traced q :=
  and_congr_right' (exists_congr (handed_take low idle goes))

omit [DecidableEq ι] in
theorem not_spins {found : Found} (turned : Turned initproc traced q (t,found)) (quiet : found = .nothing ∨ found = .stopped) :
    ¬ Spins initproc traced q := by
  rintro ⟨stays,sig,handed⟩
  cases turned with
  | nothing none =>
    have there := handed.deliverable
    rw [none,has_zero] at there
    cases there
  | dropped some idle goes => simp at quiet
  | traced some own away => exact absurd (stays own) (by simp [away])
  | stopped some stops =>
    obtain ⟨low,high,there⟩ := ffs_spec some
    have least := ffs_le handed.low handed.high handed.deliverable
    rcases Nat.lt_or_eq_of_le least with before | same
    · exact handed.first _ before low there stops
    rcases handed.acts with ⟨caught,_⟩ | ⟨_,_,still,_⟩
    · exact caught (same ▸ stops.2.1)
    rw [← same] at still
    exact absurd (stops.2.2.2.1.symm.trans still) (by simp)
  | signal some stays heard acts => simp at quiet

theorem issignal_spins : (∃ t s, issignal initproc traced q = (t,.signal s)) ↔ Spins initproc traced q := by
  fun_induction issignal initproc traced q with
  | case1 q t again ih =>
    have turned := turn_cases initproc traced q
    rw [again] at turned
    cases turned with
    | dropped some idle goes => exact ih.trans (spins_take (ffs_spec some).1 idle goes)
  | case2 q final =>
    have turned := turn_cases initproc traced q
    generalize turn initproc traced q = r at turned final ⊢
    obtain ⟨t,found⟩ := r
    cases found with
    | nothing =>
      refine iff_of_false ?_ (not_spins turned (.inl rfl))
      rintro ⟨_,_,same⟩
      cases same
    | again => exact (final t rfl).elim
    | stopped =>
      refine iff_of_false ?_ (not_spins turned (.inr rfl))
      rintro ⟨_,_,same⟩
      cases same
    | signal sig =>
      refine iff_of_true ⟨t,sig,rfl⟩ ?_
      cases turned with
      | signal some stays heard acts =>
        obtain ⟨low,high,there⟩ := ffs_spec some
        refine ⟨stays,_,low,high,there,heard,acts,?_⟩
        intro other before first set
        have least := ffs_le first (by omega) set
        omega

theorem cursig_spins : (∃ t s, cursig initproc traced q = (t,.signal s)) ↔ Spins initproc traced q := by
  rw [cursig]
  split
  · next none =>
    refine iff_of_false ?_ ?_
    · rintro ⟨_,_,same⟩
      cases same
    rintro ⟨-,sig,handed⟩
    obtain ⟨pending,unheld⟩ := deliverable_spec handed.high handed.deliverable
    rcases none with none | ⟨-,none⟩
    · rw [none,has_zero] at pending
      cases pending
    have there : has (q.pSig &&& ~~~q.pSigmask) sig = true := by
      rw [has_and,has_not _ handed.high,pending,unheld]
      rfl
    rw [none,has_zero] at there
    cases there
  · exact issignal_spins

omit [DecidableEq ι] in
theorem spins_asleep (wchan : Nat) (sintr : Bool) :
    Spins initproc traced {q with pWchan := wchan,pSintr := sintr} ↔ Spins initproc traced q :=
  and_congr_right' (exists_congr fun _ =>
    ⟨fun handed => ⟨handed.low,handed.high,handed.deliverable,handed.heard,handed.acts,handed.first⟩,
      fun handed => ⟨handed.low,handed.high,handed.deliverable,handed.heard,handed.acts,handed.first⟩⟩)

theorem tsleep_spins {panicstr : Bool} {wchan : Nat} :
    (tsleep initproc panicstr traced wchan q).2 = .back ↔ panicstr = true ∨ Spins initproc traced q := by
  rw [tsleep,← spins_asleep wchan true,← cursig_spins]
  split
  · next panics => exact iff_of_true rfl (.inl panics)
  next runs =>
  split
  · next t sig looked => exact iff_of_true rfl (.inr ⟨t,sig,looked⟩)
  · next t looked =>
    refine iff_of_false nofun (not_or.mpr ⟨runs,?_⟩)
    rintro ⟨_,_,same⟩
    cases looked.symm.trans same
  next t found other _ looked =>
  refine iff_of_false nofun (not_or.mpr ⟨runs,?_⟩)
  rintro ⟨u,sig,same⟩
  obtain ⟨rfl,rfl⟩ := Prod.mk.inj (looked.symm.trans same)
  exact other sig rfl

theorem iteration_spins {panicstr : Bool} {wchan : Nat} {wanted : Mask} :
    (iteration initproc panicstr traced wchan wanted q).2 = .spun ↔
      wanted &&& q.pSig = 0 ∧ (panicstr = true ∨ Spins initproc traced q) := by
  rw [iteration,← @tsleep_spins ι _ initproc traced q panicstr wchan]
  split
  · next some => exact iff_of_false nofun fun both => some both.1
  next none =>
  rw [not_not] at none
  split
  · next looked =>
    rw [looked]
    exact iff_of_false nofun fun both => nomatch both.2
  next looked =>
  rw [looked]
  exact iff_of_true rfl ⟨none,rfl⟩

end

section

variable {initproc : ι} {panicstr traced : Bool} {wchan : Nat} {wanted : Mask} {q : Proc ι}

def wantedOf (set : Mask) : Mask := set ||| sigcantmask

def Progresses (initproc : ι) (panicstr traced : Bool) (wchan : Nat) (set : Mask) (q : Proc ι) : Prop :=
  (iteration initproc panicstr traced wchan (wantedOf set) q).2 ≠ .spun

/-- An iteration is progress if and only if a signal that is waited for is pending, or the kernel has not
panicked and no signal that is caught or fatal is to be delivered before the process stops. -/
theorem sigwait_progresses_iff (initproc : ι) (panicstr traced : Bool) (wchan : Nat) (set : Mask) (q : Proc ι) :
    Progresses initproc panicstr traced wchan set q ↔ wantedOf set &&& q.pSig ≠ 0 ∨ panicstr = false ∧
    ¬ Spins initproc traced q := by
  rw [Progresses,Ne,iteration_spins,not_and_or,not_or,Bool.not_eq_true]

def caught : Proc Nat where
  pSig := sigmask 15
  pSigmask := 0
  pSigignore := 0
  pSigcatch := sigmask 15
  pStat := .run
  pSintr := false
  pSvfork := false
  pNocldstop := false
  pWchan := 0
  pNice := 0
  pPri := 0
  pPid := 7
  pPptr := 5
  pPtracesig := 0
  uSignal sig := if sig = 15 then 0x7f008100 else 0
  uSigmask _ := 0
  uSigintr := 0
  uSigonstack := 0
  uOldmask := 0
  uSasOldmask := false
  uSigtramp := 0
  stopping := none
  exiting := false

theorem caught_stays : ¬ Progresses 1 false false 0x80000100 (sigmask 30) caught := by
  rw [Progresses,Ne,not_not,iteration_spins]
  have others : ∀ other < 15, 1 ≤ other → has caught.deliverable other = false := by decide
  refine ⟨by decide,.inr ⟨nofun,15,by decide,by decide,by decide,.inl (by decide),.inl (by decide),?_⟩⟩
  intro other before low there
  rw [others other before low] at there
  cases there

end

end Retrobsd.SignalWaits

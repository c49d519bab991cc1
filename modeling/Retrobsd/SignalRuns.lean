import Retrobsd.Lib.Run
import Retrobsd.SignalKernel

/-! Processes that post, take and arrange for signals in any order, from the start
of the system on. -/
namespace Retrobsd.Signals
open Lib.Run

section
variable {ι : Type} [DecidableEq ι]

inductive Call where
  | sigaction (signum : Int) (nsa : Arg Sigaction) (osa : Arg Unit) (sigtramp : Nat)
  | sigprocmask (how : Int) (set : Arg Mask)
  | sigsuspend (set : Arg Mask)
  | pselectSleeps (maskp : Arg Mask)
  | pselectWakes (maskp : Arg Mask)
  | sigreturn (scp : Arg Mask)
  | exec

/-- `sched` is all that the rest of the kernel does to a process: it sleeps, is
woken, gets another priority or shares its memory for a time. -/
inductive Op (ι : Type) where
  | call (p : ι) (c : Call)
  | fork (p child : ι) (pid : Nat)
  | psignal (p : ι) (sig : Nat)
  | cursig (p : ι) (returning trashed : Bool)
  | resume (p : ι)
  | exit (p : ι)
  | zombie (p : ι) (left : Mask × Mask × Mask)
  | reap (p : ι)
  | sched (p : ι) (stat : Stat) (sintr svfork : Bool) (wchan : Nat) (pri nice : Int)

def perform (p : Proc ι) : Call → Except Panic (Proc ι)
  | .sigaction signum nsa osa sigtramp => .ok (sigaction p signum nsa osa sigtramp)
  | .sigprocmask how set => .ok (sigprocmask p how set)
  | .sigsuspend set => .ok (sigsuspend p set)
  | .pselectSleeps maskp => .ok (pselectSleeps p maskp)
  | .pselectWakes maskp => .ok (pselectWakes p maskp)
  | .sigreturn scp => .ok (sigreturn p scp)
  | .exec => execsigs p

def step (k : Kernel ι) : Op ι → Except Panic (Kernel ι)
  | .call p c => (perform (k.procs p) c).map (k.put p)
  | .fork p child pid => .ok (newproc k p child pid)
  | .psignal p sig => .ok (psignal k p sig)
  | .cursig p returning trashed => cursig k p returning trashed
  | .resume p => .ok (resume k p)
  | .exit p => .ok (exit k p)
  | .zombie p left => zombie k p left
  | .reap p => .ok (reap k p)
  | .sched p stat sintr svfork wchan pri nice => .ok (k.put p {k.procs p with
      pStat := stat,pSintr := sintr,pSvfork := svfork,pWchan := wchan,pPri := pri,pNice := nice})

/-- Who may do what: a call is made by a process that is there and not in `exit`,
a signal is one of `1 .. NSIG - 1` and goes to a slot in use, a child gets a free
slot, and only the dead are waited for. -/
def Possible (k : Kernel ι) : Op ι → Prop
  | .call p _ => (k.procs p).live ∧ (k.procs p).exiting = false
  | .fork p child _ => (k.procs p).live ∧ (k.procs p).exiting = false ∧ (k.procs child).pStat = .free
  | .psignal p sig => (k.procs p).pStat ≠ .free ∧ 1 ≤ sig ∧ sig < nsig
  | .cursig p _ _ => (k.procs p).live
  | .resume _ => True
  | .exit p => (k.procs p).live
  | .zombie p _ => (k.procs p).live ∧ (k.procs p).exiting = true
  | .reap p => (k.procs p).pStat = .zomb
  | .sched p stat _ _ _ _ _ => (k.procs p).live ∧ stat ≠ .free ∧ stat ≠ .zomb

instance Possible.decidable (k : Kernel ι) : ∀ op : Op ι, Decidable (Possible k op)
  | .call p _ => inferInstanceAs (Decidable ((k.procs p).live ∧ _))
  | .fork p _ _ => inferInstanceAs (Decidable ((k.procs p).live ∧ _ ∧ _))
  | .psignal _ _ => inferInstanceAs (Decidable (_ ∧ _ ∧ _))
  | .cursig p _ _ => inferInstanceAs (Decidable (k.procs p).live)
  | .resume _ => .isTrue trivial
  | .exit p => inferInstanceAs (Decidable (k.procs p).live)
  | .zombie p _ => inferInstanceAs (Decidable ((k.procs p).live ∧ _))
  | .reap _ => inferInstanceAs (Decidable (_ = _))
  | .sched p _ _ _ _ _ _ => inferInstanceAs (Decidable ((k.procs p).live ∧ _ ∧ _))

/-- The table before `main` makes a second process: the swapper with `siginit`,
and slots that are all free. -/
def boot (swapper initproc : ι) : Kernel ι where
  procs p :=
    { pSig := 0,pSigmask := 0,pSigignore := if p = swapper then siginit else 0,pSigcatch := 0
      pStat := if p = swapper then .run else .free,pSintr := false,pSvfork := false,pNocldstop := false
      pWchan := 0,pNice := nzero,pPri := 0,pPid := 0,pPptr := swapper,pPtracesig := 0
      uSignal := fun _ => sigDfl,uSigmask := fun _ => 0,uSigintr := 0,uSigonstack := 0,uOldmask := 0
      uSasOldmask := false,uSigtramp := 0,stopping := none,exiting := false }
  initproc
  console := []

def start (swapper initproc : ι) : Kernel ι := newproc (boot swapper initproc) swapper initproc 1

end

section
variable {ι : Type}

theorem setsigvec_stays (p : Proc ι) (signum : Nat) (sa : Sigaction) : Stays p (setsigvec p signum sa) := by
  rw [setsigvec]
  dsimp only
  split <;> exact ⟨rfl,rfl,rfl,Iff.rfl,Iff.rfl⟩

theorem sigaction_stays (p : Proc ι) (signum : Int) (nsa : Arg Sigaction) (osa : Arg Unit) (sigtramp : Nat) :
    Stays p (sigaction p signum nsa osa sigtramp) := by
  have start : Stays p {p with uSigtramp := sigtramp} := ⟨rfl,rfl,rfl,Iff.rfl,Iff.rfl⟩
  unfold sigaction
  dsimp only
  split
  · exact start
  split
  · exact start
  · exact start
  · exact start
  split
  · exact start
  · exact start.trans (setsigvec_stays _ _ _)

theorem perform_consistent {p : Proc ι} (consistent : Consistent p) (c : Call) :
    ∃ q, perform p c = .ok q ∧ Consistent q ∧ Stays p q := by
  cases c with
  | sigaction signum nsa osa sigtramp =>
    exact ⟨_,rfl,sigaction_consistent consistent signum nsa osa sigtramp,sigaction_stays p signum nsa osa sigtramp⟩
  | sigprocmask how set =>
    refine ⟨_,rfl,sigprocmask_consistent consistent how set,?_⟩
    unfold sigprocmask
    split
    · exact Stays.refl p
    · exact Stays.refl p
    · split_ifs <;> exact ⟨rfl,rfl,rfl,Iff.rfl,Iff.rfl⟩
  | sigsuspend set => exact ⟨_,rfl,sigsuspend_consistent consistent set,⟨rfl,rfl,rfl,Iff.rfl,Iff.rfl⟩⟩
  | pselectSleeps maskp =>
    refine ⟨_,rfl,pselectSleeps_consistent consistent maskp,?_⟩
    cases maskp <;> exact ⟨rfl,rfl,rfl,Iff.rfl,Iff.rfl⟩
  | pselectWakes maskp =>
    refine ⟨_,rfl,pselectWakes_consistent consistent maskp,?_⟩
    cases maskp <;> exact ⟨rfl,rfl,rfl,Iff.rfl,Iff.rfl⟩
  | sigreturn scp =>
    refine ⟨_,rfl,sigreturn_consistent consistent scp,?_⟩
    cases scp <;> exact ⟨rfl,rfl,rfl,Iff.rfl,Iff.rfl⟩
  | exec => exact execsigs_ok consistent

variable [DecidableEq ι]

theorem step_sound {k : Kernel ι} (sound : Sound k) (op : Op ι) (possible : Possible k op) :
    (∃ k', step k op = .ok k' ∧ Sound k') ∨ step k op = .error .initDied := by
  cases op with
  | call p c =>
    obtain ⟨q,ok,consistent,stays⟩ := perform_consistent ((sound.fit p).running possible.1 possible.2) c
    refine .inl ⟨k.put p q,?_,sound.call possible.1 possible.2 consistent stays⟩
    rw [step,ok]
    rfl
  | fork p child pid => exact .inl ⟨_,rfl,newproc_sound sound possible.1 possible.2.1 possible.2.2 pid⟩
  | psignal p sig => exact .inl ⟨_,rfl,psignal_sound sound possible.1 possible.2.1 possible.2.2⟩
  | cursig p returning trashed => exact .inl (cursig_sound sound possible returning trashed)
  | resume p => exact .inl ⟨_,rfl,resume_sound sound p⟩
  | exit p => exact .inl ⟨_,rfl,exit_sound sound p⟩
  | zombie p left => exact zombie_sound sound possible.1 left
  | reap p => exact .inl ⟨_,rfl,reap_sound sound possible⟩
  | sched p stat sintr svfork wchan pri nice =>
    refine .inl ⟨_,rfl,sound.moved ⟨⟨rfl,rfl,rfl,rfl,rfl,rfl,fun _ _ _ set => set⟩,⟨rfl,rfl,rfl,?_,?_⟩⟩⟩
    · simp [possible.1.1,possible.2.1]
    · simp [possible.1.2,possible.2.2]

theorem siginit_spec : ∀ sig < nsig, 1 ≤ sig → (has siginit sig ↔ sig ≠ sigcont ∧ prop sig saIgnore) := by decide

theorem boot_consistent (swapper initproc : ι) : Consistent ((boot swapper initproc).procs swapper) := by
  have spares : Spares siginit := by
    unfold Spares
    decide
  have none : Spares 0 := ⟨has_zero _,has_zero _⟩
  refine ⟨none,?_,none,?_,?_,?_,?_,?_,none,fun _ => none⟩
  · simpa [boot] using spares
  · simp [boot,has,handler]
  · intro sig low high
    simp only [boot,if_true]
    rw [siginit_spec sig high low]
    simp [sigDfl,sigIgn]
  · simp [boot,has]
  · simp [boot,has]
  · simp only [boot,if_true]
    decide

theorem start_sound {swapper initproc : ι} (ne : swapper ≠ initproc) : Sound (start swapper initproc) := by
  have consistent := boot_consistent swapper initproc
  have first : (start swapper initproc).procs swapper = (boot swapper initproc).procs swapper := put_other _ _ ne
  have second : ((start swapper initproc).procs initproc).live ∧ ((start swapper initproc).procs initproc).pPid = 1 ∧
      ((start swapper initproc).procs initproc).pPptr = swapper ∧
      ((start swapper initproc).procs initproc).exiting = false ∧ Consistent ((start swapper initproc).procs initproc) := by
    rw [start,newproc,put_self]
    exact ⟨⟨by simp,by simp⟩,rfl,rfl,rfl,{consistent with}⟩
  have alive : ((start swapper initproc).procs swapper).live := by
    rw [first]
    simp [boot,Proc.live]
  have idle : ∀ p, p ≠ swapper → p ≠ initproc →
      ((start swapper initproc).procs p).pStat = .free ∧ ((start swapper initproc).procs p).pSig = 0 := by
    intro p other another
    rw [start,newproc,put_other _ _ another]
    simp [boot,other]
  refine ⟨?_,?_,⟨second.1,second.2.1⟩,by simp [start,newproc,boot]⟩
  · intro p
    by_cases one : p = initproc
    · subst one
      refine ⟨fun _ _ => second.2.2.2.2,?_,fun free => absurd free second.1.1⟩
      intro _ leaves
      rw [second.2.2.2.1] at leaves
      cases leaves
    by_cases zero : p = swapper
    · subst zero
      rw [first]
      refine ⟨fun _ _ => consistent,?_,fun _ => rfl⟩
      intro _ leaves
      cases leaves
    · obtain ⟨free,none⟩ := idle p zero one
      exact ⟨fun there => absurd free there.1,fun there => absurd free there.1,fun _ => none⟩
  · intro p there
    by_cases one : p = initproc
    · rw [one,second.2.2.1]
      exact alive
    by_cases zero : p = swapper
    · rw [zero,first]
      exact alive
    · exact absurd (idle p zero one).1 there.1

/-- In every run of calls by and signals to any processes, the signal state of every process that is not in
`exit` is consistent, `issignal` finds no ignored signal to complain of, and `postsig` is never asked for a
signal that is ignored or held. -/
theorem signals_consistent {swapper initproc : ι} (ne : swapper ≠ initproc) (ops : List (Op ι))
    (possible : Along step Possible (start swapper initproc) ops) :
    (∃ k, run step (start swapper initproc) ops = .ok k ∧ Message.issig ∉ k.console ∧
      (∀ p, (k.procs p).live → (k.procs p).exiting = false → Consistent (k.procs p)) ∧
      ∀ p returning trashed, (k.procs p).live → cursig k p returning trashed ≠ .error .postsigAction) ∨
    run step (start swapper initproc) ops = .error .initDied := by
  have progress : ∀ (k : Kernel ι) (op : Op ι), Sound k → Possible k op →
      (∃ k', step k op = .ok k' ∧ Sound k') ∨ ∃ e, step k op = .error e ∧ e = Panic.initDied := by
    intro k op sound now
    rcases step_sound sound op now with good | died
    · exact .inl good
    · exact .inr ⟨_,died,rfl⟩
  rcases run_cases progress ops _ (start_sound ne) possible with ⟨k,ended,sound⟩ | ⟨-,-,e,failed,rfl⟩
  · refine .inl ⟨k,ended,sound.quiet,fun p => (sound.fit p).running,?_⟩
    intro p returning trashed alive
    obtain ⟨k',ok,-⟩ := cursig_sound sound alive returning trashed
    simp [ok]
  · exact .inr failed

def someOps : List (Op Nat) := [.fork 1 2 2,.call 2 (.sigaction 15 (.value ⟨4096,0xffffffff,false,false,false⟩) .null 8),
    .call 2 (.sigaction 19 (.value ⟨1,0,false,false,false⟩) .null 8),.psignal 2 15,.cursig 2 true false,
    .psignal 2 18,.psignal 2 19,.call 2 (.sigreturn (.value 0xffffffff)),.psignal 2 17,.cursig 2 true false,.psignal 2 19,
    .resume 2,.call 2 .exec,.psignal 2 9,.cursig 2 true false,.zombie 2 (9,0,0),.cursig 1 true false,.reap 2]

theorem signals_consistent_someOps : (∃ k, run step (start 0 1) someOps = .ok k ∧ Message.issig ∉ k.console ∧
      (∀ p, (k.procs p).live → (k.procs p).exiting = false → Consistent (k.procs p)) ∧
      ∀ p returning trashed, (k.procs p).live → cursig k p returning trashed ≠ .error .postsigAction) ∨
    run step (start 0 1) someOps = .error .initDied :=
  signals_consistent (by decide) someOps (by decide +kernel)

/-- A process that a signal has sent into `exit` ignores `SIGKILL` too. -/
theorem exiting_ignores_sigkill : Along step Possible (start 0 1) [.fork 1 2 2,.psignal 2 15,.cursig 2 true false] ∧
    ∃ k, run step (start 0 1) [.fork 1 2 2,.psignal 2 15,.cursig 2 true false] = .ok k ∧
      (k.procs 2).live ∧ has (k.procs 2).pSigignore sigkill := by
  refine ⟨by decide +kernel,?_⟩
  have shown : returns (fun k => decide ((k.procs 2).live ∧ has (k.procs 2).pSigignore sigkill))
      (run step (start 0 1) [.fork 1 2 2,.psignal 2 15,.cursig 2 true false]) = true := by
    decide +kernel
  obtain ⟨k,ended,true⟩ := of_returns shown
  exact ⟨k,ended,of_decide_eq_true true⟩

end

end Retrobsd.Signals

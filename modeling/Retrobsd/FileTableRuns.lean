import Retrobsd.FileCalls

/-! Runs of all processes: the references to the file table are counted right, and the
locks of an inode exclude each other, at every moment. -/
namespace Retrobsd.FileTable
open Lib.Counting Lib.Run

variable {s t : State}

theorem wake_good (sound : Sound ∅ s) (p : Pid) : (∃ t, call s (.wake p) = .ok t ∧ Good t) ∧
    ∀ restart, ∃ t, call s (.interrupt p restart) = .ok t ∧ Good t := by
  simp only [call]
  cases waits : s.wait p with
  | none => exact ⟨⟨_,rfl,sound.unanswered⟩,fun _ => ⟨_,rfl,sound.unanswered⟩⟩
  | some w =>
    obtain ⟨_,type,data,fd,at_fd,opening⟩ := sound.waits p w waits
    have awake : (s.setWait p none).wait p = none := Function.update_self _ _ _
    exact ⟨@lock_good (s.setWait p none) p fd (sound.setAwake p) w awake at_fd type data opening,
      fun _ => ⟨_,rfl,@settle_good (s.setWait p none) p fd (sound.setAwake p) w awake at_fd type data opening _⟩⟩

theorem call_cases (sound : Sound ∅ s) (op : Op) (alive : s.alive op.pid = true)
    (awake : op.resumes = true ∨ s.wait op.pid = none) :
    ∃ t, call s op = .ok t ∧ Sound ∅ t ∧ (Answered t ↔ Fair s op) := by
  have good : ∀ op, Fair s op → (∃ t, call s op = .ok t ∧ Good t) → ∃ t, call s op = .ok t ∧ Sound ∅ t ∧
    (Answered t ↔ Fair s op) :=
    fun op fair ⟨t,ran,good⟩ => ⟨t,ran,good.always fair⟩
  cases op with
  | wake p => exact good _ trivial (wake_good sound p).1
  | interrupt p restart => exact good _ trivial ((wake_good sound p).2 restart)
  | opens p flags outcome => exact copen_cases sound alive (awake.resolve_left Bool.false_ne_true) flags outcome
  | dup p i j => exact good _ trivial ⟨_,rfl,dup_good sound alive (awake.resolve_left Bool.false_ne_true) i j⟩
  | dup2 p i j => exact good _ trivial ⟨_,rfl,dup2_good sound alive (awake.resolve_left Bool.false_ne_true) i j⟩
  | fcntl p fdes cmd => exact good _ trivial ⟨_,rfl,fcntl_good sound alive (awake.resolve_left Bool.false_ne_true) fdes cmd⟩
  | pipe p ialloc => exact good _ trivial ⟨_,rfl,pipe_good sound alive (awake.resolve_left Bool.false_ne_true) ialloc⟩
  | close p i error => exact good _ trivial ⟨_,rfl,close_good sound (awake.resolve_left Bool.false_ne_true) i error⟩
  | fork p child => exact good _ trivial ⟨_,rfl,fork_good sound child⟩
  | exec p => exact good _ trivial ⟨_,rfl,exec_good sound (awake.resolve_left Bool.false_ne_true)⟩
  | exit p => exact good _ trivial ⟨_,rfl,exit_good sound (awake.resolve_left Bool.false_ne_true)⟩
  | flock p i how => exact good _ trivial (flock_good sound (awake.resolve_left Bool.false_ne_true) i how)

theorem step_cases (sound : Sound ∅ s) (op : Op) : ∃ t, step s op = .ok t ∧ Sound ∅ t ∧ (Answered t ↔ Fair s op) := by
  rw [step]
  split_ifs with able
  · simp only [Bool.and_eq_true,Bool.or_eq_true,Option.isNone_iff_eq_none] at able
    exact call_cases sound op able.1 able.2
  refine ⟨_,rfl,sound.unanswered.always ?_⟩
  cases op with
  | opens p flags outcome =>
    cases outcome with
    | fdopen minor =>
      intro alive awake
      exact absurd (by simp [Op.pid,alive,awake]) able
    | opened ip => trivial
    | failed error bad => trivial
  | _ => trivial

theorem start_sound : Sound ∅ start := by
  have empty : ∀ fp, hits start.ofile fp = 0 := fun fp => hits_eq_zero.mpr fun q => by simp [start]
  refine ⟨⟨fun fp => (empty fp).symm,fun _ _ _ => rfl,fun _ _ => ⟨fun _ => rfl,rfl⟩,fun _ _ _ counted =>
    absurd rfl counted,nofun⟩,?_⟩
  have none : ∀ ip, hits (exTable start.files) ip = 0 ∧ hits (shTable start.files) ip = 0 := fun ip =>
    ⟨hits_eq_zero.mpr fun fp => by simp [exTable,start,noFile],hits_eq_zero.mpr fun fp => by simp [shTable,start,noFile]⟩
  refine ⟨fun ip => ?_,fun fp held => ?_⟩
  · rw [(none ip).1,(none ip).2]
    exact ⟨rfl,rfl,by simp [start],by simp [start],Nat.zero_le _,fun some => absurd rfl some,rfl⟩
  · exact absurd held (by simp [start,noFile])

/-- Each file counts the descriptors that point to it, none points above the last one, and
a descriptor that was returned is there. -/
structure Counted (s : State) : Prop where
  counts : ∀ fp, (s.files fp).count = hits s.ofile fp
  slots : ∀ q fp, s.ofile q = some fp → 0 < (s.files fp).count
  above : ∀ p fd, s.lastfile p < (fd.val : Int) → s.ofile (p,fd) = none
  answered : Answered s

theorem Sound.counted (sound : Sound ∅ s) (answered : Answered s) : Counted s where
  counts := sound.counts
  slots q _ at_q := Nat.pos_of_ne_zero (sound.opened (p := q.1) at_q)
  above := sound.above
  answered

def Kept (s : State) (op : Op) : Prop := ∃ t, step s op = .ok t ∧ Counted t

theorem kept_iff_fair (s : State) (op : Op) (sound : Sound ∅ s) : Kept s op ↔ Fair s op := by
  obtain ⟨t,ran,after,answered⟩ := step_cases sound op
  constructor
  · rintro ⟨r,ended,counted⟩
    cases ran.symm.trans ended
    exact answered.mp counted.answered
  · intro fair
    exact ⟨t,ran,after.counted (answered.mpr fair)⟩

theorem step_sound (s : State) (op : Op) (t : State) (sound : Sound ∅ s) (ended : step s op = .ok t) : Sound ∅ t := by
  obtain ⟨r,ran,after,_⟩ := step_cases sound op
  cases ran.symm.trans ended
  exact after

/-- In every run the references are counted right and every descriptor that `open` returns is
open if and only if no open of `/dev/fd` is for a descriptor that is closed or does not allow
what is asked. -/
theorem references_kept (ops : List Op) : Along step Kept start ops ↔ Along step Fair start ops :=
  Along.congr (fun s op sound (_ : True) => kept_iff_fair s op sound) (fun s op t sound _ _ ended =>
  step_sound s op t sound ended)
    ops start start_sound (Along.of_forall start fun _ _ => trivial)

def reading : Flags := ⟨true,false,false,false,false,false,false,false⟩

def lostOps : List Op := [.opens 0 reading (.fdopen 5)]

/-- The call returns descriptor 0, which is not open. -/
theorem lost_descriptor : ¬ Along step Kept start lostOps ∧
    ∃ t, run step start lostOps = .ok t ∧ t.reply = some (0,.opened 0) ∧ t.ofile (0,0) = none := by
  obtain ⟨t,ended,facts⟩ := @of_returns Fault State (fun t => decide (t.reply = some (0,.opened 0) ∧ t.ofile (0,0) = none))
    (step start (.opens 0 reading (.fdopen 5))) (by decide +kernel)
  obtain ⟨told,lost⟩ := of_decide_eq_true facts
  constructor
  · rintro ⟨⟨r,ran,counted⟩,_⟩
    cases ended.symm.trans ran
    exact counted.answered 0 0 told lost
  · exact ⟨t,run_cons_ok [] ended,told,lost⟩

def HoldsExclusive (s : State) (ip : Nat) (fp : Slot) : Prop := (s.files fp).data = some ip ∧ (s.files fp).flag.fExlock = true

def HoldsShared (s : State) (ip : Nat) (fp : Slot) : Prop := (s.files fp).data = some ip ∧ (s.files fp).flag.fShlock = true

instance (s : State) (ip : Nat) : DecidablePred (HoldsExclusive s ip) := fun _ => inferInstanceAs (Decidable (_ ∧ _))

instance (s : State) (ip : Nat) : DecidablePred (HoldsShared s ip) := fun _ => inferInstanceAs (Decidable (_ ∧ _))

/-- The locks of an inode exclude each other, and the inode counts them. -/
structure Exclusive (s : State) (ip : Nat) : Prop where
  single : ∀ fp gp, HoldsExclusive s ip fp → HoldsExclusive s ip gp → fp = gp
  alone : ∀ fp gp, HoldsExclusive s ip fp → ¬ HoldsShared s ip gp
  exlockc : (s.inodes ip).exlockc.toNat = (Finset.univ.filter (HoldsExclusive s ip)).card
  shlockc : (s.inodes ip).shlockc.toNat = (Finset.univ.filter (HoldsShared s ip)).card
  iexlock : (s.inodes ip).iexlock = true ↔ (s.inodes ip).exlockc ≠ 0
  ishlock : (s.inodes ip).ishlock = true ↔ (s.inodes ip).shlockc ≠ 0
  sank : (s.inodes ip).sank = false

theorem exTable_eq (s : State) (ip : Nat) (fp : Slot) : exTable s.files fp = some ip ↔ HoldsExclusive s ip fp := by
  rw [exTable,HoldsExclusive]
  split_ifs with held <;> simp [held]

theorem shTable_eq (s : State) (ip : Nat) (fp : Slot) : shTable s.files fp = some ip ↔ HoldsShared s ip fp := by
  rw [shTable,HoldsShared]
  split_ifs with held <;> simp [held]

theorem hits_exTable (s : State) (ip : Nat) : hits (exTable s.files) ip = (Finset.univ.filter (HoldsExclusive s ip)).card := by
  rw [hits]
  exact congrArg Finset.card (Finset.filter_congr fun fp _ => exTable_eq s ip fp)

theorem hits_shTable (s : State) (ip : Nat) : hits (shTable s.files) ip = (Finset.univ.filter (HoldsShared s ip)).card := by
  rw [hits]
  exact congrArg Finset.card (Finset.filter_congr fun fp _ => shTable_eq s ip fp)

theorem Sound.exclusive (sound : Sound ∅ s) (ip : Nat) : Exclusive s ip := by
  have agrees := sound.locks.agrees ip
  refine ⟨?_,?_,?_,?_,?_,?_,agrees.sank⟩
  · intro fp gp first second
    exact eq_of_hits_le_one agrees.single ((exTable_eq s ip fp).mpr first) ((exTable_eq s ip gp).mpr second)
  · intro fp gp exclusive shared
    have one := hits_pos ((exTable_eq s ip fp).mpr exclusive)
    exact hits_eq_zero.mp (agrees.alone (by omega)) gp ((shTable_eq s ip gp).mpr shared)
  · rw [agrees.exlockc,hits_exTable]
  · rw [agrees.shlockc,hits_shTable]
  · rw [agrees.iexlock,ne_eq,ne_eq,eq_zero_iff_toNat,agrees.exlockc]
  · rw [agrees.ishlock,ne_eq,ne_eq,eq_zero_iff_toNat,agrees.shlockc]

/-- In every state that any run reaches, whatever sleeps and interruptions there are, the locks of every inode
exclude each other and its counters and flags agree with the holders. -/
theorem locks_exclude (ops : List Op) : ∃ t, run step start ops = .ok t ∧ ∀ ip, Exclusive t ip := by
  obtain ⟨t,ended,sound⟩ := run_total (fun s op (sound : Sound ∅ s) (_ : True) =>
    have ⟨t,ran,after,_⟩ := step_cases sound op
    ⟨t,ran,after⟩) ops start start_sound (Along.of_forall start fun _ _ => trivial)
  exact ⟨t,ended,sound.exclusive⟩

/-- A second `open` sleeps until the first process unlocks. -/
example : returns (fun t => decide (t.reply = some (1,.opened 1) ∧ (t.inodes 7).exlockc = 0 ∧ (t.inodes 7).shlockc = 1))
    (run step start [.opens 0 {reading with fExlock := true} (.opened 7),.fork 0 1,
    .opens 1 {reading with fShlock := true} (.opened 7),
      .wake 1,.flock 0 0 ⟨false,false,false,true⟩,.wake 1]) = true := by decide +kernel

end Retrobsd.FileTable

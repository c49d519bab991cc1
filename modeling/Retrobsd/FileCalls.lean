import Retrobsd.FileReferences

/-! Every call leaves the tables in order, and says that a file was opened only where a
descriptor is, except for one path of `open`. -/
namespace Retrobsd.FileTable
open Function
open Lib.Counting

def Answered (s : State) : Prop := ∀ p fd, s.reply = some (p,.opened fd) → s.ofile (p,fd) ≠ none

structure Good (s : State) : Prop extends Sound ∅ s where
  answered : Answered s

variable {fresh : Set Slot} {s t : State} {p : Pid} {fd : Fd} {fp : Slot} {f : File}

section
variable (sound : Sound ∅ s)
include sound

theorem Sound.done (p : Pid) : Good (s.answer p .done) := ⟨sound.answer p _,nofun⟩

theorem Sound.failed (p : Pid) (error : Int) : Good (s.answer p (.failed error)) := ⟨sound.answer p _,nofun⟩

theorem Sound.unanswered : Good {s with reply := none} := ⟨sound.congr rfl rfl rfl rfl rfl rfl,nofun⟩

theorem Sound.opens (at_fd : s.ofile (p,fd) = some fp) : Good (s.answer p (.opened fd)) := by
  refine ⟨sound.answer p _,?_⟩
  intro q other told
  cases told
  exact fun empty => absurd (empty.symm.trans at_fd) (by simp)

theorem Sound.setWait {w : Wait} (at_fd : s.ofile (p,fd) = some w.fp) (type : (s.files w.fp).type = .inode)
    (data : (s.files w.fp).data = some w.ip) (opening : ∀ o, w.opening = some o → o = fd) : Sound ∅ (s.setWait p (some w)) := by
  refine ⟨⟨sound.counts,sound.above,?_,sound.filled,?_⟩,sound.locks⟩
  · intro q gone
    obtain ⟨empty,still⟩ := sound.dead q gone
    refine ⟨empty,(update_of_ne ?_ _ _).trans still⟩
    rintro rfl
    exact absurd ((empty fd).symm.trans at_fd) (by simp)
  intro q v waits
  dsimp only [State.setWait] at waits
  by_cases same : q = p
  · subst same
    rw [update_self] at waits
    cases waits
    exact ⟨Set.notMem_empty _,type,data,fd,at_fd,opening⟩
  · rw [update_of_ne same] at waits
    exact sound.waits q v waits

theorem Sound.setAwake (p : Pid) : Sound ∅ (s.setWait p none) := by
  refine ⟨⟨sound.counts,sound.above,?_,sound.filled,?_⟩,sound.locks⟩
  · intro q gone
    obtain ⟨empty,still⟩ := sound.dead q gone
    refine ⟨empty,?_⟩
    by_cases same : q = p
    · subst same
      exact update_self _ _ _
    · exact (update_of_ne same _ _).trans still
  intro q v waits
  dsimp only [State.setWait] at waits
  by_cases same : q = p
  · subst same
    rw [update_self] at waits
    cases waits
  · rw [update_of_ne same] at waits
    exact sound.waits q v waits

theorem settle_good {w : Wait} (awake : s.wait p = none) (at_fd : s.ofile (p,fd) = some w.fp)
    (type : (s.files w.fp).type = .inode) (data : (s.files w.fp).data = some w.ip) (opening : ∀ o, w.opening = some o → o = fd)
    (verdict : Verdict) : Good (settle s p w verdict) := by
  cases verdict with
  | granted =>
    cases opens : w.opening with
    | none =>
      rw [settle,opens]
      exact sound.done p
    | some o =>
      obtain rfl := opening o opens
      rw [settle,opens]
      exact sound.opens at_fd
  | refused error =>
    cases opens : w.opening with
    | none =>
      rw [settle,opens]
      exact sound.failed p error
    | some o =>
      obtain rfl := opening o opens
      rw [settle,opens]
      dsimp only
      rw [← closef_setOfile]
      exact (sound.release at_fd awake).failed p error
  | sleeps => exact (sound.setWait at_fd type data opening).unanswered

theorem lock_good {w : Wait} (awake : s.wait p = none) (at_fd : s.ofile (p,fd) = some w.fp)
    (type : (s.files w.fp).type = .inode) (data : (s.files w.fp).data = some w.ip) (opening : ∀ o, w.opening = some o → o = fd) :
    ∃ t, (lockLoop 3 s w.fp w.ip w.cmd).map (fun (s,verdict) => settle s p w verdict) = .ok t ∧ Good t := by
  have enough : (s.files w.fp).flag.fShlock.toNat + (s.files w.fp).flag.fExlock.toNat < 3 := by
    have first := Bool.toNat_le (s.files w.fp).flag.fShlock
    have second := Bool.toNat_le (s.files w.fp).flag.fExlock
    omega
  obtain ⟨r,verdict,ran,locks,same⟩ := lockLoop_spec 3 s w.fp w.ip w.cmd sound.locks data type (sound.opened at_fd) enough
  refine ⟨settle r p w verdict,by rw [ran]; rfl,?_⟩
  refine settle_good (sound.relocked same locks) (by rw [same.wait]; exact awake) (by rw [same.ofile]; exact at_fd)
    ((same.type _).trans type) ((same.data _).trans data) opening verdict

theorem inoLock_good (awake : s.wait p = none) (at_fd : s.ofile (p,fd) = some fp) (type : (s.files fp).type = .inode)
    (cmd : Cmd) {opening : Option Fd} (opens : ∀ o, opening = some o → o = fd) : ∃ t,
    inoLock s p fp cmd opening = .ok t ∧ Good t := by
  have filled := sound.filled fp (Set.notMem_empty _) type (sound.opened at_fd)
  rw [inoLock]
  cases data : (s.files fp).data with
  | none => exact absurd data filled
  | some ip => exact @lock_good s p fd sound ⟨fp,ip,cmd,opening⟩ awake at_fd type data opens

end

theorem getf_spec {i : Int} (found : getf s p i = some (fd,fp)) : s.ofile (p,fd) = some fp ∧ i = fd.val := by
  rw [getf] at found
  split_ifs at found with range
  obtain ⟨other,at_other,same⟩ := Option.map_eq_some_iff.mp found
  cases same
  exact ⟨at_other,(Int.toNat_of_nonneg range.1).symm⟩

theorem closefAt_setOfile (s : State) (p : Pid) (fd : Fd) : closefAt (s.setOfile p fd none) (s.ofile (p,fd)) =
    (closefAt s (s.ofile (p,fd))).setOfile p fd none := by
  cases s.ofile (p,fd) with
  | none => rfl
  | some fp => exact closef_setOfile p fd none fp

theorem Sound.releaseAt (sound : Sound ∅ s) (awake : s.wait p = none) (fd : Fd) :
    Sound ∅ (closefAt (s.setOfile p fd none) (s.ofile (p,fd))) := by
  cases at_fd : s.ofile (p,fd) with
  | none =>
    rw [← at_fd,setOfile_self,at_fd]
    exact sound
  | some fp => exact sound.release at_fd awake

theorem closefAt_framed (s : State) (x : Option Slot) : Framed s (closefAt s x) := by
  cases x with
  | none => exact ⟨rfl,rfl,rfl,rfl,rfl⟩
  | some fp => exact closef_framed s fp

section
variable (sound : Sound ∅ s) (alive : s.alive p = true) (awake : s.wait p = none)
include sound alive awake

theorem dupit_sound (empty : s.ofile (p,fd) = none) (opened : (s.files fp).count ≠ 0) : Sound ∅ (dupit s p fd fp) :=
  sound.share empty opened alive awake false

theorem dup2_good (i j : Int) : Good (dup2 s p i j) := by
  rw [dup2]
  cases found : getf s p i with
  | none => exact sound.failed p 9
  | some pair =>
    obtain ⟨source,fp⟩ := pair
    obtain ⟨at_source,same⟩ := getf_spec found
    dsimp only
    split_ifs with range equal
    · exact sound.done p
    · obtain ⟨fd,target⟩ : ∃ fd : Fd, fd = ⟨j.toNat,by omega⟩ := ⟨_,rfl⟩
      rw [← target]
      have released := sound.releaseAt awake fd
      rw [closefAt_setOfile] at released
      have frame := closefAt_framed s (s.ofile (p,fd))
      have elsewhere : (p,source) ≠ (p,fd) := by
        intro both
        have value := congrArg (fun q : Pid × Fd => (q.2.val : Int)) both
        simp only [target] at value
        omega
      have kept : ((closefAt s (s.ofile (p,fd))).setOfile p fd none).ofile (p,source) = some fp := by
        refine (update_of_ne elsewhere _ _).trans ?_
        rw [frame.ofile]
        exact at_source
      have empty : ((closefAt s (s.ofile (p,fd))).setOfile p fd none).ofile (p,fd) = none := update_self _ _ _
      have shared := dupit_sound released (by rw [← alive,← frame.alive]; rfl)
        (by rw [← awake,← frame.wait]; rfl) empty (released.opened kept)
      rw [dupit,setOfile_setOfile] at shared
      exact shared.done p
    · exact sound.failed p 9

theorem duplicate_good (i : Int) (at_fd : s.ofile (p,fd) = some fp) : Good (match ufalloc s p i with
    | none => s.answer p (.failed 24)
    | some (s,fd) => (dupit s p fd fp).answer p .done) := by
  cases found : ufalloc s p i with
  | none => exact sound.failed p 24
  | some pair =>
    obtain ⟨r,new⟩ := pair
    obtain ⟨kept,empty,_,files,ofile,living,waiting,_⟩ := ufalloc_sound sound found
    have shared := dupit_sound kept (by rw [living]; exact alive) (by rw [waiting]; exact awake) (by rw [ofile]; exact empty)
      (by rw [files]; exact sound.opened at_fd)
    exact shared.done p

theorem dup_good (i j : Int) : Good (dup s p i j) := by
  rw [dup]
  split_ifs
  · exact dup2_good sound alive awake (i % 64) j
  cases found : getf s p i with
  | none => exact sound.failed p 9
  | some pair => exact duplicate_good sound alive awake 0 (getf_spec found).1

theorem fcntl_good (fdes : Int) (cmd : Fcntl) : Good (fcntl s p fdes cmd) := by
  rw [fcntl]
  cases found : getf s p fdes with
  | none => exact sound.failed p 9
  | some pair =>
    obtain ⟨at_fd,_⟩ := getf_spec found
    cases cmd with
    | dupfd arg =>
      dsimp only
      split_ifs
      · exact sound.failed p 22
      · exact duplicate_good sound alive awake arg at_fd
    | setfd exclose => exact (sound.setPofile p _ exclose).done p
    | setfl flags =>
      refine Sound.done (sound.relocked (relocked_setFile ?_) ?_) p
      · exact ⟨rfl,rfl,rfl⟩
      · exact sound.locks.refile rfl rfl (sound.locks.holder pair.2)
    | other => exact sound.done p

omit alive in
theorem close_good (i error : Int) : Good (close s p i error) := by
  rw [close]
  cases found : getf s p i with
  | none => exact sound.failed p 9
  | some pair =>
    obtain ⟨fd,fp⟩ := pair
    obtain ⟨at_fd,_⟩ := getf_spec found
    dsimp only
    rw [closef_lower]
    have released := (sound.release at_fd awake).lower p
    split_ifs
    · exact released.done p
    · exact released.failed p error

theorem pipe_good (ialloc : Except Int Nat) : Good (pipe s p ialloc) := by
  cases ialloc with
  | error error => exact sound.failed p error
  | ok ip =>
    rcases falloc_sound sound alive awake with ⟨t,error,ran,after,_⟩ | ⟨t,r,rf,ran,attached,after⟩
    · simp only [pipe,ran]
      exact after.failed p error
    have living : t.alive p = true := by rw [attached.alive]; exact alive
    have waking : t.wait p = none := by rw [attached.wait]; exact awake
    have count : (t.files rf).count = 1 := by rw [attached.file]
    rcases falloc_sound after living waking with ⟨q,error,again,last,⟨ofile,files,wait⟩,_⟩ | ⟨q,w,wf,again,other,last⟩
    · simp only [pipe,ran,again]
      refine Sound.failed ?_ p error
      refine last.detach (by rw [ofile]; exact attached.at_fd) (by rw [wait]; exact waking) (by rw [files]; exact count) ?_ ?_
      · rw [files]
        exact attached.exTable
      rw [files]
      exact attached.shTable
    have ne : wf ≠ rf := by
      rintro rfl
      exact absurd (other.free.symm.trans count) (by simp)
    have apart : (p,r) ≠ (p,w) := by
      intro same
      cases same
      exact absurd (other.empty.symm.trans attached.at_fd) (by simp)
    simp only [pipe,ran,again]
    refine Sound.done ?_ p
    obtain ⟨f,named⟩ : ∃ f : File, f = {q.files wf with
        flag := ⟨false,true,false,false,false,false,false,false⟩,type := .pipe,data := some ip} := ⟨_,rfl⟩
    rw [← named]
    have writable : Sound (insert rf ∅) (q.setFile wf f) := by
      refine last.fill other.at_fd (by rw [other.wait]; exact waking) (fun g _ => Iff.rfl) ?_ other.exTable other.shTable ?_ ?_
      · rw [named]
      · rw [named]
        exact ⟨rfl,rfl⟩
      · rw [named]
        exact nofun
    have at_r : q.ofile (p,r) = some rf := by
      rw [other.ofile,update_of_ne apart]
      exact attached.at_fd
    have untouched : (q.setFile wf f).files rf = t.files rf := by
      refine (update_of_ne ne.symm _ _).trans ?_
      rw [other.files,update_of_ne ne.symm]
    refine writable.fill at_r (by rw [← waking,← other.wait]; rfl) (fun g _ => Iff.rfl) rfl ?_ ?_ ⟨rfl,rfl⟩ nofun
    · rw [exTable,untouched]
      exact attached.exTable
    rw [shTable,untouched]
    exact attached.shTable

omit alive in
theorem flock_good (i : Int) (how : Cmd) : ∃ t, flock s p i how = .ok t ∧ Good t := by
  rw [flock]
  cases found : getf s p i with
  | none => exact ⟨_,rfl,sound.failed p 9⟩
  | some pair =>
    obtain ⟨fd,fp⟩ := pair
    obtain ⟨at_fd,_⟩ := getf_spec found
    obtain ⟨locks,same,_⟩ := inoUnlock_spec sound.locks fp true true
    dsimp only
    split_ifs with type un kind ex held held
    · exact ⟨_,rfl,sound.failed p 45⟩
    · exact ⟨_,rfl,(sound.relocked same locks).done p⟩
    · exact ⟨_,rfl,sound.done p⟩
    · exact ⟨_,rfl,sound.done p⟩
    · exact inoLock_good sound awake at_fd (not_not.mp type) _ nofun
    · exact ⟨_,rfl,sound.done p⟩
    · exact inoLock_good sound awake at_fd (not_not.mp type) _ nofun

end

def Reopens (s : State) (p : Pid) (minor : Nat) (flags : Flags) : Prop :=
  ∃ h : minor < 30, ∃ wfp, s.ofile (p,⟨minor,h⟩) = some wfp ∧ exceeds flags (s.files wfp).flag = false

theorem dupfdopen_cases {s : State} {p : Pid} {indx : Fd} {fp : Slot} (sound : Sound ∅ (s.setOfile p indx none))
    (alive : s.alive p = true) (awake : s.wait p = none) (at_indx : s.ofile (p,indx) = some fp) (free : (s.files fp).count = 0)
    (minor : Nat) (flags : Flags) :
    (∃ error, dupfdopen s p indx minor flags = (s,error) ∧ error ≠ 0 ∧ ¬ Reopens (s.setOfile p indx none) p minor flags) ∨
      ∃ t wfp, dupfdopen s p indx minor flags = (t,0) ∧ Sound ∅ t ∧ t.ofile (p,indx) = some wfp ∧
        Reopens (s.setOfile p indx none) p minor flags := by
  rw [dupfdopen]
  by_cases h : minor < 30
  · rw [dif_pos h]
    by_cases same : (⟨minor,h⟩ : Fd) = indx
    · subst same
      rw [at_indx]
      dsimp only
      rw [if_pos rfl]
      refine .inl ⟨9,rfl,by decide,?_⟩
      rintro ⟨_,wfp,gone,_⟩
      exact absurd ((update_self _ _ _).symm.trans gone) (by simp)
    have elsewhere : (s.setOfile p indx none).ofile (p,⟨minor,h⟩) = s.ofile (p,⟨minor,h⟩) :=
      update_of_ne (fun both => same (Prod.mk.inj both).2) _ _
    cases at_dfd : s.ofile (p,⟨minor,h⟩) with
    | none =>
      refine .inl ⟨9,rfl,by decide,?_⟩
      rintro ⟨_,wfp,there,_⟩
      exact absurd ((elsewhere.trans at_dfd).symm.trans there) (by simp)
    | some wfp =>
      have opened := sound.opened (elsewhere.trans at_dfd)
      have ne : fp ≠ wfp := by
        rintro rfl
        exact opened free
      dsimp only
      rw [at_indx,if_neg (fun both => ne (Option.some.inj both))]
      by_cases mode : exceeds flags (s.files wfp).flag
      · rw [if_pos mode]
        refine .inl ⟨13,rfl,by decide,?_⟩
        rintro ⟨_,other,there,fits⟩
        cases (elsewhere.trans at_dfd).symm.trans there
        exact absurd (fits.symm.trans mode) (by simp)
      rw [if_neg mode]
      have shared := @Sound.share ∅ (s.setOfile p indx none) p indx wfp sound (update_self _ _ _) opened alive awake
        (s.pofile (p,⟨minor,h⟩))
      rw [setOfile_setOfile] at shared
      refine .inr ⟨_,wfp,rfl,shared,update_self _ _ _,h,wfp,elsewhere.trans at_dfd,?_⟩
      exact Bool.not_eq_true _ ▸ mode
  · rw [dif_neg h]
    refine .inl ⟨9,rfl,by decide,?_⟩
    rintro ⟨small,_⟩
    exact h small

/-- Every open of `/dev/fd` that gets as far as that finds the descriptor. -/
def Fair (s : State) : Op → Prop
  | .opens p flags (.fdopen minor) => s.alive p = true → s.wait p = none → (∃ fd, s.ofile (p,fd) = none) →
    (∃ fp, (s.files fp).count = 0) → Reopens s p minor flags
  | _ => True

theorem Good.always (good : Good t) {op : Op} (fair : Fair s op) : Sound ∅ t ∧ (Answered t ↔ Fair s op) :=
  ⟨good.toSound,fun _ => fair,fun _ => good.answered⟩

def prepared (t : State) (fp : Slot) (flags : Flags) : State :=
    t.setFile fp {t.files fp with flag := masked flags,type := .inode}

section
variable (attached : Attached s t p fd fp) (after : Sound (insert fp ∅) t) (awake : s.wait p = none) (flags : Flags)
include attached after awake

theorem prepared_sound : Sound (insert fp ∅) (prepared t fp flags) := by
  refine after.fill attached.at_fd (by rw [attached.wait]; exact awake) (fun g ne => ?_) rfl attached.exTable attached.shTable
    ⟨rfl,rfl⟩ (fun new => absurd (Set.mem_insert _ _) new)
  simp [ne]

theorem prepared_detach : Sound ∅ (((prepared t fp flags).setCount fp 0).setOfile p fd none) := by
  have file : (prepared t fp flags).files fp = {t.files fp with flag := masked flags,type := .inode} := files_setFile _ _ _
  refine (prepared_sound attached after awake flags).detach attached.at_fd (by rw [← awake,← attached.wait]; rfl) ?_ ?_ ?_
  · rw [file]
    dsimp only
    rw [attached.file]
  · rw [exTable,file]
    rfl
  · rw [shTable,file]
    rfl

theorem prepared_filled (ip : Nat) :
    Sound ∅ ((prepared t fp flags).setFile fp {(prepared t fp flags).files fp with data := some ip}) := by
  have file : (prepared t fp flags).files fp = {t.files fp with flag := masked flags,type := .inode} := files_setFile _ _ _
  refine (prepared_sound attached after awake flags).fill attached.at_fd (by rw [← awake,← attached.wait]; rfl)
    (fun _ _ => Iff.rfl)
    rfl ?_ ?_ ?_ (fun _ _ => by simp)
  · rw [exTable,file]
    rfl
  · rw [shTable,file]
    rfl
  · rw [file]
    exact ⟨rfl,rfl⟩

omit after awake in
theorem detached_ofile : (((prepared t fp flags).setCount fp 0).setOfile p fd none).ofile = s.ofile := by
  show update t.ofile (p,fd) none = s.ofile
  rw [attached.ofile,update_idem,← attached.empty,update_eq_self]

omit awake in
theorem detached_reopens (sound : Sound ∅ s) (minor : Nat) :
    Reopens (((prepared t fp flags).setCount fp 0).setOfile p fd none) p minor flags ↔ Reopens s p minor flags := by
  rw [Reopens,Reopens,detached_ofile attached flags]
  refine exists_congr fun h => exists_congr fun wfp => and_congr_right fun at_dfd => ?_
  have ne : wfp ≠ fp := by
    rintro rfl
    exact sound.opened at_dfd attached.free
  have same : (((prepared t fp flags).setCount fp 0).setOfile p fd none).files wfp = s.files wfp := by
    refine (update_of_ne ne _ _).trans ((update_of_ne ne _ _).trans ?_)
    rw [attached.files,update_of_ne ne]
  rw [same]

end

theorem copen_fdopen {indx : Fd} (flags : Flags) (minor : Nat) (ran : falloc s p = (t,.ok (indx,fp))) {r : State} {result : Int}
    (copied : dupfdopen ((prepared t fp flags).setCount fp 0) p indx minor flags = (r,result)) :
    copen s p flags (.fdopen minor) = .ok ((if result = 0 then r else r.setOfile p indx none).answer p (.opened indx)) := by
  rw [copen,ran]
  rw [prepared] at copied
  dsimp only
  rw [copied]
  dsimp only
  by_cases zero : result = 0
  · rw [if_pos zero,if_pos zero]
    rfl
  rw [if_neg zero,if_neg zero]
  rfl

theorem copen_cases (sound : Sound ∅ s) (alive : s.alive p = true) (awake : s.wait p = none) (flags : Flags) (outcome : Opened) :
    ∃ t, copen s p flags outcome = .ok t ∧ Sound ∅ t ∧ (Answered t ↔ Fair s (.opens p flags outcome)) := by
  rcases falloc_sound sound alive awake with ⟨t,error,ran,after,_,full⟩ | ⟨t,indx,fp,ran,attached,after⟩
  · simp only [copen,ran]
    refine ⟨_,rfl,(after.failed p error).always ?_⟩
    cases outcome with
    | opened ip => trivial
    | failed error bad => trivial
    | fdopen minor =>
      rintro _ _ ⟨fd,empty⟩ ⟨fp,free⟩
      rcases full with descriptors | files
      · exact absurd empty (descriptors fd)
      · exact absurd free (files fp)
  have given := prepared_detach attached after awake flags
  have waking : (prepared t fp flags).wait p = none := by rw [← awake,← attached.wait]; rfl
  cases outcome with
  | opened ip =>
    have filled := prepared_filled attached after awake flags ip
    have type : (((prepared t fp flags).setFile fp {(prepared t fp flags).files fp with data := some ip}).files
      fp).type = .inode := by
      rw [files_setFile]
      dsimp only [prepared]
      rw [files_setFile]
    simp only [copen,ran]
    split_ifs with locking
    · obtain ⟨r,locked,good⟩ := @inoLock_good _ p indx fp filled waking attached.at_fd type (openCmd flags) (some indx)
        (fun o same => (Option.some.inj same).symm)
      exact ⟨r,locked,good.always trivial⟩
    · exact ⟨_,rfl,(filled.opens attached.at_fd).always trivial⟩
  | failed error bad =>
    simp only [copen,ran]
    exact ⟨_,rfl,(given.failed p error).always trivial⟩
  | fdopen minor =>
    have fair : Fair s (.opens p flags (.fdopen minor)) ↔ Reopens s p minor flags :=
      ⟨fun fair => fair alive awake ⟨indx,attached.empty⟩ ⟨fp,attached.free⟩,fun reopens _ _ _ _ => reopens⟩
    have free : (((prepared t fp flags).setCount fp 0).files fp).count = 0 := congrArg File.count (files_setFile _ _ _)
    rw [fair,← detached_reopens attached after flags sound minor]
    rcases @dupfdopen_cases _ p indx fp given (by rw [← alive,← attached.alive]; rfl) waking attached.at_fd free minor flags with
      ⟨error,copied,bad,lost⟩ | ⟨r,wfp,copied,kept,at_indx,found⟩
    · rw [copen_fdopen flags minor ran copied,if_neg bad]
      refine ⟨_,rfl,given.answer p _,fun answered => ?_,fun found => absurd found lost⟩
      exact absurd (update_self _ _ _) (answered p indx rfl)
    · rw [copen_fdopen flags minor ran copied,if_pos rfl]
      exact ⟨_,rfl,kept.answer p _,fun _ => found,fun _ => (kept.opens at_indx).answered⟩

theorem execFd_sound (sound : Sound ∅ s) (awake : s.wait p = none) (fd : Fd) :
    Sound ∅ (execFd p s fd) ∧ (execFd p s fd).wait p = none := by
  rw [execFd]
  split_ifs
  · have released := sound.releaseAt awake fd
    rw [closefAt_setOfile] at released
    refine ⟨released.setPofile p fd false,?_⟩
    rw [← awake,← (closefAt_framed s (s.ofile (p,fd))).wait]
    rfl
  · exact ⟨sound,awake⟩

theorem exec_good (sound : Sound ∅ s) (awake : s.wait p = none) : Good (exec s p) := by
  have loop : ∀ (fds : List Fd) (s : State), Sound ∅ s → s.wait p = none → Sound ∅ (fds.foldl (execFd p) s) := by
    intro fds
    induction fds with
    | nil => exact fun s sound _ => sound
    | cons fd fds ih =>
      intro s sound awake
      obtain ⟨after,still⟩ := execFd_sound sound awake fd
      exact ih _ after still
  exact ((loop _ s sound awake).lower p).done p

theorem exitFd_spec (sound : Sound ∅ s) (awake : s.wait p = none) (fd : Fd) :
    Sound ∅ (exitFd p s fd) ∧ (exitFd p s fd).wait p = none ∧
    (exitFd p s fd).ofile = update s.ofile (p,fd) none := by
  have shape : exitFd p s fd = (closefAt (s.setOfile p fd none) (s.ofile (p,fd))).setPofile p fd false := by
    rw [exitFd]
    cases s.ofile (p,fd) with
    | none => rfl
    | some fp => exact closef_setPofile _ p fd false fp
  have frame := closefAt_framed (s.setOfile p fd none) (s.ofile (p,fd))
  rw [shape]
  exact ⟨(sound.releaseAt awake fd).setPofile p fd false,frame.wait ▸ awake,frame.ofile⟩

theorem exitLoop_spec (fds : List Fd) (s : State) (sound : Sound ∅ s) (awake : s.wait p = none) :
    Sound ∅ (fds.foldl (exitFd p) s) ∧ (fds.foldl (exitFd p) s).wait p = none ∧
      ∀ fd, fd ∈ fds ∨ s.ofile (p,fd) = none → (fds.foldl (exitFd p) s).ofile (p,fd) = none := by
  induction fds generalizing s with
  | nil => exact ⟨sound,awake,fun fd either => either.resolve_left List.not_mem_nil⟩
  | cons first fds ih =>
    obtain ⟨after,still,ofile⟩ := exitFd_spec sound awake first
    obtain ⟨final,rest,closed⟩ := ih _ after still
    refine ⟨final,rest,fun fd either => closed fd ?_⟩
    rw [ofile]
    by_cases same : fd = first
    · subst same
      exact .inr (update_self _ _ _)
    rw [update_of_ne (fun both => same (Prod.mk.inj both).2)]
    exact either.imp (fun member => (List.mem_cons.mp member).resolve_left same) id

theorem mem_fdsTo {last : Int} {fd : Fd} : fd ∈ fdsTo last ↔ (fd.val : Int) ≤ last := by
  simp [fdsTo]

theorem exit_good (sound : Sound ∅ s) (awake : s.wait p = none) : Good (exit s p) := by
  obtain ⟨final,rest,closed⟩ := exitLoop_spec (fdsTo (s.lastfile p)) s sound awake
  have all : ∀ fd, ((fdsTo (s.lastfile p)).foldl (exitFd p) s).ofile (p,fd) = none := by
    intro fd
    refine closed fd ?_
    by_cases low : (fd.val : Int) ≤ s.lastfile p
    · exact .inl (mem_fdsTo.mpr low)
    · exact .inr (sound.above p fd (not_le.mp low))
  refine ⟨⟨⟨final.counts,final.above,?_,final.filled,final.waits⟩,final.locks⟩,nofun⟩
  intro q gone
  by_cases same : q = p
  · subst same
    exact ⟨all,rest⟩
  · exact final.dead q ((update_of_ne same _ _).symm.trans gone)

def counted (f : File) (n : Nat) : File := {f with count := f.count + n}

theorem hold_files (s : State) (x : Option Slot) :
    hold s x = {s with files := fun fp => counted (s.files fp) (weight x fp)} := by
  cases x with
  | none => rfl
  | some held =>
    have same : update s.files held {s.files held with count := (s.files held).count + 1} =
        fun fp => counted (s.files fp) (weight (some held) fp) := by
      funext fp
      by_cases here : fp = held
      · subst here
        rw [update_self,weight_self]
        rfl
      · rw [update_of_ne here,weight_of_ne (Ne.symm here)]
        rfl
    rw [hold,State.setCount,State.setFile,same]

theorem holdLoop_files (fds : List Fd) (s : State) (p : Pid) : fds.foldl (fun s fd => hold s (s.ofile (p,fd))) s =
    {s with files := fun fp => counted (s.files fp) (fds.countP fun fd => decide (s.ofile (p,fd) = some fp))} := by
  induction fds generalizing s with
  | nil => rfl
  | cons fd fds ih =>
    rw [List.foldl_cons,hold_files,ih]
    dsimp only
    congr 1
    funext fp
    rw [List.countP_cons]
    simp only [counted,weight,decide_eq_true_eq]
    congr 1
    omega

theorem fork_row (sound : Sound ∅ s) (p : Pid) (fp : Slot) :
    (fdsTo (s.lastfile p)).countP (fun fd => decide (s.ofile (p,fd) = some fp)) = hits (fun fd => s.ofile (p,fd)) fp := by
  refine countP_eq_hits ((List.nodup_finRange 30).filter _) fun fd at_fd => ?_
  exact mem_fdsTo.mpr (sound.low at_fd).1

theorem row_pos (sound : Sound ∅ s) {n : Nat} (row : n = hits (fun fd => s.ofile (p,fd)) fp)
    (some : (s.files fp).count + n ≠ 0) :
    (s.files fp).count ≠ 0 := by
  intro zero
  have positive : 0 < hits (fun fd => s.ofile (p,fd)) fp := by omega
  obtain ⟨fd,at_fd⟩ := exists_of_hits positive
  exact sound.opened at_fd zero

theorem fork_good (sound : Sound ∅ s) (child : Pid) : Good (fork s p child) := by
  rw [fork]
  split_ifs with taken
  · exact sound.failed p 11
  have gone := sound.dead child (by simpa using taken)
  rw [holdLoop_files]
  dsimp only
  refine ⟨⟨⟨?_,?_,?_,?_,?_⟩,?_⟩,nofun⟩
  · intro fp
    dsimp only [counted]
    rw [fork_row sound p fp,hits_copy s.ofile gone.1 fp,sound.counts fp]
  · intro q fd beyond
    dsimp only at beyond ⊢
    by_cases same : q = child
    · subst same
      rw [update_self] at beyond
      rw [if_pos rfl]
      exact sound.above p fd beyond
    · rw [update_of_ne same] at beyond
      rw [if_neg same]
      exact sound.above q fd beyond
  · intro q dead
    have same : q ≠ child := by
      rintro rfl
      exact absurd ((update_self _ _ _).symm.trans dead) (by simp)
    obtain ⟨empty,still⟩ := sound.dead q ((update_of_ne same _ _).symm.trans dead)
    refine ⟨fun fd => ?_,(update_of_ne same _ _).trans still⟩
    dsimp only
    rw [if_neg same]
    exact empty fd
  · intro fp old type count
    exact sound.filled fp old type (row_pos sound (fork_row sound p fp) count)
  · intro q w waits
    have same : q ≠ child := by
      rintro rfl
      exact absurd ((update_self _ _ _).symm.trans waits) (by simp)
    obtain ⟨old,type,data,fd,at_fd,opening⟩ := sound.waits q w ((update_of_ne same _ _).symm.trans waits)
    refine ⟨old,type,data,fd,?_,opening⟩
    dsimp only
    rw [if_neg same]
    exact at_fd
  · refine ⟨sound.locks.agrees,fun fp held => ?_⟩
    obtain ⟨type,data,count⟩ := sound.locks.holder fp held
    exact ⟨type,data,by dsimp only [counted]; omega⟩

end Retrobsd.FileTable

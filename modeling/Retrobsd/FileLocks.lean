import Retrobsd.FileTable

/-! The locks of the files and the counters of the inodes say the same. The argument is
carried by the numbers of holders; how they change with a file is counted by the tables. -/
namespace Retrobsd.FileTable
open Function
open Lib.Counting

structure Agrees (n : Inode) (ex sh : Nat) : Prop where
  exlockc : n.exlockc.toNat = ex
  shlockc : n.shlockc.toNat = sh
  iexlock : n.iexlock = true ↔ ex ≠ 0
  ishlock : n.ishlock = true ↔ sh ≠ 0
  single : ex ≤ 1
  alone : ex ≠ 0 → sh = 0
  sank : n.sank = false

def exTable (files : Slot → File) (fp : Slot) : Option Nat := if (files fp).flag.fExlock then (files fp).data else none

def shTable (files : Slot → File) (fp : Slot) : Option Nat := if (files fp).flag.fShlock then (files fp).data else none

/-- The inodes agree with the files, and only open files of an inode have locks. -/
structure Locks (files : Slot → File) (inodes : Nat → Inode) : Prop where
  agrees : ∀ ip, Agrees (inodes ip) (hits (exTable files) ip) (hits (shTable files) ip)
  holder : ∀ fp, (files fp).flag.fShlock = true ∨ (files fp).flag.fExlock = true →
    (files fp).type = .inode ∧ (files fp).data ≠ none ∧ (files fp).count ≠ 0

variable {n : Inode} {ex sh : Nat} {files : Slot → File} {inodes : Nat → Inode} {fp : Slot} {ip : Nat} {f : File}

theorem Agrees.waiting (agrees : Agrees n ex sh) : Agrees {n with ilwait := true} ex sh :=
  ⟨agrees.exlockc,agrees.shlockc,agrees.iexlock,agrees.ishlock,agrees.single,agrees.alone,agrees.sank⟩

theorem pred_toNat {c : BitVec 16} {k : Nat} (same : c.toNat = k + 1) : (c - 1).toNat = k := by
  have bound := c.isLt
  have one : (1 : BitVec 16).toNat = 1 := rfl
  rw [BitVec.toNat_sub,one]
  omega

theorem succ_toNat {c : BitVec 16} {k : Nat} (same : c.toNat = k) (small : k < 24) : (c + 1).toNat = k + 1 := by
  have one : (1 : BitVec 16).toNat = 1 := rfl
  rw [BitVec.toNat_add,one]
  omega

theorem eq_zero_iff_toNat (c : BitVec 16) : c = 0 ↔ c.toNat = 0 := by
  rw [← BitVec.toNat_inj]
  rfl

theorem Agrees.unlockShared (agrees : Agrees n ex (sh + 1)) : Agrees {n with
    shlockc := n.shlockc - 1
    ishlock := if n.shlockc - 1 = 0 then false else n.ishlock
    sank := n.sank || decide (n.shlockc = 0)} ex sh := by
  have fewer := pred_toNat agrees.shlockc
  refine ⟨agrees.exlockc,fewer,agrees.iexlock,?_,agrees.single,?_,?_⟩
  · simp only [eq_zero_iff_toNat,fewer]
    split_ifs with zero
    · simp [zero]
    · simp [zero,agrees.ishlock]
  · intro held
    exact absurd (agrees.alone held) (by omega)
  · have counted : n.shlockc ≠ 0 := by
      rw [ne_eq,eq_zero_iff_toNat,agrees.shlockc]
      omega
    rw [agrees.sank,decide_eq_false counted]
    rfl

theorem Agrees.unlockExclusive (agrees : Agrees n (ex + 1) sh) : Agrees {n with
    exlockc := n.exlockc - 1
    iexlock := if n.exlockc - 1 = 0 then false else n.iexlock
    ilwait := if n.exlockc - 1 = 0 then false else n.ilwait
    sank := n.sank || decide (n.exlockc = 0)} ex sh := by
  have fewer := pred_toNat agrees.exlockc
  have last := agrees.single
  refine ⟨fewer,agrees.shlockc,?_,agrees.ishlock,by omega,by omega,?_⟩
  · simp only [eq_zero_iff_toNat,fewer]
    split_ifs with zero
    · simp [zero]
    · omega
  have counted : n.exlockc ≠ 0 := by
    rw [ne_eq,eq_zero_iff_toNat,agrees.exlockc]
    omega
  rw [agrees.sank,decide_eq_false counted]
  rfl

theorem Agrees.grantShared (agrees : Agrees n ex sh) (free : n.iexlock = false) (small : sh < 24) :
    Agrees {n with shlockc := n.shlockc + 1,ishlock := true} ex (sh + 1) := by
  have none : ex = 0 := by
    by_contra held
    exact absurd (agrees.iexlock.mpr held) (by simp [free])
  refine ⟨agrees.exlockc,succ_toNat agrees.shlockc small,agrees.iexlock,by simp,agrees.single,?_,agrees.sank⟩
  intro held
  exact absurd none held

theorem Agrees.grantExclusive (agrees : Agrees n ex sh) (free : n.iexlock = false) (unshared : n.ishlock = false) :
    Agrees {n with exlockc := n.exlockc + 1,iexlock := true} (ex + 1) sh := by
  have none : ex = 0 := by
    by_contra held
    exact absurd (agrees.iexlock.mpr held) (by simp [free])
  have alone : sh = 0 := by
    by_contra held
    exact absurd (agrees.ishlock.mpr held) (by simp [unshared])
  subst none
  exact ⟨succ_toNat agrees.exlockc (by decide),agrees.shlockc,by simp,agrees.ishlock,le_rfl,fun _ => alone,agrees.sank⟩

theorem exTable_update (files : Slot → File) (fp : Slot) (f : File) : exTable (update files fp f) =
    update (exTable files) fp (if f.flag.fExlock then f.data else none) :=
  comp_update (fun f : File => if f.flag.fExlock then f.data else none) files fp f

theorem shTable_update (files : Slot → File) (fp : Slot) (f : File) : shTable (update files fp f) =
    update (shTable files) fp (if f.flag.fShlock then f.data else none) :=
  comp_update (fun f : File => if f.flag.fShlock then f.data else none) files fp f

theorem exTable_setShlock (b : Bool) : exTable (update files fp ((files fp).setShlock b)) = exTable files := by
  rw [exTable_update]
  exact update_eq_self fp _

theorem shTable_setExlock (b : Bool) : shTable (update files fp ((files fp).setExlock b)) = shTable files := by
  rw [shTable_update]
  exact update_eq_self fp _

theorem Locks.refile (locks : Locks files inodes) (ex : (if f.flag.fExlock then f.data else none) = exTable files fp)
    (sh : (if f.flag.fShlock then f.data else none) = shTable files fp)
    (holder : f.flag.fShlock = true ∨ f.flag.fExlock = true → f.type = .inode ∧ f.data ≠ none ∧ f.count ≠ 0) :
    Locks (update files fp f) inodes := by
  refine ⟨fun ip => ?_,fun g => ?_⟩
  · rw [exTable_update,shTable_update,ex,sh,update_eq_self,update_eq_self]
    exact locks.agrees ip
  by_cases same : g = fp
  · subst same
    rw [update_self]
    exact holder
  · rw [update_of_ne same]
    exact locks.holder g

theorem Locks.change (locks : Locks files inodes) (data : (files fp).data = some ip)
    (agrees : Agrees n (hits (exTable (update files fp f)) ip) (hits (shTable (update files fp f)) ip))
    (kept : f.data = (files fp).data)
    (holder : f.flag.fShlock = true ∨ f.flag.fExlock = true → f.type = .inode ∧ f.data ≠ none ∧ f.count ≠ 0) :
    Locks (update files fp f) (update inodes ip n) := by
  refine ⟨fun other => ?_,fun g => ?_⟩
  · by_cases same : other = ip
    · subst same
      rw [update_self]
      exact agrees
    have apart : ∀ b : Bool, weight (if b then some ip else none) other = 0 := by
      intro b
      cases b
      · rfl
      · exact weight_of_ne fun equal => same equal.symm
    have exclusive := hits_update (exTable files) fp (if f.flag.fExlock then f.data else none) other
    have shared := hits_update (shTable files) fp (if f.flag.fShlock then f.data else none) other
    rw [kept,data,apart,exTable,data,apart] at exclusive
    rw [kept,data,apart,shTable,data,apart] at shared
    rw [update_of_ne same,exTable_update,shTable_update,kept,data]
    simp only [Nat.add_zero] at exclusive shared
    rw [exclusive,shared]
    exact locks.agrees other
  · by_cases same : g = fp
    · subst same
      rw [update_self]
      exact holder
    · rw [update_of_ne same]
      exact locks.holder g

structure Relocked (s t : State) : Prop where
  type : ∀ fp, (t.files fp).type = (s.files fp).type
  data : ∀ fp, (t.files fp).data = (s.files fp).data
  count : ∀ fp, (t.files fp).count = (s.files fp).count
  ofile : t.ofile = s.ofile
  lastfile : t.lastfile = s.lastfile
  alive : t.alive = s.alive
  wait : t.wait = s.wait

theorem Relocked.refl (s : State) : Relocked s s := ⟨fun _ => rfl,fun _ => rfl,fun _ => rfl,rfl,rfl,rfl,rfl⟩

theorem Relocked.trans {s t r : State} (first : Relocked s t) (second : Relocked t r) : Relocked s r where
  type fp := (second.type fp).trans (first.type fp)
  data fp := (second.data fp).trans (first.data fp)
  count fp := (second.count fp).trans (first.count fp)
  ofile := second.ofile.trans first.ofile
  lastfile := second.lastfile.trans first.lastfile
  alive := second.alive.trans first.alive
  wait := second.wait.trans first.wait

variable {s : State}

theorem relocked_setFile (same : f.type = (s.files fp).type ∧ f.data = (s.files fp).data ∧ f.count = (s.files fp).count) :
    Relocked s (s.setFile fp f) := by
  have kept {α : Type} (field : File → α) (same : field f = field (s.files fp)) : ∀ g,
    field (update s.files fp f g) = field (s.files g) :=
    (forall_update_iff s.files fun g f => field f = field (s.files g)).mpr ⟨same,fun _ _ => rfl⟩
  exact ⟨kept File.type same.1,kept File.data same.2.1,kept File.count same.2.2,rfl,rfl,rfl,rfl⟩

theorem relocked_update (same : f.type = (s.files fp).type ∧ f.data = (s.files fp).data ∧ f.count = (s.files fp).count) :
    Relocked s ((s.setInode ip n).setFile fp f) :=
  have files := relocked_setFile same
  ⟨files.type,files.data,files.count,rfl,rfl,rfl,rfl⟩

section
variable (locks : Locks s.files s.inodes) (data : (s.files fp).data = some ip)
include locks data

theorem unlockShared_locks (held : (s.files fp).flag.fShlock = true) :
    Locks (unlockShared s fp ip).files (unlockShared s fp ip).inodes := by
  refine locks.change data ?_ rfl ?_
  · have fewer := hits_update (shTable s.files) fp none ip
    have one : shTable s.files fp = some ip := by simp [shTable,held,data]
    simp only [one,weight_self,weight_none,Nat.add_zero] at fewer
    have agrees := locks.agrees ip
    rw [← fewer] at agrees
    rw [exTable_setShlock,shTable_update]
    exact agrees.unlockShared
  · rintro (no | exclusive)
    · cases no
    · exact locks.holder fp (.inr exclusive)

theorem unlockExclusive_locks (held : (s.files fp).flag.fExlock = true) :
    Locks (unlockExclusive s fp ip).files (unlockExclusive s fp ip).inodes := by
  refine locks.change data ?_ rfl ?_
  · have fewer := hits_update (exTable s.files) fp none ip
    have one : exTable s.files fp = some ip := by simp [exTable,held,data]
    simp only [one,weight_self,weight_none,Nat.add_zero] at fewer
    have agrees := locks.agrees ip
    rw [← fewer] at agrees
    rw [exTable_update,shTable_setExlock]
    exact agrees.unlockExclusive
  · rintro (shared | no)
    · exact locks.holder fp (.inl shared)
    · cases no

theorem grantShared_locks (free : (s.inodes ip).iexlock = false) (unheld : (s.files fp).flag.fShlock = false)
    (type : (s.files fp).type = .inode) (count : (s.files fp).count ≠ 0) :
    Locks (grantShared s fp ip).files (grantShared s fp ip).inodes := by
  refine locks.change data ?_ rfl ?_
  · have more := hits_update (shTable s.files) fp (some ip) ip
    have zero : shTable s.files fp = none := by simp [shTable,unheld]
    rw [zero,weight_self,weight_none,Nat.add_zero] at more
    have most := hits_le_card (update (shTable s.files) fp (some ip)) ip
    rw [Fintype.card_fin] at most
    have now : (if ((s.files fp).setShlock true).flag.fShlock then
      ((s.files fp).setShlock true).data else none) = some ip := data
    rw [exTable_setShlock,shTable_update,now,more]
    exact (locks.agrees ip).grantShared free (by omega)
  · intro _
    exact ⟨type,by simp [File.setShlock,data],count⟩

theorem grantExclusive_locks (free : (s.inodes ip).iexlock = false) (unshared : (s.inodes ip).ishlock = false)
    (type : (s.files fp).type = .inode) (count : (s.files fp).count ≠ 0) :
    Locks (grantExclusive s fp ip).files (grantExclusive s fp ip).inodes := by
  refine locks.change data ?_ rfl ?_
  · have nobody : ∀ i, exTable s.files i ≠ some ip := by
      rw [← hits_eq_zero]
      by_contra held
      exact absurd ((locks.agrees ip).iexlock.mpr held) (by simp [free])
    have more := hits_update (exTable s.files) fp (some ip) ip
    have zero : weight (exTable s.files fp) ip = 0 := if_neg (nobody fp)
    rw [zero,weight_self,Nat.add_zero] at more
    have now : (if ((s.files fp).setExlock true).flag.fExlock then
      ((s.files fp).setExlock true).data else none) = some ip := data
    rw [exTable_update,shTable_setExlock,now,more]
    exact (locks.agrees ip).grantExclusive free unshared
  · intro _
    exact ⟨type,by simp [File.setExlock,data],count⟩

end

theorem setShlock_self {b : Bool} (same : f.flag.fShlock = b) : f.setShlock b = f := by
  subst same
  rfl

theorem setExlock_self {b : Bool} (same : f.flag.fExlock = b) : f.setExlock b = f := by
  subst same
  rfl

theorem dropped_spec (locks : Locks s.files s.inodes) {u t : State} {held asked : Bool} {file : Bool → File}
    (unlocked : held = true → Locks u.files u.inodes ∧ Relocked s u ∧ u.files fp = file false) (self : file held = s.files fp)
    (dropped : t = if asked && held then u else s) :
    Locks t.files t.inodes ∧ Relocked s t ∧ t.files fp = file (held && !asked) := by
  subst dropped
  cases asked with
  | false =>
    simp only [Bool.false_and,Bool.false_eq_true,if_false,Bool.not_false,Bool.and_true]
    exact ⟨locks,Relocked.refl s,self.symm⟩
  | true =>
    cases held with
    | false => exact ⟨locks,Relocked.refl s,self.symm⟩
    | true => exact unlocked rfl

theorem inoUnlock_spec (locks : Locks s.files s.inodes) (fp : Slot) (sh ex : Bool) :
    Locks (inoUnlock s fp sh ex).files (inoUnlock s fp sh ex).inodes ∧ Relocked s (inoUnlock s fp sh ex) ∧
      ((inoUnlock s fp sh ex).files fp).flag.fShlock = ((s.files fp).flag.fShlock && !sh) ∧
      ((inoUnlock s fp sh ex).files fp).flag.fExlock = ((s.files fp).flag.fExlock && !ex) := by
  cases data : (s.files fp).data with
  | none =>
    have holder := locks.holder fp
    rw [inoUnlock,data]
    refine ⟨locks,Relocked.refl s,?_,?_⟩
    · cases shared : (s.files fp).flag.fShlock with
      | false => rfl
      | true => exact absurd data (holder (.inl shared)).2.1
    cases exclusive : (s.files fp).flag.fExlock with
    | false => rfl
    | true => exact absurd data (holder (.inr exclusive)).2.1
  | some ip =>
    obtain ⟨t,dropped⟩ : ∃ t, t = if sh && (s.files fp).flag.fShlock then unlockShared s fp ip else s := ⟨_,rfl⟩
    obtain ⟨middle,first,file⟩ := dropped_spec locks (fun held => ⟨unlockShared_locks locks data held,
      relocked_update ⟨rfl,rfl,rfl⟩,update_self _ _ _⟩) (setShlock_self rfl) dropped
    have data' := (first.data fp).trans data
    have flag : (t.files fp).flag.fExlock = (s.files fp).flag.fExlock := by
      rw [file]
      rfl
    have same : inoUnlock s fp sh ex = if ex && (t.files fp).flag.fExlock then unlockExclusive t fp ip else t := by
      rw [inoUnlock,data,flag,dropped]
    obtain ⟨final,second,last⟩ := dropped_spec middle (fun held => ⟨unlockExclusive_locks middle data' held,
      relocked_update ⟨rfl,rfl,rfl⟩,update_self _ _ _⟩) (setExlock_self rfl) same
    refine ⟨final,first.trans second,?_,?_⟩
    · rw [last]
      show (t.files fp).flag.fShlock = _
      rw [file]
      rfl
    · rw [last,flag]
      rfl

theorem block_spec (locks : Locks s.files s.inodes) (ip : Nat) (cmd : Cmd) :
    Locks (block s ip cmd).1.files (block s ip cmd).1.inodes ∧ Relocked s (block s ip cmd).1 := by
  rw [block]
  split_ifs
  · exact ⟨locks,Relocked.refl s⟩
  refine ⟨⟨fun other => ?_,locks.holder⟩,⟨fun _ => rfl,fun _ => rfl,fun _ => rfl,rfl,rfl,rfl,rfl⟩⟩
  by_cases same : other = ip
  · subst same
    simpa [State.setInode] using (locks.agrees other).waiting
  · simpa [State.setInode,same] using locks.agrees other

theorem lockLoop_spec (turns : Nat) (s : State) (fp : Slot) (ip : Nat) (cmd : Cmd) (locks : Locks s.files s.inodes)
    (data : (s.files fp).data = some ip) (type : (s.files fp).type = .inode) (count : (s.files fp).count ≠ 0)
    (enough : ((s.files fp).flag.fShlock.toNat + (s.files fp).flag.fExlock.toNat) < turns) :
    ∃ t verdict, lockLoop turns s fp ip cmd = .ok (t,verdict) ∧ Locks t.files t.inodes ∧ Relocked s t := by
  induction turns generalizing s with
  | zero => exact absurd enough (Nat.not_lt_zero _)
  | succ turns ih =>
    have again : ∀ sh ex : Bool, ((s.files fp).flag.fShlock && !sh).toNat + ((s.files fp).flag.fExlock && !ex).toNat < turns →
        ∃ t verdict, lockLoop turns (inoUnlock s fp sh ex) fp ip cmd = .ok (t,verdict) ∧
        Locks t.files t.inodes ∧ Relocked s t := by
      intro sh ex fewer
      obtain ⟨middle,first,shared,exclusive⟩ := inoUnlock_spec locks fp sh ex
      obtain ⟨t,verdict,ran,final,second⟩ := ih _ middle ((first.data fp).trans data) ((first.type fp).trans type)
        ((first.count fp) ▸ count) (by rw [shared,exclusive]; exact fewer)
      exact ⟨t,verdict,ran,final,first.trans second⟩
    have stays := block_spec locks ip cmd
    rw [lockLoop]
    split_ifs with taken mine wanted shared exclusive unshared
    · refine again false true ?_
      rw [mine] at enough
      simp only [Bool.toNat_true,Bool.not_false,Bool.and_true,Bool.not_true,Bool.and_false,Bool.toNat_false] at enough ⊢
      omega
    · exact ⟨_,_,rfl,stays⟩
    · refine again true false ?_
      rw [shared] at enough
      simp only [Bool.toNat_true,Bool.not_false,Bool.and_true,Bool.not_true,Bool.and_false,Bool.toNat_false] at enough ⊢
      omega
    · exact ⟨_,_,rfl,stays⟩
    · have none : (s.inodes ip).ishlock = false := by simpa [exclusive] using wanted
      exact ⟨_,_,rfl,grantExclusive_locks locks data (by simpa using taken) none type count,relocked_update ⟨rfl,rfl,rfl⟩⟩
    · simp only [Bool.and_eq_true,Bool.not_eq_true'] at unshared
      exact ⟨_,_,rfl,grantShared_locks locks data (by simpa using taken) unshared.2 type count,relocked_update ⟨rfl,rfl,rfl⟩⟩
    · exact ⟨s,_,rfl,locks,Relocked.refl s⟩

end Retrobsd.FileTable

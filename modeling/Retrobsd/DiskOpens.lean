import Retrobsd.MountRuns

/-! The count that the driver keeps of the opens of a disk, and the entries of the file and
mount tables that refer to the disk. -/
namespace Retrobsd.Mounts
open Function
open BufferCache (Dev major makedev)
open Lib.Hoare Lib.Run Lib.Counting

variable {cfg : Config} {r : Nat}

section
variable {dev : Dev}

def fileRoot (cfg : Config) (f : File) : Option Nat := if f.fCount ≠ 0 ∧ f.opened.1 = .ifblk then rootOf cfg f.opened.2 else none

def mountRoot (cfg : Config) (m : Mount) : Option Nat := if m.mInodp = .none then none else rootOf cfg m.mDev

def references (cfg : Config) (file : Fin nfile → File) (mount : Fin nmount → Mount) (r : Nat) : Nat :=
  hits (fileRoot cfg ∘ file) r + hits (mountRoot cfg ∘ mount) r

theorem references_small (cfg : Config) (r : Nat) (file : Fin nfile → File) (mount : Fin nmount → Mount) :
    references cfg file mount r ≤ 26 := by
  have files := hits_le_card (fileRoot cfg ∘ file) r
  have mounts := hits_le_card (mountRoot cfg ∘ mount) r
  rw [Fintype.card_fin] at files mounts
  have sizes : nfile = 24 ∧ nmount = 2 := ⟨rfl,rfl⟩
  change hits (fileRoot cfg ∘ file) r + hits (mountRoot cfg ∘ mount) r ≤ 26
  omega

theorem references_file (cfg : Config) (r : Nat) (file : Fin nfile → File) (mount : Fin nmount → Mount)
    (fp : Fin nfile) (f : File) :
    references cfg (update file fp f) mount r + weight (fileRoot cfg (file fp)) r =
    references cfg file mount r + weight (fileRoot cfg f) r := by
  have change := hits_update (fileRoot cfg ∘ file) fp (fileRoot cfg f) r
  rw [references,references,Function.comp_update]
  simp only [Function.comp_apply] at change
  omega

theorem references_mount (cfg : Config) (r : Nat) (file : Fin nfile → File) (mount : Fin nmount → Mount)
    (mp : Fin nmount) (m : Mount) :
    references cfg file (update mount mp m) r + weight (mountRoot cfg (mount mp)) r =
      references cfg file mount r + weight (mountRoot cfg m) r := by
  have change := hits_update (mountRoot cfg ∘ mount) mp (mountRoot cfg m) r
  rw [references,references,Function.comp_update]
  simp only [Function.comp_apply] at change
  omega

theorem opensAfter_self (known : rootOf cfg dev = some r) (opens : Nat → Nat) :
    opensAfter cfg dev opens r = (opens r + 1) % 256 := by
  rw [opensAfter,known]
  exact update_self _ _ _

theorem opensAfter_other (other : rootOf cfg dev ≠ some r) (opens : Nat → Nat) : opensAfter cfg dev opens r = opens r := by
  rw [opensAfter]
  cases known : rootOf cfg dev with
  | none => rfl
  | some root => exact update_of_ne (fun same => other (by rw [known,same])) _ _

theorem opensBefore_self (known : rootOf cfg dev = some r) (disk : r < cfg.nrdsk) (opens : Nat → Nat) :
    opensBefore cfg dev opens r = opens r - 1 := by
  rw [opensBefore,known]
  dsimp only
  rw [if_pos disk]
  exact update_self _ _ _

theorem opensBefore_other (other : rootOf cfg dev ≠ some r) (opens : Nat → Nat) : opensBefore cfg dev opens r = opens r := by
  rw [opensBefore]
  cases known : rootOf cfg dev with
  | none => rfl
  | some root =>
    dsimp only
    split_ifs
    · exact update_of_ne (fun same => other (by rw [known,same])) _ _
    · rfl

theorem weight_rootOf_self (known : rootOf cfg dev = some r) : weight (rootOf cfg dev) r = 1 := by
  rw [known,weight_self]

theorem weight_rootOf_other (other : rootOf cfg dev ≠ some r) : weight (rootOf cfg dev) r = 0 := if_neg other

theorem opensAfter_counts (opens : Nat → Nat) (few : opens r < 255) :
    opensAfter cfg dev opens r = opens r + weight (rootOf cfg dev) r := by
  by_cases known : rootOf cfg dev = some r
  · rw [opensAfter_self known,weight_rootOf_self known,Nat.mod_eq_of_lt (by omega)]
  rw [opensAfter_other known,weight_rootOf_other known]
  rfl

theorem opensBefore_counts (disk : r < cfg.nrdsk) (opens : Nat → Nat) :
    opensBefore cfg dev opens r = opens r - weight (rootOf cfg dev) r := by
  by_cases known : rootOf cfg dev = some r
  · rw [opensBefore_self known disk,weight_rootOf_self known]
  rw [opensBefore_other known,weight_rootOf_other known]
  rfl

end

variable {n : Nat} {hw : Nat → Response n} {s : Kernel n}

section
variable {t : Kernel n}

def Counted (cfg : Config) (r : Nat) (s : Kernel n) : Prop := s.opens r = references cfg s.file s.mount r

theorem Counted.few (counted : Counted cfg r s) : s.opens r ≤ 26 := by
  have small := references_small cfg r s.file s.mount
  rw [Counted] at counted
  omega

theorem recount_counted (counted : Counted cfg r s) (used : (s.file fp).fCount ≠ 0) {count : Nat} (still : count ≠ 0) :
    Counted cfg r {s with file := update s.file fp {s.file fp with fCount := count}} := by
  have same : fileRoot cfg ∘ update s.file fp {s.file fp with fCount := count} = fileRoot cfg ∘ s.file := by
    rw [Function.comp_update,update_eq_self_iff]
    simp [fileRoot,used,still]
  rw [Counted,references,same]
  exact counted

theorem aliases_congr (same : ∀ j, (t.inode j).iFmt = (s.inode j).iFmt ∧ (t.inode j).iRdev = (s.inode j).iRdev)
    (mode : Fmt) (dev : Dev)
    (f : File) : aliases t mode dev f = aliases s mode dev f := by
  rw [aliases,aliases]
  cases f.fData with
  | none => rfl
  | some j => simp only [(same j).1,(same j).2]

variable [NeZero n]

/-- No open of the disk is left without its close: an entry of the file table is closed for good only when it is
the last reference to its partition and its node still has a link, and no partition is mounted twice. -/
def Orderly (cfg : Config) (hw : Nat → Response n) (r : Nat) (s : Kernel n) : Op n → Prop
  | .close fp => ¬ (s.file fp).fCount > 1 → ∀ i, (s.file fp).fData = some i → (s.inode i).iFmt = .ifblk →
      rootOf cfg (s.inode i).iRdev = some r →
      ¬ ((s.inode i).iCount = 1 ∧ (s.inode i).iNlink = 0 ∧ (s.mount (s.inode i).iFs).mFilsys.fsRonly = false) ∧
        findMount s (mounted (s.inode i).iRdev) = none ∧
        ∀ other, other ≠ fp → aliases s .ifblk (s.inode i).iRdev (s.file other) = false
  | .smount suser flags => ∀ dev i u, Begins hw s suser flags dev i u → rootOf cfg dev = some r →
    findMount s (mounted dev) = none
  | _ => True

variable {mount mount' : Fin nmount → Mount}

theorem mountRoot_congr
    (same : ∀ mp, (mount' mp).mInodp = (mount mp).mInodp ∧ (mount' mp).mDev = (mount mp).mDev) :
    mountRoot cfg ∘ mount' = mountRoot cfg ∘ mount := by
  funext mp
  simp [mountRoot,(same mp).1,(same mp).2]

theorem mountRoot_sameEntries (entries : SameEntries mount mount') :
    mountRoot cfg ∘ mount' = mountRoot cfg ∘ mount := by
  funext mp
  rcases entries mp with same | ⟨before,after⟩
  · simp [same]
  · simp [mountRoot,before,after]

omit [NeZero n] in
theorem Counted.quiet (counted : Counted cfg r s) (quiet : Quiet s t) : Counted cfg r t := by
  obtain ⟨tick,inode,mount,rfl,_,same⟩ := quiet
  rw [Counted,references,mountRoot_congr same]
  exact counted

theorem copen_counted (counted : Counted cfg r s) (flawless : Flawless hw) {fwrite : Bool} :
    Yields (copen cfg hw fwrite) s fun _ t => Counted cfg r t := by
  have few := counted.few
  refine yields_copen.imp fun e t ended => ?_
  rcases ended with ⟨_,rfl⟩ | ⟨fp,lastf,free,⟨_,f,u,closed,failed,rfl⟩ | ⟨_,i,u,opened,rfl⟩⟩
  · exact counted
  · obtain ⟨tick,inode,opens,busy,unmatched,rfl,_,same⟩ := failed
    have change := references_file cfg r s.file s.mount fp f
    have was : fileRoot cfg (s.file fp) = none := if_neg (by simp [free])
    have now : fileRoot cfg f = none := if_neg (by simp [closed])
    rw [was,now] at change
    change opens r = references cfg (update s.file fp f) s.mount r
    rw [same flawless,counted]
    exact (Nat.add_right_cancel change).symm
  obtain ⟨tick,opens,busy,unmatched,new,_,_,special,rfl⟩ := opened
  simp only [update_self]
  generalize (referenced new (s.inode i)).iFmt = fmt at special ⊢
  generalize (referenced new (s.inode i)).iRdev = dev at special ⊢
  have change := references_file cfg r s.file s.mount fp ⟨1,some i,(fmt,dev)⟩
  have was : fileRoot cfg (s.file fp) = none := if_neg (by simp [free])
  rw [was,weight_none] at change
  change opens r = references cfg (update s.file fp ⟨1,some i,(fmt,dev)⟩) s.mount r
  rw [special.success rfl]
  rw [Counted] at counted
  split_ifs with block
  · have now : fileRoot cfg ⟨1,some i,(fmt,dev)⟩ = rootOf cfg dev := if_pos ⟨Nat.one_ne_zero,block⟩
    rw [now] at change
    rw [opensAfter_counts s.opens (by omega)]
    omega
  · have now : fileRoot cfg ⟨1,some i,(fmt,dev)⟩ = none := if_neg fun both => block both.2
    rw [now,weight_none] at change
    omega

variable {fp : Fin nfile}

theorem released_block {ronly : Bool} {ip : Inode} {fmt : Fmt} (some : fmt ≠ .none) (after : (released ronly ip).iFmt = fmt) :
    ip.iFmt = fmt ∧ (released ronly ip).iRdev = ip.iRdev := by
  by_cases last : ip.iCount = 1
  · by_cases freed : ip.iNlink = 0 ∧ ronly = false
    · simp only [released,if_pos last,if_pos freed] at after
      exact absurd after.symm some
    simp only [released,if_pos last,if_neg freed] at after ⊢
    exact ⟨after,trivial⟩
  · have same := released_same ronly ip last
    rw [same.1] at after
    exact ⟨after,same.2⟩

omit [NeZero n] in
theorem closef_counted (sound : Sound s) (counted : Counted cfg r s) (disk : r < cfg.nrdsk)
    (used : (s.file fp).fCount ≠ 0) (orderly : Orderly cfg hw r s (.close fp : Op n)) :
    Yields (closef cfg hw fp) s fun _ t => Counted cfg r t := by
  refine yields_closef (fun more => recount_counted counted used (by omega))
    fun last i tick opens unmatched closes data closed => ?_
  obtain ⟨reached,unreached⟩ := closed
  obtain ⟨j,data',opened⟩ := sound.opened fp used
  obtain rfl : i = j := Option.some.inj (data.symm.trans data')
  have gone : ∀ f : File, f.fCount = 0 →
      references cfg (update s.file fp f) s.mount r + weight (fileRoot cfg (s.file fp)) r = references cfg s.file s.mount r := by
    intro f closed
    have change := references_file cfg r s.file s.mount fp f
    rwa [show fileRoot cfg f = none from if_neg (by simp [closed]),weight_none] at change
  have change := gone {s.file fp with fData := none,fCount := 0} rfl
  change opens r = references cfg (update s.file fp {s.file fp with fData := none,fCount := 0}) s.mount r
  have after : (unreferenced s fp i tick).inode i = released (s.mount (s.inode i).iFs).mFilsys.fsRonly
    (s.inode i) := update_self _ _ _
  have device : fileRoot cfg (s.file fp) = if (s.inode i).iFmt = .ifblk then rootOf cfg (s.inode i).iRdev else none := by
    rw [fileRoot,opened]
    simp [used]
  rw [Counted] at counted
  by_cases found : Reached (unreferenced s fp i tick) i
  · have format := found.1
    rw [after] at format
    obtain ⟨was,same⟩ := released_block (by decide) format
    rw [(reached found).1,after,same,opensBefore_counts disk]
    rw [device,if_pos was] at change
    omega
  have none : weight (fileRoot cfg (s.file fp)) r = 0 := by
    rw [device]
    split_ifs with block
    · refine weight_rootOf_other fun known => found ?_
      obtain ⟨linked,unmounted,alone⟩ := orderly last i data block known
      have same : (released (s.mount (s.inode i).iFs).mFilsys.fsRonly (s.inode i)).iFmt = (s.inode i).iFmt ∧
          (released (s.mount (s.inode i).iFs).mFilsys.fsRonly (s.inode i)).iRdev = (s.inode i).iRdev := by
        by_cases single : (s.inode i).iCount = 1
        · have kept : ¬ ((s.inode i).iNlink = 0 ∧ (s.mount (s.inode i).iFs).mFilsys.fsRonly = false) :=
            fun both => linked ⟨single,both⟩
          simp only [released,if_pos single,if_neg kept]
          exact ⟨trivial,trivial⟩
        · exact released_same _ _ single
      refine ⟨?_,?_,?_⟩
      · rw [after,same.1]
        exact block
      · rw [after,same.2]
        exact unmounted
      rw [after,same.2]
      rintro ⟨other,aliased⟩
      rcases eq_or_ne other fp with rfl | ne
      · simp [unreferenced,aliases] at aliased
      have here := alone other ne
      have file : (unreferenced s fp i tick).file other = s.file other := update_of_ne ne _ _
      have unchanged : ∀ j, ((unreferenced s fp i tick).inode j).iFmt = (s.inode j).iFmt ∧
          ((unreferenced s fp i tick).inode j).iRdev = (s.inode j).iRdev := by
        intro j
        rcases eq_or_ne j i with rfl | elsewhere
        · rw [after]
          exact same
        rw [show (unreferenced s fp i tick).inode j = s.inode j from update_of_ne elsewhere _ _]
        exact ⟨rfl,rfl⟩
      rw [file,aliases_congr unchanged,here] at aliased
      cases aliased
    · rfl
  rw [none] at change
  rw [(unreached found).1]
  omega

theorem smount_counted (counted : Counted cfg r s) (flawless : Flawless hw) (disk : r < cfg.nrdsk) {suser : Bool} {flags : Flags}
    (orderly : Orderly cfg hw r s (.smount suser flags : Op n)) :
    Yields (smount cfg hw suser flags) s fun _ t => Counted cfg r t := by
  have few := counted.few
  refine yields_smount.imp fun e t ended => ?_
  rcases ended with ⟨dev,i,u,begins,fresh,failed,success⟩ | ⟨_,quiet,_⟩
  · have unmounted := orderly dev i u begins
    obtain ⟨tick,inode,new,rfl,_⟩ := fresh
    by_cases fine : e = 0
    · obtain ⟨tick',mp,fs,free,_,_,_,rfl⟩ := success fine
      have change := references_mount cfg r s.file s.mount mp ⟨dev,fs,.inode i⟩
      have was : mountRoot cfg (s.mount mp) = none := if_pos free
      have now : mountRoot cfg ⟨dev,fs,.inode i⟩ = rootOf cfg dev := if_neg (by simp)
      rw [was,now,weight_none] at change
      change opensAfter cfg dev s.opens r = references cfg s.file (update s.mount mp ⟨dev,fs,.inode i⟩) r
      rw [opensAfter_counts s.opens (by omega)]
      rw [Counted] at counted
      omega
    obtain ⟨tick',ronly,mount,opens,busy,unmatched,rfl,entries,_,_,opened⟩ := failed fine
    change opens r = references cfg s.file mount r
    rw [references,mountRoot_sameEntries entries]
    refine Eq.trans ?_ counted
    rcases opened flawless with same | back | ⟨⟨_,_,_,used⟩,leaked⟩
    · rw [same]
    · rw [back,opensBefore_counts disk,opensAfter_counts s.opens (by omega),Nat.add_sub_cancel]
    have other : rootOf cfg dev ≠ some r := fun known => by
      have free := unmounted known
      simp only [findMount] at used free
      rw [free] at used
      cases used
    rw [leaked,opensAfter_other other]
  · exact counted.quiet quiet

omit [NeZero n] in
theorem unmount1_counted (counted : Counted cfg r s) (disk : r < cfg.nrdsk) {suser : Bool} :
    Yields (unmount1 cfg hw suser) s fun _ t => Counted cfg r t := by
  refine yields_unmount1.imp fun e t ended => ?_
  by_cases fine : e = 0
  · obtain ⟨tick,inode,mount,ronly,mp,dev,i,covers,device,same,_,rfl⟩ := ended.2 fine
    have before : references cfg s.file mount r = s.opens r := by
      rw [references,mountRoot_congr same]
      exact counted.symm
    have was : mountRoot cfg (mount mp) = rootOf cfg dev := by
      rw [mountRoot,if_neg (by simp [covers]),device]
    have gone : ∀ m : Mount, m.mInodp = .none →
      references cfg s.file (update mount mp m) r + weight (rootOf cfg dev) r = s.opens r := by
      intro m none
      have change := references_mount cfg r s.file mount mp m
      rwa [was,show mountRoot cfg m = Option.none from if_pos none,weight_none,before] at change
    have change := gone {mount mp with mInodp := .none,mDev := 0} rfl
    change opensBefore cfg dev s.opens r = references cfg s.file (update mount mp {mount mp with mInodp := .none,mDev := 0}) r
    rw [opensBefore_counts disk]
    omega
  · exact counted.quiet (ended.1 fine)

/-- What open files, mounts and the drivers' counts depend on is as it was. -/
def Apart (s t : Kernel n) : Prop := t.file = s.file ∧ t.opens = s.opens ∧ t.closes = s.closes ∧
  ∀ mp, (t.mount mp).mInodp = (s.mount mp).mInodp ∧ (t.mount mp).mDev = (s.mount mp).mDev

def Op.unrelated : Op n → Bool
  | .copen _ | .dup _ | .close _ | .smount _ _ | .umount _ => false
  | _ => true

theorem perform_apart (op : Op n) (unrelated : op.unrelated = true) : Yields (perform cfg hw op) s fun _ t => Apart s t := by
  have same : Apart s s := ⟨rfl,rfl,rfl,fun _ => ⟨rfl,rfl⟩⟩
  cases op with
  | copen _ | dup _ | close _ | smount _ _ | umount _ => cases unrelated
  | unlink =>
    simp only [perform,unlink,yields_bind]
    refine yields_namei (fun e _ => ?_) fun i new _ _ => ?_
    · simp only [yields_pure]
      exact same
    simp only [yields_bind,yields_respond]
    refine .ite (fun _ => ?_) fun _ => ?_
    · simp only [yields_bind,yields_setInode]
      refine yields_iput fun tick => ?_
      simp only [yields_pure]
      exact same
    simp only [yields_bind]
    refine yields_iput fun tick => ?_
    simp only [yields_pure]
    exact same
  | hold =>
    simp only [perform,hold,yields_bind]
    refine yields_namei (fun e _ => ?_) fun i new _ _ => ?_
    · simp only [yields_pure]
      exact same
    simp only [yields_bind,yields_setInode,setOthers,yields_modify,yields_pure]
    exact same
  | drop i =>
    simp only [perform,drop,yields_bind,yields_get]
    refine .ite (fun _ => by simp) fun _ => ?_
    simp only [yields_bind,setOthers,yields_modify]
    refine yields_irele fun tick => ?_
    simp only [yields_pure]
    exact same
  | lock i locked =>
    simp only [perform,lock,yields_bind,yields_get]
    refine .ite (fun _ => by simp) fun _ => ?_
    simp only [yields_setInode,yields_pure]
    exact same
  | take =>
    simp only [perform,yields_bind]
    refine yields_getnewbuf fun b _ _ => ?_
    simp only [yields_pure]
    exact same
  | give b =>
    simp only [perform,yields_bind,yields_brelse,yields_pure]
    exact same
  | modified mp =>
    simp only [perform,yields_bind,yields_setMount,yields_pure]
    refine ⟨rfl,rfl,rfl,fun other => ?_⟩
    rcases eq_or_ne other mp with rfl | ne
    · simp
    · simp [update_of_ne ne]
  | secure level =>
    simp only [perform,yields_bind,yields_modify,yields_pure]
    exact same

theorem perform_counted (sound : Sound s) (counted : Counted cfg r s) (flawless : Flawless hw) (disk : r < cfg.nrdsk) (op : Op n)
    (orderly : Orderly cfg hw r s op) : Yields (perform cfg hw op) s fun _ t => Counted cfg r t := by
  cases op with
  | copen fwrite => exact copen_counted counted flawless
  | dup fp =>
    simp only [perform,yields_bind,yields_get]
    refine .ite (fun _ => by simp) fun used => ?_
    simp only [dupit,yields_bind,yields_setFile,yields_pure]
    exact recount_counted counted used (Nat.succ_ne_zero _)
  | close fp =>
    simp only [perform,yields_bind,yields_get]
    refine .ite (fun _ => by simp) fun used => ?_
    simp only [yields_bind,yields_pure]
    exact closef_counted sound counted disk used orderly
  | smount suser flags => exact smount_counted counted flawless disk orderly
  | umount suser => exact unmount1_counted counted disk
  | _ =>
    refine (perform_apart _ rfl).imp fun _ t kept => ?_
    obtain ⟨file,opens,_,mount⟩ := kept
    rw [Counted,references,mountRoot_congr mount,file,opens]
    exact counted

def Matched (s : Kernel n) : Prop := ∀ c ∈ s.closes, c.called = c.opened

omit [NeZero n] in
theorem closef_matched (sound : Sound s) (matched : Matched s) (used : (s.file fp).fCount ≠ 0) :
    Yields (closef cfg hw fp) s fun _ t => Matched t := by
  refine yields_closef (fun _ => matched) fun last i tick opens unmatched closes data closed => ?_
  obtain ⟨reached,unreached⟩ := closed
  obtain ⟨j,data',opened⟩ := sound.opened fp used
  obtain rfl : i = j := Option.some.inj (data.symm.trans data')
  have after : (unreferenced s fp i tick).inode i = released (s.mount (s.inode i).iFs).mFilsys.fsRonly
    (s.inode i) := update_self _ _ _
  have added : ∀ fmt, fmt ≠ .none → ((unreferenced s fp i tick).inode i).iFmt = fmt →
      closes = s.closes ++ [⟨(fmt,((unreferenced s fp i tick).inode i).iRdev),(s.file fp).opened⟩] →
      ∀ c ∈ closes, c.called = c.opened := by
    intro fmt some format called c member
    rw [after] at format
    obtain ⟨was,same⟩ := released_block some format
    rw [called,List.mem_append,List.mem_singleton] at member
    rcases member with before | rfl
    · exact matched c before
    change (fmt,_) = (s.file fp).opened
    rw [opened,after,same,was]
  by_cases found : Reached (unreferenced s fp i tick) i
  · exact added .ifblk (by decide) found.1 (reached found).2
  rcases (unreached found).2 with same | ⟨format,called⟩
  · change ∀ c ∈ closes, c.called = c.opened
    rw [same]
    exact matched
  · exact added .ifchr (by decide) format called

theorem perform_matched (sound : Sound s) (matched : Matched s) (op : Op n) :
    Yields (perform cfg hw op) s fun _ t => Matched t := by
  cases op with
  | copen fwrite =>
    refine yields_copen.imp fun e t ended => ?_
    rcases ended with ⟨_,rfl⟩ | ⟨fp,lastf,free,⟨_,f,u,closed,failed,rfl⟩ | ⟨_,i,u,opened,rfl⟩⟩
    · exact matched
    · obtain ⟨tick,inode,opens,busy,unmatched,rfl,_⟩ := failed
      exact matched
    · obtain ⟨tick,opens,busy,unmatched,new,_,_,_,rfl⟩ := opened
      exact matched
  | dup fp =>
    simp only [perform,yields_bind,yields_get]
    refine .ite (fun _ => by simp) fun used => ?_
    simp only [dupit,yields_bind,yields_setFile,yields_pure]
    exact matched
  | close fp =>
    simp only [perform,yields_bind,yields_get]
    refine .ite (fun _ => by simp) fun used => ?_
    simp only [yields_bind,yields_pure]
    exact closef_matched sound matched used
  | smount suser flags =>
    refine yields_smount.imp fun e t ended => ?_
    rcases ended with ⟨dev,i,u,begins,fresh,failed,success⟩ | ⟨_,quiet,_⟩
    · obtain ⟨tick,inode,new,rfl,_⟩ := fresh
      by_cases fine : e = 0
      · obtain ⟨tick',mp,fs,_,_,_,_,rfl⟩ := success fine
        exact matched
      obtain ⟨tick',ronly,mount,opens,busy,unmatched,rfl,_⟩ := failed fine
      exact matched
    · obtain ⟨tick,inode,mount,rfl,_⟩ := quiet
      exact matched
  | umount suser =>
    refine yields_unmount1.imp fun e t ended => ?_
    by_cases fine : e = 0
    · obtain ⟨tick,inode,mount,ronly,mp,dev,i,_,_,_,_,rfl⟩ := ended.2 fine
      exact matched
    obtain ⟨tick,inode,mount,rfl,_⟩ := ended.1 fine
    exact matched
  | _ =>
    refine (perform_apart _ rfl).imp fun _ t kept => ?_
    obtain ⟨_,_,closes,_⟩ := kept
    rw [Matched,closes]
    exact matched

end

section
theorem Sound.fileRoot_iff (sound : Sound s) (fp : Fin nfile) : fileRoot cfg (s.file fp) = some r ↔
    ∃ i, (s.file fp).fCount ≠ 0 ∧ (s.file fp).fData = some i ∧ (s.inode i).iFmt = .ifblk ∧
    rootOf cfg (s.inode i).iRdev = some r := by
  by_cases used : (s.file fp).fCount = 0
  · rw [fileRoot,if_neg fun both => both.1 used]
    exact iff_of_false (by simp) fun ⟨_,present,_⟩ => present used
  obtain ⟨i,data,opened⟩ := sound.opened fp used
  rw [fileRoot,opened]
  constructor
  · intro known
    split_ifs at known with both
    exact ⟨i,used,data,both.2,known⟩
  rintro ⟨j,_,data',block,known⟩
  obtain rfl : i = j := Option.some.inj (data.symm.trans data')
  rw [if_pos ⟨used,block⟩]
  exact known

def Referred (cfg : Config) (r : Nat) (s : Kernel n) : Prop :=
  (∃ fp i, (s.file fp).fCount ≠ 0 ∧ (s.file fp).fData = some i ∧ (s.inode i).iFmt = .ifblk ∧
  rootOf cfg (s.inode i).iRdev = some r) ∨
    ∃ mp, (s.mount mp).mInodp ≠ .none ∧ rootOf cfg (s.mount mp).mDev = some r

theorem Counted.zero_iff (sound : Sound s) (counted : Counted cfg r s) : s.opens r = 0 ↔ ¬ Referred cfg r s := by
  rw [Counted] at counted
  rw [counted,references,Nat.add_eq_zero_iff,hits_eq_zero,hits_eq_zero,Referred,not_or,not_exists,not_exists]
  refine and_congr (forall_congr' fun fp => not_congr (sound.fileRoot_iff fp)) (forall_congr' fun mp => not_congr ?_)
  simp only [Function.comp_apply,mountRoot]
  split_ifs with none
  · exact iff_of_false (by simp) fun known => known.1 none
  · exact ⟨fun known => ⟨none,known⟩,fun known => known.2⟩

variable [NeZero n]

theorem rootOf_cases {dev : Dev} (root : rootOf cfg dev = some r) : r = major dev ∨ r = major cfg.swapdev := by
  simp only [rootOf] at root
  split_ifs at root
  · exact .inl (Option.some.inj root).symm
  · exact .inr (Option.some.inj root).symm

omit [NeZero n] in
theorem boot_counted {rootdev : Dev} (notRoot : r ≠ major rootdev) (notSwap : r ≠ major cfg.swapdev) :
    Counted cfg r (boot (n := n) rootdev cfg.swapdev) := by
  have other : rootOf cfg rootdev ≠ some r := fun known => (rootOf_cases known).elim notRoot notSwap
  have files : hits (fileRoot cfg ∘ (boot (n := n) rootdev cfg.swapdev).file) r = 0 :=
    hits_eq_zero.mpr fun fp => by simp [boot,fileRoot]
  have mounts : hits (mountRoot cfg ∘ (boot (n := n) rootdev cfg.swapdev).mount) r = 0 := hits_eq_zero.mpr fun mp => by
    simp only [boot,Function.comp_apply,mountRoot]
    split_ifs with first <;> first | exact other | simp_all
  rw [Counted,references,files,mounts]
  simp [boot,notRoot,notSwap]

/-- The driver counts no open of a disk exactly if no entry of the file table and of the mount table refers to it, when no
open has been left without its close; and a close routine is called only for what was opened. -/
theorem disk_closed {rootdev : Dev} (flawless : Flawless hw) (disk : r < cfg.nrdsk) (notRoot : r ≠ major rootdev)
    (notSwap : r ≠ major cfg.swapdev) (ops : List (Op n)) (ran : run (step cfg hw) (boot rootdev cfg.swapdev) ops = .ok s) :
    (∀ c ∈ s.closes, c.called = c.opened) ∧
      (Along (step cfg hw) (Orderly cfg hw r) (boot rootdev cfg.swapdev) ops → (s.opens r = 0 ↔ ¬ Referred cfg r s)) := by
  have always : Along (step cfg hw) (fun (_ : Kernel n) (_ : Op n) => True) (boot rootdev cfg.swapdev) ops :=
    Along.of_forall (boot rootdev cfg.swapdev) fun _ _ => trivial
  constructor
  · have preserved : ∀ u (op : Op n) t, Sound u ∧ Matched u → True → step cfg hw u op = .ok t → Sound t ∧ Matched t := by
      intro u op t both _ stepped
      obtain ⟨e,done⟩ := of_step stepped
      exact ⟨step_sound both.1 stepped,perform_matched both.1 both.2 op e t done⟩
    exact (run_invariant preserved ops _ _ ⟨boot_sound rootdev cfg.swapdev,fun c member => (nomatch member)⟩ always ran).2
  intro orderly
  have preserved : ∀ u op t, Sound u ∧ Counted cfg r u → Orderly cfg hw r u op → step cfg hw u op = .ok t →
    Sound t ∧ Counted cfg r t := by
    intro u op t both allowed stepped
    obtain ⟨e,done⟩ := of_step stepped
    exact ⟨step_sound both.1 stepped,perform_counted both.1 both.2 flawless disk op allowed e t done⟩
  have ended := run_invariant preserved ops _ _ ⟨boot_sound rootdev cfg.swapdev,boot_counted notRoot notSwap⟩ orderly ran
  exact ended.2.zero_iff ended.1

def nodeHw (_ : Nat) : Response 10 where
  errno := 0
  mbr := true
  buf := 3
  bError := false
  super := someFs
  dirty := false
  denied := 0
  found := .ok (1,{freeInode with iFmt := .ifblk,iRdev := makedev 1 1,iNlink := 1})

theorem disk_closed_nodeHw : ∃ s, run (step twoCards nodeHw) (boot 1 2) [.copen false,.close 0] = .ok s ∧ s.opens 1 = 0 ∧
    (∀ c ∈ s.closes, c.called = c.opened) ∧ (s.opens 1 = 0 ↔ ¬ Referred twoCards 1 s) := by
  have opened : returns (fun s => decide (∀ i, (s.file 0).fData = some i →
      (s.inode i).iNlink = 1 ∧ findMount s (mounted (s.inode i).iRdev) = none ∧
        ∀ other, other ≠ 0 → aliases s .ifblk (s.inode i).iRdev (s.file other) = false))
      (run (step twoCards nodeHw) (boot 1 2) [.copen false]) = true := by decide +kernel
  obtain ⟨t,first,alone⟩ := of_returns opened
  have ended : returns (fun s => decide (s.opens 1 = 0))
    (run (step twoCards nodeHw) (boot 1 2) [.copen false,.close 0]) = true := by
    decide +kernel
  obtain ⟨s,ran,zero⟩ := of_returns ended
  have orderly : Along (step twoCards nodeHw) (Orderly twoCards nodeHw 1) (boot 1 2) [.copen false,.close 0] := by
    refine ⟨trivial,fun u stepped => ⟨fun _ i data _ _ => ?_,fun _ _ => trivial⟩⟩
    rw [run,stepped] at first
    obtain rfl : u = t := Except.ok.inj first
    obtain ⟨linked,unmounted,others⟩ := of_decide_eq_true alone i data
    exact ⟨fun bad => by omega,unmounted,others⟩
  have flawless : Flawless nodeHw := fun _ => ⟨rfl,rfl⟩
  have closed := disk_closed (r := 1) flawless (by decide) (by decide) (by decide) [.copen false,.close 0] ran
  exact ⟨s,ran,of_decide_eq_true zero,closed.1,closed.2 orderly⟩

/-- After two opens and two closes of a node, the driver counts one open more. -/
theorem opens_left : ∃ s, run (step twoCards nodeHw) (boot 1 2) [.copen false,.copen false,.close 0,.close 1] = .ok s ∧
    ¬ (s.opens 1 = 0 ↔ ¬ Referred twoCards 1 s) := by
  have ended : returns (fun s => decide (s.opens 1 = 1 ∧ (∀ fp, (s.file fp).fCount = 0) ∧ ∀ mp,
    rootOf twoCards (s.mount mp).mDev ≠ some 1))
      (run (step twoCards nodeHw) (boot 1 2) [.copen false,.copen false,.close 0,.close 1]) = true := by decide +kernel
  obtain ⟨s,ran,shown⟩ := of_returns ended
  obtain ⟨count,closed,unmounted⟩ := of_decide_eq_true shown
  refine ⟨s,ran,fun same => ?_⟩
  have referred : ¬ Referred twoCards 1 s := by
    rintro (⟨fp,i,used,_⟩ | ⟨mp,_,known⟩)
    · exact used (closed fp)
    · exact unmounted mp known
  have none := same.mpr referred
  omega

end

end Retrobsd.Mounts

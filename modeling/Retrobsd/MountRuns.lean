import Retrobsd.DeviceFiles
import Retrobsd.Lib.Counting

/-! The references of inodes over whole runs: each is a process's, an open file's or a mount's. -/
namespace Retrobsd.Mounts
open Function
open BufferCache (Dev makedev)
open Lib.Hoare Lib.Run Lib.Counting

variable {i : Fin ninode} {inode : Fin ninode → Inode} {file : Fin nfile → File} {mount : Fin nmount → Mount}
  {others : Fin ninode → Nat}

section

def fileRef (f : File) : Option (Fin ninode) := if f.fCount = 0 then none else f.fData

def mountRef (m : Mount) : Option (Fin ninode) :=
  match m.mInodp with
  | .inode i => some i
  | _ => none

variable {ip : Inode}

theorem mountRef_eq {m : Mount} : mountRef m = some i ↔ m.mInodp = .inode i := by
  rw [mountRef]
  split <;> simp_all

/-- The tables of inodes, files and mounts agree, with the references `others` that neither table has. -/
structure Held (inode : Fin ninode → Inode) (file : Fin nfile → File) (mount : Fin nmount → Mount)
    (others : Fin ninode → Nat) : Prop where
  counted : ∀ i, (inode i).iCount = others i + hits (fileRef ∘ file) i + hits (mountRef ∘ mount) i
  locked : ∀ i, (inode i).iLocked = true → others i ≠ 0
  covered : ∀ i, (inode i).iMount = true ↔ hits (mountRef ∘ mount) i = 1
  single : ∀ i, hits (mountRef ∘ mount) i ≤ 1
  opened : ∀ fp, (file fp).fCount ≠ 0 → ∃ i, (file fp).fData = some i ∧ (file fp).opened = ((inode i).iFmt,(inode i).iRdev)

variable {inode' : Fin ninode → Inode} {mount' : Fin nmount → Mount}

theorem Held.uses (held : Held inode file mount others) {fp : Fin nfile} (used : (file fp).fCount ≠ 0)
    (data : (file fp).fData = some i) : (inode i).iCount ≠ 0 := by
  have here : 0 < hits (fileRef ∘ file) i := hits_pos (i := fp) (by simp [fileRef,used,data])
  rw [held.counted]
  omega

def Steady (a b : Inode) : Prop :=
    (b.iCount = a.iCount ∧ b.iLocked = a.iLocked ∧ b.iMount = a.iMount ∧ b.iFmt = a.iFmt ∧ b.iRdev = a.iRdev) ∨
  (a.iCount = 0 ∧ a.iLocked = false ∧ a.iMount = false) ∧ b.iCount = 0 ∧ b.iLocked = false ∧ b.iMount = false

theorem Kept.steady {a b : Inode} (kept : Kept a b) : Steady a b := by
  rcases kept with rfl | changed
  · exact .inl ⟨rfl,rfl,rfl,rfl,rfl⟩
  · exact .inr changed

theorem Held.steady (held : Held inode file mount others) (steady : ∀ i, Steady (inode i) (inode' i)) :
    Held inode' file mount others where
  counted i := by
    rcases steady i with same | ⟨before,after⟩
    · rw [same.1,held.counted]
    · rw [after.1,← before.1,held.counted]
  locked i locked := by
    rcases steady i with same | ⟨_,after⟩
    · exact held.locked i (same.2.1 ▸ locked)
    rw [after.2.1] at locked
    cases locked
  covered i := by
    rcases steady i with same | ⟨before,after⟩
    · rw [same.2.2.1]
      exact held.covered i
    · rw [after.2.2,← held.covered i,before.2.2]
  single := held.single
  opened fp used := by
    obtain ⟨i,data,same⟩ := held.opened fp used
    refine ⟨i,data,?_⟩
    rcases steady i with unchanged | ⟨before,_⟩
    · rw [unchanged.2.2.2.1,unchanged.2.2.2.2]
      exact same
    · exact absurd before.1 (held.uses used data)

theorem Held.kept (held : Held inode file mount others) (kept : ∀ i, Kept (inode i) (inode' i)) :
    Held inode' file mount others :=
  held.steady fun i => (kept i).steady

theorem mountRef_congr (same : ∀ mp, (mount' mp).mInodp = (mount mp).mInodp) : mountRef ∘ mount' = mountRef ∘ mount := by
  funext mp
  simp [mountRef,same]

theorem mountRef_sameEntries (entries : SameEntries mount mount') : mountRef ∘ mount' = mountRef ∘ mount := by
  refine mountRef_congr fun mp => ?_
  rcases entries mp with same | ⟨before,after⟩
  · rw [same]
  · rw [before,after]

theorem Held.remount (held : Held inode file mount others) (same : mountRef ∘ mount' = mountRef ∘ mount) :
    Held inode file mount' others where
  counted i := by rw [same]; exact held.counted i
  locked := held.locked
  covered i := by rw [same]; exact held.covered i
  single i := by rw [same]; exact held.single i
  opened := held.opened

theorem Held.change (held : Held inode file mount others) {file' : Fin nfile → File} {others' : Fin ninode → Nat}
    (elsewhere : ∀ j, j ≠ i → others' j = others j ∧ hits (fileRef ∘ file') j = hits (fileRef ∘ file) j ∧
      hits (mountRef ∘ mount') j = hits (mountRef ∘ mount) j)
    (count : ip.iCount = others' i + hits (fileRef ∘ file') i + hits (mountRef ∘ mount') i)
    (locked : ip.iLocked = true → others' i ≠ 0) (covered : ip.iMount = true ↔ hits (mountRef ∘ mount') i = 1)
    (single : hits (mountRef ∘ mount') i ≤ 1)
    (opened : ∀ fp, (file' fp).fCount ≠ 0 → ((file' fp).fData = some i ∧ (file' fp).opened = (ip.iFmt,ip.iRdev)) ∨
      file' fp = file fp ∧ (file fp).fData ≠ some i) :
    Held (update inode i ip) file' mount' others' where
  counted j := by
    rcases eq_or_ne j i with rfl | other
    · rw [update_self]
      exact count
    rw [update_of_ne other,(elsewhere j other).1,(elsewhere j other).2.1,(elsewhere j other).2.2]
    exact held.counted j
  locked j locked' := by
    rcases eq_or_ne j i with rfl | other
    · rw [update_self] at locked'
      exact locked locked'
    rw [update_of_ne other] at locked'
    rw [(elsewhere j other).1]
    exact held.locked j locked'
  covered j := by
    rcases eq_or_ne j i with rfl | other
    · rw [update_self]
      exact covered
    rw [update_of_ne other,(elsewhere j other).2.2]
    exact held.covered j
  single j := by
    rcases eq_or_ne j i with rfl | other
    · exact single
    rw [(elsewhere j other).2.2]
    exact held.single j
  opened fp used := by
    rcases opened fp used with ⟨data,same⟩ | ⟨unchanged,other⟩
    · refine ⟨i,data,?_⟩
      rw [update_self]
      exact same
    rw [unchanged] at used ⊢
    obtain ⟨j,data,same⟩ := held.opened fp used
    have ne : j ≠ i := by
      rintro rfl
      exact other data
    refine ⟨j,data,?_⟩
    rw [update_of_ne ne]
    exact same

theorem taken_count (new ip : Inode) : (taken new ip).iCount = ip.iCount + 1 := by
  rw [taken]
  split_ifs with unused
  · rw [unused]
  · rfl

theorem taken_covered {new : Inode} (covered : ip.iMount = false) : (taken new ip).iMount = false := by
  rw [taken]
  split_ifs
  · rfl
  · exact covered

theorem taken_same (new : Inode) (used : ip.iCount ≠ 0) : (taken new ip).iFmt = ip.iFmt ∧ (taken new ip).iRdev = ip.iRdev := by
  rw [taken,if_neg used]
  exact ⟨rfl,rfl⟩

theorem released_count (ronly : Bool) (ip : Inode) : (released ronly ip).iCount = ip.iCount - 1 := by
  by_cases last : ip.iCount = 1
  · simp [released,last]
  · simp [released,last]

theorem released_locked {ronly : Bool} (locked : (released ronly ip).iLocked = true) : ip.iCount ≠ 1 ∧ ip.iLocked = true := by
  by_cases last : ip.iCount = 1
  · simp [released,last] at locked
  simp only [released,if_neg last] at locked
  exact ⟨last,locked⟩

theorem released_covered (ronly : Bool) (ip : Inode) : (released ronly ip).iMount = true ↔ ip.iCount ≠ 1 ∧ ip.iMount = true := by
  by_cases last : ip.iCount = 1
  · simp [released,last]
  · simp [released,last]

theorem released_same (ronly : Bool) (ip : Inode) (more : ip.iCount ≠ 1) :
    (released ronly ip).iFmt = ip.iFmt ∧ (released ronly ip).iRdev = ip.iRdev := by
  rw [released,if_neg more]
  exact ⟨rfl,rfl⟩

end

section
variable {new : Inode}

theorem hits_file (file : Fin nfile → File) (fp : Fin nfile) (f : File) (j : Fin ninode) :
    hits (fileRef ∘ update file fp f) j + weight (fileRef (file fp)) j = hits (fileRef ∘ file) j + weight (fileRef f) j := by
  rw [Function.comp_update]
  exact hits_update _ _ _ _

theorem hits_mount (mount : Fin nmount → Mount) (mp : Fin nmount) (m : Mount) (j : Fin ninode) :
    hits (mountRef ∘ update mount mp m) j + weight (mountRef (mount mp)) j = hits (mountRef ∘ mount) j + weight
    (mountRef m) j := by
  rw [Function.comp_update]
  exact hits_update _ _ _ _

section
variable (held : Held inode file mount others)
include held

theorem Held.idle (covered : (inode i).iMount = false) : hits (mountRef ∘ mount) i = 0 := by
  have few := held.single i
  have not : hits (mountRef ∘ mount) i ≠ 1 := fun one => by
    rw [(held.covered i).mpr one] at covered
    cases covered
  omega

theorem Held.hold (covered : (inode i).iMount = false) :
    Held (update inode i (referenced new (inode i))) file mount (update others i (others i + 1)) := by
  have none := held.idle covered
  refine held.change (fun j other => ⟨update_of_ne other _ _,rfl,rfl⟩) ?_ ?_ ?_ (held.single i) fun fp used => ?_
  · rw [referenced,taken_count,held.counted,update_self]
    omega
  · rw [update_self]
    exact fun _ => Nat.succ_ne_zero _
  · rw [referenced,taken_covered covered,none]
    simp
  obtain ⟨j,data,same⟩ := held.opened fp used
  rcases eq_or_ne j i with rfl | other
  · have kept := taken_same new (held.uses used data)
    left
    rw [referenced,kept.1,kept.2]
    exact ⟨data,same⟩
  · exact .inr ⟨rfl,fun here => other (Option.some.inj (data.symm.trans here))⟩

variable {fp : Fin nfile}

theorem Held.copen (covered : (inode i).iMount = false) (free : (file fp).fCount = 0)
    {f : File} (open' : f.fCount ≠ 0) (here : f.fData = some i)
    (opened : f.opened = ((referenced new (inode i)).iFmt,(referenced new (inode i)).iRdev)) :
    Held (update inode i (referenced new (inode i))) (update file fp f) mount others := by
  have none := held.idle covered
  have unused : fileRef (file fp) = Option.none := if_pos free
  have used : fileRef f = some i := by rw [fileRef,if_neg open',here]
  have files := hits_file file fp f
  simp only [unused,used,weight_none] at files
  refine held.change (fun j other => ⟨rfl,?_,rfl⟩) ?_ ?_ ?_ (held.single i) fun fp' used' => ?_
  · have count := files j
    rw [weight_of_ne other.symm] at count
    omega
  · have count := files i
    have total := held.counted i
    rw [weight_self] at count
    rw [referenced,taken_count]
    omega
  · exact fun locked => absurd locked Bool.false_ne_true
  · rw [referenced,taken_covered covered,none]
    simp
  rcases eq_or_ne fp' fp with rfl | other
  · rw [update_self]
    exact .inl ⟨here,opened⟩
  rw [update_of_ne other] at used' ⊢
  obtain ⟨j,data,same⟩ := held.opened fp' used'
  rcases eq_or_ne j i with rfl | ne
  · have kept := taken_same new (held.uses used' data)
    left
    rw [referenced,kept.1,kept.2]
    exact ⟨data,same⟩
  · exact .inr ⟨rfl,fun here => ne (Option.some.inj (data.symm.trans here))⟩

theorem Held.files_unused (zero : (inode i).iCount = 0) (fp : Fin nfile) (used : (file fp).fCount ≠ 0) :
    (file fp).fData ≠ some i :=
  fun data => held.uses used data zero

theorem Held.smount (zero : (inode i).iCount = 0) {mp : Fin nmount} (unused : (mount mp).mInodp = .none) (new : Inode)
    (dev : Dev) (fs : Fs) :
    Held (update inode i {taken new (inode i) with iMount := true,iLocked := false}) file
    (update mount mp ⟨dev,fs,.inode i⟩) others := by
  have empty : mountRef (mount mp) = none := by rw [mountRef,unused]
  have counts := hits_mount mount mp ⟨dev,fs,.inode i⟩
  rw [empty] at counts
  have covers : mountRef ⟨dev,fs,.inode i⟩ = some i := rfl
  simp only [covers,weight_none] at counts
  have total := held.counted i
  have here := counts i
  rw [weight_self] at here
  refine held.change (fun j other => ⟨rfl,rfl,?_⟩) ?_ ?_ ?_ ?_ fun fp used => .inr ⟨rfl,held.files_unused zero fp used⟩
  · have count := counts j
    rw [weight_of_ne other.symm] at count
    omega
  · rw [taken_count]
    omega
  · exact fun locked => absurd locked Bool.false_ne_true
  · exact iff_of_true rfl (by omega)
  · omega

theorem Held.drop (some : others i ≠ 0) (ronly : Bool) (unlocked : (inode i).iLocked = false) :
    Held (update inode i (released ronly (inode i))) file mount (update others i (others i - 1)) := by
  have total := held.counted i
  refine held.change (fun j other => ⟨update_of_ne other _ _,rfl,rfl⟩) ?_ (fun locked => ?_) ?_ (held.single i) fun fp used => ?_
  · rw [released_count,update_self]
    omega
  · rw [(released_locked locked).2] at unlocked
    cases unlocked
  · rw [released_covered,held.covered i]
    constructor
    · exact fun both => both.2
    · exact fun one => ⟨by omega,one⟩
  obtain ⟨j,data,same⟩ := held.opened fp used
  rcases eq_or_ne j i with rfl | other
  · have file' : 0 < hits (fileRef ∘ file) j := hits_pos (i := fp) (by simp [fileRef,used,data])
    have kept := released_same ronly (inode j) (by omega)
    left
    rw [kept.1,kept.2]
    exact ⟨data,same⟩
  · exact .inr ⟨rfl,fun here => other (Option.some.inj (data.symm.trans here))⟩

theorem Held.close (used : (file fp).fCount ≠ 0) (data : (file fp).fData = some i)
    (ronly : Bool) {f : File} (closed : f.fCount = 0) :
    Held (update inode i (released ronly (inode i))) (update file fp f) mount others := by
  have total := held.counted i
  have was : fileRef (file fp) = some i := by rw [fileRef,if_neg used,data]
  have now : fileRef f = none := if_pos closed
  have files := hits_file file fp f
  simp only [was,now,weight_none] at files
  have here := files i
  rw [weight_self] at here
  refine held.change (fun j other => ⟨rfl,?_,rfl⟩) ?_ (fun locked => held.locked i (released_locked locked).2) ?_ (held.single i)
    fun fp' used' => ?_
  · have count := files j
    rw [weight_of_ne other.symm] at count
    omega
  · rw [released_count]
    omega
  · rw [released_covered,held.covered i]
    constructor
    · exact fun both => both.2
    · exact fun one => ⟨by omega,one⟩
  rcases eq_or_ne fp' fp with rfl | other
  · rw [update_self] at used'
    exact absurd closed used'
  rw [update_of_ne other] at used' ⊢
  obtain ⟨j,data',same⟩ := held.opened fp' used'
  rcases eq_or_ne j i with rfl | ne
  · have rest : 0 < hits (fileRef ∘ update file fp f) j := hits_pos (i := fp') (by simp [fileRef,used',data',update_of_ne other])
    have kept := released_same ronly (inode j) (by omega)
    left
    rw [kept.1,kept.2]
    exact ⟨data',same⟩
  · exact .inr ⟨rfl,fun here => ne (Option.some.inj (data'.symm.trans here))⟩

theorem Held.umount {mp : Fin nmount} (covers : (mount mp).mInodp = .inode i) (ronly : Bool) (m : Mount)
    (gone : m.mInodp = .none) :
    Held (update inode i (released ronly {inode i with iMount := false})) file (update mount mp m) others := by
  have was : mountRef (mount mp) = some i := mountRef_eq.mpr covers
  have now : mountRef m = none := by rw [mountRef,gone]
  have counts := hits_mount mount mp m
  rw [was,now] at counts
  simp only [weight_none] at counts
  have total := held.counted i
  have few := held.single i
  have here := counts i
  rw [weight_self] at here
  refine held.change (fun j other => ⟨rfl,rfl,?_⟩) ?_ (fun locked =>
    held.locked i (released_locked locked).2) ?_ ?_ fun fp used => ?_
  · have count := counts j
    rw [weight_of_ne other.symm] at count
    omega
  · rw [released_count]
    dsimp only
    omega
  · rw [released_covered]
    exact iff_of_false (fun both => Bool.false_ne_true both.2) (by omega)
  · omega
  · obtain ⟨j,data,same⟩ := held.opened fp used
    rcases eq_or_ne j i with rfl | other
    · have file' : 0 < hits (fileRef ∘ file) j := hits_pos (i := fp) (by simp [fileRef,used,data])
      have kept := released_same ronly {inode j with iMount := false} (by dsimp only; omega)
      left
      rw [kept.1,kept.2]
      exact ⟨data,same⟩
    · exact .inr ⟨rfl,fun here => other (Option.some.inj (data.symm.trans here))⟩

theorem Held.lock (some : others i ≠ 0) (locked : Bool) :
    Held (update inode i {inode i with iLocked := locked}) file mount others := by
  refine held.change (fun _ _ => ⟨rfl,rfl,rfl⟩) (held.counted i) (fun _ => some) (held.covered i)
    (held.single i) fun fp used => ?_
  obtain ⟨j,data,same⟩ := held.opened fp used
  rcases eq_or_ne j i with rfl | other
  · exact .inl ⟨data,same⟩
  · exact .inr ⟨rfl,fun here => other (Option.some.inj (data.symm.trans here))⟩

theorem Held.recount (used : (file fp).fCount ≠ 0) {count : Nat} (still : count ≠ 0) :
    Held inode (update file fp {file fp with fCount := count}) mount others := by
  have same : fileRef ∘ update file fp {file fp with fCount := count} = fileRef ∘ file := by
    rw [Function.comp_update,update_eq_self_iff]
    simp [fileRef,used,still]
  refine ⟨fun i => by rw [same]; exact held.counted i,held.locked,held.covered,held.single,fun fp' used' => ?_⟩
  rcases eq_or_ne fp' fp with rfl | other
  · rw [update_self]
    exact held.opened fp' used
  rw [update_of_ne other] at used' ⊢
  exact held.opened fp' used'

end

end

variable {n : Nat} {cfg : Config} {hw : Nat → Response n} {s t : Kernel n}

section
variable [NeZero n]

def Sound (k : Kernel n) : Prop := Held k.inode k.file k.mount k.others

section
variable (sound : Sound s)
include sound

omit [NeZero n] in
theorem Sound.quiet (quiet : Quiet s t) : Sound t := by
  obtain ⟨tick,inode,mount,rfl,kept,same⟩ := quiet
  exact (Held.kept sound kept).remount (mountRef_congr fun mp => (same mp).1)

theorem copen_sound {fwrite : Bool} : Yields (copen cfg hw fwrite) s fun _ t => Sound t := by
  refine yields_copen.imp fun e t ended => ?_
  rcases ended with ⟨_,rfl⟩ | ⟨fp,lastf,free,⟨_,f,u,closed,failed,rfl⟩ | ⟨_,i,u,opened,rfl⟩⟩
  · exact sound
  · obtain ⟨tick,inode,opens,busy,unmatched,rfl,kept,_⟩ := failed
    have held := Held.kept sound kept
    have same : fileRef ∘ update s.file fp f = fileRef ∘ s.file := by
      rw [Function.comp_update,update_eq_self_iff]
      simp [fileRef,free,closed]
    refine ⟨fun i => ?_,held.locked,held.covered,held.single,fun fp' used => ?_⟩
    · simp only [same]
      exact held.counted i
    rcases eq_or_ne fp' fp with rfl | other
    · simp only [update_self] at used
      exact absurd closed used
    simp only [update_of_ne other] at used ⊢
    exact held.opened fp' used
  · obtain ⟨tick,opens,busy,unmatched,new,_,covered,_,rfl⟩ := opened
    exact Held.copen sound covered free (by simp) rfl (by simp)

omit [NeZero n] in
theorem closef_sound {fp : Fin nfile} (used : (s.file fp).fCount ≠ 0) : Yields (closef cfg hw fp) s fun _ t => Sound t := by
  refine yields_closef (fun more => ?_) fun last i tick opens unmatched closes data _ => ?_
  · exact Held.recount sound used (by omega)
  · exact Held.close sound used data _ rfl

omit [NeZero n] in
theorem unlink_sound : Yields (unlink hw) s fun _ t => Sound t := by
  rw [unlink]
  simp only [yields_bind]
  refine yields_namei (fun e _ => ?_) fun i new locked covered => ?_
  · simp only [yields_pure]
    exact sound
  have steady : ∀ (ronly : Bool) (links : Nat) (j : Fin ninode), Steady (s.inode j)
      (update s.inode i (released ronly {taken new (s.inode i) with iNlink := links,iLocked := false}) j) := by
    intro ronly links j
    rcases eq_or_ne j i with rfl | other
    · rw [update_self]
      by_cases unused : (s.inode j).iCount = 0
      · refine .inr ⟨⟨unused,locked,covered⟩,?_,?_,?_⟩
        all_goals simp [taken,unused,released]
      have more : ¬ (s.inode j).iCount + 1 = 1 := by omega
      refine .inl ⟨?_,?_,?_,?_,?_⟩
      all_goals simp [taken,unused,released,locked]
    · rw [update_of_ne other]
      exact .inl ⟨rfl,rfl,rfl,rfl,rfl⟩
  simp only [yields_bind,yields_respond]
  refine .ite (fun _ => ?_) fun _ => ?_
  · simp only [yields_bind,yields_setInode]
    refine yields_iput fun tick => ?_
    simp only [yields_pure,update_self,update_idem]
    exact Held.steady sound fun j => steady _ _ j
  simp only [yields_bind]
  refine yields_iput fun tick => ?_
  simp only [yields_pure,update_self,update_idem]
  exact Held.steady sound fun j => steady _ (taken new (s.inode i)).iNlink j

theorem smount_sound {suser : Bool} {flags : Flags} : Yields (smount cfg hw suser flags) s fun _ t => Sound t := by
  refine yields_smount.imp fun e t ended => ?_
  rcases ended with ⟨dev,i,u,_,fresh,failed,success⟩ | ⟨_,quiet,_⟩
  · obtain ⟨tick,inode,new,rfl,kept,unused,locked,covered⟩ := fresh
    have held : Held inode s.file s.mount s.others := Held.kept sound kept
    by_cases wrong : e = 0
    · obtain ⟨tick',mp,fs,free,_,_,_,rfl⟩ := success wrong
      have added := held.smount unused free new dev fs
      simpa only [Sound,update_self,update_idem] using added
    obtain ⟨tick',ronly,mount,opens,busy,unmatched,rfl,entries,_⟩ := failed wrong
    have back : ∀ j, Kept (inode j) (update inode i (released ronly {taken new (inode i) with iLocked := false}) j) := by
      intro j
      rcases eq_or_ne j i with rfl | other
      · rw [update_self]
        exact kept_released ronly locked covered
      rw [update_of_ne other]
      exact .inl rfl
    have kept' := (held.kept back).remount (mountRef_sameEntries entries)
    simpa only [Sound,update_self,update_idem] using kept'
  · exact sound.quiet quiet

omit [NeZero n] in
theorem unmount1_sound {suser : Bool} : Yields (unmount1 cfg hw suser) s fun _ t => Sound t := by
  refine yields_unmount1.imp fun e t ended => ?_
  by_cases wrong : e = 0
  · obtain ⟨tick,inode,mount,ronly,mp,dev,i,covers,_,same,kept,rfl⟩ := ended.2 wrong
    have held : Held inode s.file mount s.others := (Held.kept sound kept).remount (mountRef_congr fun mp => (same mp).1)
    exact held.umount covers ronly _ rfl
  · exact sound.quiet (ended.1 wrong)

theorem perform_sound (op : Op n) : Yields (perform cfg hw op) s fun _ t => Sound t := by
  cases op with
  | copen fwrite => exact copen_sound sound
  | dup fp =>
    simp only [perform,yields_bind,yields_get]
    refine .ite (fun _ => by simp) fun used => ?_
    simp only [dupit,yields_bind,yields_setFile,yields_pure]
    exact Held.recount sound used (Nat.succ_ne_zero _)
  | close fp =>
    simp only [perform,yields_bind,yields_get]
    refine .ite (fun _ => by simp) fun used => ?_
    simp only [yields_bind,yields_pure]
    exact closef_sound sound used
  | unlink => exact unlink_sound sound
  | smount suser flags => exact smount_sound sound
  | umount suser => exact unmount1_sound sound
  | hold =>
    simp only [perform,hold,yields_bind]
    refine yields_namei (fun e _ => ?_) fun i new locked covered => ?_
    · simp only [yields_pure]
      exact sound
    simp only [yields_bind,yields_setInode,setOthers,yields_modify,yields_pure,update_self,update_idem]
    exact Held.hold sound covered
  | drop i =>
    simp only [perform,drop,yields_bind,yields_get]
    refine .ite (fun _ => by simp) fun allowed => ?_
    push Not at allowed
    simp only [yields_bind,setOthers,yields_modify]
    refine yields_irele fun tick => ?_
    simp only [yields_pure]
    exact Held.drop sound allowed.1 _ (by simpa using allowed.2)
  | lock i locked =>
    simp only [perform,lock,yields_bind,yields_get]
    refine .ite (fun _ => by simp) fun some => ?_
    simp only [yields_setInode,yields_pure]
    exact Held.lock sound some locked
  | take =>
    simp only [perform,yields_bind]
    refine yields_getnewbuf fun b _ _ => ?_
    simp only [yields_pure]
    exact sound
  | give b =>
    simp only [perform,yields_bind,yields_brelse,yields_pure]
    exact sound
  | modified mp =>
    simp only [perform,yields_bind,yields_setMount,yields_pure]
    exact Sound.quiet sound (quiet_setMount (s := s) mp _ rfl rfl)
  | secure level =>
    simp only [perform,yields_bind,yields_modify,yields_pure]
    exact sound

end

theorem of_step {op : Op n} (stepped : step cfg hw s op = .ok t) : ∃ e, perform cfg hw op s = .ok (e,t) := by
  rw [step] at stepped
  cases done : perform cfg hw op s with
  | error e =>
    rw [done] at stepped
    cases stepped
  | ok r =>
    rw [done] at stepped
    cases stepped
    exact ⟨r.1,rfl⟩

theorem step_sound (sound : Sound s) {op : Op n} (stepped : step cfg hw s op = .ok t) : Sound t := by
  obtain ⟨e,done⟩ := of_step stepped
  exact perform_sound sound op e t done

omit [NeZero n] in
theorem boot_mounts (rootdev swapdev : Dev) (i : Fin ninode) : hits (mountRef ∘ (boot (n := n) rootdev swapdev).mount) i = 0 :=
  hits_eq_zero.mpr fun mp => by
    simp only [boot,Function.comp_apply,mountRef]
    split_ifs <;> simp

omit [NeZero n] in
theorem boot_sound (rootdev swapdev : Dev) : Sound (boot (n := n) rootdev swapdev) where
  counted i := by
    have files : hits (fileRef ∘ (boot (n := n) rootdev swapdev).file) i = 0 := hits_eq_zero.mpr fun fp => by simp [boot,fileRef]
    rw [files,boot_mounts]
    simp only [boot]
    split_ifs <;> rfl
  locked i locked := by
    simp only [boot] at locked
    split_ifs at locked <;> cases locked
  covered i := by
    rw [boot_mounts]
    simp only [boot]
    split_ifs <;> exact iff_of_false (fun never => nomatch never) (by decide)
  single i := (boot_mounts rootdev swapdev i).trans_le zero_le_one
  opened fp used := absurd rfl used

end

section
variable [NeZero n]

structure Restored (s t : Kernel n) : Prop where
  entries : ∀ mp, (t.mount mp).mInodp = (s.mount mp).mInodp
  inodes : ∀ i, Alike (s.inode i) (t.inode i)
  busy : t.busy = s.busy
  unmatched : t.unmatched = s.unmatched

theorem Kept.alike {a b : Inode} (kept : Kept a b) : Alike a b := by
  rcases kept with rfl | ⟨before,after⟩
  · exact ⟨rfl,rfl,rfl⟩
  · exact ⟨after.1.trans before.1.symm,after.2.1.trans before.2.1.symm,after.2.2.trans before.2.2.symm⟩

omit [NeZero n] in
theorem Quiet.restored (quiet : Quiet s t) : Restored s t := by
  obtain ⟨tick,inode,mount,rfl,kept,same⟩ := quiet
  exact ⟨fun mp => (same mp).1,fun i => (kept i).alike,rfl,rfl⟩

theorem Failed.restored_iff {dev : Dev} {u : Kernel n} (fresh : Fresh s i u) (failed : Failed cfg hw u dev i t) :
    Restored s t ↔ ¬ (Refused cfg hw u dev ∨ Misread cfg hw u dev) := by
  obtain ⟨tick,inode,new,rfl,kept,unused,locked,covered⟩ := fresh
  obtain ⟨tick',ronly,mount,opens,busy,unmatched,rfl,entries,balanced,matched,_⟩ := failed
  rw [not_or]
  constructor
  · intro restored
    exact ⟨matched.mp restored.unmatched,balanced.mp restored.busy⟩
  rintro ⟨right,clean⟩
  refine ⟨fun mp => ?_,fun j => ?_,balanced.mpr clean,matched.mpr right⟩
  · rcases entries mp with same | ⟨before,after⟩
    · exact congrArg Mount.mInodp same
    · exact after.trans before.symm
  rcases eq_or_ne j i with rfl | other
  · simp only [update_self]
    exact ((kept j).trans (kept_released ronly locked covered)).alike
  simp only [update_of_ne other]
  exact (kept j).alike

theorem Succeeded.adds {dev : Dev} {u : Kernel n} (fresh : Fresh s i u) (success : Succeeded cfg hw u dev i t) :
    (∃ mp, Adds s t mp i dev) ∧ (t.inode i).iLocked = false ∧ ¬ (Refused cfg hw u dev ∨ Misread cfg hw u dev) := by
  obtain ⟨tick,inode,new,rfl,kept,unused,locked,covered⟩ := fresh
  obtain ⟨tick',mp,fs,free,clean,right,_,rfl⟩ := success
  have before := (kept i).alike
  refine ⟨⟨mp,free,?_,fun other ne => ?_,⟨before.covered.symm.trans covered,?_⟩,?_,?_,fun j other => ?_,rfl,rfl⟩,?_,?_⟩
  · simp
  · simp only [update_of_ne ne]
  · simp
  · simp only [update_self,taken_count]
    rw [before.count]
  · simp only [update_self]
    exact (before.locked.symm.trans locked).symm
  · simp only [update_of_ne other]
    exact (kept j).alike
  · simp
  · exact fun defect => defect.elim right clean

omit [NeZero n] in
theorem Removed.adds (sound : Sound s) (removed : Removed cfg s t) : ∃ mp i dev, Adds t s mp i dev := by
  obtain ⟨tick,inode,mount,ronly,mp,dev,i,covers,device,same,kept,rfl⟩ := removed
  have covered : (s.mount mp).mInodp = .inode i := (same mp).1.symm.trans covers
  have one : hits (mountRef ∘ s.mount) i = 1 := by
    have some : 0 < hits (mountRef ∘ s.mount) i := hits_pos (i := mp) (mountRef_eq.mpr covered)
    have few := sound.single i
    omega
  have count := sound.counted i
  have here : inode i = s.inode i := by
    rcases kept i with unchanged | ⟨before,_⟩
    · exact unchanged
    · omega
  refine ⟨mp,i,dev,?_,⟨covered,(same mp).2.symm.trans device⟩,fun other ne => ?_,⟨?_,(sound.covered i).mpr one⟩,?_,?_,
    fun j other => ?_,rfl,?_⟩
  · simp
  · simp only [update_of_ne ne]
    exact (same other).1.symm
  · simp only [update_self]
    by_contra wrong
    exact absurd ((released_covered _ _).mp (by simpa using wrong)).2 (by simp)
  · simp only [update_self,released_count,here]
    omega
  · simp only [update_self,here]
    by_cases last : (s.inode i).iCount = 1
    · have unlocked : (s.inode i).iLocked = false := by
        by_contra locked
        have some := sound.locked i (by simpa using locked)
        omega
      rw [unlocked]
      simp [released,last]
    · simp [released,last]
  · simp only [update_of_ne other]
    have alike := (kept j).alike
    exact ⟨alike.count.symm,alike.locked.symm,alike.covered.symm⟩
  · simp [sub_add_cancel]

/-- What a call of `mount` or `umount` that ends with an error number, or with 0, owes. -/
def Atomic (s t : Kernel n) (error : Nat) : Op n → Prop
  | .smount _ flags =>
    if error ≠ 0 ∨ flags.mntUpdate = true then Restored s t
    else ∃ mp i dev, Adds s t mp i dev ∧ (t.inode i).iLocked = false
  | .umount _ => if error ≠ 0 then Restored s t else ∃ mp i dev, Adds t s mp i dev
  | _ => True

def Leaks (cfg : Config) (hw : Nat → Response n) (s : Kernel n) : Op n → Prop
  | .smount suser flags => ∃ dev i u, Begins hw s suser flags dev i u ∧ (Refused cfg hw u dev ∨ Misread cfg hw u dev)
  | _ => False

theorem smount_atomic {suser : Bool} {flags : Flags} {error : Nat} (done : smount cfg hw suser flags s = .ok (error,t)) :
    Atomic s t error (.smount suser flags) ↔ ¬ Leaks cfg hw s (.smount suser flags) := by
  rcases yields_smount error t done with ⟨dev,i,u,begins,fresh,failed,success⟩ | ⟨never,quiet,update⟩
  · have leaks : Leaks cfg hw s (.smount suser flags) ↔ Refused cfg hw u dev ∨ Misread cfg hw u dev := by
      constructor
      · rintro ⟨dev',i',u',begins',defect⟩
        obtain ⟨rfl,rfl,rfl⟩ := begins.unique begins'
        exact defect
      · exact fun defect => ⟨dev,i,u,begins,defect⟩
    have new : flags.mntUpdate = false := by
      obtain ⟨_,_,_,_,new,_⟩ := begins
      exact new
    rw [leaks,Atomic]
    by_cases fine : error = 0
    · obtain ⟨⟨mp,adds⟩,unlocked,right⟩ := (success fine).adds fresh
      rw [if_neg (by simp [fine,new])]
      exact iff_of_true ⟨mp,i,dev,adds,unlocked⟩ right
    · rw [if_pos (.inl fine)]
      exact (failed fine).restored_iff fresh
  · have right : ¬ Leaks cfg hw s (.smount suser flags) := fun ⟨dev,i,u,begins,_⟩ => never dev i u begins
    rw [Atomic,if_pos]
    · exact iff_of_true quiet.restored right
    by_cases fine : error = 0
    · exact .inr (update fine)
    · exact .inl fine

/-- A call of `mount` or `umount` in any state that can be reached undoes what it has done when it fails, and adds
or removes one entry, one open and one reference when it succeeds, exactly if it does not leak. -/
theorem mounts_atomic {rootdev swapdev : Dev} (ops : List (Op n)) (op : Op n) {error : Nat}
    (ran : run (step cfg hw) (boot rootdev swapdev) ops = .ok s) (done : perform cfg hw op s = .ok (error,t)) :
    Atomic s t error op ↔ ¬ Leaks cfg hw s op := by
  have always : Along (step cfg hw) (fun (_ : Kernel n) (_ : Op n) => True) (boot rootdev swapdev) ops :=
    Along.of_forall (boot rootdev swapdev) fun _ _ => trivial
  have sound : Sound s := run_invariant (fun _ _ _ sound _ stepped => step_sound sound stepped) ops _ _
    (boot_sound rootdev swapdev) always ran
  cases op with
  | smount suser flags => exact smount_atomic done
  | umount suser =>
    refine iff_of_true ?_ id
    have ended := yields_unmount1 error t done
    rw [Atomic]
    split_ifs with wrong
    · exact (ended.1 wrong).restored
    · exact (ended.2 (not_not.mp wrong)).adds sound
  | _ => exact iff_of_true trivial id

def twoCards : Config := ⟨2,20,makedev 0 2⟩

def someFlags : Flags := ⟨false,false,false,false,false,false,false,false⟩

def someHw (tick : Nat) : Response 10 where
  errno := 0
  mbr := true
  buf := 3
  bError := false
  super := someFs
  dirty := false
  denied := 0
  found :=
    if tick = 0 ∨ tick = 10 then .ok (1,{freeInode with iFmt := .ifblk,iRdev := makedev 1 1,iNlink := 1})
    else .ok (if tick < 10 then 2 else 3,{freeInode with iFmt := .ifdir,iNumber := 5,iNlink := 2})

def outcome (cfg : Config) (hw : Nat → Response n) (start : Kernel n) (ops : List (Op n)) (op : Op n) :
    Except Fault (Kernel n × Nat × Kernel n) := do
  let s ← run (step cfg hw) start ops
  let r ← perform cfg hw op s
  return (s,r)

theorem of_outcome {start : Kernel n} {ops : List (Op n)} {op : Op n} {r : Kernel n × Nat × Kernel n}
    (ended : outcome cfg hw start ops op = .ok r) :
    run (step cfg hw) start ops = .ok r.1 ∧ perform cfg hw op r.1 = .ok r.2 := by
  rw [outcome] at ended
  cases ran : run (step cfg hw) start ops with
  | error e =>
    rw [ran] at ended
    cases ended
  | ok s =>
    rw [ran] at ended
    cases done : perform cfg hw op s with
    | error e =>
      simp only [bind,Except.bind,done] at ended
      cases ended
    | ok r' =>
      simp only [bind,Except.bind,done,pure,Except.pure] at ended
      cases ended
      exact ⟨rfl,done⟩

theorem mounts_atomic_someHw : ∃ t, perform twoCards someHw (.smount true someFlags) (boot 1 2) = .ok (0,t) ∧
    (Atomic (boot 1 2) t 0 (.smount true someFlags) ↔ ¬ Leaks twoCards someHw (boot 1 2) (.smount true someFlags)) := by
  have ended : returns (fun r => decide (r.2.1 = 0))
    (outcome twoCards someHw (boot 1 2) [] (.smount true someFlags)) = true := by
    decide +kernel
  obtain ⟨⟨s,error,t⟩,done,zero⟩ := of_returns ended
  obtain ⟨ran,called⟩ := of_outcome done
  obtain rfl : error = 0 := of_decide_eq_true zero
  cases ran
  exact ⟨t,called,mounts_atomic [] (.smount true someFlags) rfl called⟩

/-- A second `mount` of a device fails, and the device stays open once more. -/
theorem second_mount_leaks : ∃ s t, run (step twoCards someHw) (boot 1 2) [.smount true someFlags] = .ok s ∧
    perform twoCards someHw (.smount true someFlags) s = .ok (ebusy,t) ∧ ¬ Atomic s t ebusy (.smount true someFlags) := by
  have ended : returns (fun r => decide (r.2.1 = ebusy ∧ r.2.2.unmatched (makedev 1 1) ≠ r.1.unmatched (makedev 1 1)))
      (outcome twoCards someHw (boot 1 2) [.smount true someFlags] (.smount true someFlags)) = true := by
    decide +kernel
  obtain ⟨⟨s,error,t⟩,done,shown⟩ := of_returns ended
  obtain ⟨ran,called⟩ := of_outcome done
  obtain ⟨rfl,more⟩ : error = ebusy ∧ t.unmatched (makedev 1 1) ≠ s.unmatched (makedev 1 1) := of_decide_eq_true shown
  refine ⟨s,t,ran,called,fun atomic => more ?_⟩
  rw [Atomic,if_pos (.inl (by decide))] at atomic
  rw [atomic.unmatched]

end

end Retrobsd.Mounts

import Retrobsd.Lib.Run
import Retrobsd.Mounts

/-! What each routine under `mount` and `umount` does to the references and locks of inodes,
to the busy buffers and to the opens of devices. -/
namespace Retrobsd.Mounts
open Function
open BufferCache (Dev major minor)
open Lib.Hoare

variable {n : Nat} {hw : Nat → Response n} {s : Kernel n} {post : Unit → Kernel n → Prop}

@[simp] theorem yields_respond {post : Response n → Kernel n → Prop} :
    Yields (respond hw) s post ↔ post (hw s.tick) {s with tick := s.tick + 1} := by
  constructor
  · exact fun yields => yields _ _ rfl
  rintro holds r t done
  cases done
  exact holds

@[simp] theorem yields_brelse {b : Fin n} :
    Yields (brelse b) s post ↔ post () {s with busy := s.busy.erase b} := yields_modify

@[simp] theorem yields_setInode {i : Fin ninode} {f : Inode → Inode} :
    Yields (setInode i f) s post ↔ post () {s with inode := update s.inode i (f (s.inode i))} := yields_modify

@[simp] theorem yields_setMount {mp : Fin nmount} {f : Mount → Mount} :
    Yields (setMount mp f) s post ↔ post () {s with mount := update s.mount mp (f (s.mount mp))} := yields_modify

@[simp] theorem yields_setFile {fp : Fin nfile} {f : File → File} :
    Yields (setFile fp f) s post ↔ post () {s with file := update s.file fp (f (s.file fp))} := yields_modify

@[simp] theorem yields_setOpens {root count : Nat} :
    Yields (setOpens root count) s post ↔ post () {s with opens := update s.opens root count} := yields_modify

theorem yields_getnewbuf {post : Fin n → Kernel n → Prop}
    (taken : ∀ b, b = (hw s.tick).buf → b ∉ s.busy → post b {s with tick := s.tick + 1,busy := insert b s.busy}) :
    Yields (getnewbuf hw) s post := by
  rw [getnewbuf]
  simp only [yields_bind,yields_respond,yields_get]
  refine .ite (fun _ => by simp) fun free => ?_
  simpa using taken _ rfl free

theorem yields_bread {dev : Dev} {blkno : Nat} {post : Fin n × Bool → Kernel n → Prop}
    (taken : ∀ b, b ∉ s.busy → post (b,(hw (s.tick + 1)).bError) {s with tick := s.tick + 2,busy := insert b s.busy}) :
    Yields (bread hw dev blkno) s post := by
  rw [bread]
  simp only [yields_bind,yields_respond,yields_pure]
  exact yields_getnewbuf fun b _ free => taken b free

theorem yields_iupdat {i : Fin ninode} (after : ∀ tick, post () {s with tick}) : Yields (iupdat hw i) s post := by
  rw [iupdat]
  simp only [yields_bind,yields_respond,yields_get]
  refine .ite (fun _ => ?_) fun _ => ?_
  · simp only [yields_bind]
    refine yields_bread fun b free => ?_
    simp only [yields_brelse,Finset.erase_insert free]
    exact after _
  · simp only [yields_pure]
    exact after _

/-- An inode after `irele`, in a filesystem that is read-only or not. -/
def released (ronly : Bool) (ip : Inode) : Inode :=
  if ip.iCount = 1 then
    let ip := if ip.iNlink = 0 ∧ ronly = false then {ip with iFmt := .none,iRdev := 0} else ip
    {ip with iCount := 0,iLocked := false,iMount := false}
  else {ip with iCount := ip.iCount - 1}

theorem yields_irele {i : Fin ninode} (after : ∀ tick, post () {s with
      tick
      inode := update s.inode i (released (s.mount (s.inode i).iFs).mFilsys.fsRonly (s.inode i))}) :
    Yields (irele hw i) s post := by
  rw [irele]
  simp only [yields_bind,yields_get]
  refine .ite (fun last => ?_) fun more => ?_
  · simp only [yields_bind,yields_setInode]
    refine .ite (fun unlinked => ?_) fun linked => ?_
    · simp only [yields_bind,yields_setInode]
      refine yields_iupdat fun tick => ?_
      simpa [released,last,unlinked] using after tick
    simp only [yields_bind]
    refine yields_iupdat fun tick => ?_
    simpa [released,last,linked] using after tick
  · simp only [yields_setInode]
    simpa [released,more] using after s.tick

theorem yields_iput {i : Fin ninode} (after : ∀ tick, post () {s with
      tick
      inode := update s.inode i (released (s.mount (s.inode i).iFs).mFilsys.fsRonly {s.inode i with iLocked := false})}) :
    Yields (iput hw i) s post := by
  rw [iput]
  simp only [yields_bind,yields_setInode]
  refine yields_irele fun tick => ?_
  simpa using after tick

def taken (new ip : Inode) : Inode :=
  if ip.iCount = 0 then {new with iCount := 1,iLocked := true,iMount := false}
  else {ip with iCount := ip.iCount + 1,iLocked := true}

theorem yields_namei {post : Except Nat (Fin ninode) → Kernel n → Prop}
    (none : ∀ e, e ≠ 0 → post (.error e) {s with tick := s.tick + 1})
    (some : ∀ i new, (s.inode i).iLocked = false → (s.inode i).iMount = false →
      post (.ok i) {s with tick := s.tick + 1,inode := update s.inode i (taken new (s.inode i))}) :
    Yields (namei hw) s post := by
  rw [namei]
  simp only [yields_bind,yields_respond]
  cases (hw s.tick).found with
  | error e =>
    simp only [yields_pure]
    exact none e.val e.property
  | ok found =>
    obtain ⟨i,new⟩ := found
    simp only [yields_bind,yields_get]
    refine .ite (fun _ => by simp) fun free => ?_
    push Not at free
    have after := some i new (by simpa using free.1) (by simpa using free.2)
    refine .ite (fun unused => ?_) fun used => ?_
    · simpa [taken,unused] using after
    · simpa [taken,used] using after

def Kept (a b : Inode) : Prop :=
  b = a ∨ (a.iCount = 0 ∧ a.iLocked = false ∧ a.iMount = false) ∧ b.iCount = 0 ∧ b.iLocked = false ∧ b.iMount = false

theorem Kept.trans {a b c : Inode} (first : Kept a b) (second : Kept b c) : Kept a c := by
  rcases first with rfl | ⟨before,after⟩
  · exact second
  rcases second with rfl | ⟨_,last⟩
  · exact .inr ⟨before,after⟩
  · exact .inr ⟨before,last⟩

theorem kept_released {ip new : Inode} (ronly : Bool) (locked : ip.iLocked = false) (covered : ip.iMount = false) :
    Kept ip (released ronly {taken new ip with iLocked := false}) := by
  rw [taken]
  split_ifs with unused
  · right
    refine ⟨⟨unused,locked,covered⟩,?_⟩
    simp [released]
  left
  have more : ¬ ip.iCount + 1 = 1 := by omega
  simp only [released,if_neg more,Nat.add_sub_cancel]
  rw [← locked]

def Looked (s t : Kernel n) : Prop := ∃ tick inode, t = {s with tick,inode} ∧ ∀ i, Kept (s.inode i) (inode i)

theorem Looked.refl (s : Kernel n) : Looked s s := ⟨s.tick,s.inode,rfl,fun _ => .inl rfl⟩

theorem Looked.trans {t u : Kernel n} (first : Looked s t) (second : Looked t u) : Looked s u := by
  obtain ⟨_,_,rfl,kept⟩ := first
  obtain ⟨tick,inode,rfl,more⟩ := second
  exact ⟨tick,inode,rfl,fun i => (kept i).trans (more i)⟩

theorem looked_iput (tick : Nat) {i : Fin ninode} {ip new : Inode} (ronly : Bool) (locked : (s.inode i).iLocked = false)
    (covered : (s.inode i).iMount = false) (same : ip = taken new (s.inode i)) :
    Looked s {s with tick,inode := update s.inode i (released ronly {ip with iLocked := false})} := by
  refine ⟨tick,_,rfl,fun j => ?_⟩
  rcases eq_or_ne j i with rfl | other
  · rw [update_self,same]
    exact kept_released ronly locked covered
  rw [update_of_ne other]
  exact .inl rfl

theorem yields_getmdev {suser : Bool} : Yields (getmdev hw suser) s fun result t =>
    Looked s t ∧ ∀ e, result = .error e → e ≠ 0 := by
  rw [getmdev]
  refine .ite (fun _ => ?_) fun _ => ?_
  · simp only [yields_pure]
    exact ⟨Looked.refl s,fun e same => by cases same; decide⟩
  simp only [yields_bind]
  refine yields_namei (fun e wrong => ?_) fun i new locked covered => ?_
  · simp only [yields_pure]
    refine ⟨⟨_,_,rfl,fun _ => .inl rfl⟩,fun e' same => ?_⟩
    cases same
    split_ifs
    · decide
    · exact wrong
  simp only [yields_bind,yields_get]
  refine .ite (fun _ => ?_) fun _ => ?_
  · simp only [yields_bind]
    refine yields_iput fun tick => ?_
    simp only [yields_pure,update_self,update_idem]
    exact ⟨looked_iput _ _ locked covered rfl,fun e same => by cases same; decide⟩
  simp only [yields_bind]
  refine yields_iput fun tick => ?_
  refine .ite (fun _ => ?_) fun _ => ?_ <;> simp only [yields_pure,update_self,update_idem]
  · exact ⟨looked_iput _ _ locked covered rfl,fun e same => by cases same; decide⟩
  · exact ⟨looked_iput _ _ locked covered rfl,fun e same => by cases same⟩

section
variable [NeZero n] {cfg : Config}

def MisreadDisk (cfg : Config) (hw : Nat → Response n) (s : Kernel n) (root : Nat) : Prop :=
  root < cfg.nrdsk ∧ s.opens root = 0 ∧ (hw s.tick).errno = 0 ∧ (hw (s.tick + 2)).mbr = false ∧ (hw (s.tick + 1)).buf ≠ 0

def Flawless (hw : Nat → Response n) : Prop := ∀ tick, (hw tick).errno = 0 ∧ (hw tick).mbr = true

structure Opened (cfg : Config) (hw : Nat → Response n) (s : Kernel n) (root e : Nat) (opens : Nat → Nat)
    (busy : Finset (Fin n)) : Prop where
  balanced : busy = s.busy ↔ ¬ MisreadDisk cfg hw s root
  success : e = 0 → ¬ MisreadDisk cfg hw s root ∧ root < cfg.nrdsk ∧ opens = update s.opens root ((s.opens root + 1) % 256)
  failure : Flawless hw → e ≠ 0 → opens = s.opens

variable {post : Nat → Kernel n → Prop} {dev : Dev}

theorem yields_initDevice {root : Nat} (attached : root < cfg.nrdsk) (closed : s.opens root = 0)
    (after : ∀ e tick busy, (busy = s.busy ↔ ¬ MisreadDisk cfg hw s root) → (e = 0 → ¬ MisreadDisk cfg hw s root) →
      (Flawless hw → e = 0) → post e {s with tick,busy}) :
    Yields (initDevice cfg hw root) s post := by
  have known : MisreadDisk cfg hw s root ↔ (hw s.tick).errno = 0 ∧ (hw (s.tick + 2)).mbr = false ∧
    (hw (s.tick + 1)).buf ≠ 0 := by
    simp [MisreadDisk,attached,closed]
  rw [initDevice,if_neg (by omega)]
  simp only [yields_bind,yields_respond]
  refine .ite (fun failed => ?_) fun fine => ?_
  · simp only [yields_pure]
    have right : ¬ MisreadDisk cfg hw s root := fun misread => failed (known.mp misread).1
    exact after _ _ _ (iff_of_true rfl right) (fun _ => right) fun flawless => absurd (flawless _).1 failed
  rw [readMbr,if_neg (by omega)]
  simp only [yields_bind]
  refine yields_getnewbuf fun b same free => ?_
  simp only [yields_respond]
  refine .ite (fun read => ?_) fun unread => ?_
  · simp only [yields_pure,yields_bind,yields_brelse,Finset.erase_insert free]
    have right : ¬ MisreadDisk cfg hw s root := fun misread => by simp [(known.mp misread).2.1] at read
    exact after _ _ _ (iff_of_true rfl right) (fun _ => right) fun _ => rfl
  simp only [yields_pure,yields_bind,yields_brelse]
  refine after _ _ _ ?_ (fun none => absurd none (by decide)) fun flawless => absurd (flawless _).2 unread
  have first : b = 0 ↔ ¬ MisreadDisk cfg hw s root := by
    have other : MisreadDisk cfg hw s root ↔ b ≠ 0 := by
      rw [known,same]
      simp only [ne_eq,not_not] at fine
      simp_all
    rw [other,not_not]
  rw [← first]
  constructor
  · intro balanced
    by_contra kept
    have member : b ∈ (insert b s.busy).erase 0 := by simp [kept]
    exact free (balanced ▸ member)
  · rintro rfl
    exact Finset.erase_insert free

theorem yields_rdopen (after : ∀ e tick opens busy, Opened cfg hw s (major dev) e opens busy →
      post e {s with tick,opens,busy}) :
    Yields (rdopen cfg hw dev) s post := by
  rw [rdopen]
  refine .ite (fun missing => ?_) fun attached => ?_
  · simp only [yields_pure]
    have right : ¬ MisreadDisk cfg hw s (major dev) := fun misread => absurd misread.1 (by omega)
    exact after _ _ _ _ ⟨iff_of_true rfl right,fun none => absurd none (by decide),fun _ _ => rfl⟩
  have low : major dev < cfg.nrdsk := by omega
  have opened : ∀ tick busy e, (busy = s.busy ↔ ¬ MisreadDisk cfg hw s (major dev)) → ¬ MisreadDisk cfg hw s (major dev) →
      (Flawless hw → e = 0) → post e {s with
        tick,opens := update s.opens (major dev) ((s.opens (major dev) + 1) % 256),busy} :=
    fun tick busy e balanced right flawless =>
      after _ _ _ _ ⟨balanced,fun _ => ⟨right,low,rfl⟩,fun fine failed => absurd (flawless fine) failed⟩
  rw [openDevice,if_neg attached]
  simp only [yields_bind,yields_get]
  refine .ite (fun closed => ?_) fun running => ?_
  · simp only [yields_bind]
    refine yields_initDevice low closed fun e tick busy balanced success flawless => ?_
    refine .ite (fun failed => ?_) fun fine => ?_
    · simp only [yields_pure]
      refine .ite (fun _ => ?_) fun fine => absurd failed fine
      simp only [yields_pure]
      exact after _ _ _ _ ⟨balanced,fun none => absurd none failed,fun right _ => rfl⟩
    simp only [yields_bind,yields_get,yields_setOpens,yields_pure]
    refine .ite (fun failed => absurd rfl failed) fun _ => ?_
    simp only [yields_bind,yields_respond,yields_pure]
    exact opened _ _ _ balanced (success (not_not.mp fine)) fun right => (right _).1
  · have right : ¬ MisreadDisk cfg hw s (major dev) := fun misread => running misread.2.1
    simp only [yields_bind,yields_pure]
    refine .ite (fun failed => absurd rfl failed) fun _ => ?_
    simp only [yields_bind,yields_get,yields_setOpens,yields_pure]
    refine .ite (fun failed => absurd rfl failed) fun _ => ?_
    simp only [yields_bind,yields_respond,yields_pure]
    exact opened _ _ _ (iff_of_true rfl right) right fun fine => (fine _).1

def rootOf (cfg : Config) (dev : Dev) : Option Nat :=
  if major dev < 4 then some (major dev) else if minor dev = 64 then some (major cfg.swapdev) else none

def Misread (cfg : Config) (hw : Nat → Response n) (s : Kernel n) (dev : Dev) : Prop :=
  ∃ root, rootOf cfg dev = some root ∧ MisreadDisk cfg hw s root

def opensAfter (cfg : Config) (dev : Dev) (opens : Nat → Nat) : Nat → Nat :=
  match rootOf cfg dev with
  | some root => update opens root ((opens root + 1) % 256)
  | none => opens

def opensBefore (cfg : Config) (dev : Dev) (opens : Nat → Nat) : Nat → Nat :=
  match rootOf cfg dev with
  | some root => if root < cfg.nrdsk then update opens root (opens root - 1) else opens
  | none => opens

structure DeviceOpened (cfg : Config) (hw : Nat → Response n) (s : Kernel n) (dev : Dev) (e : Nat) (opens : Nat → Nat)
    (busy : Finset (Fin n)) : Prop where
  balanced : busy = s.busy ↔ ¬ Misread cfg hw s dev
  clean : e = 0 → ¬ Misread cfg hw s dev
  attached : e = 0 → ∀ root, rootOf cfg dev = some root → root < cfg.nrdsk
  success : e = 0 → opens = opensAfter cfg dev s.opens
  failure : Flawless hw → e ≠ 0 → opens = s.opens

theorem Opened.device {root e : Nat} {opens : Nat → Nat} {busy : Finset (Fin n)} (known : rootOf cfg dev = some root)
    (opened : Opened cfg hw s root e opens busy) : DeviceOpened cfg hw s dev e opens busy where
  balanced := by simpa [Misread,known] using opened.balanced
  clean fine := by simpa [Misread,known] using (opened.success fine).1
  attached fine other same := by
    rw [known] at same
    cases same
    exact (opened.success fine).2.1
  success fine := by simpa [opensAfter,known] using (opened.success fine).2.2
  failure := opened.failure

theorem yields_dOpen (after : ∀ e tick opens busy, DeviceOpened cfg hw s dev e opens busy → post e {s with
      tick,opens,busy := busy
      unmatched := if e = 0 then update s.unmatched dev (s.unmatched dev + 1) else s.unmatched}) :
    Yields (dOpen cfg hw dev) s post := by
  have counted : ∀ e tick opens busy, DeviceOpened cfg hw s dev e opens busy → Yields (if e = 0 then do
          modify fun k => {k with unmatched := update k.unmatched dev (k.unmatched dev + 1)}
          return e
        else (return e : Call n Nat)) {s with tick,opens,busy} post := by
    intro e tick opens busy opened
    have ended := after e tick opens busy opened
    refine .ite (fun fine => ?_) fun failed => ?_
    · rw [if_pos fine] at ended
      simpa only [yields_bind,yields_modify,yields_pure] using ended
    rw [if_neg failed] at ended
    simpa only [yields_pure] using ended
  rw [dOpen]
  refine .ite (fun low => ?_) fun high => ?_
  · simp only [yields_bind]
    refine yields_rdopen fun e tick opens busy opened => ?_
    exact counted _ _ _ _ (opened.device (by rw [rootOf,if_pos low]))
  rw [swopen]
  simp only [yields_bind]
  refine .ite (fun whole => ?_) fun part => ?_
  · refine yields_rdopen fun e tick opens busy opened => ?_
    exact counted _ _ _ _ (opened.device (by rw [rootOf,if_neg high,if_pos whole]))
  have none : rootOf cfg dev = none := by rw [rootOf,if_neg high,if_neg part]
  have right : ∀ e, DeviceOpened cfg hw s dev e s.opens s.busy := fun e =>
    ⟨by simp [Misread,none],by simp [Misread,none],by simp [none],fun _ => by simp [opensAfter,none],fun _ _ => rfl⟩
  refine .ite (fun _ => ?_) fun _ => ?_
  · rw [yields_pure]
    exact counted _ s.tick s.opens s.busy (right _)
  rw [yields_pure]
  exact counted _ s.tick s.opens s.busy (right _)

omit [NeZero n] in
theorem yields_rdclose (after : ∀ e, post e {s with
      opens := if major dev < cfg.nrdsk then update s.opens (major dev) (s.opens (major dev) - 1) else s.opens}) :
    Yields (rdclose cfg dev) s post := by
  rw [rdclose]
  refine .ite (fun missing => ?_) fun attached => ?_
  · have ended := after enodev
    rw [if_neg (by omega)] at ended
    simpa only [yields_pure] using ended
  have ended := after 0
  rw [if_pos (by omega)] at ended
  rw [closeDevice,if_neg attached]
  simp only [yields_bind,yields_get]
  refine .ite (fun closed => ?_) fun opened => ?_
  · have same : update s.opens (major dev) (s.opens (major dev) - 1) = s.opens := by
      rw [closed]
      exact update_eq_self_iff.mpr closed.symm
    rw [same] at ended
    simpa only [yields_pure] using ended
  · simpa only [yields_bind,yields_get,yields_setOpens,yields_pure] using ended

omit [NeZero n] in
theorem yields_dClose (after : ∀ e, post e {s with
      opens := opensBefore cfg dev s.opens
      unmatched := update s.unmatched dev (s.unmatched dev - 1)}) :
    Yields (dClose cfg dev) s post := by
  rw [dClose]
  simp only [yields_bind,yields_modify]
  refine .ite (fun low => ?_) fun high => ?_
  · refine yields_rdclose fun e => ?_
    have ended := after e
    rwa [opensBefore,rootOf,if_pos low] at ended
  rw [swclose]
  refine .ite (fun whole => ?_) fun part => ?_
  · refine yields_rdclose fun e => ?_
    have ended := after e
    rwa [opensBefore,rootOf,if_neg high,if_pos whole] at ended
  have ended := fun e => after e
  rw [opensBefore,rootOf,if_neg high,if_neg part] at ended
  refine .ite (fun _ => ?_) fun _ => ?_ <;> simp only [yields_pure] <;> exact ended _

end

end Retrobsd.Mounts

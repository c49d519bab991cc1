import Retrobsd.MountCalls

/-! A `mount` or `umount` that fails leaves everything as it was, unless the device is mounted
already or its partition table cannot be read; one that succeeds adds or removes one entry of
the mount table, one open and one reference. -/
namespace Retrobsd.Mounts
open Finset
open Function
open BufferCache (Dev)
open Lib.Hoare

variable {n : Nat} {cfg : Config} {hw : Nat → Response n} {s : Kernel n}

section
def SameEntries (before after : Fin nmount → Mount) : Prop :=
    ∀ mp, after mp = before mp ∨ (before mp).mInodp = .none ∧ (after mp).mInodp = .none

theorem yields_mountfsOut {dev : Dev} {i : Fin ninode} {mp : Option (Fin nmount)} {tp : Option (Fin n)} {needclose : Bool}
    {error : Nat} {post : Nat → Kernel n → Prop}
    (after : ∀ e tick ronly, e ≠ 0 → post e {s with
      tick
      inode := update s.inode i (released ronly {s.inode i with iLocked := false})
      mount := match mp with
        | none => s.mount
        | some mp => update s.mount mp {s.mount mp with mInodp := .none}
      busy := match tp with
        | none => s.busy
        | some tp => s.busy.erase tp
      opens := if needclose then opensBefore cfg dev s.opens else s.opens
      unmatched := if needclose then update s.unmatched dev (s.unmatched dev - 1) else s.unmatched}) :
    Yields (mountfsOut cfg hw dev i mp tp needclose error) s post := by
  have failed : (if error = 0 then eio else error) ≠ 0 := by
    split_ifs with none
    · decide
    · exact none
  rw [mountfsOut]
  simp only [yields_bind]
  refine yields_iput fun tick => ?_
  have ended := after _ tick (s.mount (s.inode i).iFs).mFilsys.fsRonly failed
  cases mp <;> cases tp <;> simp only [yields_bind,yields_setMount,yields_brelse] <;>
    refine .ite (fun close => ?_) (fun leave => ?_)
  all_goals first
    | (simp only [yields_bind]
       refine yields_dClose fun _ => ?_
       simp only [yields_pure]
       simpa only [close,if_true] using ended)
    | (simp only [yields_pure]
       simpa only [leave,Bool.false_eq_true,if_false] using ended)

theorem sameEntries_set {mp : Fin nmount} (unused : (s.mount mp).mInodp = .none) (m m' : Mount) (none : m'.mInodp = .none) :
    SameEntries s.mount (update (update s.mount mp m) mp m') := by
  intro other
  rcases eq_or_ne other mp with rfl | ne
  · right
    rw [update_self]
    exact ⟨unused,none⟩
  · left
    rw [update_of_ne ne,update_of_ne ne]

variable [NeZero n]

def Refused (cfg : Config) (hw : Nat → Response n) (s : Kernel n) (dev : Dev) : Prop :=
  ∃ t, dOpen cfg hw dev s = .ok (0,t) ∧ (hw (t.tick + 1)).bError = false ∧ (findMount s (mounted dev)).isSome = true

def Failed (cfg : Config) (hw : Nat → Response n) (s : Kernel n) (dev : Dev) (i : Fin ninode) (t : Kernel n) : Prop :=
  ∃ tick ronly mount opens busy unmatched,t = {s with
      tick,mount,opens,busy,unmatched := unmatched
      inode := update s.inode i (released ronly {s.inode i with iLocked := false})} ∧
    SameEntries s.mount mount ∧ (busy = s.busy ↔ ¬ Misread cfg hw s dev) ∧ (unmatched = s.unmatched ↔ ¬ Refused cfg hw s dev) ∧
    (Flawless hw → opens = s.opens ∨ opens = opensBefore cfg dev (opensAfter cfg dev s.opens) ∨
      Refused cfg hw s dev ∧ opens = opensAfter cfg dev s.opens)

def Succeeded (cfg : Config) (hw : Nat → Response n) (s : Kernel n) (dev : Dev) (i : Fin ninode) (t : Kernel n) : Prop :=
  ∃ tick mp fs, (s.mount mp).mInodp = .none ∧ ¬ Misread cfg hw s dev ∧ ¬ Refused cfg hw s dev ∧
  findMount s (mounted dev) = none ∧ t = {s with
      tick,opens := opensAfter cfg dev s.opens
      unmatched := update s.unmatched dev (s.unmatched dev + 1)
      mount := update s.mount mp ⟨dev,fs,.inode i⟩
      inode := update s.inode i {s.inode i with iMount := true,iLocked := false}}

theorem Refused.of_eq {dev : Dev} {t : Kernel n} (opened : dOpen cfg hw dev s = .ok (0,t)) :
    Refused cfg hw s dev ↔ (hw (t.tick + 1)).bError = false ∧ (findMount s (mounted dev)).isSome = true := by
  constructor
  · rintro ⟨u,same,read,used⟩
    rw [opened] at same
    cases same
    exact ⟨read,used⟩
  · exact fun right => ⟨t,opened,right.1,right.2⟩

theorem update_balance (unmatched : Dev → Int) (dev : Dev) : update (update unmatched dev (unmatched dev + 1)) dev
      (update unmatched dev (unmatched dev + 1) dev - 1) = unmatched := by
  rw [update_self,update_idem,add_sub_cancel_right,update_eq_self]

theorem update_unbalanced (unmatched : Dev → Int) (dev : Dev) : update unmatched dev (unmatched dev + 1) ≠ unmatched := by
  intro same
  have here := congrFun same dev
  rw [update_self] at here
  omega

theorem yields_mountfs {dev : Dev} {flags : Flags} {i : Fin ninode} : Yields (mountfs cfg hw dev flags i) s fun e t =>
      (e ≠ 0 → Failed cfg hw s dev i t) ∧ (e = 0 → Succeeded cfg hw s dev i t) := by
  have opening : Yields (dOpen cfg hw dev) s fun e t => dOpen cfg hw dev s = .ok (e,t) ∧
      ∃ tick opens busy, DeviceOpened cfg hw s dev e opens busy ∧ t = {s with
        tick,opens,busy := busy
        unmatched := if e = 0 then update s.unmatched dev (s.unmatched dev + 1) else s.unmatched} :=
    (yields_self _).and (yields_dOpen fun e tick opens busy opened => ⟨tick,opens,busy,opened,rfl⟩)
  rw [mountfs]
  simp only [yields_bind]
  refine opening.imp fun e t found => ?_
  obtain ⟨done,tick,opens,busy,opened,rfl⟩ := found
  refine .ite (fun failed => ?_) fun fine => ?_
  · refine yields_mountfsOut fun e' tick ronly wrong => ⟨fun _ => ?_,fun none => absurd none wrong⟩
    have never : ¬ Refused cfg hw s dev := by
      rintro ⟨u,success,_⟩
      rw [done] at success
      cases success
      exact failed rfl
    refine ⟨tick,ronly,s.mount,opens,busy,s.unmatched,?_,fun _ => .inl rfl,opened.balanced,iff_of_true rfl never,
      fun flawless => .inl (opened.failure flawless failed)⟩
    simp [if_neg failed]
  obtain rfl : e = 0 := not_not.mp fine
  have known := Refused.of_eq done
  have clean := opened.clean rfl
  have same : busy = s.busy := opened.balanced.mpr clean
  have count := opened.success rfl
  subst same count
  simp only [if_true,yields_bind]
  refine yields_bread fun b free => ?_
  have undone : ¬ Refused cfg hw s dev → ∀ tick ronly mount, SameEntries s.mount mount → Failed cfg hw s dev i {s with
      tick,mount := mount
      inode := update s.inode i (released ronly {s.inode i with iLocked := false})
      opens := opensBefore cfg dev (opensAfter cfg dev s.opens)} := fun right tick ronly mount entries =>
    ⟨tick,ronly,mount,_,s.busy,s.unmatched,rfl,entries,iff_of_true rfl clean,iff_of_true rfl right,fun _ => .inr (.inl rfl)⟩
  refine .ite (fun failed => ?_) fun read => ?_
  · refine yields_mountfsOut fun e' tick ronly wrong => ⟨fun _ => ?_,fun none => absurd none wrong⟩
    have right : ¬ Refused cfg hw s dev := fun refused => by simp [(known.mp refused).1] at failed
    simpa only [if_true,erase_insert free,update_balance] using undone right tick ronly s.mount fun _ => .inl rfl
  refine .ite (fun used => ?_) fun unknown => ?_
  · refine yields_mountfsOut fun e' tick ronly wrong => ⟨fun _ => ?_,fun none => absurd none wrong⟩
    have refused : Refused cfg hw s dev := known.mpr ⟨by simpa using read,used⟩
    refine ⟨tick,ronly,s.mount,opensAfter cfg dev s.opens,s.busy,update s.unmatched dev (s.unmatched dev + 1),?_,
      fun _ => .inl rfl,iff_of_true rfl clean,
      iff_of_false (update_unbalanced s.unmatched dev) (not_not.mpr refused),fun _ => .inr (.inr ⟨refused,rfl⟩)⟩
    simp [erase_insert free]
  have right : ¬ Refused cfg hw s dev := fun refused => unknown (known.mp refused).2
  simp only [yields_bind,yields_get]
  split
  next =>
    refine yields_mountfsOut fun e' tick ronly wrong => ⟨fun _ => ?_,fun none => absurd none wrong⟩
    simpa only [if_true,erase_insert free,update_balance] using undone right tick ronly s.mount fun _ => .inl rfl
  next mp found =>
    have empty : (s.mount mp).mInodp = .none := by simpa [unused] using List.find?_some found
    simp only [yields_bind,yields_respond,yields_setMount,yields_brelse]
    refine .ite (fun bad => ?_) fun good => ?_
    · refine yields_mountfsOut fun e' tick ronly wrong => ⟨fun _ => ?_,fun none => absurd none wrong⟩
      simpa only [if_true,erase_insert free,update_balance] using undone right tick ronly _ (sameEntries_set empty _ _ rfl)
    simp only [yields_bind,yields_setMount,yields_setInode,yields_pure]
    refine ⟨fun wrong => absurd rfl wrong,fun _ => ⟨tick + 2 + 1,mp,{(hw (tick + 2)).super with
      fsRonly := flags.mntRdonly,fsFmod := if flags.mntRdonly then (hw (tick + 2)).super.fsFmod else true,fsIlock := false
      fsFlock := false,fsNbehind := 0,fsLasti := 1,fsFlags := flags},empty,clean,right,?_,?_⟩⟩
    · exact Option.not_isSome_iff_eq_none.mp unknown
    · simp [erase_insert free]

end

section
def Quiet (s t : Kernel n) : Prop :=
  ∃ tick inode mount, t = {s with tick,inode,mount} ∧ (∀ i, Kept (s.inode i) (inode i)) ∧
    ∀ mp, (mount mp).mInodp = (s.mount mp).mInodp ∧ (mount mp).mDev = (s.mount mp).mDev

theorem Looked.quiet {t : Kernel n} (looked : Looked s t) : Quiet s t := by
  obtain ⟨tick,inode,rfl,kept⟩ := looked
  exact ⟨tick,inode,s.mount,rfl,kept,fun _ => ⟨rfl,rfl⟩⟩

theorem Quiet.trans {t u : Kernel n} (first : Quiet s t) (second : Quiet t u) : Quiet s u := by
  obtain ⟨_,_,_,rfl,kept,same⟩ := first
  obtain ⟨tick,inode,mount,rfl,kept',same'⟩ := second
  exact ⟨tick,inode,mount,rfl,fun i => (kept i).trans (kept' i),fun mp =>
    ⟨(same' mp).1.trans (same mp).1,(same' mp).2.trans (same mp).2⟩⟩

theorem quiet_setMount (mp : Fin nmount) (m : Mount) (inodp : m.mInodp = (s.mount mp).mInodp)
    (dev : m.mDev = (s.mount mp).mDev) :
    Quiet s {s with mount := update s.mount mp m} := by
  refine ⟨s.tick,s.inode,_,rfl,fun _ => .inl rfl,fun other => ?_⟩
  rcases eq_or_ne other mp with rfl | ne
  · rw [update_self]
    exact ⟨inodp,dev⟩
  rw [update_of_ne ne]
  exact ⟨rfl,rfl⟩

/-- The lookups of `smount` have found a device, and a directory that may be mounted on. -/
def Begins (hw : Nat → Response n) (s : Kernel n) (suser : Bool) (flags : Flags) (dev : Dev) (i : Fin ninode)
    (u : Kernel n) : Prop :=
  ∃ t, getmdev hw suser s = .ok (.ok dev,t) ∧ namei hw t = .ok (.ok i,u) ∧ (u.inode i).iFmt = .ifdir ∧ flags.mntUpdate = false ∧
    (u.inode i).iCount = 1 ∧ (u.inode i).iNumber ≠ 2

theorem yields_updateMount {dev : Dev} {i : Fin ninode} {flags : Flags} :
    Yields (updateMount dev i flags : Call n Nat) s fun _ t =>
      ∃ mount, t = {s with mount} ∧ ∀ mp, (mount mp).mInodp = (s.mount mp).mInodp ∧ (mount mp).mDev = (s.mount mp).mDev := by
  have none : ∃ mount, s = {s with mount} ∧
      ∀ mp, (mount mp).mInodp = (s.mount mp).mInodp ∧ (mount mp).mDev = (s.mount mp).mDev := ⟨s.mount,rfl,fun _ => ⟨rfl,rfl⟩⟩
  have set : ∀ (mount : Fin nmount → Mount) mp m,
    (∀ mp, (mount mp).mInodp = (s.mount mp).mInodp ∧ (mount mp).mDev = (s.mount mp).mDev) →
      m.mInodp = (mount mp).mInodp → m.mDev = (mount mp).mDev → ∃ mount', {s with mount := update mount mp m} =
        {s with mount := mount'} ∧ ∀ mp, (mount' mp).mInodp = (s.mount mp).mInodp ∧ (mount' mp).mDev = (s.mount mp).mDev := by
    intro mount mp m same inodp dev
    refine ⟨_,rfl,fun other => ?_⟩
    rcases eq_or_ne other mp with rfl | ne
    · rw [update_self]
      exact ⟨inodp.trans (same other).1,dev.trans (same other).2⟩
    rw [update_of_ne ne]
    exact same other
  rw [updateMount]
  simp only [yields_bind,yields_get]
  refine .ite (fun _ => by simpa only [yields_pure] using none) fun _ => ?_
  refine .ite (fun _ => by simpa only [yields_pure] using none) fun _ => ?_
  refine .ite (fun _ => by simpa only [yields_pure] using none) fun _ => ?_
  refine .ite (fun _ => ?_) fun _ => ?_
  · simp only [yields_bind,yields_setMount,yields_pure]
    rw [update_idem]
    refine set s.mount _ _ (fun _ => ⟨rfl,rfl⟩) ?_ ?_ <;> simp
  · simp only [yields_bind,yields_setMount,yields_pure]
    exact set s.mount _ _ (fun _ => ⟨rfl,rfl⟩) rfl rfl

theorem Begins.unique {suser : Bool} {flags : Flags} {dev dev' : Dev} {i i' : Fin ninode} {u u' : Kernel n}
    (one : Begins hw s suser flags dev i u) (two : Begins hw s suser flags dev' i' u') : dev' = dev ∧ i' = i ∧ u' = u := by
  obtain ⟨t,device,found,_⟩ := one
  obtain ⟨t',device',found',_⟩ := two
  rw [device] at device'
  cases device'
  rw [found] at found'
  cases found'
  exact ⟨rfl,rfl,rfl⟩

variable [NeZero n]

def Fresh (s : Kernel n) (i : Fin ninode) (u : Kernel n) : Prop :=
  ∃ tick inode new, u = {s with tick,inode := update inode i (taken new (inode i))} ∧
    (∀ j, Kept (s.inode j) (inode j)) ∧ (inode i).iCount = 0 ∧ (inode i).iLocked = false ∧ (inode i).iMount = false

theorem yields_smount {suser : Bool} {flags : Flags} : Yields (smount cfg hw suser flags) s fun e t =>
      (∃ dev i u, Begins hw s suser flags dev i u ∧ Fresh s i u ∧ (e ≠ 0 → Failed cfg hw u dev i t) ∧
      (e = 0 → Succeeded cfg hw u dev i t)) ∨
      (∀ dev i u, ¬ Begins hw s suser flags dev i u) ∧ Quiet s t ∧ (e = 0 → flags.mntUpdate = true) := by
  rw [smount]
  simp only [yields_bind]
  refine ((yields_self _).and yields_getmdev).imp fun result t found => ?_
  obtain ⟨device,looked,wrong⟩ := found
  cases result with
  | error e =>
    simp only [yields_pure]
    refine .inr ⟨?_,looked.quiet,fun none => absurd none (wrong e rfl)⟩
    rintro dev i u ⟨t',device',_⟩
    rw [device] at device'
    cases device'
  | ok dev =>
    simp only [yields_bind]
    have lookup : Yields (namei hw) t fun result u => (∀ e, result = .error e → Looked t u ∧ e ≠ 0) ∧
        ∀ i, result = .ok i → ∃ new, (t.inode i).iLocked = false ∧ (t.inode i).iMount = false ∧
          u = {t with tick := t.tick + 1,inode := update t.inode i (taken new (t.inode i))} := by
      refine yields_namei (fun e nonzero => ⟨?_,by rintro _ ⟨⟩⟩) fun i new locked covered =>
        ⟨by rintro _ ⟨⟩,?_⟩
      · rintro _ ⟨⟩
        exact ⟨⟨_,_,rfl,fun _ => .inl rfl⟩,nonzero⟩
      · rintro _ ⟨⟩
        exact ⟨new,locked,covered,rfl⟩
    refine ((yields_self _).and lookup).imp fun result u found => ?_
    · obtain ⟨named,failed,success⟩ := found
      cases result with
      | error e =>
        simp only [yields_pure]
        refine .inr ⟨?_,(looked.trans (failed e rfl).1).quiet,fun none => absurd none (failed e rfl).2⟩
        rintro dev' i u' ⟨t',device',named',_⟩
        rw [device] at device'
        cases device'
        rw [named] at named'
        cases named'
      | ok i =>
        obtain ⟨new,locked,covered,rfl⟩ := success i rfl
        have unique : ∀ {dev' i' u'}, Begins hw s suser flags dev' i' u' → dev' = dev ∧ i' = i ∧
            u' = {t with tick := t.tick + 1,inode := update t.inode i (taken new (t.inode i))} := by
          rintro dev' i' u' ⟨t',device',named',_⟩
          rw [device] at device'
          cases device'
          rw [named] at named'
          cases named'
          exact ⟨rfl,rfl,rfl⟩
        have put : ∀ tick ronly, Quiet s {t with
            tick,inode := update t.inode i (released ronly {taken new (t.inode i) with iLocked := false})} :=
          fun tick ronly => (looked.trans (looked_iput tick ronly locked covered rfl)).quiet
        simp only [yields_bind,yields_get]
        refine .ite (fun file => ?_) fun dir => ?_
        · simp only [yields_bind]
          refine yields_iput fun tick => ?_
          simp only [yields_pure,update_self,update_idem]
          refine .inr ⟨fun dev' i' u' begins => ?_,put _ _,fun none => absurd none (by decide)⟩
          obtain ⟨rfl,rfl,rfl⟩ := unique begins
          obtain ⟨_,_,_,isDir,_⟩ := begins
          exact file isDir
        refine .ite (fun update => ?_) fun new' => ?_
        · simp only [yields_bind]
          refine yields_updateMount.imp fun e u changed => ?_
          obtain ⟨mount,rfl,same⟩ := changed
          refine yields_iput fun tick => ?_
          simp only [yields_pure,update_self,update_idem]
          refine .inr ⟨fun dev' i' u' begins => ?_,?_,fun _ => update⟩
          · obtain ⟨_,_,_,_,isNew,_⟩ := begins
            rw [update] at isNew
            cases isNew
          · exact (put tick (mount (taken new (t.inode i)).iFs).mFilsys.fsRonly).trans ⟨_,_,mount,rfl,fun _ => .inl rfl,same⟩
        refine .ite (fun busy => ?_) fun free => ?_
        · simp only [yields_bind]
          refine yields_iput fun tick => ?_
          simp only [yields_pure,update_self,update_idem]
          refine .inr ⟨fun dev' i' u' begins => ?_,put _ _,fun none => absurd none (by decide)⟩
          obtain ⟨rfl,rfl,rfl⟩ := unique begins
          obtain ⟨_,_,_,_,_,single,plain⟩ := begins
          exact busy.elim (fun more => more single) plain
        push Not at free
        have single := free.1
        rw [update_self] at single
        have unused : (t.inode i).iCount = 0 := by
          by_contra used
          simp [taken,used] at single
        have fresh : Fresh s i {t with tick := t.tick + 1,inode := update t.inode i (taken new (t.inode i))} := by
          obtain ⟨tick,inode,rfl,kept⟩ := looked
          exact ⟨_,inode,new,rfl,kept,unused,locked,covered⟩
        refine yields_mountfs.imp fun e u ended =>
          .inl ⟨dev,i,_,⟨t,device,named,not_not.mp dir,?_,free.1,free.2⟩,fresh,ended.1,ended.2⟩
        simpa using new'

end

section
variable [NeZero n]

theorem released_more {ip : Inode} (ronly : Bool) (more : ip.iCount ≠ 1) :
    released ronly ip = {ip with iCount := ip.iCount - 1} := by
  rw [released,if_neg more]

theorem released_synced {ip : Inode} (ronly : Bool) (locked : ip.iLocked = false) (used : ip.iCount ≠ 0) :
    released ronly {{ip with iLocked := true,iCount := ip.iCount + 1} with iLocked := false} = ip := by
  rw [released_more ronly (by simpa using used)]
  simp only [Nat.add_sub_cancel]
  rw [← locked]

omit [NeZero n] in
theorem yields_syncinodes {mp : Fin nmount} {post : Unit → Kernel n → Prop} (after : ∀ tick, post () {s with tick}) :
    ∀ rest, Yields (syncinodes hw mp rest) s post := by
  intro rest
  induction rest generalizing s with
  | nil =>
    rw [syncinodes,yields_pure]
    exact after s.tick
  | cons i rest ih =>
    rw [syncinodes]
    simp only [yields_bind,yields_respond,yields_get]
    refine .ite (fun modified => ?_) fun _ => ?_
    · simp only [yields_bind,yields_setInode]
      refine yields_iupdat fun tick => ?_
      refine yields_iput fun tick' => ?_
      simp only [update_self,update_idem]
      rw [released_synced _ modified.2.1 modified.2.2.1,update_eq_self]
      exact ih after
    · exact ih after

omit [NeZero n] in
theorem yields_ufsSync {mp : Fin nmount} : Yields (ufsSync hw mp) s fun _ t => Quiet s t ∧ t.inode = s.inode := by
  have none : ∀ tick, Quiet s {s with tick} := fun tick => ⟨tick,s.inode,s.mount,rfl,fun _ => .inl rfl,fun _ => ⟨rfl,rfl⟩⟩
  rw [ufsSync]
  simp only [yields_bind,yields_get]
  refine .ite (fun _ => by simp) fun _ => ?_
  simp only [yields_bind]
  refine yields_syncinodes (fun tick => ?_) _
  simp only [yields_get]
  refine .ite (fun _ => ?_) fun _ => ?_
  · simp only [yields_bind]
    refine yields_getnewbuf fun b _ free => ?_
    simp only [yields_setMount,yields_brelse,erase_insert free]
    refine ⟨?_,trivial⟩
    exact (none (tick + 1)).trans (quiet_setMount (s := {s with tick := tick + 1}) _ _ rfl rfl)
  · simp only [yields_pure]
    exact ⟨none _,trivial⟩

structure Alike (a b : Inode) : Prop where
  count : b.iCount = a.iCount
  locked : b.iLocked = a.iLocked
  covered : b.iMount = a.iMount

/-- An entry, a reference and an open of the device are there, which were not there before. -/
structure Adds (s t : Kernel n) (mp : Fin nmount) (i : Fin ninode) (dev : Dev) : Prop where
  free : (s.mount mp).mInodp = .none
  entry : (t.mount mp).mInodp = .inode i ∧ (t.mount mp).mDev = dev
  entries : ∀ other, other ≠ mp → (t.mount other).mInodp = (s.mount other).mInodp
  covered : (s.inode i).iMount = false ∧ (t.inode i).iMount = true
  counted : (t.inode i).iCount = (s.inode i).iCount + 1
  lock : (t.inode i).iLocked = (s.inode i).iLocked
  inodes : ∀ j, j ≠ i → Alike (s.inode j) (t.inode j)
  busy : t.busy = s.busy
  unmatched : t.unmatched = update s.unmatched dev (s.unmatched dev + 1)

def Removed (cfg : Config) (s t : Kernel n) : Prop :=
    ∃ tick inode mount ronly mp dev i, (mount mp).mInodp = .inode i ∧ (mount mp).mDev = dev ∧
    (∀ mp, (mount mp).mInodp = (s.mount mp).mInodp ∧ (mount mp).mDev = (s.mount mp).mDev) ∧ (∀ j, Kept (s.inode j) (inode j)) ∧
    t = {s with
      tick,opens := opensBefore cfg dev s.opens
      inode := update inode i (released ronly {inode i with iMount := false})
      mount := update mount mp {mount mp with mInodp := .none,mDev := 0}
      unmatched := update s.unmatched dev (s.unmatched dev - 1)}

omit [NeZero n] in
theorem yields_unmount1 {suser : Bool} :
    Yields (unmount1 cfg hw suser) s fun e t => (e ≠ 0 → Quiet s t) ∧ (e = 0 → Removed cfg s t) := by
  rw [unmount1]
  simp only [yields_bind]
  refine yields_getmdev.imp fun result t found => ?_
  obtain ⟨looked,wrong⟩ := found
  cases result with
  | error e =>
    simp only [yields_pure]
    exact ⟨fun _ => looked.quiet,fun none => absurd none (wrong e rfl)⟩
  | ok dev =>
    simp only [yields_bind,yields_get]
    split
    next =>
      simp only [yields_pure]
      exact ⟨fun _ => looked.quiet,fun none => absurd none (by decide)⟩
    next mp found =>
      have used : (t.mount mp).mInodp ≠ .none ∧ dev = (t.mount mp).mDev := by simpa [mounted] using List.find?_some found
      simp only [yields_bind,yields_get,setAsync,yields_setMount]
      refine yields_ufsSync.imp fun _ u synced => ?_
      have set := quiet_setMount (s := t) mp {t.mount mp with
        mFilsys := {(t.mount mp).mFilsys with fsFlags := {(t.mount mp).mFilsys.fsFlags with mntAsync := false}}} rfl rfl
      have quiet : Quiet s u := (looked.quiet.trans set).trans synced.1
      have known : (u.mount mp).mDev = dev := by
        obtain ⟨⟨_,_,mount,rfl,_,same⟩,_⟩ := synced
        refine (same mp).2.trans ?_
        change (update t.mount mp _ mp).mDev = dev
        rw [update_self]
        exact used.2.symm
      rw [iflush]
      simp only [yields_bind,yields_get,yields_pure]
      refine .ite (fun busy => ?_) fun idle => ?_
      · simp only [yields_bind,yields_get,yields_setMount,yields_pure]
        refine ⟨fun _ => quiet.trans ?_,fun none => absurd none (by decide)⟩
        exact quiet_setMount (s := u) mp _ rfl rfl
      simp only [yields_bind,yields_get]
      split
      next i covers =>
        simp only [yields_bind,yields_setInode]
        refine yields_irele fun tick => ?_
        simp only [yields_setMount]
        refine yields_dClose fun _ => ?_
        simp only [yields_pure,update_self,update_idem]
        obtain ⟨tick',inode,mount,rfl,kept,same⟩ := quiet
        exact ⟨fun wrong => absurd rfl wrong,fun _ => ⟨tick,inode,mount,_,mp,dev,i,covers,known,same,kept,rfl⟩⟩
      next => simp

end

end Retrobsd.Mounts

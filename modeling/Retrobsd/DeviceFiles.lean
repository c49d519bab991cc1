import Retrobsd.MountAtomicity

/-! What the opens and closes of files leave of the references, of the file table and of the
counts of the disks. -/
namespace Retrobsd.Mounts
open Function
open BufferCache (Dev)
open Lib.Hoare

variable {n : Nat} {cfg : Config} {hw : Nat → Response n} {s : Kernel n}

section
/-- What `openi` of a special file leaves of the counts of the disks. -/
structure SpecialOpened (cfg : Config) (hw : Nat → Response n) (fmt : Fmt) (dev : Dev) (before : Nat → Nat) (e : Nat)
    (after : Nat → Nat) : Prop where
  attached : e = 0 → fmt = .ifblk → ∀ root, rootOf cfg dev = some root → root < cfg.nrdsk
  success : e = 0 → after = if fmt = .ifblk then opensAfter cfg dev before else before
  failure : Flawless hw → e ≠ 0 → after = before

theorem SpecialOpened.unopened {fmt : Fmt} {dev : Dev} {before : Nat → Nat} {e : Nat} (plain : e = 0 → fmt ≠ .ifblk) :
    SpecialOpened cfg hw fmt dev before e before :=
  ⟨fun none block => absurd block (plain none),fun none => (if_neg (plain none)).symm,fun _ _ => rfl⟩

variable [NeZero n]

theorem yields_openi {i : Fin ninode} {fwrite : Bool} {post : Nat → Kernel n → Prop}
    (after : ∀ e tick opens busy unmatched, SpecialOpened cfg hw (s.inode i).iFmt (s.inode i).iRdev s.opens e opens →
      post e {s with tick,opens,busy,unmatched}) :
    Yields (openi cfg hw i fwrite) s post := by
  have stay : ∀ e tick, (e = 0 → (s.inode i).iFmt ≠ .ifblk) → post e {s with tick} :=
    fun e tick plain => after e tick s.opens s.busy s.unmatched (.unopened plain)
  have refuse : ∀ e, e ≠ 0 → post e s := fun e wrong => stay e s.tick fun none => absurd none wrong
  rw [openi]
  simp only [yields_bind,yields_get]
  cases format : (s.inode i).iFmt with
  | ifchr =>
    have plain : ∀ e, e = 0 → (s.inode i).iFmt ≠ .ifblk := fun _ _ => by simp [format]
    have answer : Yields (do let r ← respond hw; return r.errno) s post := by
      simp only [yields_bind,yields_respond,yields_pure]
      exact stay _ _ (plain _)
    refine .ite (fun _ => by simpa only [yields_pure] using refuse enxio (by decide)) fun _ => ?_
    refine .ite (fun _ => by simpa only [yields_pure] using refuse enxio (by decide)) fun _ => ?_
    refine .ite (fun _ => ?_) fun _ => answer
    refine .ite (fun _ => by simpa only [yields_pure] using refuse eperm (by decide)) fun _ => ?_
    refine .ite (fun _ => ?_) fun _ => answer
    refine .ite (fun _ => by simpa only [yields_pure] using refuse ebusy (by decide)) fun _ => ?_
    refine .ite (fun _ => by simpa only [yields_pure] using refuse eperm (by decide)) fun _ => answer
  | ifblk =>
    refine .ite (fun _ => by simpa only [yields_pure] using refuse enxio (by decide)) fun _ => ?_
    refine .ite (fun _ => by simpa only [yields_pure] using refuse enxio (by decide)) fun _ => ?_
    refine .ite (fun _ => by simpa only [yields_pure] using refuse eperm (by decide)) fun _ => ?_
    refine .ite (fun _ => by simpa only [yields_pure] using refuse ebusy (by decide)) fun _ => ?_
    refine yields_dOpen fun e tick opens busy opened => ?_
    refine after e tick opens busy _ ⟨fun none _ => opened.attached none,fun none => ?_,opened.failure⟩
    rw [if_pos format]
    exact opened.success none
  | _ =>
    simp only [yields_pure]
    exact stay 0 s.tick fun _ => by simp [format]

def referenced (new ip : Inode) : Inode := {taken new ip with iLocked := false}

def OpenFailed (hw : Nat → Response n) (s t : Kernel n) : Prop :=
  ∃ tick inode opens busy unmatched, t = {s with tick,inode,opens,busy,unmatched} ∧
    (∀ i, Kept (s.inode i) (inode i)) ∧ (Flawless hw → opens = s.opens)

def OpenEnded (cfg : Config) (hw : Nat → Response n) (s : Kernel n) (i : Fin ninode) (t : Kernel n) : Prop :=
  ∃ tick opens busy unmatched new, (s.inode i).iLocked = false ∧ (s.inode i).iMount = false ∧
    SpecialOpened cfg hw (referenced new (s.inode i)).iFmt (referenced new (s.inode i)).iRdev s.opens 0 opens ∧
    t = {s with
      tick,opens,busy,unmatched := unmatched
      inode := update s.inode i (referenced new (s.inode i))}

theorem yields_vnOpen {fwrite : Bool} : Yields (vnOpen cfg hw fwrite) s fun result t =>
      (∀ e, result = .error e → OpenFailed hw s t ∧ e ≠ 0) ∧ ∀ i, result = .ok i → OpenEnded cfg hw s i t := by
  rw [vnOpen]
  simp only [yields_bind]
  refine yields_namei (fun e wrong => ?_) fun i new locked covered => ?_
  · simp only [yields_pure]
    refine ⟨?_,by rintro _ ⟨⟩⟩
    rintro _ ⟨⟩
    exact ⟨⟨_,s.inode,s.opens,s.busy,s.unmatched,rfl,fun _ => .inl rfl,fun _ => rfl⟩,wrong⟩
  simp only [yields_bind,yields_respond]
  refine .ite (fun denied => ?_) fun _ => ?_
  · simp only [yields_bind]
    refine yields_iput fun tick => ?_
    simp only [yields_pure,update_self,update_idem]
    refine ⟨?_,by rintro _ ⟨⟩⟩
    rintro _ ⟨⟩
    obtain ⟨tick',inode,shape,kept⟩ := looked_iput (s := s) tick _ locked covered rfl
    exact ⟨⟨tick',inode,s.opens,s.busy,s.unmatched,shape,kept,fun _ => rfl⟩,denied⟩
  simp only [yields_bind,yields_setInode]
  refine yields_openi fun e tick opens busy unmatched opened => ?_
  simp only [update_self] at opened
  refine .ite (fun failed => ?_) fun fine => ?_
  · simp only [yields_bind]
    refine yields_iput fun tick' => ?_
    simp only [yields_pure,update_self,update_idem]
    refine ⟨?_,by rintro _ ⟨⟩⟩
    rintro _ ⟨⟩
    refine ⟨⟨tick',_,opens,busy,unmatched,rfl,fun j => ?_,fun flawless => opened.failure flawless failed⟩,failed⟩
    rcases eq_or_ne j i with rfl | other
    · rw [update_self]
      exact kept_released _ locked covered
    rw [update_of_ne other]
    exact .inl rfl
  · obtain rfl : e = 0 := not_not.mp fine
    simp only [yields_pure,update_self,update_idem]
    refine ⟨by rintro _ ⟨⟩,?_⟩
    rintro _ ⟨⟩
    exact ⟨tick,opens,busy,unmatched,new,locked,covered,opened,rfl⟩

def Copened (cfg : Config) (hw : Nat → Response n) (s : Kernel n) (e : Nat) (t : Kernel n) : Prop :=
  (e ≠ 0 ∧ t = s) ∨ ∃ fp lastf, (s.file fp).fCount = 0 ∧
    ((e ≠ 0 ∧ ∃ f u, f.fCount = 0 ∧ OpenFailed hw s u ∧ t = {u with lastf,file := update s.file fp f}) ∨
      e = 0 ∧ ∃ i u, OpenEnded cfg hw s i u ∧
        t = {u with lastf,file := update s.file fp ⟨1,some i,((u.inode i).iFmt,(u.inode i).iRdev)⟩})

theorem yields_copen {fwrite : Bool} : Yields (copen cfg hw fwrite) s (Copened cfg hw s) := by
  rw [copen,falloc]
  simp only [yields_bind,yields_get]
  split
  next =>
    simp only [yields_pure]
    exact .inl ⟨by decide,rfl⟩
  next fp found =>
    have free : (s.file fp).fCount = 0 := by simpa using List.find?_some found
    simp only [yields_bind,yields_setFile,yields_modify,yields_pure]
    refine yields_vnOpen.imp fun result t ended => ?_
    obtain ⟨failed,success⟩ := ended
    cases result with
    | error e =>
      obtain ⟨⟨tick,inode,opens,busy,unmatched,rfl,kept,same⟩,wrong⟩ := failed e rfl
      simp only [yields_bind,yields_setFile,yields_pure,update_self,update_idem]
      refine .inr ⟨fp,fp + 1,free,.inl ⟨wrong,_,_,?_,⟨tick,inode,opens,busy,unmatched,rfl,kept,same⟩,rfl⟩⟩
      rfl
    | ok i =>
      obtain ⟨tick,opens,busy,unmatched,new,locked,covered,opened,rfl⟩ := success i rfl
      simp only [yields_bind,yields_get,yields_setFile,yields_pure,update_self,update_idem]
      refine .inr ⟨fp,fp + 1,free,.inr ⟨rfl,i,_,⟨tick,opens,busy,unmatched,new,locked,covered,opened,rfl⟩,?_⟩⟩
      simp

end

def Aliased (k : Kernel n) (mode : Fmt) (dev : Dev) : Prop := ∃ fp, aliases k mode dev (k.file fp) = true

def Reached (k : Kernel n) (i : Fin ninode) : Prop :=
  (k.inode i).iFmt = .ifblk ∧ findMount k (mounted (k.inode i).iRdev) = none ∧ ¬ Aliased k .ifblk (k.inode i).iRdev

theorem yields_closei {i : Fin ninode} {opened : Fmt × Dev} : Yields (closei cfg i opened : Call n Unit) s fun _ t =>
      (Reached s i → t = {s with
        closes := s.closes ++ [⟨(.ifblk,(s.inode i).iRdev),opened⟩]
        opens := opensBefore cfg (s.inode i).iRdev s.opens
        unmatched := update s.unmatched (s.inode i).iRdev (s.unmatched (s.inode i).iRdev - 1)}) ∧
      (¬ Reached s i → t = s ∨ (s.inode i).iFmt = .ifchr ∧
      t = {s with closes := s.closes ++ [⟨(.ifchr,(s.inode i).iRdev),opened⟩]}) := by
  rw [closei]
  simp only [yields_bind,yields_get]
  cases format : (s.inode i).iFmt with
  | ifchr =>
    have other : ¬ Reached s i := fun reached => by simp [Reached,format] at reached
    refine .ite (fun _ => ?_) fun _ => ?_
    · rw [yields_pure]
      exact ⟨fun reached => absurd reached other,fun _ => .inl rfl⟩
    rw [yields_modify]
    exact ⟨fun reached => absurd reached other,fun _ => .inr ⟨rfl,rfl⟩⟩
  | ifblk =>
    refine .ite (fun used => ?_) fun unused => ?_
    · have other : ¬ Reached s i := fun reached => by simp [reached.2.1] at used
      rw [yields_pure]
      exact ⟨fun reached => absurd reached other,fun _ => .inl rfl⟩
    refine .ite (fun shared => ?_) fun alone => ?_
    · have other : ¬ Reached s i := fun reached => reached.2.2 (by simpa [Aliased] using shared)
      rw [yields_pure]
      exact ⟨fun reached => absurd reached other,fun _ => .inl rfl⟩
    have reached : Reached s i := ⟨format,Option.not_isSome_iff_eq_none.mp unused,fun aliased =>
      alone (by simpa [Aliased] using aliased)⟩
    simp only [yields_bind,yields_modify]
    refine yields_dClose fun e => ?_
    rw [yields_pure]
    exact ⟨fun _ => rfl,fun other => absurd reached other⟩
  | _ =>
    have other : ¬ Reached s i := fun reached => by simp [Reached,format] at reached
    rw [yields_pure]
    exact ⟨fun reached => absurd reached other,fun _ => .inl rfl⟩

def unreferenced (s : Kernel n) (fp : Fin nfile) (i : Fin ninode) (tick : Nat) : Kernel n := {s with
    tick
    file := update s.file fp {s.file fp with fData := none}
    inode := update s.inode i (released (s.mount (s.inode i).iFs).mFilsys.fsRonly (s.inode i))}

def Closed (cfg : Config) (s : Kernel n) (fp : Fin nfile) (i : Fin ninode) (tick : Nat) (opens : Nat → Nat)
    (closes : List Close) : Prop :=
  (Reached (unreferenced s fp i tick) i → opens = opensBefore cfg ((unreferenced s fp i tick).inode i).iRdev s.opens ∧
    closes = s.closes ++ [⟨(.ifblk,((unreferenced s fp i tick).inode i).iRdev),(s.file fp).opened⟩]) ∧
  (¬ Reached (unreferenced s fp i tick) i → opens = s.opens ∧
  (closes = s.closes ∨ ((unreferenced s fp i tick).inode i).iFmt = .ifchr ∧
      closes = s.closes ++ [⟨(.ifchr,((unreferenced s fp i tick).inode i).iRdev),(s.file fp).opened⟩]))

theorem yields_closef {fp : Fin nfile} {post : Unit → Kernel n → Prop} (shared : (s.file fp).fCount > 1 → post () {s with
      file := update s.file fp {s.file fp with fCount := (s.file fp).fCount - 1}})
    (last : ¬ (s.file fp).fCount > 1 → ∀ i tick opens unmatched closes, (s.file fp).fData = some i →
    Closed cfg s fp i tick opens closes →
      post () {unreferenced s fp i tick with
        opens,unmatched,closes := closes
        file := update s.file fp {s.file fp with fData := none,fCount := 0}}) :
    Yields (closef cfg hw fp) s post := by
  rw [closef]
  simp only [yields_bind,yields_get]
  refine .ite (fun more => ?_) fun single => ?_
  · simp only [yields_setFile]
    exact shared more
  rw [vnClosefile]
  simp only [yields_bind,yields_get]
  split
  next => simp
  next i data =>
    simp only [yields_bind,yields_setFile]
    refine yields_irele fun tick => ?_
    refine (yields_closei (s := unreferenced s fp i tick)).imp fun _ t closed => ?_
    have ended := fun opens unmatched closes => last single i tick opens unmatched closes data
    by_cases reached : Reached (unreferenced s fp i tick) i
    · obtain rfl := closed.1 reached
      have done := ended _ (update s.unmatched ((unreferenced s fp i tick).inode i).iRdev
        (s.unmatched ((unreferenced s fp i tick).inode i).iRdev - 1)) _ ⟨fun _ => ⟨rfl,rfl⟩,fun other => absurd reached other⟩
      simpa only [unreferenced,update_self,update_idem] using done
    rcases closed.2 reached with rfl | ⟨character,rfl⟩
    · have done := ended s.opens s.unmatched s.closes ⟨fun other => absurd other reached,fun _ => ⟨rfl,.inl rfl⟩⟩
      simpa only [unreferenced,update_self,update_idem] using done
    have done := ended s.opens s.unmatched _ ⟨fun other => absurd other reached,fun _ => ⟨rfl,.inr ⟨character,rfl⟩⟩⟩
    simpa only [unreferenced,update_self,update_idem] using done

end Retrobsd.Mounts

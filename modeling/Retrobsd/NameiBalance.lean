import Retrobsd.Namei

/-! What every way through `namei` has of locks, references and buffers when it ends. -/
namespace Retrobsd.Namei
open Lib.Hoare

section
variable {ι : Type} {env : Nat → View ι} {s : State ι}

/-- A state after calls that have come to hold `h`; an error is never taken back. -/
structure Moved (s : State ι) (h : Held ι) (t : State ι) : Prop where
  held : t.held = h
  error : s.uError ≠ 0 → t.uError ≠ 0
  ni : t.ni = s.ni

theorem Moved.refl (s : State ι) : Moved s s.held s := ⟨rfl,id,rfl⟩

variable {h : Held ι} {post : Unit → State ι → Prop} {ip : ι}

theorem Moved.trans {k : Held ι} {t u : State ι} (first : Moved s h t) (second : Moved t k u) : Moved s k u :=
  ⟨second.held,fun failed => second.error (first.error failed),second.ni.trans first.ni⟩

@[simp] theorem yields_view {post : View ι → State ι → Prop} : Yields (view env) s post ↔ post (env s.clock) s := by
  simp only [view,yields_bind,yields_get,yields_pure]

@[simp] theorem yields_pass :
    Yields (pass : Call ι Unit) s post ↔ post () {s with clock := s.clock + 1} := yields_modify

@[simp] theorem yields_gain :
    Yields (gain h) s post ↔ post () {s with held := s.held + h} := yields_modify

@[simp] theorem yields_lose :
    Yields (lose h) s post ↔ post () {s with held := s.held - h} := yields_modify

@[simp] theorem yields_fail {e : Errno} :
    Yields (fail e : Call ι Unit) s post ↔ post () {s with uError := e.val} := yields_modify

@[simp] theorem yields_report {e : Errno} :
    Yields (report e : Call ι Unit) s post ↔ post () {s with uError := if s.uError = 0 then e.val else s.uError} :=
  yields_modify

@[simp] theorem yields_setNi {f : Nameidata ι → Nameidata ι} :
    Yields (setNi f) s post ↔ post () {s with ni := f s.ni} := yields_modify

@[simp] theorem yields_isLocked {post : Bool → State ι → Prop} :
    Yields (isLocked env ip) s post ↔ post ((env s.clock).locked ip || decide (0 < s.held.1 ip)) s := by
  simp only [isLocked,yields_bind,yields_get,yields_pure]

theorem yields_when {c : Prop} [Decidable c] {a : Call ι Unit} (yes : c → Yields a s post) (no : ¬ c → post () s) :
    Yields (when c a) s post :=
  Yields.ite yes fun none => (yields_pure ()).mpr (no none)

theorem yields_bread {dev : Nat} {blkno : Int} {post : Option Symlinks.Memory → State ι → Prop}
    (after : ∀ m t, Moved s (s.held + bufOf) t → (m = none → t.uError ≠ 0) → post m t) :
    Yields (bread env dev blkno) s post := by
  simp only [bread,yields_bind,yields_gain,yields_pass,yields_view]
  cases (env (s.clock + 1)).disk dev blkno with
  | error e =>
    simp only [yields_bind,yields_report,yields_pure]
    have failed : (if s.uError = 0 then e.val else s.uError) ≠ 0 := by
      split_ifs with clear
      · exact e.property
      · exact clear
    exact after _ _ ⟨rfl,fun _ => failed,rfl⟩ fun _ => failed
  | ok m =>
    simp only [yields_pure]
    exact after _ _ ⟨rfl,id,rfl⟩ fun missing => absurd missing (Option.some_ne_none m)

theorem yields_brelse (after : post () {s with held := s.held - bufOf}) :
    Yields (brelse : Call ι Unit) s post := yields_lose.mpr after

theorem yields_iupdat (after : ∀ t, Moved s s.held t → post () t) : Yields (iupdat env ip) s post := by
  simp only [iupdat,yields_bind,yields_view]
  refine .ite (fun _ => ?_) fun _ => ?_
  · exact (yields_pure ()).mpr (after _ (Moved.refl s))
  simp only [yields_bind]
  refine yields_bread fun m t moved _ => yields_brelse ?_
  exact after _ (moved.trans ⟨by rw [moved.held,add_sub_cancel_right],id,rfl⟩)

theorem yields_reclaim (after : ∀ t, Moved s s.held t → post () t) : Yields (reclaim env ip) s post := by
  simp only [reclaim,yields_bind,yields_pass,yields_view]
  cases (env (s.clock + 1)).itrunc ip with
  | some e =>
    simp only [yields_report]
    refine after _ ⟨rfl,fun failed => ?_,rfl⟩
    simpa only [if_neg failed] using failed
  | none => exact (yields_pure ()).mpr (after _ ⟨rfl,id,rfl⟩)

theorem yields_bmap {lbn : Nat} {post : Int → State ι → Prop} (after : ∀ bn t, Moved s s.held t → post bn t) :
    Yields (bmap env ip lbn) s post := by
  simp only [bmap,yields_bind,yields_pass,yields_view]
  cases (env (s.clock + 1)).bmap ip lbn with
  | error e =>
    simp only [yields_bind,yields_fail,yields_pure]
    exact after _ _ ⟨rfl,fun _ => e.property,rfl⟩
  | ok bn => exact (yields_pure _).mpr (after _ _ ⟨rfl,id,rfl⟩)

theorem yields_blkatoff {offset : Nat} {post : Option Symlinks.Memory → State ι → Prop}
    (none : ∀ t, Moved s s.held t → (t.uError ≠ 0 ∨
        s.uError = 0 ∧ (env (s.clock + 1)).bmap ip (offset / 1024) = .ok (-1) ∧ t = {s with clock := s.clock + 1}) → post none t)
    (some : ∀ m t, Moved s (s.held + bufOf) t → post (some m) t) : Yields (blkatoff env ip offset) s post := by
  simp only [blkatoff,bmap,yields_bind,yields_pass,yields_view]
  cases block : (env (s.clock + 1)).bmap ip (offset / 1024) with
  | error e =>
    simp only [yields_bind,yields_fail,yields_pure,yields_get]
    refine .ite (fun _ => (yields_pure _).mpr ?_) fun clear => absurd e.property clear
    exact none _ ⟨rfl,fun _ => e.property,rfl⟩ (.inl e.property)
  | ok bn =>
    simp only [yields_pure,yields_get]
    refine .ite (fun failed => (yields_pure _).mpr (none _ ⟨rfl,id,rfl⟩ (.inl failed))) fun clear => ?_
    refine .ite (fun hole => (yields_pure _).mpr ?_) fun _ => ?_
    · exact none _ ⟨rfl,id,rfl⟩ (.inr ⟨not_not.mp clear,by rw [block,hole],rfl⟩)
    simp only [yields_bind,yields_view]
    refine yields_bread fun m t moved failed => ?_
    cases m with
    | none =>
      simp only [yields_bind]
      refine yields_brelse ((yields_pure _).mpr ?_)
      exact none _ ⟨by rw [moved.held]; exact add_sub_cancel_right _ _,moved.error,moved.ni⟩ (.inl (failed rfl))
    | some m => exact (yields_pure _).mpr (some m t ⟨moved.held,moved.error,moved.ni⟩)

def bufs (bp : Option Symlinks.Memory) : Held ι := if bp.isSome = true then bufOf else 0

theorem when_brelse (bp : Option Symlinks.Memory) :
    when (bp.isSome = true) brelse s = .ok ((),{s with held := s.held - bufs bp}) := by
  cases bp with
  | none => rw [bufs,if_neg nofun,sub_zero]; rfl
  | some m => rfl

theorem blkatoff_hole {offset : Nat} (clear : s.uError = 0) (hole : (env (s.clock + 1)).bmap ip (offset / 1024) = .ok (-1)) :
    blkatoff env ip offset s = .ok (none,{s with clock := s.clock + 1}) := by
  have mapped : bmap env ip (offset / 1024) s = .ok (-1,{s with clock := s.clock + 1}) := by
    refine (bind_ok (t := {s with clock := s.clock + 1}) rfl).trans ?_
    refine (bind_ok (a := env (s.clock + 1)) rfl).trans ?_
    rw [hole]
    rfl
  refine (bind_ok mapped).trans ((bind_ok (t := {s with clock := s.clock + 1}) rfl).trans ?_)
  rw [if_neg (not_not.mpr clear)]
  rfl

end

section
variable {ι : Type} [DecidableEq ι] {env : Nat → View ι} {s : State ι}

variable {ip : ι} {turns : Nat} {post : Unit → State ι → Prop}

theorem yields_ilock (after : ∀ t, Moved s (s.held + lockOf ip) t → post () t) : Yields (ilock env ip turns) s post := by
  induction turns generalizing s with
  | zero => exact yields_throw _
  | succ turns ih =>
    simp only [ilock,yields_bind,yields_isLocked]
    refine .ite (fun _ => ?_) fun _ => ?_
    · simp only [yields_bind,yields_pass]
      exact ih fun t moved => after t ⟨moved.held,moved.error,moved.ni⟩
    simp only [yields_gain]
    exact after _ ⟨rfl,id,rfl⟩

theorem yields_iunlock (after : post () {s with held := s.held - lockOf ip}) :
    Yields (iunlock ip) s post := yields_lose.mpr after

theorem yields_igrab (after : ∀ t, Moved s (s.held + lockOf ip + refOf ip) t → post () t) :
    Yields (igrab env turns ip) s post := by
  simp only [igrab,yields_bind]
  refine yields_ilock fun t moved => ?_
  simp only [yields_gain,yields_pass]
  exact after _ (moved.trans ⟨by rw [moved.held],id,rfl⟩)

theorem yields_irele (free : s.held.1 ip = 0 ∨ 2 ≤ s.held.2.1 ip)
    (after : ∀ t, Moved s (s.held - refOf ip) t → post () t) : Yields (irele env ip) s post := by
  simp only [irele,yields_bind,yields_view,yields_get]
  refine yields_when (fun last => ?_) fun _ => ?_
  · have unlocked : s.held.1 ip = 0 := free.resolve_right (by omega)
    have ended : ∀ t, Moved s s.held t → Yields (do
        iupdat env ip
        modify fun s => {s with held := (Function.update s.held.1 ip 0,s.held.2)}
        pass) t fun _ u => Yields (lose (refOf ip)) u post := by
      intro t moved
      simp only [yields_bind]
      refine yields_iupdat fun u next => ?_
      simp only [yields_modify,yields_pass,yields_lose]
      have same : (Function.update u.held.1 ip 0,u.held.2) = s.held := by
        rw [next.held,moved.held,← unlocked,Function.update_eq_self]
      exact after _ ((moved.trans next).trans ⟨by rw [same],id,rfl⟩)
    simp only [yields_bind]
    refine yields_when (fun _ => yields_reclaim fun t moved => ?_) fun _ => ?_
    · simpa only [yields_bind] using ended t moved
    · simpa only [yields_bind] using ended s (Moved.refl s)
  · exact yields_lose.mpr (after _ ⟨rfl,id,rfl⟩)

theorem yields_iput (locked : s.held.1 ip = 1 ∨ 2 ≤ s.held.2.1 ip)
    (after : ∀ t, Moved s (s.held - lockOf ip - refOf ip) t → post () t) : Yields (iput env ip) s post := by
  simp only [iput,yields_bind]
  refine yields_iunlock (yields_irele ?_ fun t moved => after t ⟨moved.held,moved.error,moved.ni⟩)
  refine locked.imp (fun one => ?_) fun two => ?_
  · simp [lockOf,one]
  · simpa [lockOf] using two

def Sound (h : Held ι) : Prop := ∀ ip, h.2.1 ip ≤ 0 → h.1 ip = 0

theorem yields_readInode {dev ino : Nat} {post : Option ι → State ι → Prop} (sound : Sound s.held)
    (none : ∀ t, Moved s s.held t → t.uError ≠ 0 → post none t)
    (some : ∀ ip t, s.held.1 ip ≤ 0 → Moved s (s.held + (lockOf ip + refOf ip)) t → post (some ip) t) :
    Yields (readInode env dev ino) s post := by
  simp only [readInode,yields_bind,yields_view]
  cases (env s.clock).ifreeh with
  | none =>
    simp only [yields_bind,yields_fail,yields_pure]
    exact none _ ⟨rfl,fun _ => enfile.property,rfl⟩ enfile.property
  | some ip =>
    simp only [yields_bind,yields_get]
    refine .ite (fun _ => yields_throw _) fun unused => ?_
    have untaken : s.held.2.1 ip ≤ 0 := by omega
    simp only [yields_bind,yields_gain]
    refine yields_bread fun m t moved failed => yields_brelse ?_
    have read : Moved s (s.held + (lockOf ip + refOf ip)) {t with held := t.held - bufOf} :=
      ⟨by rw [moved.held]; exact add_sub_cancel_right _ _,moved.error,moved.ni⟩
    cases m with
    | none =>
      simp only [yields_bind]
      refine yields_iput (.inl ?_) fun u next => (yields_pure _).mpr ?_
      · rw [read.held]
        simp [lockOf,refOf,sound ip untaken]
      have moved := read.trans next
      exact none u ⟨by rw [moved.held,read.held]; abel,moved.error,moved.ni⟩ (next.error (failed rfl))
    | some _ => exact (yields_pure _).mpr (some ip _ (sound ip untaken).le read)

theorem yields_iget {dev ino : Nat} {post : Option ι → State ι → Prop} (sound : Sound s.held)
    (none : ∀ t, Moved s s.held t → t.uError ≠ 0 → post none t)
    (some : ∀ ip t, s.held.1 ip ≤ 0 → Moved s (s.held + (lockOf ip + refOf ip)) t → post (some ip) t) :
    Yields (iget env turns dev ino) s post := by
  induction turns generalizing s dev ino with
  | zero => exact yields_throw _
  | succ turns ih =>
    simp only [iget,yields_bind,yields_view]
    split
    · rename_i ip _
      simp only [yields_bind,yields_isLocked]
      refine .ite (fun _ => ?_) fun free => ?_
      · simp only [yields_bind,yields_pass]
        exact ih sound (fun t moved => none t ⟨moved.held,moved.error,moved.ni⟩)
          fun ip t unlocked moved => some ip t unlocked ⟨moved.held,moved.error,moved.ni⟩
      refine .ite (fun _ => ?_) fun _ => ?_
      · split
        · exact ih sound none some
        · exact yields_throw _
      simp only [yields_bind,yields_gain,yields_pass,yields_pure]
      refine some ip _ ?_ ⟨rfl,id,rfl⟩
      have free : ¬ 0 < s.held.1 ip := by
        intro locked
        simp [locked] at free
      omega
    · exact yields_readInode sound none some

end

section
variable {ι : Type} [DecidableEq ι] {env : Nat → View ι} {nd : Request ι} {turns : Nat} {s : State ι} {x : Vars ι}

/-- What a call keeps. Without an error, no inode is the answer only of `CREATE`, to a name that is
not there. The parent is locked as well where the entry is to be changed. -/
def Balanced (nd : Request ι) : Option ι → State ι → Prop
  | none,s =>
    (s.uError ≠ 0 → s.held = 0) ∧ (s.uError = 0 →
        if nd.op = .create then ∃ p, s.ni.niPdir = some p ∧ s.held = lockOf p + refOf p else s.held = 0)
  | some ip,s =>
    if nd.lockparent = true then
      ∃ p, s.ni.niPdir = some p ∧ s.held = lockOf ip + refOf ip + refOf p + if nd.op ≠ .lookup ∧ p ≠ ip then lockOf p else 0
    else s.held = lockOf ip + refOf ip ∧ (nd.op = .delete → s.ni.niPdir = some ip)

/-- `CREATE` meets a hole in a directory and gives up without an error, or it is told the place of a
new entry although there has been an error. -/
def Slips (env : Nat → View ι) (nd : Request ι) : Label ι → Vars ι → State ι → Prop
  | .searchloop _ d,x,s =>
    nd.op = .create ∧ (d.s.niOffset : Int) < d.endsearch ∧ d.s.niOffset % 1024 = 0 ∧ s.uError = 0 ∧
      (env (s.clock + 1)).bmap x.dp (d.s.niOffset / 1024) = .ok (-1) ∧
      ∃ t, iput env x.dp {s with clock := s.clock + 1,held := s.held - bufs d.bp} = .ok ((),t) ∧ t.uError = 0
  | .notfound _ d,x,s =>
    nd.op = .create ∧ d.numdirpasses ≠ 2 ∧ x.last ∧ ((env s.clock).inode x.dp).iNlink ≠ 0 ∧
      access nd ((env s.clock).inode x.dp) iwrite = none ∧ s.uError ≠ 0
  | _,_,_ => False

def Fair (env : Nat → View ι) (nd : Request ι) (turns : Nat) : Nat → Label ι → Vars ι → State ι → Prop
  | 0,_,_,_ => True
  | n + 1,l,x,s =>
    ¬ Slips env nd l x s ∧
      match step env nd turns l x s with
      | .ok (.goto l x,s) => Fair env nd turns n l x s
      | _ => True

def Ended (x : Vars ι) : Prop := x.last ∨ x.memory x.cp = Symlinks.slash

def Walked (nd : Request ι) : Label ι → Vars ι → State ι → Prop
  | .dirloop,x,s => s.held = lockOf x.dp + refOf x.dp
  | .dirloop2,x,s => s.held = lockOf x.dp + refOf x.dp
  | .search _,x,s => s.held = lockOf x.dp + refOf x.dp ∧ Ended x
  | .searchloop _ d,x,s => s.held = lockOf x.dp + refOf x.dp + bufs d.bp ∧ Ended x
  | .notfound _ d,x,s => s.held = lockOf x.dp + refOf x.dp + bufs d.bp ∧ Ended x
  | .found _ _ _,x,s => s.held = lockOf x.dp + refOf x.dp + bufOf ∧ Ended x
  | .haveino pdp,x,s =>
    s.held = lockOf x.dp + refOf x.dp + refOf pdp ∧
      (x.memory x.cp ≠ Symlinks.slash → nd.op ≠ .delete ∧ ¬ (nd.op = .create ∧ nd.lockparent = true))

def Good (nd : Request ι) : Next ι → State ι → Prop
  | .goto l x,s => Walked nd l x s
  | .retNULL,s => Balanced nd none s
  | .retDP dp,s => Balanced nd (some dp) s

theorem sound_locked (dp : ι) : Sound (lockOf dp + refOf dp) := by
  intro ip none
  by_cases same : ip = dp
  · subst same
    simp [lockOf,refOf] at none
  · simp [lockOf,refOf,same]

theorem sound_referenced (dp : ι) : Sound (refOf dp) := fun _ _ => rfl

theorem balanced_nothing (nothing : s.held = 0) (told : s.uError ≠ 0 ∨ nd.op ≠ .create) : Balanced nd none s := by
  refine ⟨fun _ => nothing,fun clear => ?_⟩
  rw [if_neg (told.resolve_left (not_not.mpr clear))]
  exact nothing

variable {dp pdp : ι} {c : Component} {m : Symlinks.Memory} {d : Scan} {ino : Nat} {l : Label ι}

theorem yields_bad {bp : Bool} (holds : s.held = lockOf dp + refOf dp + if bp = true then bufOf else 0)
    (told : s.uError ≠ 0 ∨ nd.op ≠ .create) : Yields (bad env bp (some dp)) s (Good nd) := by
  have final : ∀ u : State ι, u.held = lockOf dp + refOf dp → (u.uError ≠ 0 ∨ nd.op ≠ .create) →
      Yields (iput env dp) u fun _ t => Yields (pure Next.retNULL : Call ι (Next ι)) t (Good nd) := by
    intro u holds told
    refine yields_iput (.inl (by rw [holds]; simp [lockOf,refOf])) fun t moved => (yields_pure _).mpr ?_
    exact balanced_nothing (by rw [moved.held,holds]; abel) (told.imp_left moved.error)
  simp only [bad,yields_bind]
  refine yields_when (fun read => yields_brelse ?_) fun unread => ?_
  · refine final _ ?_ told
    simp only [holds,if_pos read,add_sub_cancel_right]
  refine final _ ?_ told
  rw [holds,if_neg unread,add_zero]

theorem yields_bad_none (nothing : s.held = 0) (told : s.uError ≠ 0 ∨ nd.op ≠ .create) :
    Yields (bad env false none) s (Good nd) := by
  simp only [bad,yields_bind]
  exact yields_when (fun bad => absurd bad Bool.false_ne_true) fun _ => (yields_pure _).mpr (balanced_nothing nothing told)

section
variable (holds : s.held = lockOf dp + refOf dp)
include holds

theorem yields_lost (failed : s.uError ≠ 0) : Yields (do
      iput env dp
      bad env false none) s (Good nd) := by
  simp only [yields_bind]
  refine yields_iput (.inl (by rw [holds]; simp [lockOf,refOf])) fun t moved => ?_
  refine yields_bad_none ?_ (.inl (moved.error failed))
  rw [moved.held,holds]
  abel

theorem yields_failed (told : s.uError ≠ 0 ∨ nd.op ≠ .create) :
    Yields (bad env false (some dp)) s (Good nd) := yields_bad (by rw [holds]; exact (add_zero _).symm) told

theorem iput_moved {t : State ι} (done : iput env dp s = .ok ((),t)) : Moved s 0 t := by
  have moved : Yields (iput env dp) s fun _ t => Moved s 0 t := by
    refine yields_iput (.inl (by rw [holds]; simp [lockOf,refOf])) fun u moved => ⟨?_,moved.error,moved.ni⟩
    rw [moved.held,holds]
    abel
  exact moved () t done

theorem yields_reported (told : ∀ t, iput env dp s = .ok ((),t) → t.uError ≠ 0) :
    Yields (bad env false (some dp)) s (Good nd) := by
  simp only [bad,yields_bind]
  refine yields_when (fun bad => absurd bad Bool.false_ne_true) fun _ => ?_
  intro _ t done
  exact (yields_pure _).mpr (balanced_nothing (iput_moved holds done).held (.inl (told t done)))

end

theorem twice (holds : s.held = lockOf dp + refOf dp + refOf pdp) : s.held.1 pdp = 0 ∨ 2 ≤ s.held.2.1 pdp := by
  by_cases same : pdp = dp
  · right
    rw [holds,same]
    simp [lockOf,refOf]
  left
  rw [holds]
  simp [lockOf,refOf,same]

theorem yields_bad2 (holds : s.held = lockOf dp + refOf dp + refOf pdp) (failed : s.uError ≠ 0) :
    Yields (bad2 env pdp (some dp)) s (Good nd) := by
  simp only [bad2,yields_bind]
  refine yields_irele (twice holds) fun t moved => yields_failed ?_ (.inl (moved.error failed))
  rw [moved.held,holds,add_sub_cancel_right]

theorem yields_bad2_none (holds : s.held = refOf pdp) (failed : s.uError ≠ 0) : Yields (bad2 env pdp none) s (Good nd) := by
  simp only [bad2,yields_bind]
  refine yields_irele (.inl (by rw [holds]; rfl)) fun t moved => yields_bad_none ?_ (.inl (moved.error failed))
  rw [moved.held,holds,sub_self]

theorem good_dirloop (walked : Walked nd .dirloop x s) : Yields (dirloop env nd x) s (Good nd) := by
  have walked : s.held = lockOf x.dp + refOf x.dp := walked
  simp only [dirloop,yields_bind,yields_view]
  refine .ite (fun _ => ?_) fun _ => ?_
  · simp only [yields_bind,yields_fail]
    exact yields_failed walked (.inl enotdir.property)
  cases access nd ((env s.clock).inode x.dp) iexec with
  | some e =>
    simp only [yields_bind,yields_fail]
    exact yields_failed walked (.inl e.property)
  | none => exact (yields_pure _).mpr walked

theorem good_verify {ncp : Nat} (ended : Ended x) (kept : c.makeentry = true → x.last → nd.docache = true)
    (made : c.makeentry = true)
    (holds : s.held = lockOf dp + refOf dp + refOf pdp) :
    Yields (verify env turns c x ncp pdp dp) s (Good nd) := by
  simp only [verify,yields_bind,yields_view]
  cases ((env s.clock).namecache ncp).ncIp with
  | none => exact yields_throw _
  | some ip =>
    refine .ite (fun _ => ?_) fun _ => ?_
    · simp only [yields_bind]
      refine yields_iput (.inl (by rw [holds]; simp [lockOf,refOf])) fun t moved => ?_
      refine yields_ilock fun u next => ?_
      simp only [yields_pass,yields_pure]
      exact ⟨by rw [next.held,moved.held,holds]; abel,ended⟩
    simp only [yields_bind,yields_setNi,yields_pure]
    refine ⟨holds,fun other => ?_⟩
    have docache := kept made (ended.resolve_right other)
    simp only [Request.docache,Bool.and_eq_true,decide_eq_true_eq,Bool.not_eq_true'] at docache
    exact ⟨docache.1.2,fun create => by simp [docache.2] at create⟩

theorem good_hit {ncp : Nat} {ip : ι} (ended : Ended x) (kept : c.makeentry = true → x.last → nd.docache = true)
    (made : c.makeentry = true)
    (holds : s.held = lockOf x.dp + refOf x.dp) :
    Yields (hit env nd turns c x ncp ip) s (Good nd) := by
  rw [hit]
  generalize (if (!c.isdotdot || decide (nd.uRdir ≠ some x.dp)) = true then ip else x.dp) = dp
  refine .ite (fun same => ?_) fun _ => .ite (fun _ => ?_) fun _ => ?_
  · simp only [yields_bind,yields_gain]
    exact good_verify ended kept made (by rw [← same,holds])
  · simp only [yields_bind]
    refine yields_iunlock (yields_igrab fun t moved => good_verify ended kept made ?_)
    simp only [moved.held,holds]
    abel
  · simp only [yields_bind]
    refine yields_igrab fun t moved => yields_iunlock (good_verify ended kept made ?_)
    simp only [moved.held,holds]
    abel

theorem good_lookCache (ended : Ended x) (kept : c.makeentry = true → x.last → nd.docache = true)
    (holds : s.held = lockOf x.dp + refOf x.dp) : Yields (lookCache env nd turns c x) s (Good nd) := by
  simp only [lookCache,yields_bind,yields_view]
  split
  · exact (yields_pure _).mpr ⟨holds,ended⟩
  split
  · exact yields_throw _
  refine .ite (fun _ => ?_) fun useful => ?_
  · simp only [yields_bind,yields_pass,yields_pure]
    exact ⟨holds,ended⟩
  push Not at useful
  exact good_hit ended kept (by simpa using useful.2) holds

theorem component_ends {delete : Bool} {cp left behind : Nat} {name : Directory.Name}
    (copied : component delete m cp left = .ok (name,behind)) : m behind = 0 ∨ m behind = Symlinks.slash := by
  induction left generalizing cp name with
  | zero =>
    unfold component at copied
    split_ifs at copied with stops
    cases copied
    exact stops
  | succ left ih =>
    unfold component at copied
    split_ifs at copied with stops wrong
    · cases copied
      exact stops
    split at copied
    · cases copied
    rename_i rest
    cases copied
    exact ih rest

theorem good_dirloop2 (walked : Walked nd .dirloop2 x s) : Yields (dirloop2 env nd turns x) s (Good nd) := by
  have walked : s.held = lockOf x.dp + refOf x.dp := walked
  rw [dirloop2]
  split
  · rename_i e _
    simp only [yields_bind,yields_fail]
    exact yields_failed walked (.inl e.property)
  rename_i name cp copied
  have ended : Ended {x with cp} := component_ends copied
  simp only [yields_bind,yields_setNi]
  refine .ite (fun _ => .ite (fun _ => ?_) fun plain => ?_) fun _ => .ite (fun _ => ?_) fun _ => ?_
  · simp only [yields_bind,yields_fail]
    exact yields_failed walked (.inl eisdir.property)
  · push Not at plain
    refine (yields_pure _).mpr ?_
    rw [Good,Balanced,if_neg plain.2]
    exact ⟨walked,fun delete => by simp [plain.1] at delete⟩
  · exact (yields_pure _).mpr ⟨walked,ended⟩
  · refine good_lookCache ended (fun made last => ?_) walked
    by_contra none
    simp [last,none] at made

theorem good_search (walked : Walked nd (.search c) x s) : Yields (search env nd c x) s (Good nd) := by
  obtain ⟨holds,ended⟩ := walked
  have none : s.held = lockOf x.dp + refOf x.dp + bufs none := holds.trans (add_zero _).symm
  simp only [search,yields_bind,yields_view,yields_get]
  refine .ite (fun _ => (yields_pure _).mpr ⟨none,ended⟩) fun again => ?_
  push Not at again
  have other : nd.op ≠ .create := by rw [again.1]; decide
  simp only [yields_bind,yields_modify]
  refine .ite (fun _ => ?_) fun _ => (yields_pure _).mpr ⟨none,ended⟩
  simp only [yields_bind]
  refine yields_blkatoff (fun t moved _ => yields_failed (moved.held.trans holds) (.inr other)) fun m t moved => ?_
  simp only [yields_view,yields_bind,yields_pure]
  exact ⟨by rw [moved.held]; exact congrArg (· + bufOf) holds,ended⟩

theorem walked_examine {dirchk : Bool}
    (holds : s.held = lockOf x.dp + refOf x.dp + bufOf) (ended : Ended x) : Walked nd (examine dirchk c d m) x s := by
  unfold examine
  extract_lets a b i e
  split_ifs <;> exact ⟨holds,ended⟩

theorem good_searchloop (walked : Walked nd (.searchloop c d) x s)
    (straight : ¬ Slips env nd (.searchloop c d) x s) : Yields (searchloop env c d x) s (Good nd) := by
  obtain ⟨holds,ended⟩ := walked
  rw [searchloop]
  refine .ite (fun before => .ite (fun boundary => ?_) fun _ => ?_) fun _ => (yields_pure _).mpr ⟨holds,ended⟩
  · have holds' : s.held - bufs d.bp = lockOf x.dp + refOf x.dp := by rw [holds,add_sub_cancel_right]
    have next (k : Option Symlinks.Memory → Call ι (Next ι)) (missing : k none = bad env false (some x.dp))
        (read : ∀ m, k (some m) = do return .goto (examine (← view env).dirchk c d m) x) (u : State ι)
        (u_eq : u = {s with held := s.held - bufs d.bp}) :
        Yields (blkatoff env x.dp d.s.niOffset) u fun m t => Yields (k m) t (Good nd) := by
      subst u_eq
      refine yields_blkatoff (fun t moved why => ?_) fun m t moved => ?_
      · have held := moved.held.trans holds'
        rw [missing]
        rcases why with failed | ⟨clear,hole,rfl⟩
        · exact yields_failed held (.inl failed)
        by_cases create : nd.op = .create
        · refine yields_reported held fun t done silent => straight ?_
          exact ⟨create,before,boundary,clear,hole,t,done,silent⟩
        · exact yields_failed held (.inr create)
      · simp only [read,yields_bind,yields_view,yields_pure]
        exact walked_examine (by rw [moved.held,← holds']) ended
    simp only [yields_bind]
    refine yields_when (fun read => yields_brelse (next _ rfl (fun _ => rfl) _ ?_)) fun unread => next _ rfl (fun _ => rfl) _ ?_
    · rw [bufs,if_pos read]
    · rw [bufs,if_neg unread,sub_zero]
  · cases block : d.bp with
    | none => exact yields_throw _
    | some m =>
      simp only [yields_bind,yields_view,yields_pure]
      exact walked_examine (by rw [holds,bufs,block]; rfl) ended

theorem good_notfound (walked : Walked nd (.notfound c d) x s)
    (straight : ¬ Slips env nd (.notfound c d) x s) : Yields (notfound env nd c d x) s (Good nd) := by
  obtain ⟨holds,ended⟩ := walked
  rw [notfound]
  refine .ite (fun _ => ?_) fun once => ?_
  · simp only [yields_bind,yields_get,yields_pure]
    exact ⟨holds,ended⟩
  simp only [yields_bind,yields_view]
  refine .ite (fun missing => ?_) fun _ => ?_
  · obtain ⟨create,last,linked⟩ := missing
    cases granted : access nd ((env s.clock).inode x.dp) iwrite with
    | some e =>
      simp only [yields_bind,yields_fail]
      exact yields_bad holds (.inl e.property)
    | none =>
      have clear : s.uError = 0 := by
        by_contra failed
        exact straight ⟨create,once,last,linked,granted,failed⟩
      have final : ∀ u : State ι, u.held = lockOf x.dp + refOf x.dp → u.uError = s.uError →
          Good nd .retNULL {u with ni := {u.ni with niPdir := some x.dp}} := by
        intro u holds uError
        refine ⟨fun failed => absurd (uError.trans clear) failed,fun _ => ?_⟩
        rw [if_pos create]
        exact ⟨x.dp,rfl,holds⟩
      simp only [yields_bind,yields_setNi,yields_pass,yields_pure]
      refine yields_when (fun read => yields_brelse (final _ ?_ rfl)) fun unread => final _ ?_ rfl
      · simp only [holds,bufs,if_pos read,add_sub_cancel_right]
      · simp only [holds,bufs,if_neg unread,add_zero]
  · simp only [yields_bind,yields_fail]
    exact yields_bad holds (.inl enoent.property)

theorem other_inode {ip : ι} (holds : s.held = lockOf dp + refOf dp) (unlocked : s.held.1 ip ≤ 0) : dp ≠ ip := by
  rintro rfl
  rw [holds] at unlocked
  simp [lockOf,refOf] at unlocked

theorem good_foundDelete (delete : nd.op = .delete) (holds : s.held = lockOf x.dp + refOf x.dp) :
    Yields (foundDelete env nd turns d ino x) s (Good nd) := by
  simp only [foundDelete,yields_bind,yields_view]
  cases access nd ((env s.clock).inode x.dp) iwrite with
  | some e =>
    simp only [yields_bind,yields_fail]
    exact yields_failed holds (.inl e.property)
  | none =>
    simp only [yields_bind,yields_setNi]
    refine .ite (fun lockparent => .ite (fun _ => ?_) fun _ => ?_) fun alone => ?_
    · simp only [yields_bind,yields_gain,yields_pure]
      rw [Good,Balanced,if_pos lockparent]
      refine ⟨x.dp,rfl,?_⟩
      simp [holds]
    · simp only [yields_bind]
      refine yields_iget (by rw [holds]; exact sound_locked x.dp) (fun t moved failed => ?_) fun ip t unlocked moved => ?_
      · exact yields_lost (moved.held.trans holds) failed
      have other := other_inode holds unlocked
      have held : t.held = lockOf x.dp + refOf x.dp + (lockOf ip + refOf ip) := by rw [moved.held,holds]
      simp only [yields_bind,yields_view]
      refine .ite (fun _ => ?_) fun _ => (yields_pure _).mpr ?_
      · simp only [yields_bind]
        refine yields_iput (.inl (by rw [held]; simp [lockOf,refOf,other])) fun u next => ?_
        simp only [yields_fail]
        refine yields_failed ?_ (.inl eperm.property)
        rw [next.held,held]
        abel
      · rw [Good,Balanced,if_pos lockparent]
        refine ⟨x.dp,by rw [moved.ni],?_⟩
        rw [held,if_pos ⟨by rw [delete]; decide,other⟩]
        abel
    · refine (yields_pure _).mpr ?_
      rw [Good,Balanced,if_neg alone]
      exact ⟨holds,fun _ => rfl⟩

theorem good_foundRewrite (create : nd.op = .create) (lockparent : nd.lockparent = true)
    (holds : s.held = lockOf x.dp + refOf x.dp) : Yields (foundRewrite env nd turns ino x) s (Good nd) := by
  simp only [foundRewrite,yields_bind,yields_view]
  cases access nd ((env s.clock).inode x.dp) iwrite with
  | some e =>
    simp only [yields_bind,yields_fail]
    exact yields_failed holds (.inl e.property)
  | none =>
    simp only [yields_bind,yields_setNi]
    refine .ite (fun _ => ?_) fun _ => ?_
    · simp only [yields_bind,yields_fail]
      exact yields_failed holds (.inl eisdir.property)
    simp only [yields_bind]
    refine yields_iget (by rw [holds]; exact sound_locked x.dp) (fun t moved failed => ?_) fun ip t unlocked moved => ?_
    · exact yields_lost (moved.held.trans holds) failed
    refine (yields_pure _).mpr ?_
    rw [Good,Balanced,if_pos lockparent]
    refine ⟨x.dp,by rw [moved.ni],?_⟩
    rw [moved.held,if_pos ⟨by rw [create]; decide,other_inode holds unlocked⟩]
    simp only [holds]
    abel

def Through (nd : Request ι) (x : Vars ι) : Prop := x.last → nd.op ≠ .delete ∧ ¬ (nd.op = .create ∧ nd.lockparent = true)

theorem good_enter (holds : s.held = lockOf x.dp + refOf x.dp + refOf pdp)
    (through : x.memory x.cp ≠ Symlinks.slash → nd.op ≠ .delete ∧ ¬ (nd.op = .create ∧ nd.lockparent = true)) :
    Yields (enter c pdp x) s (Good nd) := by
  simp only [enter,yields_bind,yields_pure]
  refine yields_when (fun _ => ?_) fun _ => ⟨holds,through⟩
  exact yields_pass.mpr ⟨holds,through⟩

theorem good_descend (ended : Ended x) (through : Through nd x)
    (holds : s.held = lockOf x.dp + refOf x.dp) : Yields (descend env turns c ino x) s (Good nd) := by
  have goesOn := fun other => through (ended.resolve_right other)
  simp only [descend,yields_bind,yields_view]
  refine .ite (fun _ => ?_) fun _ => .ite (fun _ => ?_) fun _ => ?_
  · simp only [yields_bind]
    refine yields_iunlock ?_
    have alone : s.held - lockOf x.dp = refOf x.dp := by rw [holds]; abel
    refine yields_iget (by rw [alone]; exact sound_referenced x.dp) (fun t moved failed => ?_) fun ip t _ moved => ?_
    · exact yields_bad2_none (moved.held.trans alone) failed
    refine good_enter ?_ goesOn
    rw [moved.held,alone]
    abel
  · simp only [yields_bind,yields_gain]
    exact good_enter (by rw [holds]) goesOn
  · simp only [yields_bind]
    refine yields_iget (by rw [holds]; exact sound_locked x.dp) (fun t moved failed => ?_) fun ip t _ moved => ?_
    · refine yields_iunlock (yields_bad2_none ?_ failed)
      simp only [moved.held,holds]
      abel
    refine yields_iunlock (good_enter ?_ goesOn)
    simp only [moved.held,holds]
    abel

theorem good_proceed (ended : Ended x) (kept : ¬ (nd.op = .delete ∧ x.last))
    (holds : s.held = lockOf x.dp + refOf x.dp) : Yields (proceed env nd turns c ino x) s (Good nd) := by
  rw [proceed]
  refine .ite (fun rewrite => ?_) fun other => ?_
  · exact good_foundRewrite rewrite.1 rewrite.2.1 holds
  refine good_descend ended (fun last => ?_) holds
  exact ⟨fun delete => kept ⟨delete,last⟩,fun create => other ⟨create.1,create.2,last⟩⟩

theorem good_climb {k : Nat} (holds : s.held = lockOf x.dp + refOf x.dp) : Yields (climb env turns k x) s (Good nd) := by
  simp only [climb,yields_bind]
  refine yields_iput (.inl (by rw [holds]; simp [lockOf,refOf])) fun t moved => ?_
  simp only [yields_view]
  cases ((env t.clock).mount k).mInodp with
  | none => exact yields_throw _
  | some dp =>
    simp only [yields_bind]
    refine yields_ilock fun u next => ?_
    simp only [yields_gain,yields_pure]
    have none : t.held = 0 := by rw [moved.held,holds]; abel
    exact (by rw [next.held,none,zero_add] : u.held + refOf dp = lockOf dp + refOf dp)

theorem good_dotdot (ended : Ended x) (kept : ¬ (nd.op = .delete ∧ x.last))
    (holds : s.held = lockOf x.dp + refOf x.dp) : Yields (dotdot env nd turns c ino x) s (Good nd) := by
  simp only [dotdot,yields_bind,yields_view]
  refine .ite (fun _ => ?_) fun _ => .ite (fun _ => ?_) fun _ => good_proceed ended kept holds
  · simp only [yields_bind,yields_setNi]
    exact good_proceed ended kept holds
  split
  · exact good_climb holds
  · exact good_proceed ended kept holds

theorem good_settle (ended : Ended x) (holds : s.held = lockOf x.dp + refOf x.dp) :
    Yields (settle env nd turns c d ino x) s (Good nd) := by
  rw [settle]
  refine .ite (fun delete => good_foundDelete delete.1 holds) fun kept => ?_
  exact .ite (fun _ => good_dotdot ended kept holds) fun _ => good_proceed ended kept holds

theorem good_found (walked : Walked nd (.found c d m) x s) : Yields (found env nd turns c d m x) s (Good nd) := by
  obtain ⟨holds,ended⟩ := walked
  have final : ∀ u : State ι, u.held = s.held →
      Yields (settle env nd turns c d (dIno m d.s.entryoffsetinblock) x) {u with held := u.held - bufOf} (Good nd) :=
    fun u same => good_settle ended (by simp only [same,holds,add_sub_cancel_right])
  simp only [found,yields_bind,yields_view,yields_setNi]
  refine yields_when (fun _ => yields_pass.mpr ?_) fun _ => ?_
  · refine yields_when (fun _ => yields_modify.mpr ?_) fun _ => ?_ <;> exact yields_brelse (final _ rfl)
  · refine yields_when (fun _ => yields_modify.mpr ?_) fun _ => ?_ <;> exact yields_brelse (final _ rfl)

theorem good_restart (holds : s.held = refOf pdp) : Yields (restart env nd turns pdp x) s (Good nd) := by
  rw [restart]
  refine .ite (fun _ => ?_) fun _ => ?_
  · simp only [yields_bind]
    refine yields_irele (.inl (by rw [holds]; rfl)) fun t moved => ?_
    have none : t.held = 0 := by rw [moved.held,holds,sub_self]
    split
    · exact yields_throw _
    simp only [yields_bind]
    refine yields_ilock fun u next => ?_
    simp only [yields_gain,yields_pure]
    exact (by rw [next.held,none,zero_add] : u.held + refOf nd.top = lockOf nd.top + refOf nd.top)
  · simp only [yields_bind]
    refine yields_ilock fun u next => (yields_pure _).mpr ?_
    exact (by rw [next.held,holds,add_comm] : u.held = lockOf pdp + refOf pdp)

theorem good_expand {pathlen : Nat} (holds : s.held = lockOf x.dp + refOf x.dp + refOf pdp) :
    Yields (expand env nd turns pdp pathlen x) s (Good nd) := by
  simp only [expand,yields_bind,yields_view]
  refine .ite (fun _ => ?_) fun _ => .ite (fun _ => ?_) fun _ => ?_
  · simp only [yields_bind,yields_fail]
    exact yields_bad2 holds enametoolong.property
  · simp only [yields_bind,yields_fail]
    exact yields_bad2 holds eloop.property
  simp only [yields_bind]
  refine yields_bmap fun bn t moved => yields_bread fun m u next failed => ?_
  have held : u.held - bufOf = lockOf x.dp + refOf x.dp + refOf pdp := by
    rw [next.held,moved.held,holds,add_sub_cancel_right]
  cases m with
  | none =>
    simp only [yields_bind]
    exact yields_brelse (yields_bad2 held (failed rfl))
  | some block =>
    simp only [yields_bind,yields_view]
    refine yields_brelse (yields_iput (.inl ?_) fun v last => good_restart ?_)
    · simp only [held]
      simp [lockOf,refOf]
    rw [last.held]
    simp only [held]
    abel

theorem good_haveino (walked : Walked nd (.haveino pdp) x s) : Yields (haveino env nd turns pdp x) s (Good nd) := by
  obtain ⟨holds,through⟩ := walked
  have alone : s.held - refOf pdp = lockOf x.dp + refOf x.dp := by rw [holds,add_sub_cancel_right]
  simp only [haveino,yields_bind,yields_view]
  refine .ite (fun _ => ?_) fun _ => .ite (fun _ => ?_) fun other => ?_
  · split
    · exact yields_throw _
    · exact good_expand holds
  · split
    · exact yields_throw _
    simp only [yields_bind]
    refine yields_irele (twice holds) fun t moved => (yields_pure _).mpr ?_
    exact moved.held.trans alone
  rw [answer]
  refine .ite (fun lockparent => ?_) fun plain => ?_
  · simp only [yields_bind,yields_setNi,yields_pure]
    rw [Good,Balanced,if_pos lockparent]
    have lookup : nd.op = .lookup := by
      cases op : nd.op with
      | lookup => rfl
      | create => exact absurd ⟨op,lockparent⟩ (through other).2
      | delete => exact absurd op (through other).1
    exact ⟨pdp,rfl,by simp [holds,lookup]⟩
  · simp only [yields_bind]
    refine yields_irele (twice holds) fun t moved => (yields_pure _).mpr ?_
    rw [Good,Balanced,if_neg plain]
    exact ⟨moved.held.trans alone,fun delete => absurd delete (through other).1⟩

theorem good_step (walked : Walked nd l x s) (straight : ¬ Slips env nd l x s) : Yields (step env nd turns l x) s (Good nd) := by
  cases l with
  | dirloop => exact good_dirloop walked
  | dirloop2 => exact good_dirloop2 walked
  | search c => exact good_search walked
  | searchloop c d => exact good_searchloop walked straight
  | notfound c d => exact good_notfound walked straight
  | found c d m => exact good_found walked
  | haveino pdp => exact good_haveino walked

theorem good_start (new : s.held = 0) : Yields (start env nd turns) s (Good nd) := by
  rw [start]
  split
  · rename_i e _
    simp only [yields_bind,yields_fail,yields_pure]
    exact balanced_nothing new (.inl e.property)
  extract_lets text memory
  split
  · exact yields_throw _
  simp only [yields_bind]
  refine yields_ilock fun t moved => ?_
  simp only [yields_gain,yields_setNi,yields_pure]
  exact (by rw [moved.held,new,zero_add] : t.held + refOf _ = lockOf _ + refOf _)

theorem yields_leave {ip : Option ι} (balanced : Balanced nd ip s) : Yields (leave ip) s (Balanced nd) := by
  simp only [leave,yields_bind,yields_setNi,yields_pure]
  cases ip <;> exact balanced

theorem not_nothing (p : ι) : lockOf p + refOf p ≠ 0 := by
  intro none
  have locked := congrFun (congrArg Prod.fst none) p
  simp [lockOf,refOf] at locked

theorem slips_step (turns : Nat) (walked : Walked nd l x s) (slips : Slips env nd l x s) :
    ∃ t, step env nd turns l x s = .ok (.retNULL,t) ∧ ¬ Balanced nd none t := by
  cases l with
  | searchloop c d =>
    obtain ⟨create,before,boundary,clear,hole,t,done,silent⟩ := slips
    have held : s.held - bufs d.bp = lockOf x.dp + refOf x.dp := by rw [walked.1,add_sub_cancel_right]
    have moved := iput_moved (s := {s with clock := s.clock + 1,held := s.held - bufs d.bp}) held done
    refine ⟨t,?_,fun balanced => ?_⟩
    · change searchloop env c d x s = _
      rw [searchloop,if_pos before,if_pos boundary]
      refine (bind_ok (when_brelse d.bp)).trans ?_
      refine (bind_ok (blkatoff_hole (s := {s with held := s.held - bufs d.bp}) clear hole)).trans ?_
      exact (bind_ok (a := ()) rfl).trans (bind_ok done)
    · have kept := balanced.2 silent
      rw [if_pos create,moved.held] at kept
      obtain ⟨p,_,nothing⟩ := kept
      exact not_nothing p nothing.symm
  | notfound c d =>
    obtain ⟨create,once,last,linked,granted,failed⟩ := slips
    refine ⟨{s with
      clock := s.clock + 1
      held := s.held - bufs d.bp
      ni := {slotOf ((env s.clock).inode x.dp).iSize d.s s.ni with niPdir := some x.dp}},?_,fun balanced => ?_⟩
    · change notfound env nd c d x s = _
      rw [notfound,if_neg once]
      refine (bind_ok (a := env s.clock) rfl).trans ?_
      rw [if_pos ⟨create,last,linked⟩,granted]
      exact (bind_ok (a := ()) rfl).trans ((bind_ok (a := ()) rfl).trans (bind_ok (when_brelse d.bp)))
    · have nothing := balanced.1 failed
      dsimp only at nothing
      rw [walked.1,add_sub_cancel_right] at nothing
      exact not_nothing x.dp nothing
  | dirloop => cases slips
  | dirloop2 => cases slips
  | search c => cases slips
  | found c d m => cases slips
  | haveino pdp => cases slips

theorem balanced_walk {n : Nat} (walked : Walked nd l x s) :
    Yields (walk env nd turns n l x) s (Balanced nd) ↔ Fair env nd turns n l x s := by
  induction n generalizing l x s with
  | zero => exact iff_of_true (yields_throw _) trivial
  | succ n ih =>
    simp only [walk,yields_bind]
    constructor
    · intro balanced
      have straight : ¬ Slips env nd l x s := by
        intro slips
        obtain ⟨t,ran,unbalanced⟩ := slips_step turns walked slips
        exact unbalanced (balanced _ _ ran none {t with ni := {t.ni with niIp := none}} rfl)
      refine ⟨straight,?_⟩
      cases ran : step env nd turns l x s with
      | error e => trivial
      | ok r =>
        obtain ⟨next,t⟩ := r
        cases next with
        | goto l x => exact (ih (good_step walked straight _ _ ran)).mp (balanced _ _ ran)
        | retNULL => trivial
        | retDP dp => trivial
    · rintro ⟨straight,later⟩ next t ran
      have good := good_step walked straight next t ran
      rw [ran] at later
      cases next with
      | goto l x => exact (ih good).mpr later
      | retNULL => exact yields_leave good
      | retDP dp => exact yields_leave good

def FairCall (env : Nat → View ι) (nd : Request ι) (turns : Nat) (s : State ι) : Prop :=
  match start env nd turns s with
  | .ok (.goto l x,s) => Fair env nd turns turns l x s
  | _ => True

/-- A call that comes back keeps what it should exactly when no step of it slips. -/
theorem namei_balanced (env : Nat → View ι) (nd : Request ι) (turns : Nat) (s : State ι) :
    Yields (namei env nd turns) {s with held := 0} (Balanced nd) ↔ FairCall env nd turns {s with held := 0} := by
  have good : Yields (start env nd turns) {s with held := 0} (Good nd) := good_start rfl
  rw [FairCall]
  simp only [namei,yields_bind]
  constructor
  · intro balanced
    cases ran : start env nd turns {s with held := 0} with
    | error e => trivial
    | ok r =>
      obtain ⟨next,t⟩ := r
      cases next with
      | goto l x => exact (balanced_walk (good _ _ ran)).mp (balanced _ _ ran)
      | retNULL => trivial
      | retDP dp => trivial
  · intro fair next t ran
    rw [ran] at fair
    have good := good next t ran
    cases next with
    | goto l x => exact (balanced_walk good).mpr fair
    | retNULL => exact yields_leave good
    | retDP dp => exact yields_leave good

end

def directory (ino : Nat) (size : Int) (changed : Bool) : Inode := ⟨ino,0,0,0o40777,2,0,0,0,size,false,changed⟩

def tree (size : Fin 3 → Int) (changed : Fin 3 → Bool) (bmap : Fin 3 → Nat → Except Errno Int)
    (disk : Nat → Int → Except Errno Symlinks.Memory) : View (Fin 3) where
  inode ip := directory (10 + ip.val) (size ip) (changed ip)
  locked _ := false
  count ip := if ip = 0 then 1 else 0
  imount _ := false
  ihead _ := [0,1,2]
  ifreeh := none
  mount _ := ⟨none,0⟩
  nchash _ := []
  namecache _ := ⟨none,0,0,0,[]⟩
  bmap
  disk
  itrunc _ := none
  dirchk := false

def named (text : List UInt8) : Request (Fin 3) where
  op := .create
  lockparent := false
  nocache := false
  follow := true
  copystr := .ok text
  stack _ := 0
  path := 0
  uCdir := 0
  uRdir := none
  rootdir := 0
  uUid := 1
  uGroups := []

def entry (ino : UInt8) (reclen : Nat) (c : UInt8) : Symlinks.Memory := fun k =>
  [ino,0,0,0,UInt8.ofNat reclen,UInt8.ofNat (reclen / 256),1,0,c,0,0,0].getD k 0

def hollow : Nat → View (Fin 3) := fun _ =>
  tree (fun _ => 1024) (fun _ => false) (fun _ _ => .ok (-1)) fun _ _ => .error ⟨5,by decide⟩

/-- The size of the second directory is less than its entry needs, and is made larger when that is
found, but its inode cannot be read again to be written. The third directory is empty. -/
def shrunk : Nat → View (Fin 3) := fun clock =>
  tree (fun ip => [1024,if clock ≤ 6 then 4 else 12,0].getD ip.val 0) (fun ip => decide (ip = 1 ∧ 6 < clock))
    (fun ip _ => .ok (10 * ip.val + 20)) fun _ blkno =>
      if blkno = 20 then .ok (entry 11 1024 97) else if blkno = 30 then .ok (entry 12 1024 98) else .error ⟨5,by decide⟩

def fresh : State (Fin 3) := ⟨0,0,0,⟨0,0,0⟩,⟨none,none,0,0,0,0,0,[]⟩⟩

def outcome (env : Nat → View (Fin 3)) (text : List UInt8) : Option (Option (Fin 3) × Nat × List Int) :=
  (namei env (named text) 20 fresh).toOption.map fun r => (r.1,r.2.uError,(List.finRange 3).map r.2.held.1)

theorem outcome_ran {env : Nat → View (Fin 3)} {text : List UInt8} {e : Nat} {locks : List Int}
    (ran : outcome env text = some (none,e,locks)) :
    ∃ t, namei env (named text) 20 fresh = .ok (none,t) ∧ t.uError = e ∧ (List.finRange 3).map t.held.1 = locks := by
  rw [outcome] at ran
  cases result : namei env (named text) 20 fresh with
  | error stop => rw [result] at ran; cases ran
  | ok r =>
    obtain ⟨ip,t⟩ := r
    rw [result] at ran
    simp only [Except.toOption,Option.map_some,Option.some.injEq,Prod.mk.injEq] at ran
    obtain ⟨rfl,error,locks⟩ := ran
    exact ⟨t,rfl,error,locks⟩

/-- `CREATE` of `x` in a directory with a hole comes back without an error and without the directory;
of `a/b/c`, it comes back with an error and with the third directory locked. -/
theorem namei_unbalanced : ¬ Yields (namei hollow (named [120,0]) 20) fresh (Balanced (named [120,0])) ∧
      ¬ Yields (namei shrunk (named [97,47,98,47,99,0]) 20) fresh (Balanced (named [97,47,98,47,99,0])) := by
  constructor
  · intro balanced
    have kept : outcome hollow [120,0] = some (none,0,[0,0,0]) := by decide +kernel
    obtain ⟨t,ran,clear,locks⟩ := outcome_ran kept
    obtain ⟨p,_,held⟩ := (balanced none t ran).2 clear
    have unlocked : t.held.1 p = 0 := by
      have member := List.mem_map_of_mem (f := t.held.1) (List.mem_finRange p)
      simpa [locks] using member
    rw [held] at unlocked
    simp [lockOf,refOf] at unlocked
  · intro balanced
    have kept : outcome shrunk [97,47,98,47,99,0] = some (none,5,[0,0,1]) := by decide +kernel
    obtain ⟨t,ran,failed,locks⟩ := outcome_ran kept
    have nothing := (balanced none t ran).1 (by rw [failed]; decide)
    rw [nothing] at locks
    revert locks
    decide

end Retrobsd.Namei

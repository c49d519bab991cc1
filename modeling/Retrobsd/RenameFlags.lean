import Retrobsd.Renames

/-! When `IRENAME` is clear again after `rename` of a directory. The call clears it on the way
out that ends in success only; on the others it goes with the last reference. -/
namespace Retrobsd.Renames

/-- What the loop over `checkpath` comes to: a target, a failure, or no end. -/
def settle : List (Option Nat × Except Nat Target) → Nat → Option (Option Target)
  | [],_ => none
  | (some _,_) :: _,_ => some none
  | (none,.error _) :: _,_ => some none
  | (none,.ok next) :: rest,slot => if next.slot = slot then some (some next) else settle rest next.slot

def Refuses (a : Answers) (ip : Inode) (dest : Target) : Prop :=
  match dest.xp with
  | none => dest.dp.iDev ≠ ip.iDev ∨ a.direnter ≠ none
  | some xp => (xp.iDev ≠ dest.dp.iDev ∨ xp.iDev ≠ ip.iDev) ∨ xp.iNumber = ip.iNumber ∨
      (dest.dp.sticky ∧ a.uUid ≠ 0 ∧ a.uUid ≠ dest.dp.iUid ∧ xp.iUid ≠ a.uUid) ∨
      (xp.directory ∧ (¬ a.dirempty ∨ xp.iNlink > 2)) ∨ ¬ xp.directory ∨ a.dirrewrite ≠ none

def Target.protect (dest : Target) : Bool := dest.xp.any fun xp => xp.immutable ∨ xp.append ∨ dest.dp.append

def Fails (a : Answers) (f : Found) : Prop :=
  match a.target with
  | .error _ => True
  | .ok dest => dest.protect = true ∨
      if f.dp.iNumber ≠ dest.dp.iNumber ∧ dest.dp.iNumber ≠ 0 then
        a.access ≠ none ∨ settle a.turns dest.slot = some none ∨ ∃ next,
        settle a.turns dest.slot = some (some next) ∧ Refuses a f.ip next
      else Refuses a f.ip dest

def Found.Accepted (f : Found) : Prop := f.ip.directory = true ∧ ¬ (f.ip.immutable ∨ f.ip.append ∨ f.dp.append) ∧
    ¬ (f.dName = ['.'] ∨ f.dName = ['.','.'] ∨ f.dp.is f.ip ∨ f.iRename)

section

def one (ip x : Inode) : Nat := if x.is ip then 1 else 0

def ones (ip : Inode) (dest : Target) : Nat := one ip dest.dp + dest.xp.elim 0 (one ip)

def Kept (s : Source) (k : Nat) : Prop := s.iRename = true ∧ s.held = k

variable {a : Answers} {ip x : Inode} {s : Source} {dest : Target} {k : Nat} {here : Point}

theorem hold_kept (kept : Kept s k) : Kept (hold ip x s) (k + one ip x) := by
  unfold hold one
  split
  · exact ⟨kept.1,congrArg (· + 1) kept.2⟩
  · exact kept

theorem holdTarget_kept (kept : Kept s k) : Kept (holdTarget ip dest s) (k + ones ip dest) := by
  have first := @hold_kept ip dest.dp s k kept
  unfold holdTarget ones
  cases dest.xp with
  | none => exact first
  | some xp =>
    rw [← Nat.add_assoc]
    exact hold_kept first

theorem iput_kept (kept : Kept s (k + 1 + one ip x)) : Kept (iput a ip x here s) (k + 1) := by
  unfold iput one at *
  split at kept
  · next same =>
    rw [if_pos same]
    have more : ¬ s.held + a.others here = 1 := by
      have held := kept.2
      omega
    exact ⟨(if_neg more).trans kept.1,Nat.sub_eq_of_eq_add kept.2⟩
  · next apart =>
    rw [if_neg apart]
    exact kept

theorem iputTarget_kept {xp : Option Inode} (kept : Kept s (k + 1 + xp.elim 0 (one ip))) :
    Kept (iputTarget a ip xp here s) (k + 1) := by
  cases xp with
  | none => exact kept
  | some xp => exact iput_kept kept

def Stopped (a : Answers) (r : Result) : Prop :=
    ∃ error t, r = (.returns error,some t) ∧ (t.iRename = false ↔ a.others .source = 0)

def Halted (r : Result) : Prop := ∀ error, r.1 ≠ .returns error

theorem out_stopped (error : Nat) (kept : Kept s 1) : Stopped a (out a error s) := by
  refine ⟨error,_,rfl,?_⟩
  obtain ⟨flag,held⟩ := kept
  simp only [irele,held,flag]
  split
  · next last => simp; omega
  · next more => simp; omega

theorem bad1_stopped (error : Nat) {xp : Option Inode} (kept : Kept s (1 + xp.elim 0 (one ip))) :
    Stopped a (bad1 a ip error xp s) := out_stopped error (iputTarget_kept (k := 0) (by simpa using kept))

theorem dp_kept (kept : Kept s (1 + ones ip dest)) : Kept (iput a ip dest.dp here s) (1 + dest.xp.elim 0 (one ip)) := by
  have sum : 1 + ones ip dest = dest.xp.elim 0 (one ip) + 1 + one ip dest.dp := by
    unfold ones
    omega
  rw [sum] at kept
  rw [Nat.add_comm 1]
  exact iput_kept kept

theorem bad_stopped (error : Nat) (kept : Kept s (1 + ones ip dest)) :
    Stopped a (bad a ip error dest s) := bad1_stopped error (dp_kept kept)

end

section

variable {a : Answers} {ip : Inode} {s t : Source} {dest next : Target} {r : Result}

theorem turn_kept {turn : Nat} (kept : Kept s (1 + ones ip dest)) :
    Kept (iput a ip dest.dp (.checkpath turn) (iputTarget a ip dest.xp (.target turn) s)) 1 := by
  have sum : 1 + ones ip dest = one ip dest.dp + 1 + dest.xp.elim 0 (one ip) := by
    unfold ones
    omega
  rw [sum] at kept
  have first : Kept (iputTarget a ip dest.xp (.target turn) s) (0 + 1 + one ip dest.dp) := by
    rw [Nat.zero_add,Nat.add_comm]
    exact iputTarget_kept kept
  exact iput_kept first

theorem checkpaths_stops : ∀ {turns : List (Option Nat × Except Nat Target)} {turn : Nat} {dest : Target} {s : Source},
    Kept s (1 + ones ip dest) → checkpaths a ip turns turn dest s = .error r →
    (Stopped a r ∧ settle turns dest.slot = some none) ∨ (Halted r ∧ settle turns dest.slot = none)
  | [],_,_,_,_,stopped => by
    cases stopped
    exact .inr ⟨nofun,rfl⟩
  | (some error,_) :: _,_,_,_,kept,stopped => by
    cases stopped
    exact .inl ⟨out_stopped error (turn_kept kept),rfl⟩
  | (none,.error error) :: _,_,_,_,kept,stopped => by
    cases stopped
    exact .inl ⟨out_stopped error (turn_kept kept),rfl⟩
  | (none,.ok next) :: rest,turn,dest,s,kept,stopped => by
    rw [checkpaths] at stopped
    rw [settle]
    split at stopped
    · cases stopped
    next other =>
    rw [if_neg other]
    exact checkpaths_stops (holdTarget_kept (turn_kept kept)) stopped

theorem checkpaths_settles : ∀ {turns : List (Option Nat × Except Nat Target)} {turn : Nat} {dest : Target} {s : Source},
    Kept s (1 + ones ip dest) → checkpaths a ip turns turn dest s = .ok (next,t) →
    Kept t (1 + ones ip next) ∧ settle turns dest.slot = some (some next)
  | [],_,_,_,_,passed => by cases passed
  | (some _,_) :: _,_,_,_,_,passed => by cases passed
  | (none,.error _) :: _,_,_,_,_,passed => by cases passed
  | (none,.ok next) :: rest,turn,dest,s,kept,passed => by
    have after := @holdTarget_kept ip _ next 1 (@turn_kept a ip s dest turn kept)
    rw [checkpaths] at passed
    rw [settle]
    split at passed
    · next same =>
      rw [if_pos same]
      cases passed
      exact ⟨after,rfl⟩
    · next other =>
      rw [if_neg other]
      exact checkpaths_settles after passed

theorem rewrite_cases {xp : Inode} (exists_ : dest.xp = some xp) (kept : Kept s (1 + ones ip dest)) :
    (∃ r, rewrite a ip dest xp s = .error r ∧ (Stopped a r ∧ a.dirrewrite ≠ none ∨ Halted r ∧ a.dirrewrite = none)) ∨
    ∃ t, rewrite a ip dest xp s = .ok t ∧ Kept t 1 ∧ a.dirrewrite = none := by
  have entered := @dp_kept a ip s dest .entered kept
  unfold rewrite
  cases failed : a.dirrewrite with
  | some error => exact .inl ⟨_,rfl,.inl ⟨bad1_stopped error entered,nofun⟩⟩
  | none =>
    dsimp only
    split_ifs with linked
    · exact .inl ⟨_,rfl,.inr ⟨nofun,rfl⟩⟩
    rw [exists_] at entered
    exact .inr ⟨_,rfl,iput_kept (by simpa [Nat.add_comm] using entered),rfl⟩

theorem link_cases (directory : ip.directory = true) (kept : Kept s (1 + ones ip dest)) :
    (∃ r, link a ip dest s = .error r ∧ (Stopped a r ∧ Refuses a ip dest ∨ Halted r ∧ ¬ Refuses a ip dest)) ∨
    ∃ t, link a ip dest s = .ok t ∧ Kept t 1 ∧ ¬ Refuses a ip dest := by
  unfold link Refuses
  cases exists_ : dest.xp with
  | none =>
    have entered := @dp_kept a ip s dest .entered kept
    rw [exists_] at entered
    dsimp only
    by_cases across : dest.dp.iDev ≠ ip.iDev
    · rw [if_pos across]
      exact .inl ⟨_,rfl,.inl ⟨bad_stopped exdev kept,.inl across⟩⟩
    rw [if_neg across]
    cases a.direnter with
    | some error => exact .inl ⟨_,rfl,.inl ⟨out_stopped error entered,.inr nofun⟩⟩
    | none => exact .inr ⟨_,rfl,entered,not_or.mpr ⟨across,not_not.mpr rfl⟩⟩
  | some xp =>
    dsimp only
    split_ifs with across same sticky full file other
    · exact .inl ⟨_,rfl,.inl ⟨bad_stopped exdev kept,.inl across⟩⟩
    · exact .inl ⟨_,rfl,.inl ⟨bad_stopped 0 kept,.inr (.inl same)⟩⟩
    · exact .inl ⟨_,rfl,.inl ⟨bad_stopped eperm kept,.inr (.inr (.inl sticky))⟩⟩
    · exact .inl ⟨_,rfl,.inl ⟨bad_stopped enotempty kept,.inr (.inr (.inr (.inl full)))⟩⟩
    · exact absurd directory file.2
    · exact .inl ⟨_,rfl,.inl ⟨bad_stopped eisdir kept,.inr (.inr (.inr (.inr (.inl other.1))))⟩⟩
    have passed : ¬ (¬ xp.directory = true) := fun plain => other ⟨plain,directory⟩
    have tests (refused : (xp.iDev ≠ dest.dp.iDev ∨ xp.iDev ≠ ip.iDev) ∨ xp.iNumber = ip.iNumber ∨
        (dest.dp.sticky ∧ a.uUid ≠ 0 ∧ a.uUid ≠ dest.dp.iUid ∧ xp.iUid ≠ a.uUid) ∨
        (xp.directory ∧ (¬ a.dirempty ∨ xp.iNlink > 2)) ∨ ¬ xp.directory ∨ a.dirrewrite ≠ none) : a.dirrewrite ≠ none :=
      ((((refused.resolve_left across).resolve_left same).resolve_left sticky).resolve_left full).resolve_left passed
    rcases rewrite_cases exists_ kept with ⟨r,stopped,⟨left,failed⟩ | ⟨halted,done⟩⟩ | ⟨t,linked,left,done⟩
    · exact .inl ⟨r,stopped,.inl ⟨left,.inr (.inr (.inr (.inr (.inr failed))))⟩⟩
    · exact .inl ⟨r,stopped,.inr ⟨halted,fun refused => tests refused done⟩⟩
    · exact .inr ⟨t,linked,left,fun refused => tests refused done⟩

theorem irele_clear {others : Nat} (clear : s.iRename = false) : (irele others s).iRename = false := by
  unfold irele
  split
  · rfl
  · exact clear

theorem iput_clear {x : Inode} {here : Point} (clear : s.iRename = false) : (iput a ip x here s).iRename = false := by
  unfold iput
  split
  · exact irele_clear clear
  · exact clear

theorem unlink_clear {newparent : Nat} (directory : ip.directory = true) :
    Halted (unlink a ip newparent s) ∨ ∃ error t, unlink a ip newparent s = (.returns error,some t) ∧ t.iRename = false := by
  unfold unlink
  cases a.again with
  | error error =>
    dsimp only
    rw [if_pos directory]
    exact .inl nofun
  | ok found =>
    dsimp only
    split
    · exact .inl nofun
    · exact .inr ⟨_,_,rfl,irele_clear (iput_clear (iput_clear rfl))⟩

def Decides (a : Answers) (fails : Prop) (r : Result) : Prop :=
  Halted r ∧ ¬ fails ∨ Stopped a r ∧ fails ∨ (∃ error t, r = (.returns error,some t) ∧ t.iRename = false) ∧ ¬ fails

theorem Decides.congr {p q : Prop} (same : p ↔ q) (decides : Decides a p r) : Decides a q r := by
  rwa [Decides,← same]

theorem finish_decides {newparent : Nat} (directory : ip.directory = true) (kept : Kept s (1 + ones ip dest)) :
    Decides a (Refuses a ip dest) (match link a ip dest s with
      | .error stopped => stopped
      | .ok s => unlink a ip newparent s) := by
  rcases @link_cases a ip s dest directory kept with ⟨r,stopped,⟨left,refused⟩ | ⟨halted,passed⟩⟩ | ⟨t,linked,-,passed⟩
  · rw [stopped]
    exact .inr (.inl ⟨left,refused⟩)
  · rw [stopped]
    exact .inl ⟨halted,passed⟩
  rw [linked]
  rcases @unlink_clear a ip t newparent directory with halted | clear
  · exact .inl ⟨halted,passed⟩
  · exact .inr (.inr ⟨clear,passed⟩)

theorem move_decides {f : Found} (directory : f.ip.directory = true) (kept : Kept s 1) :
    Decides a (Fails a f) (move a f.ip f.dp.iNumber s) := by
  unfold move Fails
  cases a.target with
  | error error => exact .inr (.inl ⟨out_stopped error kept,trivial⟩)
  | ok dest =>
    have held := @holdTarget_kept f.ip s dest 1 kept
    dsimp only
    by_cases protect : dest.protect = true
    · rw [if_pos (show (dest.xp.any fun xp => decide (xp.immutable ∨ xp.append ∨ dest.dp.append)) = true from protect)]
      exact .inr (.inl ⟨bad_stopped eperm held,.inl protect⟩)
    rw [if_neg (show ¬ (dest.xp.any fun xp => decide (xp.immutable ∨ xp.append ∨ dest.dp.append)) = true from protect)]
    have unprotected {p : Prop} : dest.protect = true ∨ p ↔ p := or_iff_right protect
    by_cases moves : f.dp.iNumber ≠ dest.dp.iNumber ∧ dest.dp.iNumber ≠ 0
    · rw [if_pos moves,if_pos moves.1]
      cases denied : a.access with
      | some error =>
        rw [if_pos ⟨directory,moves.2⟩]
        exact .inr (.inl ⟨bad_stopped error held,.inr (.inl nofun)⟩)
      | none =>
        rw [if_pos ⟨directory,moves.2⟩]
        dsimp only
        cases checked : checkpaths a f.ip a.turns 0 dest (holdTarget f.ip dest s) with
        | error r =>
          rcases checkpaths_stops held checked with ⟨left,failed⟩ | ⟨halted,loops⟩
          · exact .inr (.inl ⟨left,.inr (.inr (.inl failed))⟩)
          · exact .inl ⟨halted,by simp [loops,protect]⟩
        | ok found =>
          obtain ⟨again,settled⟩ := checkpaths_settles held checked
          refine (finish_decides directory again).congr ?_
          rw [settled]
          simp [protect]
    · rw [if_neg moves]
      have here : ¬ (f.ip.directory = true ∧ (if f.dp.iNumber ≠ dest.dp.iNumber then dest.dp.iNumber else 0) ≠ 0) := by
        rintro ⟨-,some⟩
        split_ifs at some with other
        · exact moves ⟨other,some⟩
        · exact some rfl
      rw [if_neg here]
      exact (finish_decides directory held).congr unprotected.symm

end

def Clean (a : Answers) : Prop := ∀ f, a.source = .ok f → f.ip.directory = true → f.iRename = false →
  ∀ error t, rename a = (.returns error,some t) → t.iRename = false

theorem rename_refused {a : Answers} {f : Found} (source : a.source = .ok f) (directory : f.ip.directory = true)
    (unflagged : f.iRename = false) (refused : ¬ f.Accepted) {error : Nat} {t : Source}
    (returned : rename a = (.returns error,some t)) : t.iRename = false := by
  have clear : (hold f.ip f.dp ⟨f.iRename,f.ip.iNlink,1⟩).iRename = false := by
    unfold hold
    split <;> exact unflagged
  rw [rename,source] at returned
  dsimp only at returned
  split_ifs at returned with protect aliased
  · cases returned
    exact irele_clear (iput_clear clear)
  · cases returned
    exact irele_clear (iput_clear clear)
  · refine absurd ⟨directory,protect,fun name => aliased ⟨directory,name⟩⟩ refused

theorem rename_decides {a : Answers} {f : Found} (source : a.source = .ok f) (accepted : f.Accepted) :
    Decides a (Fails a f) (rename a) := by
  obtain ⟨directory,unprotected,named⟩ := accepted
  have apart : ¬ f.dp.is f.ip := fun same => named (.inr (.inr (.inl same)))
  rw [rename,source]
  dsimp only
  rw [if_neg unprotected,if_neg fun refused => named refused.2,if_pos directory,if_pos directory]
  apply move_decides directory
  simp [hold,iput,apart,Kept]

/-- The flag is clear after a call on a directory if and only if nothing fails after it was set,
or the call holds the last reference in the end. -/
theorem rename_clean_iff (a : Answers) : Clean a ↔ ∀ f, a.source = .ok f → f.Accepted → Fails a f → a.others .source = 0 := by
  constructor
  · intro clean f source accepted fails
    rcases rename_decides source accepted with ⟨-,passed⟩ | ⟨⟨error,t,returned,last⟩,-⟩ | ⟨-,passed⟩
    · exact absurd fails passed
    · have unflagged : f.iRename = false := by
        by_contra flagged
        exact accepted.2.2 (.inr (.inr (.inr (by simpa using flagged))))
      exact last.mp (clean f source accepted.1 unflagged error t returned)
    · exact absurd fails passed
  intro alone f source directory unflagged error t returned
  by_cases accepted : f.Accepted
  · rcases rename_decides source accepted with ⟨halted,-⟩ | ⟨⟨error',t',returned',last⟩,fails⟩ | ⟨⟨error',t',returned',clear⟩,-⟩
    · exact absurd (congrArg Prod.fst returned) (halted error)
    · rw [returned] at returned'
      cases returned'
      exact last.mpr (alone f source accepted fails)
    · rw [returned] at returned'
      cases returned'
      exact clear
  · exact rename_refused source directory unflagged accepted returned

def root : Inode := ⟨0,2,true,false,false,false,0,3⟩

def moved : Inode := ⟨0,7,true,false,false,false,0,2⟩

def busy : Answers where
  uUid := 0
  source := .ok ⟨moved,root,['a'],false⟩
  target := .error 2
  access := none
  turns := []
  direnter := none
  dirempty := true
  dirrewrite := none
  again := .error 2
  readDotdot := none
  dirremove := true
  removed := 0
  others _ := 1

theorem busy_flagged : ¬ Clean busy := by
  intro clean
  exact absurd (clean _ rfl rfl rfl 2 ⟨true,2,0⟩ (by decide)) (by decide)

end Retrobsd.Renames

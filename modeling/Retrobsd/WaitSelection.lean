import Retrobsd.ProcessRuns

/-! Which child `wait4` takes. `exit` writes the status and the usage of a process over
its fields, so that the group that `wait1` reads of a zombie is the lower half of the
messages sent, while a live child still has its own. -/
namespace Retrobsd.ProcessTable
open Lib.Run

variable {n : Nat}

structure KRusage where
  ruUtime : BitVec 32
  ruStime : BitVec 32
  ruNswap : BitVec 32
  ruInblock : BitVec 32
  ruOublock : BitVec 32
  ruMsgsnd : BitVec 32
  ruMsgrcv : BitVec 32
  ruNsignals : BitVec 32
  ruNvcsw : BitVec 32
  ruNivcsw : BitVec 32
deriving DecidableEq

def pDead (xstat : BitVec 32) (ru : KRusage) : List (BitVec 32) :=
  [xstat,ru.ruUtime,ru.ruStime,ru.ruNswap,ru.ruInblock,ru.ruOublock,ru.ruMsgsnd,ru.ruMsgrcv,ru.ruNsignals,ru.ruNvcsw,ru.ruNivcsw]

/-- What `P_hash` and `P_pgrp` read there: the third word, which is taken for a pointer, and
the lower half of the seventh one. -/
def overlay (hashed : BitVec 32 → Option (Slot n)) (xstat : BitVec 32) (ru : KRusage) : Overlay n where
  pHash := hashed ((pDead xstat ru)[2]!)
  pPgrp := (((pDead xstat ru)[6]!).setWidth 16).toInt

def efault : Nat := 14

structure Wait where
  pid : Int
  own : Int
  statusFails : Bool
  rusageFails : Bool
  wnohang : Bool
  wuntraced : Bool
deriving DecidableEq

def Wait.args (c : Wait) : Args where
  pid := if c.pid = 0 then -c.own else c.pid
  statusError := if c.statusFails then some efault else none
  rusageError := if c.rusageFails then some efault else none
  wnohang := c.wnohang
  wuntraced := c.wuntraced

def Table.zombie (s : Table n) (q : Slot n) (pid : Int) : Option (Slot n) := (s.listed .zombproc).find? (s.waitedFor q pid)

def wait1Loop (s : Table n) (q : Slot n) (uap : Args) : Reply × Table n :=
  match s.zombie q uap.pid with
  | some p => match uap.statusError <|> uap.rusageError with
    | some error => (.error error,s)
    | none => (.reaped (s.pPid p) (s.pXstat p),s.release p)
  | none =>
    let found := (s.listed .allproc).filter (s.waitedFor q uap.pid)
    match found.find? fun p => s.pStat p = .sstop ∧ ¬ s.waited p ∧ (s.traced p ∨ uap.wuntraced) with
    | some p => ((uap.statusError.map Reply.error).getD (.value (s.pPid p)),{s with waited := Function.update s.waited p true})
    | none => (if found = [] then .error echild else if uap.wnohang then .value 0 else .sleeps,s)

/-- The table, and of each process that has exited the group that it had and its usage. -/
structure Past (n : Nat) where
  table : Table n
  group : Slot n → Int
  usage : Slot n → KRusage

/-- An operation. The usage is what `exit` writes over the process. -/
structure Act (n : Nat) where
  op : Op n
  hashed : BitVec 32 → Option (Slot n)
  ru : KRusage

def Act.done (a : Act n) : Op n :=
  match a.op with
  | .exit p rv _ => .exit p rv (overlay a.hashed (BitVec.ofInt 32 rv) a.ru)
  | op => op

def Act.exits (a : Act n) (s : Table n) : Option (Slot n) :=
  match a.op with
  | .exit p _ _ => if a.done.able s then some p else none
  | _ => none

def Past.step (past : Past n) (a : Act n) : Except Fault (Past n) :=
  match ProcessTable.step past.table a.done with
  | .error e => .error e
  | .ok t => .ok (match a.exits past.table with
    | some p => ⟨t,Function.update past.group p (past.table.pPgrp p),Function.update past.usage p a.ru⟩
    | none => {past with table := t})

def boot (n : Nat) : Past n := ⟨start n,fun _ => 0,fun _ => ⟨0,0,0,0,0,0,0,0,0,0⟩⟩

def Wait.Requests (c : Wait) (pid group : Int) : Prop :=
  c.pid = -1 ∨ 0 < c.pid ∧ pid = c.pid ∨ c.pid = 0 ∧ group = c.own ∨ c.pid < -1 ∧ group = -c.pid

def Past.Dead (past : Past n) (q p : Slot n) : Prop := p ∈ past.table.listed .zombproc ∧ past.table.pPptr p = some q

def Past.Live (past : Past n) (q p : Slot n) : Prop := p ∈ past.table.listed .allproc ∧ past.table.pPptr p = some q

def Wait.Asked (c : Wait) (past : Past n) (p : Slot n) : Prop := c.Requests (past.table.pPid p) (past.group p)

structure Selects (q : Slot n) (c : Wait) (past : Past n) : Prop where
  reaped : ∀ p pid status, past.table.zombie q c.args.pid = some p →
    (wait1Loop past.table q c.args).1 = .reaped pid status → c.Asked past p
  taken : ∀ p, past.Dead q p → c.Asked past p →
    (∃ pid status, (wait1Loop past.table q c.args).1 = .reaped pid status) ∨
    wait1Loop past.table q c.args = (.error efault,past.table)
  echild : (wait1Loop past.table q c.args).1 = .error echild → (∀ p, past.Dead q p → ¬ c.Asked past p) ∧
    ∀ p, past.Live q p → ¬ c.Requests (past.table.pPid p) (past.table.pPgrp p)

structure Tells (q : Slot n) (c : Wait) (past : Past n) : Prop where
  first : ∀ p, past.table.zombie q c.args.pid = some p → c.statusFails ∨ c.rusageFails ∨ c.Asked past p
  others : past.table.zombie q c.args.pid = none → ∀ p, past.Dead q p → ¬ c.Asked past p

variable {past : Past n} {q : Slot n} {c : Wait}

theorem wait1Loop_reaped {s t : Table n} {uap : Args} {pid status : Int} (done : wait1Loop s q uap = (.reaped pid status,t)) :
    ∃ p, s.zombie q uap.pid = some p ∧ pid = s.pPid p ∧ status = s.pXstat p ∧ t = s.release p := by
  rw [wait1Loop] at done
  split at done
  · next p found =>
    split at done
    · cases done
    cases done
    exact ⟨p,found,rfl,rfl,rfl⟩
  dsimp only at done
  split at done
  · cases failed : uap.statusError with
    | none => rw [failed] at done; cases done
    | some e => rw [failed] at done; cases done
  · split_ifs at done <;> cases done

variable {p : Slot n}

theorem wait1Loop_zombie (found : past.table.zombie q c.args.pid = some p) :
    wait1Loop past.table q c.args = if c.statusFails ∨ c.rusageFails then (.error efault,past.table)
      else (.reaped (past.table.pPid p) (past.table.pXstat p),past.table.release p) := by
  rw [wait1Loop,found]
  cases c with
  | mk pid own statusFails rusageFails wnohang wuntraced => cases statusFails <;> cases rusageFails <;> rfl

theorem waitedFor_live (live : past.Live q p) (asked : c.Requests (past.table.pPid p) (past.table.pPgrp p)) :
    past.table.waitedFor q c.args.pid p = true := by
  refine decide_eq_true ⟨live.2,?_⟩
  simp only [Wait.args]
  rcases asked with any | ⟨positive,own⟩ | ⟨zero,group⟩ | ⟨negative,group⟩
  · rw [if_neg (by omega)]
    exact .inl any
  · rw [if_neg (by omega)]
    exact .inr (.inl own)
  · rw [if_pos zero]
    exact .inr (.inr (by omega))
  · rw [if_neg (by omega)]
    exact .inr (.inr group)

theorem wait1Loop_living (passed : past.table.zombie q c.args.pid = none)
    (failed : (wait1Loop past.table q c.args).1 = .error echild) :
    (past.table.listed .allproc).filter (past.table.waitedFor q c.args.pid) = [] := by
  rw [wait1Loop,passed] at failed
  dsimp only at failed
  split at failed
  · simp only [Wait.args] at failed
    split at failed <;> cases failed
  dsimp only at failed
  split_ifs at failed with empty
  exact empty

theorem selects_none (passed : past.table.zombie q c.args.pid = none)
    (others : ∀ p, past.Dead q p → ¬ c.Asked past p) : Selects q c past where
  reaped p pid status found := by
    rw [passed] at found
    cases found
  taken p dead asked := absurd asked (others p dead)
  echild failed := by
    refine ⟨others,fun p live asked => ?_⟩
    have member : p ∈ (past.table.listed .allproc).filter (past.table.waitedFor q c.args.pid) :=
      List.mem_filter.mpr ⟨live.1,waitedFor_live live asked⟩
    rw [wait1Loop_living passed failed] at member
    cases member

theorem selects_first (found : past.table.zombie q c.args.pid = some p)
    (right : c.statusFails ∨ c.rusageFails ∨ c.Asked past p) : Selects q c past where
  reaped p' pid status found' done := by
    obtain rfl : p = p' := Option.some.inj (found.symm.trans found')
    rw [wait1Loop_zombie found] at done
    split_ifs at done with fails
    rw [not_or] at fails
    exact (right.resolve_left fails.1).resolve_left fails.2
  taken p' _ _ := by
    rw [wait1Loop_zombie found]
    split_ifs
    · exact .inr rfl
    · exact .inl ⟨_,_,rfl⟩
  echild failed := by
    rw [wait1Loop_zombie found] at failed
    split_ifs at failed
    cases failed

theorem Selects.tells (selects : Selects q c past) : Tells q c past where
  first p found := by
    by_contra wrong
    simp only [not_or] at wrong
    refine wrong.2.2 (selects.reaped p (past.table.pPid p) (past.table.pXstat p) found ?_)
    rw [wait1Loop_zombie found,if_neg (not_or.mpr ⟨wrong.1,wrong.2.1⟩)]
  others passed p dead asked := by
    rcases selects.taken p dead asked with ⟨pid,status,done⟩ | failed
    · obtain ⟨p',found,-⟩ := wait1Loop_reaped (Prod.ext done rfl)
      rw [passed] at found
      cases found
    rw [wait1Loop,passed] at failed
    dsimp only at failed
    split at failed
    · next p' stopped =>
      have chosen := List.find?_some stopped
      have unwaited := (of_decide_eq_true chosen).2.1
      have noted : past.table.waited p' = true := by
        rw [← congrArg (fun r => r.2.waited p') failed]
        exact Function.update_self ..
      exact absurd noted unwaited
    · split_ifs at failed <;> cases failed

theorem selects_iff : Selects q c past ↔ Tells q c past := by
  refine ⟨Selects.tells,fun tells => ?_⟩
  cases found : past.table.zombie q c.args.pid with
  | none => exact selects_none found (tells.others found)
  | some p => exact selects_first found (tells.first p found)

def Turns (q : Slot n) (c : Wait) (holds : Past n → Prop) : Past n → List (Past n) → Prop
  | past,[] => holds past
  | past,later :: rest => holds past ∧ ((wait1Loop past.table q c.args).1 = .sleeps → Turns q c holds later rest)

theorem Turns.congr {holds other : Past n → Prop} (same : ∀ past, holds past ↔ other past) :
    ∀ {past : Past n} {later : List (Past n)}, Turns q c holds past later ↔ Turns q c other past later
  | past,[] => same past
  | past,_ :: _ => and_congr (same past) (imp_congr_right fun _ => Turns.congr same)

/-- Each turn of a call selects as it should if and only if the usage of the dead tells which
of them are asked for. -/
theorem wait4_selects_iff (q : Slot n) (c : Wait) (past : Past n) (later : List (Past n)) :
    Turns q c (Selects q c) past later ↔ Turns q c (Tells q c) past later := Turns.congr fun _ => selects_iff

section
variable {s t : Table n} {a z f : List (Slot n)} {op : Op n} {p : Slot n}

/-- A zombie was one before, with the group that it has, or has just exited. -/
def Died (s t : Table n) (op : Op n) (q : Slot n) : Prop :=
  q ∈ s.listed .zombproc ∧ t.pPgrp q = s.pPgrp q ∨ ∃ rv dead, op = .exit q rv dead ∧ op.able s = true ∧ t.pPgrp q = dead.pPgrp

theorem newproc_died (tidy : Tidy s a z f) (made : newproc s p = .ok t) (dead : q ∈ t.listed .zombproc) : Died s t op q := by
  rw [newproc] at made
  split at made
  · cases made
  split at made
  · cases made
  next child first =>
  cases made
  have forward := tidy.ordered.free
  cases f with
  | nil => exact absurd (first.symm.trans forward) (by simp)
  | cons head f =>
    obtain rfl : head = child := Option.some.inj (forward.1.symm.trans first)
    rw [(enter_ordered tidy.ordered _ _).listed.2.1] at dead
    have other : q ≠ head := fun same => (tidy.ordered.apart.2.2 q dead) (same ▸ List.mem_cons_self)
    exact .inl ⟨tidy.ordered.listed.2.1.symm ▸ dead,Function.update_of_ne other _ _⟩

theorem exit_died {rv : Int} {status : Overlay n} (tidy : Tidy s a z f) (able : (Op.exit p rv status).able s = true)
    (ran : exit s p rv status = .ok t) (dead : q ∈ t.listed .zombproc) : Died s t (.exit p rv status) q := by
  have member := (of_decide_eq_true able).1
  rw [tidy.ordered.listed.1] at member
  rw [exit] at ran
  split_ifs at ran
  split at ran
  · cases ran
  cases ran
  rw [(zombie_ordered tidy.ordered member rfl).listed.2.1] at dead
  rcases eq_or_ne q p with rfl | other
  · exact .inr ⟨rv,status,rfl,able,Function.update_self _ _ _⟩
  · have before := (List.mem_cons.mp dead).resolve_left other
    exact .inl ⟨tidy.ordered.listed.2.1.symm ▸ before,Function.update_of_ne other _ _⟩

theorem wait1_died (tidy : Tidy s a z f) (q' : Slot n) (uap : Args) (dead : q ∈ (wait1 s q' uap).2.listed .zombproc) :
    Died s (wait1 s q' uap).2 op q := by
  rw [wait1] at dead ⊢
  dsimp only at dead ⊢
  split at dead
  · next p found =>
    split at dead
    · exact .inl ⟨dead,rfl⟩
    have member := List.mem_of_find?_eq_some found
    rw [tidy.ordered.listed.2.1] at member
    rw [(release_ordered tidy.ordered member).listed.2.1] at dead
    obtain ⟨-,single,-⟩ := List.nodup_append.mp (List.nodup_append.mp tidy.ordered.once).1
    obtain ⟨other,before⟩ := single.mem_erase_iff.mp dead
    exact .inl ⟨tidy.ordered.listed.2.1.symm ▸ before,Function.update_of_ne other _ _⟩
  · split at dead <;> exact .inl ⟨dead,rfl⟩

theorem step_died (kept : Kept s) (ran : ProcessTable.step s op = .ok t) (dead : q ∈ t.listed .zombproc) : Died s t op q := by
  obtain ⟨a,z,f,tidy⟩ := kept
  rw [ProcessTable.step] at ran
  split_ifs at ran with able
  · cases op with
    | fork p uid =>
      rw [call] at ran
      split at ran
      · cases ran
      next made =>
      cases ran
      rw [fork1] at made
      split at made
      · cases made
        exact .inl ⟨dead,rfl⟩
      generalize (if uid ≠ 0 then s.known.countP (fun q => s.pUid q = uid) else 0) = count at made
      split_ifs at made
      · cases made
        exact .inl ⟨dead,rfl⟩
      split at made
      · cases made
      next entered =>
      cases made
      exact newproc_died tidy entered dead
    | exit p rv status => exact exit_died tidy able ran dead
    | wait4 p uap =>
      cases ran
      exact wait1_died tidy p uap dead
    | setpgrp p pgrp =>
      cases ran
      have member := (of_decide_eq_true able).1
      rw [tidy.ordered.listed.1] at member
      have zombie : q ∈ z := tidy.ordered.listed.2.1 ▸ dead
      have other : q ≠ p := fun same => tidy.ordered.apart.1 p member (same ▸ zombie)
      exact .inl ⟨dead,Function.update_of_ne other _ _⟩
    | setuid p uid =>
      cases ran
      exact .inl ⟨dead,rfl⟩
    | signalled p stat traced waited =>
      cases ran
      exact .inl ⟨dead,rfl⟩
  · cases ran
    exact .inl ⟨dead,rfl⟩

end

/-- What `wait1` reads of a zombie is the lower half of the messages that it sent. -/
structure Told (past : Past n) : Prop where
  kept : Kept past.table
  groups : ∀ p ∈ past.table.listed .zombproc, past.table.pPgrp p = ((past.usage p).ruMsgsnd.setWidth 16).toInt

theorem exits_exit {a : Act n} {s : Table n} {rv : Int} {status : Overlay n} (exits : a.done = .exit p rv status)
    (able : a.done.able s = true) : a.exits s = some p ∧ status.pPgrp = (a.ru.ruMsgsnd.setWidth 16).toInt := by
  cases op : a.op with
  | exit p' rv' status' =>
    have same : a.done = .exit p' rv' (overlay a.hashed (BitVec.ofInt 32 rv') a.ru) := by rw [Act.done,op]
    rw [same] at exits
    cases exits
    exact ⟨by rw [Act.exits,op]; exact if_pos able,rfl⟩
  | _ =>
    rw [Act.done,op] at exits
    cases exits

theorem exits_able {a : Act n} {s : Table n} (exits : a.exits s = some p) : p ∈ s.listed .allproc := by
  rw [Act.exits] at exits
  split at exits
  · next p' rv status op =>
    split_ifs at exits with able
    cases exits
    rw [Act.done,op] at able
    exact (of_decide_eq_true able).1
  · cases exits

theorem step_told (room : 2 * (n + 2) + 100 < 30000) {a : Act n} {later : Past n} (told : Told past)
    (clear : Clear past.table a.done)
    (ran : past.step a = .ok later) : Told later := by
  rw [Past.step] at ran
  split at ran
  · cases ran
  next t stepped =>
  have kept : Kept t := by
    rcases step_cases told.kept room a.done clear with ⟨t',again,kept,-⟩ | died
    · cases stepped.symm.trans again
      exact kept
    · cases stepped.symm.trans died
  have died := fun p (dead : p ∈ t.listed .zombproc) => step_died told.kept stepped dead
  cases exits : a.exits past.table with
  | some p =>
    rw [exits] at ran
    cases ran
    refine ⟨kept,fun q dead => ?_⟩
    rcases died q dead with ⟨before,same⟩ | ⟨rv,status,op,able,written⟩
    · have other : q ≠ p := by
        rintro rfl
        obtain ⟨a,z,f,tidy⟩ := told.kept
        obtain ⟨all,zomb,-⟩ := tidy.ordered.listed
        exact tidy.ordered.apart.1 q (all ▸ exits_able exits) (zomb ▸ before)
      change _ = ((Function.update past.usage p a.ru q).ruMsgsnd.setWidth 16).toInt
      rw [same,Function.update_of_ne other]
      exact told.groups q before
    · obtain ⟨own,group⟩ := exits_exit op able
      cases exits.symm.trans own
      change _ = ((Function.update past.usage p a.ru p).ruMsgsnd.setWidth 16).toInt
      rw [written,group,Function.update_self]
  | none =>
    rw [exits] at ran
    cases ran
    refine ⟨kept,fun q dead => ?_⟩
    rcases died q dead with ⟨before,same⟩ | ⟨rv,status,op,able,written⟩
    · rw [same]
      exact told.groups q before
    · cases exits.symm.trans (exits_exit op able).1

theorem boot_told : Told (boot n) := by
  have tidy := start_tidy n
  refine ⟨⟨_,_,_,tidy⟩,fun p dead => ?_⟩
  rw [show (boot n).table.listed .zombproc = [] from tidy.ordered.listed.2.1] at dead
  cases dead

/-- Along every run in which no search of a fork comes to a number next to another of the same process. -/
theorem run_told (room : 2 * (n + 2) + 100 < 30000) (acts : List (Act n))
    (clear : Along Past.step (fun past a => Clear past.table a.done) (boot n) acts)
    (ran : run Past.step (boot n) acts = .ok past) : Told past :=
  run_invariant (fun _ _ _ told clear ran => step_told room told clear ran) acts (boot n) past boot_told clear ran

def quiet : KRusage := ⟨3,1,0,0,0,0,0,0,1,0⟩

def someExit : List (Act 2) :=
  [.fork 0 0,.fork 1 0,.setpgrp 1 1,.setpgrp 2 2,.exit 2 0 ⟨none,0⟩].map fun op => ⟨op,fun _ => none,quiet⟩

def byGroup : Wait := ⟨-2,1,false,false,false,false⟩

theorem group_overlooked : ∃ past, run Past.step (boot 2) someExit = .ok past ∧ ¬ Selects 1 byGroup past := by
  have overlooked : returns (fun past => decide ((2 ∈ past.table.listed .zombproc ∧ past.table.pPptr 2 = some 1) ∧
      past.group 2 = 2 ∧ (wait1Loop past.table 1 byGroup.args).1 = .error echild))
      (run Past.step (boot 2) someExit) = true := by decide
  obtain ⟨past,ended,passed⟩ := of_returns overlooked
  obtain ⟨dead,group,failed⟩ := of_decide_eq_true passed
  refine ⟨past,ended,fun selects => (selects.echild failed).1 2 dead ?_⟩
  exact .inr (.inr (.inr ⟨by decide,group⟩))

end Retrobsd.ProcessTable

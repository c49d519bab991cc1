import Retrobsd.ProcessTable

/-! `sysctl_doproc` and `fill_from_u` of kern_sysctl.c. The scan goes on from the `p_nxt` of the process that it is at, also
when that process has moved to another list while `fill_from_u` slept. -/
namespace Retrobsd.ProcessListing
open List
open Function
open ProcessTable (Stat)

abbrev Uid := BitVec 32

def kinfoProc : Nat := 108

def efault : Nat := 14

def enomem : Nat := 12

def nodev : Int := -1

/-- A process and its user area. `group`, `uid` and `ruid` are those that it has or had when it exited,
`overlay` is what `exit` leaves at `P_pgrp`, and `ttyp` the group of the terminal that `u_ttyp` points to. -/
structure Proc where
  pStat : Stat
  pPid : Int
  group : Int
  overlay : Int
  uid : Uid
  ruid : Uid
  ttyp : Option Int
  ttyd : Int
  sload : Bool
deriving DecidableEq

def Proc.pPgrp (q : Proc) : Int := if q.pStat = .szomb then q.overlay else q.group

def Proc.pUid (q : Proc) : Uid := (q.uid.setWidth 16).signExtend 32

/-- The lists in the order of `p_nxt`, and the processes that have been there since the call started. -/
structure Table where
  proc : Nat → Proc
  allproc : List Nat
  zombproc : List Nat
  freeproc : List Nat
  kept : List Nat

inductive Event where
  | fork (child : Proc)
  | exit (q : Nat) (overlay : Int)
  | reap (q : Nat)

def Table.happens (t : Table) : Event → Table
  | .fork child => match t.freeproc with
    | [] => t
    | q :: free => {t with
      proc := update t.proc q {child with pStat := .srun}
      allproc := q :: t.allproc
      freeproc := free}
  | .exit q overlay => if q ∈ t.allproc then {t with
      proc := update t.proc q {t.proc q with pStat := .szomb,overlay}
      allproc := t.allproc.erase q
      zombproc := q :: t.zombproc} else t
  | .reap q => if q ∈ t.zombproc then {t with
      proc := update t.proc q {t.proc q with pStat := .null,pPid := 0,group := 0}
      zombproc := t.zombproc.erase q
      freeproc := q :: t.freeproc
      kept := t.kept.filter (· ≠ q)} else t

def after (p : Nat) : List Nat → Option Nat
  | [] => none
  | q :: rest => if q = p then rest.head? else after p rest

def Table.pNxt (t : Table) (p : Nat) : Option Nat :=
  if p ∈ t.allproc then after p t.allproc else if p ∈ t.zombproc then after p t.zombproc else after p t.freeproc

/-- A sleep of `fill_from_u`, which reads the user area of a process that is swapped out. -/
structure Pause where
  failed : Bool
  events : List Event

structure FromU where
  ruid : Uid
  ttyp : Option Int
  ttyd : Int

def fillFromU (t : Table) (p : Nat) (a : Pause) : FromU × Table :=
  let q := t.proc p
  if q.pStat = .szomb then (⟨-2,none,nodev⟩,t)
  else if q.sload then (⟨q.ruid,q.ttyp,q.ttyd⟩,t)
  else (if a.failed then ⟨-2,none,nodev⟩ else ⟨q.ruid,q.ttyp,q.ttyd⟩,a.events.foldl Table.happens t)

inductive Selection where
  | all
  | pid (n : Int)
  | pgrp (n : Int)
  | tty (n : Int)
  | uid (n : Uid)
  | ruid (n : Uid)

def selects (sel : Selection) (t : Table) (p : Nat) (a : Pause) : Bool × Table :=
  match sel with
  | .all => (true,t)
  | .pid n => (decide ((t.proc p).pPid = n),t)
  | .pgrp n => (decide ((t.proc p).pPgrp = n),t)
  | .tty n => ((fillFromU t p a).1.ttyp.isSome && decide ((fillFromU t p a).1.ttyd = n),(fillFromU t p a).2)
  | .uid n => (decide ((t.proc p).pUid = n),t)
  | .ruid n => (decide ((fillFromU t p a).1.ruid = n),(fillFromU t p a).2)

structure Entry where
  kpProc : Proc
  ePaddr : Nat
  eTdev : Int
  eTpgid : Int
  eRuid : Uid

inductive Pc where
  | scan (p : Option Nat) (doingzomb : Bool)
  | ended (errno : Nat)

/-- `dp` are the entries that are in the buffer. Of the processes, `seen` are those that the scan has come to and `found` those
that were selected. -/
structure Call where
  pc : Pc
  table : Table
  dp : List Entry
  buflen : Nat
  needed : Nat
  sizep : Nat
  seen : List Nat
  found : List Nat

structure Answer where
  select : Pause
  fill : Pause
  faults : Bool

def report (s : Call) (t : Table) (p : Nat) (zomb : Bool) (a : Answer) : Call :=
  let s := {s with seen := s.seen ++ [p],found := s.found ++ [p]}
  if s.buflen ≥ kinfoProc then
    let (v,t) := fillFromU t p a.fill
    if a.faults then {s with table := t,pc := .ended efault}
    else {s with
      table := t
      pc := .scan (t.pNxt p) zomb
      dp := s.dp ++ [⟨t.proc p,p,v.ttyd,v.ttyp.getD 0,v.ruid⟩]
      buflen := s.buflen - kinfoProc
      needed := s.needed + kinfoProc}
  else {s with table := t,pc := .scan (t.pNxt p) zomb,needed := s.needed + kinfoProc}

def pass (s : Call) (t : Table) (p : Nat) (zomb : Bool) : Call :=
    {s with table := t,pc := .scan (t.pNxt p) zomb,seen := s.seen ++ [p]}

/-- The end of the call. `buffer` is the length at `sizep`, or none without a buffer. -/
def finish (buffer : Option Nat) (s : Call) : Call :=
  match buffer with
  | some _ =>
    {s with sizep := s.dp.length * kinfoProc,pc := .ended (if s.needed > s.dp.length * kinfoProc then enomem else 0)}
  | none => {s with sizep := s.needed + 5 * kinfoProc,pc := .ended 0}

def step (sel : Selection) (buffer : Option Nat) (s : Call) (a : Answer) : Call :=
  match s.pc with
  | .ended _ => s
  | .scan none false => {s with pc := .scan s.table.zombproc.head? true}
  | .scan none true => finish buffer s
  | .scan (some p) zomb =>
    if (s.table.proc p).pStat = .sidl then pass s s.table p zomb
    else if (selects sel s.table p a.select).1 then report s (selects sel s.table p a.select).2 p zomb a
    else pass s (selects sel s.table p a.select).2 p zomb

def sysctlDoproc (buffer : Option Nat) (t : Table) : Call :=
  ⟨.scan t.allproc.head? false,{t with kept := t.allproc ++ t.zombproc},[],buffer.getD 0,0,0,[],[]⟩

def Proc.belongs (q : Proc) : Selection → Bool
  | .all => true
  | .pid n => decide (q.pPid = n)
  | .pgrp n => decide (q.group = n)
  | .tty n => decide (q.pStat ≠ .szomb) && q.ttyp.isSome && decide (q.ttyd = n)
  | .uid n => decide (q.uid = n)
  | .ruid n => decide (q.ruid = n)

def Proc.picked (q : Proc) : Selection → Bool
  | .all => true
  | .pid n => decide (q.pPid = n)
  | .pgrp n => decide (q.pPgrp = n)
  | .tty n => decide (q.pStat ≠ .szomb) && q.ttyp.isSome && decide (q.ttyd = n)
  | .uid n => decide (q.pUid = n)
  | .ruid n => decide ((if q.pStat = .szomb then -2 else q.ruid) = n)

def Table.wanted (t : Table) (sel : Selection) (p : Nat) : Bool := decide ((t.proc p).pStat ≠ .sidl) && (t.proc p).belongs sel

def Table.picks (t : Table) (sel : Selection) (p : Nat) : Bool := decide ((t.proc p).pStat ≠ .sidl) && (t.proc p).picked sel

def Pause.Spares (a : Pause) (seen : List Nat) : Prop := ∀ q overlay, Event.exit q overlay ∈ a.events → q ∉ seen

def Steady (sel : Selection) (s : Call) (a : Answer) : Prop :=
  ∀ p zomb, s.pc = .scan (some p) zomb → (s.table.proc p).pStat ≠ .sidl → (s.table.proc p).pStat ≠ .szomb →
  (s.table.proc p).sload = false →
    ((∃ n, sel = .tty n) ∨ (∃ n, sel = .ruid n) → a.select.failed = false ∧ a.select.Spares (s.seen ++ [p])) ∧
      ((selects sel s.table p a.select).1 = true → s.buflen ≥ kinfoProc → a.fill.Spares (s.seen ++ [p]))

structure Table.Sound (t : Table) : Prop where
  distinct : (t.allproc ++ t.zombproc ++ t.freeproc).Nodup
  live : ∀ p ∈ t.allproc, (t.proc p).pStat ≠ .szomb
  dead : ∀ p ∈ t.zombproc, (t.proc p).pStat = .szomb

def Table.slots (t : Table) : Nat := (t.allproc ++ t.zombproc ++ t.freeproc).length

section
variable {t : Table} {visited rest : List Nat} {sel : Selection} {p : Nat} {a : Pause}

theorem after_middle : ∀ {front : List Nat}, p ∉ front → after p (front ++ p :: rest) = rest.head?
  | [],_ => if_pos rfl
  | q :: front,apart => by
    rw [mem_cons,not_or] at apart
    exact (if_neg (Ne.symm apart.1)).trans (after_middle apart.2)

/-- `visited` and then `rest` are on allproc, behind the processes that have come since the call started. -/
structure Scanning (t : Table) (visited rest : List Nat) : Prop where
  sound : t.Sound
  shape : ∃ fresh, t.allproc = fresh ++ visited ++ rest ∧ ∀ q ∈ fresh, q ∉ t.kept
  there : ∀ q ∈ t.kept, q ∈ t.allproc ∨ q ∈ t.zombproc

theorem Table.Sound.apart (sound : t.Sound) {q : Nat} (running : q ∈ t.allproc) : q ∉ t.zombproc ∧ q ∉ t.freeproc := by
  have distinct := sound.distinct
  rw [append_assoc,nodup_append] at distinct
  have others := fun r there => distinct.2.2 q running r there
  exact ⟨fun zomb => others q (mem_append_left _ zomb) rfl,fun free => others q (mem_append_right _ free) rfl⟩

theorem Table.Sound.unfree (sound : t.Sound) {q : Nat} (free : q ∈ t.freeproc) : q ∉ t.allproc ∧ q ∉ t.zombproc := by
  have distinct := sound.distinct
  rw [nodup_append] at distinct
  have others := fun r there => distinct.2.2 r there q free
  exact ⟨fun running => others q (mem_append_left _ running) rfl,fun zomb => others q (mem_append_right _ zomb) rfl⟩

section
variable (scanning : Scanning t visited rest)
include scanning

theorem Scanning.fork (child : Proc) : Scanning (t.happens (.fork child)) visited rest ∧
    (t.happens (.fork child)).slots = t.slots ∧ ∀ q ∈ visited, (t.happens (.fork child)).proc q = t.proc q := by
  rw [Table.happens]
  cases shape : t.freeproc with
  | nil => exact ⟨scanning,rfl,fun _ _ => rfl⟩
  | cons q free =>
    obtain ⟨fresh,listed,new⟩ := scanning.shape
    obtain ⟨idle,clean⟩ := scanning.sound.unfree (q := q) (by rw [shape]; exact mem_cons_self)
    have moved : (t.allproc ++ t.zombproc ++ t.freeproc).Perm (q :: t.allproc ++ t.zombproc ++ free) := by
      rw [shape]
      exact perm_middle
    have other : ∀ r, r ≠ q → update t.proc q {child with pStat := .srun} r = t.proc r := fun r apart =>
      update_of_ne apart _ _
    refine ⟨⟨⟨moved.nodup_iff.mp scanning.sound.distinct,fun r member => ?_,fun r member => ?_⟩,⟨q :: fresh,?_,?_⟩,?_⟩,
      moved.length_eq.symm,fun r member => other r ?_⟩
    · rcases mem_cons.mp member with rfl | member
      · exact ne_of_eq_of_ne (congrArg Proc.pStat (update_self _ _ _)) (show Stat.srun ≠ Stat.szomb by decide)
      · exact ne_of_eq_of_ne (congrArg Proc.pStat (other r fun same => idle (same ▸ member))) (scanning.sound.live r member)
    · exact (congrArg Proc.pStat (other r fun same => clean (same ▸ member))).trans (scanning.sound.dead r member)
    · exact congrArg (q :: ·) listed
    · intro r member kept
      rcases mem_cons.mp member with rfl | member
      · exact (scanning.there r kept).elim idle clean
      · exact new r member kept
    · exact fun r kept => (scanning.there r kept).imp (mem_cons_of_mem _) id
    · rintro rfl
      exact idle (by rw [listed]; simp [member])

theorem Scanning.exit {q : Nat} (overlay : Int) (spared : q ∉ visited) :
    ∃ rest', Scanning (t.happens (.exit q overlay)) visited rest' ∧ (t.happens (.exit q overlay)).slots = t.slots ∧
      ∀ r ∈ visited, (t.happens (.exit q overlay)).proc r = t.proc r := by
  rw [Table.happens]
  by_cases running : q ∈ t.allproc
  · rw [if_pos running]
    obtain ⟨fresh,listed,new⟩ := scanning.shape
    have distinct := scanning.sound.distinct
    have nodup : t.allproc.Nodup := (nodup_append.mp (nodup_append.mp distinct).1).1
    have moved : (t.allproc ++ t.zombproc ++ t.freeproc).Perm (t.allproc.erase q ++ (q :: t.zombproc) ++ t.freeproc) :=
      ((((perm_cons_erase running).append_right _).trans perm_middle.symm).append_right _)
    have other : ∀ r, r ≠ q → update t.proc q {t.proc q with pStat := .szomb,overlay} r = t.proc r :=
      fun r apart => update_of_ne apart _ _
    have split : ∃ fresh' rest', t.allproc.erase q = fresh' ++ visited ++ rest' ∧ ∀ r ∈ fresh', r ∈ fresh := by
      by_cases early : q ∈ fresh
      · refine ⟨fresh.erase q,rest,?_,fun r => mem_of_mem_erase⟩
        rw [listed,append_assoc,erase_append_left _ early,append_assoc]
      refine ⟨fresh,rest.erase q,?_,fun r => id⟩
      rw [listed,erase_append_right]
      exact fun member => (mem_append.mp member).elim early spared
    obtain ⟨fresh',rest',erased,part⟩ := split
    refine ⟨rest',⟨⟨moved.nodup_iff.mp distinct,fun r member => ?_,fun r member => ?_⟩,
      ⟨fresh',erased,fun r member => new r (part r member)⟩,
      fun r kept => ?_⟩,moved.length_eq.symm,fun r member => other r fun same => spared (same ▸ member)⟩
    · have apart := (nodup.mem_erase_iff.mp member).1
      exact ne_of_eq_of_ne (congrArg Proc.pStat (other r apart)) (scanning.sound.live r (mem_of_mem_erase member))
    · rcases mem_cons.mp member with here | old
      · rw [here]
        exact congrArg Proc.pStat (update_self q _ t.proc)
      refine (congrArg Proc.pStat (other r ?_)).trans (scanning.sound.dead r old)
      rintro rfl
      exact (scanning.sound.apart running).1 old
    · by_cases same : r = q
      · exact .inr (mem_cons.mpr (.inl same))
      · exact (scanning.there r kept).imp (fun member => (mem_erase_of_ne same).mpr member) (mem_cons_of_mem _)
  · rw [if_neg running]
    exact ⟨rest,scanning,rfl,fun _ _ => rfl⟩

theorem Scanning.reap (q : Nat) : Scanning (t.happens (.reap q)) visited rest ∧
    (t.happens (.reap q)).slots = t.slots ∧ ∀ r ∈ visited, (t.happens (.reap q)).proc r = t.proc r := by
  rw [Table.happens]
  by_cases zomb : q ∈ t.zombproc
  · rw [if_pos zomb]
    obtain ⟨fresh,listed,new⟩ := scanning.shape
    have distinct := scanning.sound.distinct
    have idle : q ∉ t.allproc := fun running => (scanning.sound.apart running).1 zomb
    have nodup : t.zombproc.Nodup := (nodup_append.mp (nodup_append.mp distinct).1).2.1
    have moved : (t.allproc ++ t.zombproc ++ t.freeproc).Perm (t.allproc ++ t.zombproc.erase q ++ (q :: t.freeproc)) := by
      rw [append_assoc,append_assoc]
      exact (((perm_cons_erase zomb).append_right _).trans perm_middle.symm).append_left _
    have other : ∀ r, r ≠ q → update t.proc q {t.proc q with pStat := .null,pPid := 0,group := 0} r = t.proc r :=
      fun r apart => update_of_ne apart _ _
    refine ⟨⟨⟨moved.nodup_iff.mp distinct,fun r member => ?_,fun r member => ?_⟩,
      ⟨fresh,listed,fun r member kept => ?_⟩,fun r kept => ?_⟩,
      moved.length_eq.symm,fun r member => other r ?_⟩
    · exact ne_of_eq_of_ne (congrArg Proc.pStat (other r fun same => idle (same ▸ member))) (scanning.sound.live r member)
    · have apart := (nodup.mem_erase_iff.mp member).1
      exact (congrArg Proc.pStat (other r apart)).trans (scanning.sound.dead r (mem_of_mem_erase member))
    · exact new r member (mem_filter.mp kept).1
    · obtain ⟨member,apart⟩ := mem_filter.mp kept
      exact (scanning.there r member).imp id fun there => (mem_erase_of_ne (of_decide_eq_true apart)).mpr there
    · rintro rfl
      exact idle (by rw [listed]; simp [member])
  · rw [if_neg zomb]
    exact ⟨scanning,rfl,fun _ _ => rfl⟩

theorem Scanning.slept (events : List Event) (spares : ∀ q overlay, Event.exit q overlay ∈ events → q ∉ visited) :
    ∃ rest', Scanning (events.foldl Table.happens t) visited rest' ∧ (events.foldl Table.happens t).slots = t.slots ∧
      ∀ q ∈ visited, (events.foldl Table.happens t).proc q = t.proc q := by
  induction events generalizing t rest with
  | nil => exact ⟨rest,scanning,rfl,fun _ _ => rfl⟩
  | cons e events ih =>
    have one : ∃ rest', Scanning (t.happens e) visited rest' ∧ (t.happens e).slots = t.slots ∧
        ∀ q ∈ visited, (t.happens e).proc q = t.proc q := by
      cases e with
      | fork child => exact ⟨rest,scanning.fork child⟩
      | exit q overlay => exact scanning.exit overlay (spares q overlay mem_cons_self)
      | reap q => exact ⟨rest,scanning.reap q⟩
    obtain ⟨rest₁,next,slots,same⟩ := one
    obtain ⟨rest₂,last,slots',same'⟩ := ih next fun q overlay member => spares q overlay (mem_cons_of_mem _ member)
    exact ⟨rest₂,last,slots'.trans slots,fun q member => (same' q member).trans (same q member)⟩

theorem Scanning.filled (spares : (t.proc p).pStat ≠ .szomb → (t.proc p).sload = false → a.Spares visited) :
    ∃ rest', Scanning (fillFromU t p a).2 visited rest' ∧ (fillFromU t p a).2.slots = t.slots ∧
      ∀ q ∈ visited, (fillFromU t p a).2.proc q = t.proc q := by
  rw [fillFromU]
  by_cases zomb : (t.proc p).pStat = .szomb
  · rw [if_pos zomb]
    exact ⟨rest,scanning,rfl,fun _ _ => rfl⟩
  rw [if_neg zomb]
  cases loaded : (t.proc p).sload with
  | true => exact ⟨rest,scanning,rfl,fun _ _ => rfl⟩
  | false => exact scanning.slept a.events (spares zomb loaded)

end

theorem Scanning.selected (sel : Selection) (p : Nat) (a : Pause) (scanning : Scanning t visited rest)
    (spares : (∃ n, sel = .tty n) ∨ (∃ n, sel = .ruid n) → (t.proc p).pStat ≠ .szomb →
    (t.proc p).sload = false → a.Spares visited) :
    ∃ rest', Scanning (selects sel t p a).2 visited rest' ∧ (selects sel t p a).2.slots = t.slots ∧
      ∀ q ∈ visited, (selects sel t p a).2.proc q = t.proc q := by
  cases sel with
  | tty n => exact scanning.filled (spares (.inl ⟨n,rfl⟩))
  | ruid n => exact scanning.filled (spares (.inr ⟨n,rfl⟩))
  | _ => exact ⟨rest,scanning,rfl,fun _ _ => rfl⟩

theorem selects_picked (sel : Selection) (t : Table) (p : Nat) (a : Pause)
    (read : (∃ n, sel = .tty n) ∨ (∃ n, sel = .ruid n) → (t.proc p).pStat ≠ .szomb → (t.proc p).sload = false →
    a.failed = false) : (selects sel t p a).1 = (t.proc p).picked sel := by
  cases sel with
  | tty n =>
    by_cases zomb : (t.proc p).pStat = .szomb
    · simp [selects,Proc.picked,fillFromU,zomb]
    cases loaded : (t.proc p).sload with
    | true => simp [selects,Proc.picked,fillFromU,zomb,loaded]
    | false => simp [selects,Proc.picked,fillFromU,zomb,loaded,read (.inl ⟨n,rfl⟩) zomb loaded]
  | ruid n =>
    by_cases zomb : (t.proc p).pStat = .szomb
    · simp [selects,Proc.picked,fillFromU,zomb]
    cases loaded : (t.proc p).sload with
    | true => simp [selects,Proc.picked,fillFromU,zomb,loaded]
    | false => simp [selects,Proc.picked,fillFromU,zomb,loaded,read (.inr ⟨n,rfl⟩) zomb loaded]
  | _ => rfl

theorem filled_zombie (zomb : (t.proc p).pStat = .szomb) : (fillFromU t p a).2 = t := by
  rw [fillFromU,if_pos zomb]

theorem selected_zombie (zomb : (t.proc p).pStat = .szomb) : (selects sel t p a).2 = t := by
  cases sel with
  | tty n => exact filled_zombie zomb
  | ruid n => exact filled_zombie zomb
  | _ => rfl

theorem Scanning.advance (scanning : Scanning t visited (p :: rest)) : Scanning t (visited ++ [p]) rest := by
  obtain ⟨fresh,listed,new⟩ := scanning.shape
  exact ⟨scanning.sound,⟨fresh,by rw [listed]; simp,new⟩,scanning.there⟩

theorem Scanning.next (scanning : Scanning t (visited ++ [p]) rest) : t.pNxt p = rest.head? := by
  obtain ⟨fresh,listed,_⟩ := scanning.shape
  have shape : t.allproc = (fresh ++ visited) ++ p :: rest := by
    rw [listed]
    simp
  have nodup : t.allproc.Nodup := (nodup_append.mp (nodup_append.mp scanning.sound.distinct).1).1
  rw [shape] at nodup
  rw [Table.pNxt,if_pos (by rw [shape]; simp),shape,after_middle fun early =>
    (nodup_append.mp nodup).2.2 p early p mem_cons_self rfl]

theorem Table.Sound.next_zombie (sound : t.Sound) {done : List Nat} (listed : t.zombproc = done ++ p :: rest) :
    t.pNxt p = rest.head? := by
  have member : p ∈ t.zombproc := by
    rw [listed]
    simp
  have nodup : t.zombproc.Nodup := (nodup_append.mp (nodup_append.mp sound.distinct).1).2.1
  rw [listed] at nodup
  rw [Table.pNxt,if_neg fun running => (sound.apart running).1 member,if_pos member,listed,
    after_middle fun early => (nodup_append.mp nodup).2.2 p early p mem_cons_self rfl]

theorem filter_snoc (f : Nat → Bool) (l : List Nat) (p : Nat) : (l ++ [p]).filter f = l.filter f ++ if f p then [p] else [] := by
  rw [filter_append,filter_singleton]
  cases f p <;> rfl

theorem filter_picks {t' : Table} (same : ∀ q ∈ visited, t'.proc q = t.proc q) :
    visited.filter (t'.picks sel) = visited.filter (t.picks sel) :=
  filter_congr fun q member => by rw [Table.picks,Table.picks,same q member]

end

section
variable {sel : Selection} {buffer : Option Nat} {s : Call} {a : Answer} {n : Nat}

/-- What every steady turn keeps: the selected are those of the seen that are picked, and the seen are a part of the lists. -/
structure Inv (sel : Selection) (n : Nat) (s : Call) : Prop where
  found : s.found = s.seen.filter (s.table.picks sel)
  slots : s.table.slots = n
  place : match s.pc with
    | .scan p false => ∃ rest, p = rest.head? ∧ Scanning s.table s.seen rest
    | .scan p true => ∃ live done rest, p = rest.head? ∧ s.seen = live ++ done ∧
      s.table.zombproc = done ++ rest ∧ Scanning s.table live []
    | .ended errno => errno ≠ efault → ∃ live, s.seen = live ++ s.table.zombproc ∧ Scanning s.table live []

theorem start_inv (sel : Selection) (buffer : Option Nat) (t : Table) (sound : t.Sound) :
    Inv sel t.slots (sysctlDoproc buffer t) :=
  ⟨rfl,rfl,⟨t.allproc,rfl,⟨sound.distinct,sound.live,sound.dead⟩,⟨[],rfl,fun _ none => nomatch none⟩,fun _ => mem_append.mp⟩⟩

theorem live_turn {p : Nat} (inv : Inv sel n s) (here : s.pc = .scan (some p) false) (steady : Steady sel s a) :
    Inv sel n (step sel buffer s a) := by
  obtain ⟨found,slots,place⟩ := inv
  rw [here] at place
  obtain ⟨all,head,scanning⟩ := place
  obtain ⟨rest,rfl⟩ := List.head?_eq_some_iff.mp head.symm
  have now := scanning.advance
  have running : p ∈ s.table.allproc := by
    obtain ⟨fresh,listed,_⟩ := scanning.shape
    rw [listed]
    simp
  have live := scanning.sound.live p running
  simp only [step,here]
  by_cases idl : (s.table.proc p).pStat = .sidl
  · rw [if_pos idl]
    refine ⟨?_,slots,rest,now.next,now⟩
    change s.found = (s.seen ++ [p]).filter (s.table.picks sel)
    rw [filter_snoc,found]
    simp [Table.picks,idl]
  rw [if_neg idl]
  have calm := steady p false here idl live
  have pick := selects_picked sel s.table p a.select fun reads _ out => ((calm out).1 reads).1
  obtain ⟨rest₁,next,slots₁,same⟩ := now.selected sel p a.select fun reads _ out => ((calm out).1 reads).2
  have mine := same p (mem_append_right _ mem_cons_self)
  cases picked : (selects sel s.table p a.select).1 with
  | false =>
    rw [if_neg Bool.false_ne_true]
    refine ⟨?_,slots₁.trans slots,rest₁,next.next,next⟩
    change s.found = (s.seen ++ [p]).filter ((selects sel s.table p a.select).2.picks sel)
    rw [filter_picks same,filter_snoc,found]
    simp [Table.picks,← pick,picked]
  | true =>
    have more : s.found ++ [p] = (s.seen ++ [p]).filter (s.table.picks sel) := by
      rw [filter_snoc,found]
      simp [Table.picks,← pick,picked,idl]
    rw [if_pos rfl,report]
    dsimp only
    by_cases room : s.buflen ≥ kinfoProc
    · rw [if_pos room]
      obtain ⟨rest₂,last,slots₂,same₂⟩ := next.filled (p := p) (a := a.fill) fun alive out => by
        rw [mine] at out
        exact (calm out).2 picked room
      have both : (s.seen ++ [p]).filter (s.table.picks sel) =
          (s.seen ++ [p]).filter ((fillFromU (selects sel s.table p a.select).2 p a.fill).2.picks sel) := by
        rw [filter_picks same₂,filter_picks same]
      split
      · exact ⟨more.trans both,slots₂.trans (slots₁.trans slots),fun ended => absurd rfl ended⟩
      · exact ⟨more.trans both,slots₂.trans (slots₁.trans slots),rest₂,last.next,last⟩
    · rw [if_neg room]
      exact ⟨more.trans (filter_picks same).symm,slots₁.trans slots,rest₁,next.next,next⟩

theorem zombie_turn {p : Nat} (inv : Inv sel n s) (here : s.pc = .scan (some p) true) : Inv sel n (step sel buffer s a) := by
  obtain ⟨found,slots,place⟩ := inv
  rw [here] at place
  obtain ⟨live,done,all,head,seen,listed,scanning⟩ := place
  obtain ⟨rest,rfl⟩ := List.head?_eq_some_iff.mp head.symm
  have zomb := scanning.sound.dead p (by rw [listed]; simp)
  have next := scanning.sound.next_zombie listed
  have idl : (s.table.proc p).pStat ≠ .sidl := by
    rw [zomb]
    decide
  have pick := selects_picked sel s.table p a.select fun _ alive => absurd zomb alive
  have behind : s.seen ++ [p] = live ++ (done ++ [p]) := by rw [seen,append_assoc]
  have remain : s.table.zombproc = (done ++ [p]) ++ rest := by rw [listed,append_assoc]; rfl
  have more : (s.seen ++ [p]).filter (s.table.picks sel) =
    s.found ++ if (selects sel s.table p a.select).1 then [p] else [] := by
    rw [filter_snoc,Table.picks,← pick,decide_eq_true idl,Bool.true_and,found]
  simp only [step,here,if_neg idl,selected_zombie zomb,report,filled_zombie zomb,pass]
  cases picked : (selects sel s.table p a.select).1 with
  | false =>
    rw [picked,if_neg Bool.false_ne_true,append_nil] at more
    exact ⟨more.symm,slots,live,done ++ [p],rest,next,behind,remain,scanning⟩
  | true =>
    rw [picked,if_pos rfl] at more
    rw [if_pos rfl]
    split
    · split
      · exact ⟨more.symm,slots,fun ended => absurd rfl ended⟩
      · exact ⟨more.symm,slots,live,done ++ [p],rest,next,behind,remain,scanning⟩
    · exact ⟨more.symm,slots,live,done ++ [p],rest,next,behind,remain,scanning⟩

theorem step_inv (inv : Inv sel n s) (steady : Steady sel s a) : Inv sel n (step sel buffer s a) := by
  cases here : s.pc with
  | ended errno =>
    rw [step,here]
    exact inv
  | scan p zomb =>
    cases p with
    | some p =>
      cases zomb with
      | false => exact live_turn inv here steady
      | true => exact zombie_turn inv here
    | none =>
      obtain ⟨found,slots,place⟩ := inv
      rw [here] at place
      cases zomb with
      | false =>
        obtain ⟨rest,head,scanning⟩ := place
        obtain rfl := List.head?_eq_none_iff.mp head.symm
        rw [step,here]
        exact ⟨found,slots,s.seen,[],s.table.zombproc,rfl,(append_nil _).symm,rfl,scanning⟩
      | true =>
        obtain ⟨live,done,rest,head,seen,listed,scanning⟩ := place
        obtain rfl := List.head?_eq_none_iff.mp head.symm
        rw [append_nil] at listed
        rw [step,here]
        cases buffer with
        | none => exact ⟨found,slots,fun _ => ⟨live,seen.trans (by rw [← listed]; rfl),scanning⟩⟩
        | some length => exact ⟨found,slots,fun _ => ⟨live,seen.trans (by rw [← listed]; rfl),scanning⟩⟩

structure Counted (buffer : Option Nat) (s : Call) : Prop where
  fits : s.dp.map Entry.ePaddr = s.found.take (buffer.getD 0 / kinfoProc)
  room : s.buflen + s.dp.length * kinfoProc = buffer.getD 0
  needed : s.needed = s.found.length * kinfoProc
  result : ∀ errno, s.pc = .ended errno → (buffer.isSome → s.sizep = s.dp.length * kinfoProc) ∧
    (errno = enomem ↔ buffer.isSome ∧ s.dp.length < s.found.length)

theorem Counted.space (counted : Counted buffer s) : s.dp.length = min (buffer.getD 0 / kinfoProc) s.found.length ∧
    (s.buflen ≥ kinfoProc → s.found.length + 1 ≤ buffer.getD 0 / kinfoProc) ∧
      (¬ s.buflen ≥ kinfoProc → buffer.getD 0 / kinfoProc ≤ s.found.length) := by
  have long : s.dp.length = min (buffer.getD 0 / kinfoProc) s.found.length := by
    rw [← length_take,← counted.fits,length_map]
  have total := counted.room
  refine ⟨long,?_⟩
  rw [kinfoProc] at *
  omega

def Pc.phase : Pc → Nat
  | .scan _ false => 0
  | .scan _ true => 1
  | .ended _ => 2

def Call.turns (s : Call) : Nat := s.seen.length + s.pc.phase

end

theorem filter_agree {l : List Nat} {f g h : Nat → Bool} : (l.filter f).filter h = l.filter (fun p => h p && g p) ↔
    ∀ p ∈ l, h p = true → f p = g p := by
  rw [filter_filter]
  constructor
  · intro same p member there
    have both := congrArg (p ∈ ·) same
    simp only [mem_filter,member,true_and,there,Bool.true_and,eq_iff_iff] at both
    exact Bool.eq_iff_iff.mpr both
  intro agree
  refine filter_congr fun p member => ?_
  cases there : h p with
  | false => rfl
  | true => rw [agree p member there]

theorem Inv.listed {sel : Selection} {n errno : Nat} {s : Call} (inv : Inv sel n s)
    (ended : s.pc = .ended errno) (done : errno ≠ efault) :
    s.found.filter (· ∈ s.table.kept) = (s.table.allproc ++ s.table.zombproc).filter (fun p =>
    p ∈ s.table.kept && s.table.wanted sel p) ↔
      ∀ p ∈ s.table.kept, (s.table.proc p).pStat ≠ .sidl → (s.table.proc p).picked sel = (s.table.proc p).belongs sel := by
  obtain ⟨found,_,place⟩ := inv
  rw [ended] at place
  obtain ⟨live,seen,scanning⟩ := place done
  obtain ⟨fresh,listed,new⟩ := scanning.shape
  rw [append_nil] at listed
  have none : fresh.filter (fun p => p ∈ s.table.kept && s.table.wanted sel p) = [] := by
    rw [filter_eq_nil_iff]
    intro p member
    simp [new p member]
  have right : (fresh ++ (live ++ s.table.zombproc)).filter (fun p => p ∈ s.table.kept && s.table.wanted sel p) =
      (live ++ s.table.zombproc).filter (fun p => p ∈ s.table.kept && s.table.wanted sel p) := by
    rw [filter_append,none,nil_append]
  have known : ∀ p ∈ s.table.kept, p ∈ live ++ s.table.zombproc := by
    intro p kept
    rcases scanning.there p kept with running | zomb
    · rw [listed] at running
      exact mem_append_left _ ((mem_append.mp running).resolve_left fun early => new p early kept)
    · exact mem_append_right _ zomb
  rw [found,seen,listed,append_assoc,right,filter_agree]
  constructor
  · intro agree p kept here
    simpa [Table.picks,Table.wanted,here] using agree p (known p kept) (decide_eq_true kept)
  intro tells p _ kept
  have told := tells p (of_decide_eq_true kept)
  by_cases idl : (s.table.proc p).pStat = .sidl
  · simp [Table.picks,Table.wanted,idl]
  · rw [Table.picks,Table.wanted,told idl]

def quiet : Answer := ⟨⟨false,[]⟩,⟨false,[]⟩,false⟩

def idle (pid group : Int) (sload : Bool) : Proc := ⟨.ssleep,pid,group,0,3,3,none,-1,sload⟩

end Retrobsd.ProcessListing

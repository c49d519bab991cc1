import Retrobsd.Lib.Run
import Retrobsd.Rdisk

/-! The number of opens that `rdisk.c` counts for each disk, over whole runs of `rdopen`, `rdclose`, `rdsize` and
`partition_type`, with every request to a disk and every change of a count on record. -/
namespace Retrobsd.DiskAccounts
open List
open Function
open BufferCache (Config Dev Diskflags major minor sdCard)
open Rdisk (Response enodev enxio lbalength lbastart partitionType)
open Lib.Run

inductive Routine where
  | init
  | read
  | size
  | opening
  | deinit
deriving DecidableEq

inductive Event where
  | called (root : Nat) (routine : Routine) (answer : Response)
  | counted (root opens : Nat)

structure Kernel where
  dflags : Nat → Diskflags
  tick : Nat
  events : List Event

variable (cfg : Config) (hw : Nat → Response)

def asked (root : Nat) (routine : Routine) (k : Kernel) : Kernel :=
  {k with tick := k.tick + 1,events := k.events ++ [.called root routine (hw k.tick)]}

def setOpens (root opens : Nat) (k : Kernel) : Kernel := {k with
    dflags := update k.dflags root {k.dflags root with opens}
    events := k.events ++ [.counted root opens]}

def readMbr (k : Kernel) (root : Nat) : Kernel × Option Block :=
  if root ≥ cfg.nrdsk then (k,none) else (asked hw root .read k,(hw k.tick).mbr)

def initDevice (k : Kernel) (root : Nat) : Kernel × Nat :=
  if root ≥ cfg.nrdsk then (k,enodev)
  else
    let e := (hw k.tick).errno
    let k := asked hw root .init k
    if e ≠ 0 then (k,e)
    else match readMbr cfg hw k root with
      | (k,none) => (k,enxio)
      | (k,some mbr) =>
        let blocks := (hw k.tick).blocks
        let k := asked hw root .size k
        ({k with dflags := update k.dflags root {k.dflags root with
          start := fun p => lbastart mbr p / 2,len := fun p => lbalength mbr p / 2,blocks}},0)

def openDevice (k : Kernel) (root : Nat) : Kernel × Nat :=
  if root ≥ cfg.nrdsk then (k,enodev)
  else match if (k.dflags root).opens = 0 then initDevice cfg hw k root else (k,0) with
    | (k,0) => (setOpens root (((k.dflags root).opens + 1) % 256) k,0)
    | (k,e) => (k,e)

def deinitDevice (k : Kernel) (root : Nat) : Kernel := if root ≥ cfg.nrdsk then k else asked hw root .deinit k

def closeDevice (k : Kernel) (root : Nat) : Kernel × Nat :=
  if root ≥ cfg.nrdsk then (k,enodev)
  else if (k.dflags root).opens = 0 then (k,enxio)
  else
    let k := setOpens root ((k.dflags root).opens - 1) k
    (if (k.dflags root).opens = 0 then deinitDevice cfg hw k root else k,0)

def rdopen (k : Kernel) (dev : Dev) : Kernel × Nat :=
  if major dev ≥ cfg.nrdsk then (k,enodev)
  else match openDevice cfg hw k (major dev) with
    | (k,0) => (asked hw (major dev) .opening k,(hw k.tick).errno)
    | (k,e) => (k,e)

def rdclose (k : Kernel) (dev : Dev) : Kernel × Nat :=
  if major dev ≥ cfg.nrdsk then (k,enodev) else ((closeDevice cfg hw k (major dev)).1,0)

def rdsize (k : Kernel) (dev : Dev) : Kernel × Nat :=
  if major dev ≥ cfg.nrdsk then (k,enodev)
  else if minor dev = 0 then (asked hw (major dev) .size k,(hw k.tick).blocks)
  else match rdopen cfg hw k dev with
    | (k,0) =>
      let blocks := if h : minor dev ≤ 4 ∧ minor dev ≠ 0 then (k.dflags (major dev)).len ⟨minor dev - 1,by omega⟩ else 0
      ((rdclose cfg hw k dev).1,blocks)
    | (k,_) => (k,0)

def partitionTypeOf (k : Kernel) (dev : Dev) : Except Kernel (Kernel × Nat) :=
  if minor dev < 1 ∨ minor dev > 4 then .ok (k,0)
  else match rdopen cfg hw k dev with
    | (k,0) => match readMbr cfg hw k (major dev) with
      | (k,none) => .error (rdclose cfg hw k dev).1
      | (k,some mbr) => .ok ((rdclose cfg hw k dev).1,partitionType mbr (minor dev - 1))
    | (k,_) => .ok (k,0)

inductive Op where
  | rdopen (dev : Dev)
  | rdclose (dev : Dev)
  | rdsize (dev : Dev)
  | partitionType (dev : Dev)

/-- `pending` are the successful opens of each disk that no close has been for. -/
structure State where
  kernel : Kernel
  pending : Nat → Nat

def perform (s : State) : Op → Except State State
  | .rdopen dev =>
    let (k,e) := rdopen cfg hw s.kernel dev
    .ok ⟨k,if e = 0 then update s.pending (major dev) (s.pending (major dev) + 1) else s.pending⟩
  | .rdclose dev =>
    let (k,e) := rdclose cfg hw s.kernel dev
    .ok ⟨k,if e = 0 then update s.pending (major dev) (s.pending (major dev) - 1) else s.pending⟩
  | .rdsize dev => .ok ⟨(rdsize cfg hw s.kernel dev).1,s.pending⟩
  | .partitionType dev => match partitionTypeOf cfg hw s.kernel dev with
    | .ok (k,_) => .ok ⟨k,s.pending⟩
    | .error k => .error ⟨k,s.pending⟩

/-- The partitions and the size of a disk are what it gave when it was last initialised, and it has not been given up since. -/
def Loaded (events : List Event) (d : Diskflags) (r : Nat) : Prop :=
  ∃ (before : List Event) (first : Response) (mbr : Block) (read size : Response) (later : List Event), events = before ++
      [.called r .init first,.called r .read read,.called r .size size] ++ later ∧
    first.errno = 0 ∧ read.mbr = some mbr ∧ (∀ p, d.start p = lbastart mbr p / 2 ∧ d.len p = lbalength mbr p / 2) ∧
    d.blocks = size.blocks ∧ ∀ answer, Event.called r .init answer ∉ later ∧ Event.called r .deinit answer ∉ later

/-- A disk is given up right after its count has become zero, and at no other time. -/
structure Deinits (events : List Event) : Prop where
  first : ∀ (r : Nat) (answer : Response), events[0]? ≠ some (.called r .deinit answer)
  pairs : ∀ i r : Nat, events[i]? = some (.counted r 0) ↔ ∃ answer : Response, events[i + 1]? = some (.called r .deinit answer)

/-- The counts are the opens that are pending, and a disk with pending opens is initialised. -/
structure Accounted (s : State) : Prop where
  balanced : ∀ r, (s.kernel.dflags r).opens = s.pending r
  fits : ∀ r, s.pending r < 256
  loaded : ∀ r, 0 < s.pending r → Loaded s.kernel.events (s.kernel.dflags r) r
  deinits : Deinits s.kernel.events

def Gives (tick : Nat) : Prop := (hw tick).errno = 0 ∧ (hw (tick + 1)).mbr ≠ none

instance (tick : Nat) : Decidable (Gives hw tick) := instDecidableAnd

def openingTick (k : Kernel) (root : Nat) : Option Nat :=
  if (k.dflags root).opens ≠ 0 then some k.tick
  else if Gives hw k.tick then some (k.tick + 3)
  else none

/-- An open that comes to the open routine of the device finds that it succeeds, and the count has room for it. -/
def Steady (k : Kernel) (root : Nat) : Prop :=
  root < cfg.nrdsk → ∀ tick, openingTick hw k root = some tick → (hw tick).errno = 0 ∧ (k.dflags root).opens < 255

def Allowed (s : State) : Op → Prop
  | .rdopen dev => Steady cfg hw s.kernel (major dev)
  | .rdclose _ => True
  | .rdsize dev => minor dev ≠ 0 → Steady cfg hw s.kernel (major dev)
  | .partitionType dev => 1 ≤ minor dev ∧ minor dev ≤ 4 → Steady cfg hw s.kernel (major dev)

section
variable {events later : List Event} {d : Diskflags} {r : Nat}

theorem Deinits.append (before : Deinits events) (after : Deinits later) : Deinits (events ++ later) := by
  have start : ∀ r answer, later[0]? ≠ some (.called r .deinit answer) := after.first
  constructor
  · intro r answer
    cases events with
    | nil => exact after.first r answer
    | cons e rest => exact before.first r answer
  intro i r
  by_cases inside : i + 1 < events.length
  · rw [List.getElem?_append_left (by omega),List.getElem?_append_left inside]
    exact before.pairs i r
  by_cases last : i + 1 = events.length
  · rw [List.getElem?_append_left (by omega),List.getElem?_append_right (by omega),before.pairs i r,last,Nat.sub_self]
    constructor
    · rintro ⟨answer,beyond⟩
      rw [List.getElem?_eq_none (Nat.le_refl _)] at beyond
      cases beyond
    · rintro ⟨answer,first⟩
      exact absurd first (start r answer)
  · have next : i + 1 - events.length = i - events.length + 1 := by omega
    rw [List.getElem?_append_right (by omega),List.getElem?_append_right (by omega),next]
    exact after.pairs _ r

theorem deinits_nil : Deinits [] := ⟨fun _ _ => nofun,fun _ _ => ⟨nofun,nofun⟩⟩

theorem deinits_called {routine : Routine} (kept : routine ≠ .deinit) (answer : Response) :
    Deinits [.called r routine answer] := by
  constructor
  · intro q other same
    cases same
    exact kept rfl
  intro i q
  cases i with
  | zero => exact ⟨nofun,nofun⟩
  | succ i => exact ⟨nofun,nofun⟩

theorem deinits_counted {opens : Nat} (some : opens ≠ 0) : Deinits [.counted r opens] := by
  constructor
  · exact fun _ _ => nofun
  intro i q
  cases i with
  | zero =>
    constructor
    · intro same
      cases same
      exact absurd rfl some
    · nofun
  | succ i => exact ⟨nofun,nofun⟩

theorem deinits_pair (r : Nat) (answer : Response) : Deinits [.counted r 0,.called r .deinit answer] := by
  constructor
  · exact fun _ _ => nofun
  intro i q
  match i with
  | 0 =>
    constructor
    · intro same
      cases same
      exact ⟨answer,rfl⟩
    rintro ⟨other,same⟩
    cases same
    rfl
  | 1 => exact ⟨nofun,nofun⟩
  | i + 2 => exact ⟨nofun,nofun⟩

theorem Loaded.append (loaded : Loaded events d r)
    (kept : ∀ answer, Event.called r .init answer ∉ later ∧ Event.called r .deinit answer ∉ later) :
    Loaded (events ++ later) d r := by
  obtain ⟨before,first,mbr,read,size,after,shape,good,table,partitions,blocks,none⟩ := loaded
  refine ⟨before,first,mbr,read,size,after ++ later,?_,good,table,partitions,blocks,fun answer => ?_⟩
  · rw [shape,append_assoc]
  simp only [mem_append,not_or]
  exact ⟨⟨(none answer).1,(kept answer).1⟩,⟨(none answer).2,(kept answer).2⟩⟩

theorem Loaded.congr {d' : Diskflags} (loaded : Loaded events d r) (start : d'.start = d.start) (len : d'.len = d.len)
    (blocks : d'.blocks = d.blocks) : Loaded events d' r := by
  rw [Loaded,start,len,blocks]
  exact loaded

end

section
variable {cfg : Config} {hw : Nat → Response} {k k' l : Kernel} {p p' : Nat → Nat} {r : Nat} {dev : Dev}

structure Frame (r : Nat) (k k' : Kernel) : Prop where
  others : ∀ q, q ≠ r → k'.dflags q = k.dflags q
  events : ∃ b, k'.events = k.events ++ b ∧ Deinits b ∧ ∀ q routine answer, Event.called q routine answer ∈ b → q = r

theorem Frame.refl (r : Nat) (k : Kernel) : Frame r k k := ⟨fun _ _ => rfl,[],(append_nil _).symm,deinits_nil,fun _ _ _ => nofun⟩

theorem Frame.trans (first : Frame r k l) (second : Frame r l k') : Frame r k k' := by
  obtain ⟨b,shape,deinits,own⟩ := first.events
  obtain ⟨b',shape',deinits',own'⟩ := second.events
  refine ⟨fun q other => (second.others q other).trans (first.others q other),b ++ b',?_,deinits.append deinits',
    fun q routine answer member => ?_⟩
  · rw [shape',shape,append_assoc]
  rcases mem_append.mp member with before | after
  · exact own q routine answer before
  · exact own' q routine answer after

theorem frame_asked {routine : Routine} (kept : routine ≠ .deinit) : Frame r k (asked hw r routine k) := by
  refine ⟨fun _ _ => rfl,_,rfl,deinits_called kept _,fun q other answer member => ?_⟩
  cases mem_singleton.mp member
  rfl

theorem frame_setOpens {opens : Nat} (some : opens ≠ 0) : Frame r k (setOpens r opens k) :=
  ⟨fun _ other => update_of_ne other _ _,_,rfl,deinits_counted some,fun _ _ _ member => nomatch mem_singleton.mp member⟩

theorem Accounted.frame (accounted : Accounted ⟨k,p⟩) (frame : Frame r k k') (others : ∀ q, q ≠ r → p' q = p q)
    (count : (k'.dflags r).opens = p' r) (small : p' r < 256) (loaded : 0 < p' r → Loaded k'.events (k'.dflags r) r) :
    Accounted ⟨k',p'⟩ := by
  obtain ⟨b,shape,deinits,own⟩ := frame.events
  refine ⟨fun q => ?_,fun q => ?_,fun q used => ?_,?_⟩
  · by_cases same : q = r
    · rw [same]
      exact count
    · exact ((congrArg Diskflags.opens (frame.others q same)).trans (accounted.balanced q)).trans (others q same).symm
  · by_cases same : q = r
    · rw [same]
      exact small
    · exact (others q same).trans_lt (accounted.fits q)
  · by_cases same : q = r
    · subst same
      exact loaded used
    change Loaded k'.events (k'.dflags q) q
    rw [shape,frame.others q same]
    exact (accounted.loaded q (used.trans_eq (others q same))).append fun answer =>
      ⟨fun member => same (own q _ _ member),fun member => same (own q _ _ member)⟩
  · change Deinits k'.events
    rw [shape]
    exact accounted.deinits.append deinits

theorem initDevice_fails (disk : r < cfg.nrdsk) (bad : ¬ Gives hw k.tick) :
    ∃ k' e, initDevice cfg hw k r = (k',e) ∧ e ≠ 0 ∧ Frame r k k' ∧ k'.dflags = k.dflags := by
  have number : ¬ r ≥ cfg.nrdsk := Nat.not_le.mpr disk
  by_cases failed : (hw k.tick).errno ≠ 0
  · have asks : initDevice cfg hw k r = (asked hw r .init k,(hw k.tick).errno) := by
      rw [initDevice,if_neg number]
      dsimp only
      rw [if_pos failed]
    exact ⟨_,_,asks,failed,frame_asked (by decide),rfl⟩
  have none : (hw (k.tick + 1)).mbr = none := by
    by_contra some
    exact bad ⟨not_not.mp failed,some⟩
  have first : Frame r k (asked hw r .init k) := frame_asked (by decide)
  have second : Frame r (asked hw r .init k) (asked hw r .read (asked hw r .init k)) := frame_asked (by decide)
  refine ⟨_,enxio,?_,by decide,first.trans second,rfl⟩
  rw [initDevice,if_neg number]
  dsimp only
  rw [if_neg failed,readMbr,if_neg number]
  simp only [asked,none]

theorem initDevice_loads (disk : r < cfg.nrdsk) (good : Gives hw k.tick) :
    ∃ k', initDevice cfg hw k r = (k',0) ∧ Frame r k k' ∧ (k'.dflags r).opens = (k.dflags r).opens ∧ k'.tick = k.tick + 3 ∧
      Loaded k'.events (k'.dflags r) r := by
  have number : ¬ r ≥ cfg.nrdsk := Nat.not_le.mpr disk
  obtain ⟨mbr,given⟩ := Option.ne_none_iff_exists'.mp good.2
  have framed : Frame r k (asked hw r .size (asked hw r .read (asked hw r .init k))) :=
    ((frame_asked (by decide)).trans (frame_asked (by decide))).trans (frame_asked (by decide))
  refine ⟨{asked hw r .size (asked hw r .read (asked hw r .init k)) with
    dflags := update k.dflags r {k.dflags r with
      start := fun p => lbastart mbr p / 2,len := fun p => lbalength mbr p / 2,blocks := (hw (k.tick + 2)).blocks}},
    ?_,⟨fun q other => ?_,framed.events⟩,?_,?_,?_⟩
  · rw [initDevice,if_neg number]
    dsimp only
    rw [if_neg (not_not.mpr good.1),readMbr,if_neg number]
    simp only [asked,given]
  · exact update_of_ne other _ _
  · dsimp only
    rw [update_self]
  · rfl
  · refine ⟨k.events,_,mbr,_,hw (k.tick + 2),[],?_,good.1,given,?_,?_,fun _ => ⟨nofun,nofun⟩⟩
    · simp [asked]
    · intro p
      simp
    · simp

@[simp] theorem setOpens_opens (r opens : Nat) (k : Kernel) : ((setOpens r opens k).dflags r).opens = opens := by
  dsimp only [setOpens]
  rw [update_self]

theorem loaded_setOpens (loaded : Loaded k.events (k.dflags r) r) (opens : Nat) :
    Loaded (setOpens r opens k).events ((setOpens r opens k).dflags r) r := by
  have table : (setOpens r opens k).dflags r = {k.dflags r with opens} := update_self _ _ _
  rw [table]
  exact (loaded.append fun _ => ⟨by simp,by simp⟩).congr rfl rfl rfl

theorem openDevice_fails (disk : r < cfg.nrdsk) (none : openingTick hw k r = none) :
    ∃ k' e, openDevice cfg hw k r = (k',e) ∧ e ≠ 0 ∧ Frame r k k' ∧ k'.dflags = k.dflags := by
  rw [openingTick] at none
  by_cases used : (k.dflags r).opens ≠ 0
  · rw [if_pos used] at none
    cases none
  rw [if_neg used] at none
  obtain ⟨k',e,ran,failed,framed,same⟩ := initDevice_fails (k := k) disk fun good => by
    rw [if_pos good] at none
    cases none
  refine ⟨k',e,?_,failed,framed,same⟩
  rw [openDevice,if_neg (Nat.not_le.mpr disk),if_pos (not_not.mp used),ran]
  cases e with
  | zero => exact absurd rfl failed
  | succ e => rfl

theorem openDevice_opens (disk : r < cfg.nrdsk) {tick : Nat} (found : openingTick hw k r = some tick)
    (loaded : 0 < (k.dflags r).opens → Loaded k.events (k.dflags r) r) :
    ∃ k', openDevice cfg hw k r = (k',0) ∧ k'.tick = tick ∧ (k'.dflags r).opens = ((k.dflags r).opens + 1) % 256 ∧
      ((k.dflags r).opens < 255 → Frame r k k' ∧ Loaded k'.events (k'.dflags r) r) := by
  have number : ¬ r ≥ cfg.nrdsk := Nat.not_le.mpr disk
  have ready : ∃ l, (if (k.dflags r).opens = 0 then initDevice cfg hw k r else (k,0)) = (l,0) ∧ Frame r k l ∧
      (l.dflags r).opens = (k.dflags r).opens ∧ l.tick = tick ∧ Loaded l.events (l.dflags r) r := by
    rw [openingTick] at found
    by_cases used : (k.dflags r).opens ≠ 0
    · rw [if_pos used] at found
      exact ⟨k,if_neg used,Frame.refl _ _,rfl,Option.some.inj found,loaded (Nat.pos_of_ne_zero used)⟩
    rw [if_neg used] at found
    by_cases good : Gives hw k.tick
    · obtain ⟨l,ran,framed,same,later,table⟩ := initDevice_loads (k := k) disk good
      rw [if_pos good] at found
      exact ⟨l,(if_pos (not_not.mp used)).trans ran,framed,same,later.trans (Option.some.inj found),table⟩
    · rw [if_neg good] at found
      cases found
  obtain ⟨l,first,framed,same,later,table⟩ := ready
  refine ⟨setOpens r (((l.dflags r).opens + 1) % 256) l,?_,later,?_,fun room => ⟨framed.trans (frame_setOpens (by omega)),?_⟩⟩
  · simp only [openDevice,if_neg number,first]
  · rw [setOpens_opens,same]
  · exact loaded_setOpens table _

theorem rdopen_fails (disk : major dev < cfg.nrdsk) (none : openingTick hw k (major dev) = none) :
    ∃ k' e, rdopen cfg hw k dev = (k',e) ∧ e ≠ 0 ∧ Frame (major dev) k k' ∧ k'.dflags = k.dflags := by
  obtain ⟨k',e,ran,failed,rest⟩ := openDevice_fails (k := k) disk none
  refine ⟨k',e,?_,failed,rest⟩
  rw [rdopen,if_neg (Nat.not_le.mpr disk),ran]
  cases e with
  | zero => exact absurd rfl failed
  | succ e => rfl

theorem loaded_asked {routine : Routine} (loaded : Loaded k.events (k.dflags r) r) (first : routine ≠ .init)
    (last : routine ≠ .deinit) :
    Loaded (asked hw r routine k).events ((asked hw r routine k).dflags r) r :=
  loaded.append fun answer => ⟨by simpa using fun same => (first same.symm).elim,by simpa using fun same =>
  (last same.symm).elim⟩

theorem rdopen_opens (disk : major dev < cfg.nrdsk) {tick : Nat} (found : openingTick hw k (major dev) = some tick)
    (loaded : 0 < (k.dflags (major dev)).opens → Loaded k.events (k.dflags (major dev)) (major dev)) :
    ∃ k', rdopen cfg hw k dev = (k',(hw tick).errno) ∧ (k'.dflags (major dev)).opens = ((k.dflags (major dev)).opens + 1) % 256 ∧
      ((k.dflags (major dev)).opens < 255 → Frame (major dev) k k' ∧ Loaded k'.events (k'.dflags (major dev)) (major dev)) := by
  obtain ⟨l,ran,later,count,rest⟩ := openDevice_opens disk found loaded
  refine ⟨asked hw (major dev) .opening l,?_,count,fun room => ?_⟩
  · rw [rdopen,if_neg (Nat.not_le.mpr disk),ran]
    simp only [later]
  obtain ⟨framed,table⟩ := rest room
  exact ⟨framed.trans (frame_asked (by decide)),loaded_asked table (by decide) (by decide)⟩

theorem rdclose_closes (hw : Nat → Response) (k : Kernel) (disk : major dev < cfg.nrdsk) :
    ∃ k', rdclose cfg hw k dev = (k',0) ∧ (k'.dflags (major dev)).opens = (k.dflags (major dev)).opens - 1 ∧
    Frame (major dev) k k' ∧
      (1 < (k.dflags (major dev)).opens → Loaded k.events (k.dflags (major dev)) (major dev) →
        Loaded k'.events (k'.dflags (major dev)) (major dev)) := by
  have number : ¬ major dev ≥ cfg.nrdsk := Nat.not_le.mpr disk
  rw [rdclose,if_neg number,closeDevice,if_neg number]
  by_cases none : (k.dflags (major dev)).opens = 0
  · rw [if_pos none]
    exact ⟨k,rfl,by omega,Frame.refl _ _,fun more => by omega⟩
  rw [if_neg none]
  dsimp only
  generalize left : (k.dflags (major dev)).opens - 1 = opens
  have count := setOpens_opens (major dev) opens k
  by_cases last : opens = 0
  · rw [count,if_pos last,deinitDevice,if_neg number]
    refine ⟨_,rfl,count,⟨fun q other => update_of_ne other _ _,?_⟩,fun more => by omega⟩
    refine ⟨[.counted (major dev) 0,.called (major dev) .deinit (hw k.tick)],?_,deinits_pair _ _,
      fun q routine answer member => ?_⟩
    · simp [asked,setOpens,last]
    simp only [mem_cons,reduceCtorEq,not_mem_nil,or_false,false_or,Event.called.injEq] at member
    exact member.1
  · rw [count,if_neg last]
    exact ⟨_,rfl,count,frame_setOpens last,fun _ table => loaded_setOpens table _⟩

end

section
variable {cfg : Config} {hw : Nat → Response} {s : State} {k k' : Kernel} {p : Nat → Nat} {dev : Dev} {e : Nat}

def ended : Except State State → State
  | .ok s => s
  | .error s => s

theorem Accounted.table (accounted : Accounted s) (r : Nat) (used : 0 < (s.kernel.dflags r).opens) :
    Loaded s.kernel.events (s.kernel.dflags r) r :=
  accounted.loaded r ((accounted.balanced r).symm ▸ used)

variable {r : Nat}

theorem not_accounted {t : State} (accounted : Accounted s) (same : t.pending r = s.pending r)
    (moved : (t.kernel.dflags r).opens ≠ (s.kernel.dflags r).opens) : ¬ Accounted t :=
  fun kept => moved (((kept.balanced r).trans same).trans (accounted.balanced r).symm)

theorem openingTick_none (none : openingTick hw k r = none) : (k.dflags r).opens = 0 := by
  by_contra used
  rw [openingTick,if_pos used] at none
  cases none

theorem steady_none (none : openingTick hw k r = none) : Steady cfg hw k r := by
  intro _ tick found
  rw [none] at found
  cases found

theorem steady_some {tick : Nat} (disk : r < cfg.nrdsk) (found : openingTick hw k r = some tick) :
    Steady cfg hw k r ↔ (hw tick).errno = 0 ∧ (k.dflags r).opens < 255 := by
  constructor
  · exact fun steady => steady disk tick found
  intro good _ other same
  obtain rfl := Option.some.inj (found.symm.trans same)
  exact good

section
variable (accounted : Accounted s)
include accounted

theorem Accounted.failed (none : openingTick hw s.kernel r = none) (framed : Frame r s.kernel k')
    (same : k'.dflags = s.kernel.dflags) : Accounted ⟨k',s.pending⟩ := by
  have count := accounted.balanced r
  refine accounted.frame framed (fun _ _ => rfl) ?_ (accounted.fits r) fun used => ?_
  · rw [same]
    exact count
  rw [openingTick_none none] at count
  exact absurd count (Nat.ne_of_lt used)

theorem perform_rdopen : Accounted (ended (perform cfg hw s (.rdopen dev))) ↔ Steady cfg hw s.kernel (major dev) := by
  by_cases disk : major dev < cfg.nrdsk
  · cases found : openingTick hw s.kernel (major dev) with
    | none =>
      obtain ⟨k',e,ran,failed,framed,same⟩ := rdopen_fails disk found
      simp only [perform,ran,if_neg failed]
      exact iff_of_true (accounted.failed found framed same) (steady_none found)
    | some tick =>
      obtain ⟨k',ran,count,rest⟩ := rdopen_opens disk found (accounted.table _)
      have fits := accounted.fits (major dev)
      have balanced := accounted.balanced (major dev)
      simp only [perform,ran]
      rw [steady_some disk found]
      by_cases good : (hw tick).errno = 0
      · rw [if_pos good,and_iff_right good]
        constructor
        · intro kept
          have room := kept.fits (major dev)
          simp only [ended,update_self] at room
          omega
        intro room
        obtain ⟨framed,table⟩ := rest room
        refine accounted.frame framed (fun q other => update_of_ne other _ _) ?_ ?_ fun _ => table
        · rw [count,update_self]
          omega
        rw [update_self]
        omega
      · rw [if_neg good]
        refine iff_of_false (not_accounted (r := major dev) accounted rfl ?_) fun both => good both.1
        change (k'.dflags (major dev)).opens ≠ _
        rw [count]
        omega
  · have number : major dev ≥ cfg.nrdsk := Nat.not_lt.mp disk
    have fails : rdopen cfg hw s.kernel dev = (s.kernel,enodev) := if_pos number
    simp only [perform,fails,if_neg (by decide : ¬ enodev = 0)]
    exact iff_of_true accounted fun here => absurd here disk

theorem perform_rdclose : Accounted (ended (perform cfg hw s (.rdclose dev))) := by
  by_cases disk : major dev < cfg.nrdsk
  · obtain ⟨k',ran,count,framed,rest⟩ := rdclose_closes hw s.kernel disk
    have balanced := accounted.balanced (major dev)
    have fits := accounted.fits (major dev)
    simp only [perform,ran,if_true]
    refine accounted.frame framed (fun q other => update_of_ne other _ _) ?_ ?_ fun used => ?_
    · rw [count,update_self,balanced]
    · rw [update_self]
      omega
    · rw [update_self] at used
      exact rest (by omega) (accounted.table _ (by omega))
  · have fails : rdclose cfg hw s.kernel dev = (s.kernel,enodev) := if_pos (Nat.not_lt.mp disk)
    simp only [perform,fails,if_neg (by decide : ¬ enodev = 0)]
    exact accounted

theorem reclosed (disk : major dev < cfg.nrdsk)
    (count : (k'.dflags (major dev)).opens = ((s.kernel.dflags (major dev)).opens + 1) % 256)
    (rest : (s.kernel.dflags (major dev)).opens < 255 → Frame (major dev) s.kernel k' ∧
    Loaded k'.events (k'.dflags (major dev)) (major dev)) :
    Accounted ⟨(rdclose cfg hw k' dev).1,s.pending⟩ ↔ (s.kernel.dflags (major dev)).opens < 255 := by
  obtain ⟨l,ran,closed,framed,kept⟩ := rdclose_closes hw k' disk
  have balanced := accounted.balanced (major dev)
  have fits := accounted.fits (major dev)
  rw [ran]
  constructor
  · intro after
    have left := after.balanced (major dev)
    change (l.dflags (major dev)).opens = s.pending (major dev) at left
    omega
  intro room
  obtain ⟨first,table⟩ := rest room
  refine accounted.frame (first.trans framed) (fun _ _ => rfl) ?_ fits fun used => kept (by omega) table
  change (l.dflags (major dev)).opens = s.pending (major dev)
  omega

theorem perform_rdsize : Accounted (ended (perform cfg hw s (.rdsize dev))) ↔ Allowed cfg hw s (.rdsize dev) := by
  rw [perform,rdsize,Allowed]
  by_cases disk : major dev < cfg.nrdsk
  · rw [if_neg (Nat.not_le.mpr disk)]
    by_cases whole : minor dev = 0
    · rw [if_pos whole]
      refine iff_of_true (accounted.frame (frame_asked (by decide)) (fun _ _ => rfl) (accounted.balanced _) (accounted.fits _)
        fun used => ?_) fun part => absurd whole part
      exact loaded_asked (accounted.loaded _ used) (by decide) (by decide)
    rw [if_neg whole,imp_iff_right whole]
    cases found : openingTick hw s.kernel (major dev) with
    | none =>
      obtain ⟨k',e,ran,failed,framed,same⟩ := rdopen_fails disk found
      obtain ⟨e,rfl⟩ := Nat.exists_eq_succ_of_ne_zero failed
      rw [ran]
      exact iff_of_true (accounted.failed found framed same) (steady_none found)
    | some tick =>
      obtain ⟨k',ran,count,rest⟩ := rdopen_opens disk found (accounted.table _)
      rw [ran,steady_some disk found]
      cases good : (hw tick).errno with
      | zero =>
        rw [and_iff_right rfl]
        exact reclosed accounted disk count rest
      | succ e =>
        refine iff_of_false (not_accounted (r := major dev) accounted rfl ?_) fun both => nomatch both.1
        change (k'.dflags (major dev)).opens ≠ _
        rw [count]
        omega
  · rw [if_pos (Nat.not_lt.mp disk)]
    exact iff_of_true accounted fun _ here => absurd here disk

theorem perform_partitionType :
    Accounted (ended (perform cfg hw s (.partitionType dev))) ↔ Allowed cfg hw s (.partitionType dev) := by
  rw [perform,partitionTypeOf,Allowed]
  by_cases part : minor dev < 1 ∨ minor dev > 4
  · rw [if_pos part]
    exact iff_of_true accounted fun inside => by omega
  rw [if_neg part,imp_iff_right (by omega)]
  by_cases disk : major dev < cfg.nrdsk
  · cases found : openingTick hw s.kernel (major dev) with
    | none =>
      obtain ⟨k',e,ran,failed,framed,same⟩ := rdopen_fails disk found
      obtain ⟨e,rfl⟩ := Nat.exists_eq_succ_of_ne_zero failed
      rw [ran]
      exact iff_of_true (accounted.failed found framed same) (steady_none found)
    | some tick =>
      obtain ⟨k',ran,count,rest⟩ := rdopen_opens disk found (accounted.table _)
      rw [ran,steady_some disk found]
      cases good : (hw tick).errno with
      | zero =>
        rw [and_iff_right rfl]
        have last : Accounted ⟨(rdclose cfg hw (asked hw (major dev) .read k') dev).1,s.pending⟩ ↔
          (s.kernel.dflags (major dev)).opens < 255 :=
          reclosed accounted disk count fun room =>
            ⟨(rest room).1.trans (frame_asked (by decide)),loaded_asked (rest room).2 (by decide) (by decide)⟩
        simp only [readMbr,if_neg (Nat.not_le.mpr disk)]
        cases (hw k'.tick).mbr with
        | none => exact last
        | some mbr => exact last
      | succ e =>
        refine iff_of_false (not_accounted (r := major dev) accounted rfl ?_) fun both => nomatch both.1
        change (k'.dflags (major dev)).opens ≠ _
        rw [count]
        omega
  · have fails : rdopen cfg hw s.kernel dev = (s.kernel,enodev) := if_pos (Nat.not_lt.mp disk)
    rw [fails]
    exact iff_of_true accounted fun here => absurd here disk

theorem perform_accounted (op : Op) : Accounted (ended (perform cfg hw s op)) ↔ Allowed cfg hw s op := by
  cases op with
  | rdopen dev => exact perform_rdopen accounted
  | rdclose dev => exact iff_of_true (perform_rdclose accounted) trivial
  | rdsize dev => exact perform_rdsize accounted
  | partitionType dev => exact perform_partitionType accounted

end

def start : State := ⟨⟨fun _ => ⟨0,fun _ => 0,fun _ => 0,0⟩,0,[]⟩,fun _ => 0⟩

theorem start_accounted : Accounted start :=
    ⟨fun _ => rfl,fun _ => Nat.zero_lt_succ _,fun _ used => absurd used (Nat.lt_irrefl 0),deinits_nil⟩

/-- In a run the counts are right after every call if and only if every open is steady. -/
theorem accounts_kept_iff (cfg : Config) (hw : Nat → Response) (ops : List Op) :
    Along (perform cfg hw) (fun s op => Accounted (ended (perform cfg hw s op))) start ops ↔
      Along (perform cfg hw) (Allowed cfg hw) start ops := by
  refine Along.congr (fun s op accounted _ => perform_accounted accounted op) (fun s op t accounted _ allowed ok => ?_) ops start
    start_accounted (Along.of_forall start fun _ _ => trivial)
  have kept := (perform_accounted accounted op).mpr allowed
  rw [ok] at kept
  exact kept

def refusing (tick : Nat) : Response := ⟨if tick = 3 then 6 else 0,some fun _ => 0,0⟩

/-- An open that the device refuses stays in the count. -/
theorem refused_counts : ¬ Along (perform sdCard refusing) (fun s op =>
    Accounted (ended (perform sdCard refusing s op))) start [.rdopen 0] := by
  intro kept
  have balanced := kept.1.balanced 0
  exact absurd balanced (by decide)

end

end Retrobsd.DiskAccounts

import Retrobsd.SwapUnits

/-! Whose the blocks of the swap area are while the temporary devices are allocated, used
and released. -/
namespace Retrobsd.SwapUnits
open List
open Function
open Lib.Extents Lib.Run ResourceMap DiskRequests

def Told (s : State) (unit : Fin 3) : Prop := (s.tdstart unit = 0 ∧ s.tdsize unit = 0 ∧ s.units unit = none) ∨
    (s.tdstart unit ≠ 0 ∧ s.tdsize unit ≠ 0 ∧ s.units unit = some (s.region unit))

/-- What holds between calls: the map and the holders share the area, and the tables are
right. -/
structure Settled (slots : Nat) (area : Extent) (s : State) : Prop where
  steady : Steady slots area ⟨s.map,s.held,s.console⟩
  tables : ∀ unit, Told s unit
  strays : s.strays = []

variable {slots stray : Nat} {area : Extent} {device : Device} {s t : State} {unit : Fin 3}

theorem mem_held {x : Extent} (has : s.units unit = some x) : x ∈ s.held := by
  fin_cases unit <;> simp_all [State.held]

theorem cover_units (unit : Fin 3) (x : Option Extent) (units : t.units = update s.units unit x)
    (others : t.others = s.others) (u : Nat) :
    cover t.held u + cover (s.units unit).toList u = cover s.held u + cover x.toList u := by
  fin_cases unit <;> simp [State.held,units,others] <;> omega

section
variable (settled : Settled slots area s)
include settled

theorem Settled.cover_le (u : Nat) : cover (live s.map) u + cover s.held u ≤ 1 := by
  have total := settled.steady.units u
  simp only [cover_cons,cover_nil] at total
  split_ifs at total <;> omega

theorem Settled.owned (unit : Fin 3) : Owned s unit := by
  rcases settled.tables unit with ⟨_,zero,_⟩ | ⟨_,_,has⟩
  · exact .inl zero
  refine .inr ⟨has,fun u inside => ?_⟩
  rw [Extent.holds,Bool.and_eq_true,decide_eq_true_iff,decide_eq_true_iff] at inside
  have covered := cover_pos_of_mem (mem_held has) u inside.1 inside.2
  have total := settled.cover_le u
  omega

theorem Settled.bounded (allocated : s.tdstart unit ≠ 0) : s.tdstart unit + s.tdsize unit < 2^32 := by
  rcases settled.tables unit with ⟨zero,_,_⟩ | ⟨_,filled,has⟩
  · exact absurd zero allocated
  have inside := units_inside (Nat.pos_iff_ne_zero.mpr filled) (mem_held has) (fun u =>
    (settled.steady.units u) ▸ Nat.le_add_left _ _)
  exact lt_of_le_of_lt inside.2 settled.steady.high

theorem Settled.held_none (released : s.tdstart unit = 0) : s.tdsize unit = 0 ∧ s.units unit = none := by
  rcases settled.tables unit with ⟨_,zero,none⟩ | ⟨allocated,_,_⟩
  · exact ⟨zero,none⟩
  · exact absurd released allocated

theorem Settled.held_some (allocated : s.tdstart unit ≠ 0) : s.tdsize unit ≠ 0 ∧ s.units unit = some (s.region unit) := by
  rcases settled.tables unit with ⟨released,_,_⟩ | ⟨_,filled,has⟩
  · exact absurd released allocated
  · exact ⟨filled,has⟩

def vacated (s : State) (unit : Fin 3) (map : Map) : State :=
    {s with map,console := s.console ++ [],units := update s.units unit none}

theorem giveBack_vacates (allocated : s.tdstart unit ≠ 0) :
    (Room s (s.tdsize unit) (s.tdstart unit) → ∃ map, giveBack s unit = .ok (vacated s unit map) ∧
      live map = release (s.region unit) (live s.map) ∧
      Steady slots area ⟨map,(vacated s unit map).held,(vacated s unit map).console⟩) ∧
    (¬ Room s (s.tdsize unit) (s.tdstart unit) → giveBack s unit = .error (.outside slots)) := by
  obtain ⟨filled,has⟩ := settled.held_some allocated
  have member := mem_held has
  obtain ⟨room,past⟩ := settled.steady.frees filled member
  constructor
  · intro below
    obtain ⟨map,ok,becomes⟩ := room below
    refine ⟨map,?_,?_,?_⟩
    · simp only [giveBack,allocated,if_false,ok,bind,Except.bind,has,if_true]
      rfl
    · exact becomes.live_eq (positive_release settled.steady.positive (Nat.pos_iff_ne_zero.mpr filled))
    refine settled.steady.released filled member becomes ?_
    intro u
    have split := @cover_units s (vacated s unit map) unit none rfl rfl u
    rw [has] at split
    simpa [State.region] using split
  · intro full
    simp only [giveBack,allocated,if_false,past full,bind,Except.bind]

end

def occupied (s : State) (unit : Fin 3) (map : Map) (addr size : Nat) : State := {s with
    map
    tdstart := update s.tdstart unit addr
    tdsize := update s.tdsize unit size
    units := update s.units unit (some ⟨addr,size⟩)}

def refused (stray : Nat) (s : State) (unit : Fin 3) (map : Map) : State := {s with
    map
    tdstart := update s.tdstart unit 0
    console := s.console ++ ["temp" ++ toString (s.tdsize unit) ++ ": failed to allocate " ++ toString stray ++ " blocks\n"]}

theorem size_ne {value : BitVec 32} (positive : 0 < value.toInt) : value.toNat ≠ 0 := by
  intro zero
  rw [BitVec.toInt_eq_toNat_cond,zero] at positive
  simp at positive

theorem take_cases (steady : Steady slots area ⟨s.map,s.held,s.console⟩) (empty : s.units unit = none)
    {value : BitVec 32} (positive : 0 < value.toInt) :
    (∃ map, take stray s unit value = .ok (refused stray s unit map,0) ∧ (∀ e ∈ live s.map, e.len < value.toNat) ∧
      Steady slots area ⟨map,s.held,(refused stray s unit map).console⟩) ∨
    (∃ map addr, take stray s unit value = .ok (occupied s unit map addr value.toNat,value) ∧ addr ≠ 0 ∧
      (∃ e ∈ live s.map, value.toNat ≤ e.len) ∧
      Steady slots area ⟨map,(occupied s unit map addr value.toNat).held,s.console⟩) := by
  obtain ⟨map,addr,ok,⟨rfl,none,whole⟩ | ⟨address,some,whole⟩⟩ := steady.takes (size_ne positive)
  · refine .inl ⟨map,?_,none,?_⟩
    · simp only [take,ok,bind,Except.bind,if_true]
      rfl
    · exact whole.holding fun _ => rfl
  refine .inr ⟨map,addr,?_,address,some,?_⟩
  · simp only [take,ok,bind,Except.bind,address,if_false]
    rfl
  refine whole.holding ?_
  intro u
  have split := @cover_units s (occupied s unit map addr value.toNat) unit (Option.some ⟨addr,value.toNat⟩) rfl rfl u
  rw [empty] at split
  simp only [Option.toList_none,Option.toList_some,cover_cons,cover_nil] at split ⊢
  omega

theorem Told.congr (told : Told s unit) (start : t.tdstart unit = s.tdstart unit)
    (size : t.tdsize unit = s.tdsize unit) (has : t.units unit = s.units unit) : Told t unit := by
  rw [Told,State.region,start,size,has]
  exact told

theorem told_vacated {other : Fin 3} (map : Map) (ne : other ≠ unit) (told : Told s other) : Told (vacated s unit map) other :=
  told.congr rfl rfl (update_of_ne ne _ _)

theorem told_occupied (map : Map) {addr size : Nat} (address : addr ≠ 0) (filled : size ≠ 0)
    (told : ∀ other, other ≠ unit → Told s other) (other : Fin 3) : Told (occupied s unit map addr size) other := by
  by_cases same : other = unit
  · subst same
    refine .inr ?_
    simp [occupied,State.region,address,filled]
  · refine (told other same).congr ?_ ?_ ?_ <;> exact update_of_ne same _ _

theorem told_refused (map : Map) (zero : s.tdsize unit = 0) (none : s.units unit = none)
    (told : ∀ other, other ≠ unit → Told s other) (other : Fin 3) : Told (refused stray s unit map) other := by
  by_cases same : other = unit
  · subst same
    refine .inl ?_
    simp [refused,zero,none]
  · exact (told other same).congr (update_of_ne same _ _) rfl rfl

theorem Settled.print (settled : Settled slots area s) (message : String) : Settled slots area (s.print message) :=
  ⟨settled.steady.holding fun _ => rfl,settled.tables,settled.strays⟩

variable {unit : Nat}

theorem tfalloc_eq (h : unit < 3) (value : BitVec 32) :
    step stray device s (.ioctl unit .tfalloc value) = (giveBack s ⟨unit,h⟩).bind fun s =>
      if 0 < value.toInt then (take stray s ⟨unit,h⟩ value).map Prod.fst else .ok s := by
  simp only [step,swcioctl,h,dif_pos,bind]
  cases giveBack s ⟨unit,h⟩ with
  | error e => rfl
  | ok s =>
    by_cases positive : 0 < value.toInt
    · simp only [Except.bind,positive,if_true]
      cases take stray s ⟨unit,h⟩ value <;> rfl
    simp only [Except.bind,positive,if_false]
    rfl

theorem tfalloc_released (settled : Settled slots area s) (h : unit < 3) (value : BitVec 32)
    (released : s.tdstart ⟨unit,h⟩ = 0) :
    ∃ t, step stray device s (.ioctl unit .tfalloc value) = .ok t ∧ Settled slots area t := by
  obtain ⟨zero,none⟩ := settled.held_none released
  have kept : giveBack s ⟨unit,h⟩ = .ok s := by
    rw [giveBack,if_pos released]
  rw [tfalloc_eq h,kept]
  simp only [Except.bind]
  by_cases positive : 0 < value.toInt
  · rw [if_pos positive]
    rcases @take_cases slots stray area s ⟨unit,h⟩ settled.steady none value positive with
      ⟨map,ok,_,steady⟩ | ⟨map,addr,ok,address,⟨e,_,_⟩,steady⟩
    · rw [ok]
      exact ⟨_,rfl,steady,told_refused map zero none fun other _ => settled.tables other,settled.strays⟩
    · rw [ok]
      exact ⟨_,rfl,steady,told_occupied map address (size_ne positive) fun other _ => settled.tables other,settled.strays⟩
  · rw [if_neg positive]
    exact ⟨s,rfl,settled⟩

theorem tfalloc_allocated (settled : Settled slots area s) (h : unit < 3) (value : BitVec 32)
    (allocated : s.tdstart ⟨unit,h⟩ ≠ 0) :
    (Fair s (.ioctl unit .tfalloc value) ∧ ∃ t, step stray device s (.ioctl unit .tfalloc value) = .ok t ∧
    Settled slots area t) ∨
    (¬ Fair s (.ioctl unit .tfalloc value) ∧ ∀ t, step stray device s (.ioctl unit .tfalloc value) = .ok t →
    ¬ Owned t ⟨unit,h⟩) := by
  obtain ⟨filled,has⟩ := settled.held_some allocated
  obtain ⟨room,past⟩ := giveBack_vacates settled allocated
  rw [tfalloc_eq h]
  by_cases below : Room s (s.tdsize ⟨unit,h⟩) (s.tdstart ⟨unit,h⟩)
  · obtain ⟨map,ok,free,steady⟩ := room below
    have empty : (vacated s ⟨unit,h⟩ map).units ⟨unit,h⟩ = none := update_self _ _ _
    simp only [ok,Except.bind]
    by_cases positive : 0 < value.toInt
    · rw [if_pos positive]
      rcases @take_cases slots stray area _ ⟨unit,h⟩ steady empty value positive with
        ⟨map',taken,short,_⟩ | ⟨map',addr,taken,address,long,whole⟩
      · refine .inr ⟨?_,?_⟩
        · intro fair
          obtain ⟨e,member,fits⟩ := (fair h allocated).2.2
          rw [← free] at member
          exact absurd fits (Nat.not_le.mpr (short e member))
        intro t ended
        rw [taken] at ended
        cases ended
        rintro (zero | ⟨owner,_⟩)
        · exact filled zero
        · exact absurd (empty.symm.trans owner) (by simp)
      · refine .inl ⟨?_,?_⟩
        · intro _ _
          refine ⟨positive,below,?_⟩
          rw [Satisfiable,← free]
          exact long
        rw [taken]
        refine ⟨_,rfl,whole,?_,settled.strays⟩
        exact told_occupied map' address (size_ne positive) fun other ne =>
          told_vacated map ne (settled.tables other)
    · rw [if_neg positive]
      refine .inr ⟨fun fair => positive (fair h allocated).1,?_⟩
      intro t ended
      cases ended
      rintro (zero | ⟨owner,_⟩)
      · exact filled zero
      · exact absurd (empty.symm.trans owner) (by simp)
  · refine .inr ⟨fun fair => below (fair h allocated).2.1,?_⟩
    intro t ended
    rw [past below] at ended
    cases ended

theorem blockLoop_within (read : Bool) {start size : Nat} (bounded : start + size < 2^32) (turns block : Nat)
    (rlen rsize : BitVec 32)
    (transfer : Transfer) (member : transfer ∈ blockLoop read start size turns block rlen rsize) :
    start ≤ transfer.blkno ∧ transfer.blkno * 1024 + transfer.count ≤ (start + size) * 1024 := by
  induction turns generalizing block rlen rsize with
  | zero => cases member
  | succ turns ih =>
    rw [blockLoop] at member
    split_ifs at member with goes
    · rcases mem_append.mp member with now | later
      · have here : sizeT (start + block) = start + block := Nat.mod_eq_of_lt (by omega)
        simp only [swap,here] at now
        rw [mem_singleton.mp now]
        constructor <;> simp only <;> omega
      · exact ih _ _ _ later
    · cases member

section
variable (settled : Settled slots area s)
include settled

theorem blocks_within (h : unit < 3) (allocated : s.tdstart ⟨unit,h⟩ ≠ 0) (read : Bool)
    (offset len : BitVec 32) (transfer : Transfer) (member : transfer ∈ blocks read s ⟨unit,h⟩ offset len) :
    Within s unit transfer :=
  ⟨h,blockLoop_within read (settled.bounded allocated) _ _ _ _ transfer member⟩

theorem swcread_within (unit : Nat) (offset len : BitVec 32) (transfer : Transfer)
    (member : transfer ∈ (swcread s unit offset len).2.2) : Within s unit transfer := by
  rw [swcread] at member
  split_ifs at member with h released past
  · cases member
  · cases member
  · exact blocks_within settled h released true offset len transfer member
  · cases member

theorem swcwrite_within (unit : Nat) (offset len : BitVec 32) (transfer : Transfer)
    (member : transfer ∈ (swcwrite s unit offset len).2.2) : Within s unit transfer := by
  rw [swcwrite] at member
  split_ifs at member with h released past
  · cases member
  · cases member
  · exact blocks_within settled h released false offset len transfer member
  · cases member

theorem swcread_settled (unit : Nat) (offset len : BitVec 32) : Settled slots area (swcread s unit offset len).1 := by
  rw [swcread]
  split_ifs
  · exact settled
  · exact settled
  · exact settled
  · exact settled.print _

theorem swcwrite_settled (unit : Nat) (offset len : BitVec 32) : Settled slots area (swcwrite s unit offset len).1 := by
  rw [swcwrite]
  split_ifs
  · exact settled.print _
  · exact settled.print _
  · exact settled
  · exact settled.print _

end

variable {bp : Request}

theorem biodone_done (old : bp.flags.bDone = true) : biodone bp = .error (.panic "dup biodone") := by
  rw [biodone,if_pos old]

theorem rdstrategy_done {disks : List Diskentry} {mbr : Nat → Block} {behind : Nat → Nat → BitVec 32} {disk : Diskentry}
    (found : disks[BufferCache.major bp.dev]? = some disk) (old : bp.flags.bDone = true) :
    rdstrategy disks mbr behind bp = .error (.panic "dup biodone") := by
  rw [rdstrategy,found]
  dsimp only
  rw [biodone_done old]

theorem swap_within (read : Bool) {start size blkno : Nat} (count : Nat) (bounded : start + size < 2^32) (early : blkno ≤ size) :
    (∀ transfer ∈ swap read (start + blkno) count,start ≤ transfer.blkno ∧
    transfer.blkno * 1024 + transfer.count ≤ (start + size) * 1024) ↔
      blkno * 1024 + count ≤ size * 1024 := by
  rw [swap,sizeT_of_lt (by omega)]
  split_ifs with none
  · simp only [not_mem_nil,false_implies,implies_true,true_iff]
    omega
  simp only [mem_singleton,forall_eq]
  omega

theorem within_iff (h : unit < 3) (transfer : Transfer) : Within s unit transfer ↔ s.tdstart ⟨unit,h⟩ ≤ transfer.blkno ∧
    transfer.blkno * 1024 + transfer.count ≤ (s.tdstart ⟨unit,h⟩ + s.tdsize ⟨unit,h⟩) * 1024 :=
  exists_prop_of_true h

theorem swstrategy_proxy (proxy : BufferCache.minor bp.dev = 64) (fresh : bp.flags.bDone = false) :
    swstrategy device s bp = .ok (s,some (completed bp),[]) := by
  rw [swstrategy,if_pos proxy,
    @rdstrategy_eq device.disks device.mbr device.behind device.disk {bp with dev := device.swapdev} device.present fresh]
  rfl

theorem swstrategy_unit (h : BufferCache.minor bp.dev < 3) (allocated : s.tdstart ⟨_,h⟩ ≠ 0)
    (early : bp.blkno.toNat ≤ s.tdsize ⟨_,h⟩) (fresh : bp.flags.bDone = false) : swstrategy device s bp =
      .ok (s,some (completed bp),swap bp.flags.bRead (s.tdstart ⟨_,h⟩ + bp.blkno.toNat) bp.bcount.toNat) := by
  rw [swstrategy,if_neg (by omega),dif_pos h,if_neg allocated,if_neg (Nat.not_lt.mpr early),biodone_completed fresh]

theorem swstrategy_cases {done : Request} {transfers : List Transfer}
    (ran : swstrategy device s bp = .ok (t,some done,transfers)) :
    bp.flags.bDone = false ∧ (BufferCache.minor bp.dev = 64 ∨ ∃ h : BufferCache.minor bp.dev < 3,
      s.tdstart ⟨_,h⟩ ≠ 0 ∧ bp.blkno.toNat ≤ s.tdsize ⟨_,h⟩) := by
  rw [swstrategy] at ran
  cases fresh : bp.flags.bDone with
  | true =>
    rw [@rdstrategy_done {bp with dev := device.swapdev} device.disks device.mbr device.behind device.disk device.present fresh,
      biodone_done fresh] at ran
    split_ifs at ran <;> cases ran
  | false =>
    refine ⟨rfl,?_⟩
    split_ifs at ran with proxy h released late
    · exact .inl proxy
    · cases ran
    · cases ran
    · exact .inr ⟨h,released,Nat.not_lt.mp late⟩
    · cases ran

theorem strategy_carried (settled : Settled slots area s) (bp : Request) :
    Carried device s (.strategy bp) ↔ Fair s (.strategy bp) := by
  constructor
  · rintro ⟨t,done,transfers,ran,_,within⟩
    obtain ⟨fresh,proxy | ⟨h,allocated,early⟩⟩ := swstrategy_cases ran
    · exact ⟨fresh,.inl proxy⟩
    rw [swstrategy_unit h allocated early fresh] at ran
    cases ran
    simp only [within_iff h] at within
    exact ⟨fresh,.inr ⟨h,allocated,(swap_within _ _ (settled.bounded allocated) early).mp within⟩⟩
  · rintro ⟨fresh,proxy | ⟨h,allocated,fits⟩⟩
    · exact ⟨s,_,[],swstrategy_proxy proxy fresh,rfl,by simp⟩
    have early : bp.blkno.toNat ≤ s.tdsize ⟨_,h⟩ := by omega
    refine ⟨s,_,_,swstrategy_unit h allocated early fresh,rfl,?_⟩
    simp only [within_iff h]
    exact (swap_within _ _ (settled.bounded allocated) early).mpr fits

theorem strategy_settled (settled : Settled slots area s) (fair : Fair s (.strategy bp)) :
    ∃ t, step stray device s (.strategy bp) = .ok t ∧ Settled slots area t := by
  refine ⟨s,?_,settled⟩
  obtain ⟨fresh,proxy | ⟨h,allocated,fits⟩⟩ := fair
  · rw [step,swstrategy_proxy proxy fresh]
    rfl
  rw [step,swstrategy_unit h allocated (by omega) fresh]
  rfl

variable {op : ResourceMap.Op}

theorem other_frame {q : Swap} {more : List Extent} {r : Swap} (held : Held q op)
    (ok : ResourceMap.step {q with held := more ++ q.held} op = .ok r) :
    ∃ rest, ResourceMap.step q op = .ok {r with held := rest} ∧ ∀ u, cover r.held u = cover more u + cover rest u := by
  cases op with
  | malloc size =>
    obtain ⟨⟨map,addr⟩,done,same⟩ := except_bind_ok ok
    cases same
    refine ⟨if addr = 0 then q.held else ⟨addr,size⟩ :: q.held,?_,?_⟩
    · simp only [ResourceMap.step,done,bind,Except.bind]
      rfl
    intro u
    split_ifs
    · exact cover_append more q.held u
    simp only [cover_cons,cover_append]
    omega
  | malloc3 dSize sSize uSize =>
    obtain ⟨⟨map,found⟩,done,same⟩ := except_bind_ok ok
    cases found with
    | none =>
      cases same
      refine ⟨q.held,?_,cover_append more q.held⟩
      simp only [ResourceMap.step,done,bind,Except.bind]
      rfl
    | some addrs =>
      cases same
      refine ⟨pieces [dSize,sSize,uSize] addrs ++ q.held,?_,?_⟩
      · simp only [ResourceMap.step,done,bind,Except.bind]
        rfl
      intro u
      simp only [cover_append]
      omega
  | mfree size addr =>
    obtain ⟨⟨map,printed⟩,done,same⟩ := except_bind_ok ok
    cases same
    refine ⟨q.held.erase ⟨addr,size⟩,?_,?_⟩
    · simp only [ResourceMap.step,done,bind,Except.bind]
      rfl
    intro u
    have whole := @cover_erase (more ++ q.held) ⟨addr,size⟩ (held.imp id (mem_append_right more)) u
    have rest := @cover_erase q.held ⟨addr,size⟩ held u
    rw [cover_append] at whole
    dsimp only
    omega

theorem Disciplined.held (disciplined : Disciplined s (.other op)) (console : List String) :
    Held ⟨s.map,s.others,console⟩ op := by
  cases op with
  | malloc size => trivial
  | malloc3 dSize sSize uSize => trivial
  | mfree size addr => exact disciplined

theorem Disciplined.held_all (disciplined : Disciplined s (.other op)) : Held ⟨s.map,s.held,s.console⟩ op := by
  cases op with
  | malloc size => trivial
  | malloc3 dSize sSize uSize => trivial
  | mfree size addr => exact disciplined.imp id (mem_append_right _)

theorem fair_other : Fair s (.other op) ↔ Below ⟨s.map,s.held,s.console⟩ op := by
  cases op <;> exact Iff.rfl

theorem other_settled (settled : Settled slots area s) (disciplined : Disciplined s (.other op))
    (fair : Fair s (.other op)) : ∃ t, step stray device s (.other op) = .ok t ∧ Settled slots area t := by
  rcases step_steady _ op settled.steady ⟨disciplined.held_all,fair_other.mp fair⟩ with ⟨r,ok,steady⟩ | ⟨e,_,rfl,_⟩
  · obtain ⟨rest,same,split⟩ := @other_frame op ⟨s.map,s.others,s.console⟩ _ r (disciplined.held _) ok
    refine ⟨{s with map := r.map,others := rest,console := r.console},by rw [step,same]; rfl,?_,settled.tables,settled.strays⟩
    refine steady.holding fun u => ?_
    rw [split u]
    exact cover_append _ _ u
  · exact absurd rfl disciplined

theorem other_overruns (settled : Settled slots area s) (disciplined : Disciplined s (.other op))
    (unfair : ¬ Fair s (.other op)) : ∀ t, step stray device s (.other op) ≠ .ok t := by
  cases op with
  | malloc size => exact absurd trivial unfair
  | malloc3 dSize sSize uSize => exact absurd trivial unfair
  | mfree size addr =>
    by_cases zero : size = 0
    · exact absurd (fun nonzero => absurd zero nonzero) unfair
    have member : ⟨addr,size⟩ ∈ s.held := mem_append_right _ (disciplined.resolve_left zero)
    have failed := (settled.steady.frees zero member).2 unfair
    intro t ended
    simp only [step,ResourceMap.step,failed,bind,Except.bind] at ended
    cases ended

theorem step_settled (settled : Settled slots area s) {op : Op} (disciplined : Disciplined s op) (fair : Fair s op) :
    ∃ t, step stray device s op = .ok t ∧ Settled slots area t := by
  cases op with
  | ioctl unit cmd value =>
    by_cases h : unit < 3
    · cases cmd with
      | tfalloc =>
        by_cases released : s.tdstart ⟨unit,h⟩ = 0
        · exact tfalloc_released settled h value released
        rcases @tfalloc_allocated slots stray area device s unit settled h value released with ⟨_,done⟩ | ⟨unfair,_⟩
        · exact done
        · exact absurd fair unfair
      | rdgetmediasize => exact ⟨s,by simp [step,swcioctl,h,Except.map],settled⟩
      | other => exact ⟨s,by simp [step,swcioctl,h,Except.map],settled⟩
    · exact ⟨s.print (outOfRange unit),by simp [step,swcioctl,h,Except.map],settled.print _⟩
  | read unit offset len => exact ⟨_,rfl,swcread_settled settled unit offset len⟩
  | write unit offset len => exact ⟨_,rfl,swcwrite_settled settled unit offset len⟩
  | strategy bp => exact strategy_settled settled fair
  | other op => exact other_settled settled disciplined fair

theorem kept_iff_fair (s : State) (op : Op) (settled : Settled slots area s) (disciplined : Disciplined s op) :
    Kept stray device s op ↔ Fair s op := by
  constructor
  · rintro ⟨⟨t,ended,owned,_⟩,carried⟩
    cases op with
    | ioctl unit cmd value =>
      cases cmd with
      | tfalloc =>
        intro h allocated
        rcases @tfalloc_allocated slots stray area device s unit settled h value allocated with ⟨fair,_⟩ | ⟨_,lost⟩
        · exact fair h allocated
        · exact absurd (owned ⟨unit,h⟩) (lost t ended)
      | rdgetmediasize => trivial
      | other => trivial
    | read unit offset len => trivial
    | write unit offset len => trivial
    | strategy bp => exact (strategy_carried settled bp).mp carried
    | other op =>
      by_contra unfair
      exact other_overruns settled disciplined unfair t ended
  · intro fair
    obtain ⟨t,ended,after⟩ := @step_settled slots stray area device s settled op disciplined fair
    refine ⟨⟨t,ended,after.owned,after.strays⟩,?_⟩
    cases op with
    | ioctl unit cmd value => trivial
    | read unit offset len => exact swcread_within settled unit offset len
    | write unit offset len => exact swcwrite_within settled unit offset len
    | strategy bp => exact (strategy_carried settled bp).mpr fair
    | other op => trivial

def start (slots : Nat) (area : Extent) : Except ResourceMap.Fault State :=
  (boot slots area).map fun q => ⟨q.map,fun _ => 0,fun _ => 0,q.console,fun _ => none,q.held,[]⟩

theorem start_settled (several : 1 < slots) (filled : 0 < area.len) (low : 0 < area.start) (high : area.stop < 2^32) :
    ∃ s, start slots area = .ok s ∧ Settled slots area s := by
  obtain ⟨q,ok,steady⟩ := boot_steady several filled low high
  refine ⟨_,by rw [start,ok]; rfl,?_,fun _ => .inl ⟨rfl,rfl,rfl⟩,rfl⟩
  exact steady.holding fun _ => rfl

theorem along_kept (settled : Settled slots area s) (ops : List Op) (disciplined : Along (step stray device) Disciplined s ops) :
    Along (step stray device) (Kept stray device) s ops ↔ Along (step stray device) Fair s ops := by
  refine Along.congr kept_iff_fair ?_ ops s settled disciplined
  intro s op t settled allowed fair ended
  obtain ⟨next,done,after⟩ := @step_settled slots stray area device s settled op allowed fair
  cases done.symm.trans ended
  exact after

/-- In every run the units have regions of their own, stay inside them and complete their
buffers if and only if a unit that has a region only asks for one that can be allocated, each
block request is inside the region of its unit, and the map has a slot for what is freed. -/
theorem regions_kept (several : 1 < slots) (filled : 0 < area.len) (low : 0 < area.start)
    (high : area.stop < 2^32) (stray : Nat) (device : Device) (ops : List Op) :
    ∃ s, start slots area = .ok s ∧ (Along (step stray device) Disciplined s ops →
      (Along (step stray device) (Kept stray device) s ops ↔ Along (step stray device) Fair s ops)) := by
  obtain ⟨s,ok,settled⟩ := start_settled several filled low high
  exact ⟨s,ok,along_kept settled ops⟩

def cardDevice : Device := ⟨[card],fun _ => someMbr,fun _ _ => 0,1,card,rfl⟩

def fresh : State := ⟨tenSlots.map,fun _ => 0,fun _ => 0,[],fun _ => none,[],[]⟩

theorem start_fresh : start 10 ⟨1,40⟩ = .ok fresh := rfl

def someOps : List Op := [.ioctl 0 .tfalloc 5,.other (.malloc 5),.write 0 1024 3000,
    .strategy {request true 3 with dev := 0},.ioctl 1 .tfalloc 40,.ioctl 0 .tfalloc 7,.other (.mfree 5 6),.read 0 100 2000,
    .ioctl 2 .tfalloc 0,.ioctl 0 .rdgetmediasize 0,.other (.malloc3 3 2 1)]

theorem regions_kept_someOps : Along (step 0 cardDevice) (Kept 0 cardDevice) fresh someOps := by
  obtain ⟨s,started,exactly⟩ := @regions_kept 10 ⟨1,40⟩ (by decide) (by decide) (by decide) (by decide) 0 cardDevice someOps
  cases start_fresh.symm.trans started
  exact (exactly (by decide +kernel)).mpr (by decide +kernel)

def release0 : List Op := [.ioctl 0 .tfalloc 5,.ioctl 0 .tfalloc 0,.other (.malloc 5)]

/-- The unit still has the released blocks in its tables when they are someone else's, and
writes there. -/
theorem released_region_kept : start 10 ⟨1,40⟩ = .ok fresh ∧ Along (step 0 cardDevice) Disciplined fresh release0 ∧
    ¬ Along (step 0 cardDevice) (Kept 0 cardDevice) fresh release0 ∧
    ∃ t, run (step 0 cardDevice) fresh release0 = .ok t ∧ t.region 0 = ⟨1,5⟩ ∧ t.units 0 = none ∧ t.others = [⟨1,5⟩] ∧
      (swcwrite t 0 0 1024).2.2 = [⟨false,1,1024⟩] := by
  obtain ⟨s,started,settled⟩ := @start_settled 10 ⟨1,40⟩ (by decide) (by decide) (by decide) (by decide)
  cases start_fresh.symm.trans started
  refine ⟨rfl,by decide +kernel,?_,?_⟩
  · rw [along_kept settled release0 (by decide +kernel)]
    decide +kernel
  obtain ⟨t,ended,facts⟩ := @of_returns ResourceMap.Fault State (fun t => decide (t.region 0 = ⟨1,5⟩ ∧ t.units 0 = none ∧
    t.others = [⟨1,5⟩] ∧ (swcwrite t 0 0 1024).2.2 = [⟨false,1,1024⟩])) (run (step 0 cardDevice) fresh release0)
    (by decide +kernel)
  exact ⟨t,ended,of_decide_eq_true facts⟩

end Retrobsd.SwapUnits

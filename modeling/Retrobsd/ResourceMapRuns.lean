import Retrobsd.Lib.Run
import Retrobsd.ResourceMapSegments

/-! Runs of the swap map. The state keeps, beside the map, the regions that
callers hold and what has been printed, so that the units of the initial region
can be accounted for after any number of calls. -/
namespace Retrobsd.ResourceMap
open Lib.Extents Lib.Run List

inductive Op where
  | malloc (size : Nat)
  | malloc3 (dSize sSize uSize : Nat)
  | mfree (size addr : Nat)
deriving DecidableEq

structure Swap where
  map : Map
  held : List Extent
  console : List String
deriving DecidableEq

def step (s : Swap) : Op → Except Fault Swap
  | .malloc size => do
    let (map,addr) ← malloc s.map size
    return {s with map,held := if addr = 0 then s.held else ⟨addr,size⟩ :: s.held}
  | .malloc3 dSize sSize uSize => do
    let (map,found) ← malloc3 s.map dSize sSize uSize
    match found with
    | none => return {s with map}
    | some addrs => return {s with map,held := pieces [dSize,sSize,uSize] addrs ++ s.held}
  | .mfree size addr => do
    let (map,printed) ← mfree s.map size addr
    return ⟨map,s.held.erase ⟨addr,size⟩,s.console ++ printed⟩

/-- `swapmap` over `swapent[slots]` as `machdep.c` sets it up, with `m_limit` one
past the last slot, and the call of `mfree` that gives it the swap region. -/
def boot (slots : Nat) (region : Extent) : Except Fault Swap := do
  let (map,printed) ← mfree ⟨List.replicate slots ⟨0,0⟩,slots,"swapmap"⟩ region.len region.start
  return ⟨map,[],printed⟩

def live (mp : Map) : List Extent := (mp.mMap.takeWhile (fun e => e.mSize != 0)).map (fun e => ⟨e.mAddr,e.mSize⟩)

def Held (s : Swap) : Op → Prop
  | .mfree size addr => size = 0 ∨ ⟨addr,size⟩ ∈ s.held
  | _ => True

def Below (s : Swap) : Op → Prop
  | .mfree size addr => size ≠ 0 → Apart ⟨addr,size⟩ (live s.map) → (live s.map).length + 1 < s.map.mMap.length
  | _ => True

instance (s : Swap) : ∀ op, Decidable (Held s op)
  | .malloc _ | .malloc3 _ _ _ => .isTrue trivial
  | .mfree _ _ => inferInstanceAs (Decidable (_ ∨ _))

instance (s : Swap) : ∀ op, Decidable (Below s op)
  | .malloc _ | .malloc3 _ _ _ => .isTrue trivial
  | .mfree size addr => inferInstanceAs (Decidable (size ≠ 0 → Apart ⟨addr,size⟩ (live s.map) →
      (live s.map).length + 1 < s.map.mMap.length))

/-- The entries are sorted, non-empty and apart, the terminator follows them, and
every unit of the region is free or held by one caller. -/
structure Partitioned (region : Extent) (s : Swap) : Prop where
  gapped : Gapped (live s.map)
  positive : Positive (live s.map)
  terminated : s.map.mMap[(live s.map).length]? = some terminator
  units : ∀ u, cover (live s.map) u + cover s.held u = cover [region] u

/-- What holds between calls, with the shape of the array spelled out. -/
structure Steady (slots : Nat) (region : Extent) (s : Swap) : Prop extends Represents s.map (live s.map) where
  gapped : Gapped (live s.map)
  size : s.map.mMap.length = slots
  limit : s.map.mLimit = slots
  low : 0 < region.start
  high : region.stop < 2^32
  units : ∀ u, cover (live s.map) u + cover s.held u = cover [region] u

variable {l held : List Extent} {slots size addr : Nat} {region x : Extent} {s : Swap} {console : List String} {map : Map}

theorem live_of_shape {mp : Map} {rest : List Mapent} (positive : Positive l)
    (shape : mp.mMap = l.map entry ++ terminator :: rest) : live mp = l := by
  have whole : (l.map entry ++ terminator :: rest).takeWhile (fun e => e.mSize != 0) = l.map entry := by
    rw [takeWhile_append_of_pos]
    · simp [terminator]
    intro e member
    obtain ⟨x,inside,rfl⟩ := mem_map.mp member
    simpa using entry_size_ne (positive x inside)
  have back : (fun e : Mapent => (⟨e.mAddr,e.mSize⟩ : Extent)) ∘ entry = id := rfl
  rw [live,shape,whole,map_map,back,map_id]

theorem Steady.partitioned (steady : Steady slots region s) : Partitioned region s := by
  obtain ⟨rest,shape⟩ := steady.shape
  refine ⟨steady.gapped,steady.positive,?_,steady.units⟩
  rw [shape]
  simp

theorem units_inside (nonempty : 0 < x.len) (member : x ∈ l) (units : ∀ u, cover l u ≤ cover [region] u) :
    region.start ≤ x.start ∧ x.stop ≤ region.stop := by
  have ends : ∀ u, x.start ≤ u → u < x.stop → region.start ≤ u ∧ u < region.stop := by
    intro u low high
    have covered := cover_pos_of_mem member u low high
    have total := units u
    simp only [cover_cons,cover_nil] at total
    split_ifs at total with inside
    · exact inside
    · omega
  have last := ends (x.stop - 1) (by simp only [Extent.stop]; omega) (by simp only [Extent.stop]; omega)
  have first := ends x.start le_rfl (by simp only [Extent.stop]; omega)
  simp only [Extent.stop] at last ⊢
  omega

section
variable (steady : Steady slots region s)
include steady

theorem Steady.holding (same : ∀ u, cover held u = cover s.held u) : Steady slots region ⟨s.map,held,console⟩ := by
  refine ⟨steady.toRepresents,steady.gapped,steady.size,steady.limit,steady.low,steady.high,?_⟩
  intro u
  rw [same u]
  exact steady.units u

theorem Steady.next (becomes : Becomes s.map map l) (positive : Positive l)
    (gapped : Gapped l) (units : ∀ u, cover l u + cover held u = cover [region] u) :
    Steady slots region ⟨map,held,console⟩ := by
  obtain ⟨rest,shape⟩ := becomes.shape
  have same := live_of_shape positive shape
  have bounded : Bounded l := by
    intro e member
    have inside := units_inside (positive e member) member (fun u => (units u) ▸ Nat.le_add_right _ _)
    exact ⟨lt_of_lt_of_le steady.low inside.1,lt_of_le_of_lt inside.2 steady.high⟩
  refine ⟨⟨?_,?_,?_⟩,?_,?_,?_,steady.low,steady.high,?_⟩
  · exact ⟨rest,by rw [same]; exact shape⟩
  · rw [same]; exact positive
  · rw [same]; exact bounded
  · rw [same]; exact gapped
  · exact becomes.slots.trans steady.size
  · exact becomes.limit.trans steady.limit
  · rw [same]; exact units

theorem Steady.carved {sizes addrs : List Nat} {final : List Extent} (carved : Carved (live s.map) sizes addrs final)
    (becomes : Becomes s.map map (dropEmpty final)) :
    Steady slots region {s with map,held := pieces sizes addrs ++ s.held} := by
  refine steady.next becomes (positive_dropEmpty final) (gapped_dropEmpty (gapped_carved carved steady.gapped)) ?_
  intro u
  have split := cover_carved carved u
  have total := steady.units u
  rw [cover_dropEmpty,cover_append]
  omega

theorem Steady.takes (nonzero : size ≠ 0) : ∃ map addr, malloc s.map size = .ok (map,addr) ∧
      ((addr = 0 ∧ (∀ e ∈ live s.map, e.len < size) ∧ Steady slots region {s with map}) ∨
      (addr ≠ 0 ∧ (∃ e ∈ live s.map, size ≤ e.len) ∧
          Steady slots region {s with map,held := ⟨addr,size⟩ :: s.held})) := by
  obtain ⟨map,ok,becomes⟩ := malloc_allocates steady.toRepresents nonzero
  refine ⟨map,_,ok,?_⟩
  cases found : allocate size (live s.map) with
  | none =>
    simp only [found,Option.map_none,Option.getD_none] at becomes
    exact .inl ⟨rfl,allocate_eq_none.mp found,steady.next becomes steady.positive steady.gapped steady.units⟩
  | some piece =>
    obtain ⟨addr,left⟩ := piece
    obtain ⟨middle,carved,dropped⟩ := allocate_carved steady.positive found
    simp only [found,Option.map_some,Option.getD_some,dropped] at becomes
    have whole := steady.carved carved becomes
    cases carved with
    | cons at_i fits rest =>
      have member := mem_of_getElem? at_i
      exact .inr ⟨Nat.pos_iff_ne_zero.mp (steady.bounded _ member).1,⟨_,member,fits⟩,whole⟩

theorem malloc_step (nonzero : size ≠ 0) : ∃ t, step s (.malloc size) = .ok t ∧ Steady slots region t := by
  obtain ⟨map,addr,ok,⟨zero,_,whole⟩ | ⟨address,_,whole⟩⟩ := steady.takes nonzero
  · refine ⟨{s with map},?_,whole⟩
    simp only [step,ok,bind,Except.bind,zero,if_true]
    rfl
  refine ⟨{s with map,held := ⟨addr,size⟩ :: s.held},?_,whole⟩
  simp only [step,ok,bind,Except.bind,address,if_false]
  rfl

theorem malloc3_step (dSize sSize uSize : Nat) : ∃ t, step s (.malloc3 dSize sSize uSize) = .ok t ∧ Steady slots region t := by
  rcases malloc3_carves steady.toRepresents dSize sSize uSize with ⟨map,ok,becomes⟩ | ⟨map,addrs,final,ok,carved,becomes⟩
  · refine ⟨{s with map},?_,steady.next becomes steady.positive steady.gapped steady.units⟩
    simp only [step,ok,bind,Except.bind]
    rfl
  refine ⟨{s with map,held := pieces [dSize,sSize,uSize] addrs ++ s.held},?_,steady.carved carved becomes⟩
  simp only [step,ok,bind,Except.bind]
  rfl

theorem Steady.freeable (filled : 0 < x.len) (member : x ∈ s.held) : Freeable s.map (live s.map) x := by
  have inside := units_inside filled member (fun u => (steady.units u) ▸ Nat.le_add_left _ _)
  refine ⟨steady.toRepresents,steady.gapped,?_,filled,lt_of_lt_of_le steady.low inside.1,lt_of_le_of_lt inside.2 steady.high⟩
  refine clear_of_cover steady.positive filled ?_
  intro u above below
  have covered := cover_pos_of_mem member u above below
  have total := steady.units u
  simp only [cover_cons,cover_nil] at total
  split_ifs at total <;> omega

end

theorem mfree_zero (s : Swap) (addr : Nat) : step s (.mfree 0 addr) = .ok {s with held := s.held.erase ⟨addr,0⟩} := by
  simp only [step,mfree,if_true,bind,Except.bind]
  simp [pure,Except.pure]

theorem cover_empty (empty : x.len = 0) (u : Nat) : cover [x] u = 0 := by
  simp only [cover_cons,cover_nil,empty]
  split_ifs <;> omega

theorem cover_erase (freed : x.len = 0 ∨ x ∈ held) (u : Nat) : cover (held.erase x) u + cover [x] u = cover held u := by
  by_cases member : x ∈ held
  · have split := cover_perm (perm_cons_erase member) u
    rw [cover_cons] at split
    simp only [cover_cons,cover_nil]
    omega
  · rw [erase_of_not_mem member,cover_empty (freed.resolve_right member),Nat.add_zero]

theorem Becomes.live_eq {mp next : Map} (becomes : Becomes mp next l) (positive : Positive l) : live next = l := by
  obtain ⟨rest,shape⟩ := becomes.shape
  exact live_of_shape positive shape

theorem Steady.frees (steady : Steady slots region s) (nonzero : size ≠ 0) (member : ⟨addr,size⟩ ∈ s.held) :
    (Below s (.mfree size addr) → ∃ map, mfree s.map size addr = .ok (map,[]) ∧
    Becomes s.map map (release ⟨addr,size⟩ (live s.map))) ∧
    (¬ Below s (.mfree size addr) → mfree s.map size addr = .error (.outside slots)) := by
  have free := steady.freeable (Nat.pos_iff_ne_zero.mpr nonzero) member
  obtain ⟨rest,shape⟩ := steady.shape
  have filled : (live s.map).length + 1 ≤ slots := by
    rw [← steady.size,shape]
    simp
  by_cases apart : Apart ⟨addr,size⟩ (live s.map)
  · obtain ⟨_,past,room⟩ := mfree_apart free apart
    constructor
    · intro below
      exact room (by rw [steady.limit]; exact filled) (below nonzero apart)
    intro full
    have exact_full : (live s.map).length + 1 = slots := by
      simp only [Below,nonzero,apart,ne_eq,not_false_eq_true,true_implies,steady.size] at full
      omega
    rw [past (by rw [steady.limit]; exact filled) (by rw [steady.size,exact_full]),exact_full]
  · exact ⟨fun _ => mfree_joins free apart,fun full => absurd (fun _ other => absurd other apart) full⟩

theorem Steady.released (steady : Steady slots region s) (nonzero : size ≠ 0) (member : ⟨addr,size⟩ ∈ s.held)
    (becomes : Becomes s.map map (release ⟨addr,size⟩ (live s.map)))
    (back : ∀ u, cover held u + cover [⟨addr,size⟩] u = cover s.held u) : Steady slots region ⟨map,held,console⟩ := by
  have free := steady.freeable (Nat.pos_iff_ne_zero.mpr nonzero) member
  refine steady.next becomes (positive_release steady.positive free.nonempty)
    (gapped_release steady.gapped steady.positive free.nonempty free.clear) ?_
  intro u
  have total := steady.units u
  have split := back u
  rw [cover_release free.clear,cover_cons]
  simp only [cover_cons,cover_nil] at split total ⊢
  omega

theorem mfree_step (steady : Steady slots region s) (held : Held s (.mfree size addr)) :
    (Below s (.mfree size addr) → ∃ t, step s (.mfree size addr) = .ok t ∧ Steady slots region t) ∧
    (¬ Below s (.mfree size addr) → step s (.mfree size addr) = .error (.outside slots)) := by
  by_cases zero : size = 0
  · subst zero
    refine ⟨fun _ => ⟨_,mfree_zero s addr,?_⟩,fun full => absurd (fun nonzero => absurd rfl nonzero) full⟩
    refine steady.next ⟨⟨rfl,rfl,rfl⟩,steady.shape⟩ steady.positive steady.gapped ?_
    intro u
    have back := @cover_erase s.held ⟨addr,0⟩ (.inl rfl) u
    rw [cover_empty rfl,Nat.add_zero] at back
    rw [back]
    exact steady.units u
  have member := held.resolve_left zero
  obtain ⟨room,past⟩ := steady.frees zero member
  constructor
  · intro below
    obtain ⟨map,ok,becomes⟩ := room below
    refine ⟨⟨map,s.held.erase ⟨addr,size⟩,s.console ++ []⟩,?_,steady.released zero member becomes (cover_erase (.inr member))⟩
    simp only [step,ok,bind,Except.bind]
    rfl
  · intro full
    simp only [step,past full,bind,Except.bind]

theorem boot_steady (several : 1 < slots) (filled : 0 < region.len) (low : 0 < region.start) (high : region.stop < 2^32) :
    ∃ s, boot slots region = .ok s ∧ Steady slots region s := by
  obtain ⟨count,rfl⟩ : ∃ count, slots = count + 1 := ⟨slots - 1,by omega⟩
  have free : Freeable ⟨List.replicate (count + 1) ⟨0,0⟩,count + 1,"swapmap"⟩ [] region :=
    ⟨⟨⟨List.replicate count ⟨0,0⟩,rfl⟩,by simp [Positive],by simp [Bounded]⟩,List.Pairwise.nil,by simp [Clear],filled,low,high⟩
  obtain ⟨_,_,room⟩ := mfree_apart free (by simp [Apart])
  obtain ⟨map,ok,becomes⟩ := room (by simp) (by simpa using several)
  have positive : Positive (release region []) := by simpa [Positive,release] using filled
  obtain ⟨rest,shape⟩ := becomes.shape
  have same := live_of_shape positive shape
  refine ⟨⟨map,[],[]⟩,?_,⟨⟨?_,?_,?_⟩,?_,?_,?_,low,high,?_⟩⟩
  · simp only [boot,ok,bind,Except.bind]
    rfl
  · exact ⟨rest,by rw [same]; exact shape⟩
  · rw [same]; exact positive
  · rw [same]
    simpa [Bounded,release] using ⟨low,high⟩
  · rw [same]
    simp [Gapped,release]
  · simpa using becomes.slots
  · exact becomes.limit
  · intro u
    rw [same]
    simp [release]

theorem step_steady (s : Swap) (op : Op) (steady : Steady slots region s) (allowed : Held s op ∧ Below s op) :
    (∃ t, step s op = .ok t ∧ Steady slots region t) ∨ ∃ e, step s op = .error e ∧
    (op = .malloc 0 ∧ e = .panic "malloc: size = 0") := by
  cases op with
  | malloc size =>
    by_cases zero : size = 0
    · subst zero
      exact .inr ⟨_,rfl,rfl,rfl⟩
    · exact .inl (malloc_step steady zero)
  | malloc3 dSize sSize uSize => exact .inl (malloc3_step steady dSize sSize uSize)
  | mfree size addr => exact .inl ((mfree_step steady allowed.1).1 allowed.2)

variable {slots : Nat} {region : Extent}

/-- While the fragments fit, every run from the initial region partitions its
units between the map and the holders. -/
theorem swap_partitioned (several : 1 < slots) (filled : 0 < region.len)
    (low : 0 < region.start) (high : region.stop < 2^32) (ops : List Op) :
    ∃ s, boot slots region = .ok s ∧ (Along step (fun s op => Held s op ∧ Below s op) s ops →
      (∃ t, run step s ops = .ok t ∧ Partitioned region t) ∨
      (.malloc 0 ∈ ops ∧ run step s ops = .error (.panic "malloc: size = 0"))) := by
  obtain ⟨s,ok,steady⟩ := boot_steady several filled low high
  refine ⟨s,ok,fun along => ?_⟩
  rcases run_cases step_steady ops s steady along with ⟨t,ended,kept⟩ | ⟨op,member,e,failed,rfl,rfl⟩
  · exact .inl ⟨t,ended,kept.partitioned⟩
  · exact .inr ⟨member,failed⟩

def tenSlots : Swap := ⟨⟨⟨40,1⟩ :: List.replicate 9 ⟨0,0⟩,10,"swapmap"⟩,[],[]⟩

theorem boot_tenSlots : boot 10 ⟨1,40⟩ = .ok tenSlots := rfl

def shortRun : List Op := [.malloc 5,.malloc 5,.malloc3 20 10 0,.mfree 5 1,.mfree 20 11,.mfree 5 6]

theorem swap_partitioned_shortRun : ∃ t, run step tenSlots shortRun = .ok t ∧ Partitioned ⟨1,40⟩ t := by
  obtain ⟨s,booted,sound⟩ := @swap_partitioned 10 ⟨1,40⟩ (by decide) (by decide) (by decide) (by decide) shortRun
  cases boot_tenSlots.symm.trans booted
  rcases sound (by decide +kernel) with ended | ⟨member,_⟩
  · exact ended
  · exact absurd member (by decide)

theorem Partitioned.restored (filled : 0 < region.len) (parted : Partitioned region s) (all : dropEmpty s.held = []) :
    live s.map = [region] := by
  have units : ∀ u, cover (live s.map) u = cover [region] u := fun u => by
    have total := parted.units u
    rwa [← cover_dropEmpty s.held,all,cover_nil,Nat.add_zero] at total
  have few : (live s.map).length ≤ ([] : List Extent).length + 1 := length_le_held parted.gapped parted.positive units
  have positive := parted.positive
  generalize live s.map = l at *
  rcases l with _ | ⟨e,_ | ⟨f,l⟩⟩
  · have none := units region.start
    rw [cover_nil,cover_cons,if_pos ⟨le_rfl,by omega⟩] at none
    omega
  · have inside := units_inside (positive e mem_cons_self) mem_cons_self fun u => (units u).le
    have outside : e.start ≤ region.start ∧ region.stop ≤ e.stop :=
      units_inside filled (mem_singleton_self region) fun u => (units u).ge
    obtain ⟨a,n⟩ := e
    obtain ⟨b,m⟩ := region
    simp only [Extent.stop,cons.injEq,Extent.mk.injEq,and_true] at *
    omega
  · simp at few

/-- While fewer than `slots - 2` regions are held no fragment is lost, and there is at most one more than there
are held regions; the map is as it was when all of them have been freed. -/
theorem swap_unfragmented (several : 1 < slots) (filled : 0 < region.len) (low : 0 < region.start)
    (high : region.stop < 2^32) (ops : List Op) : ∃ s, boot slots region = .ok s ∧
      (Along step (fun s op => Held s op ∧ (dropEmpty s.held).length + 2 < slots) s ops →
        (∃ t, run step s ops = .ok t ∧ Partitioned region t ∧ (live t.map).length ≤ (dropEmpty t.held).length + 1 ∧
          (dropEmpty t.held = [] → live t.map = [region])) ∨
        (.malloc 0 ∈ ops ∧ run step s ops = .error (.panic "malloc: size = 0"))) := by
  obtain ⟨s,ok,steady⟩ := boot_steady several filled low high
  refine ⟨s,ok,fun along => ?_⟩
  have bounded : ∀ {t : Swap}, Steady slots region t → (live t.map).length ≤ (dropEmpty t.held).length + 1 := fun steady =>
    length_le_held steady.gapped steady.positive fun u => by rw [cover_dropEmpty]; exact steady.units u
  have steps : ∀ s op, Steady slots region s → Held s op ∧ (dropEmpty s.held).length + 2 < slots → _ :=
    fun s op steady allowed =>
    step_steady s op steady ⟨allowed.1,by
      have few := bounded steady
      cases op with
      | mfree size addr => 
        intro _ _
        rw [steady.size]
        omega
      | _ => trivial⟩
  rcases run_cases steps ops s steady along with ⟨t,ended,kept⟩ | ⟨op,member,e,failed,rfl,rfl⟩
  · exact .inl ⟨t,ended,kept.partitioned,bounded kept,kept.partitioned.restored filled⟩
  · exact .inr ⟨member,failed⟩

theorem swap_unfragmented_shortRun : ∃ t, run step tenSlots shortRun = .ok t ∧ Partitioned ⟨1,40⟩ t ∧
    (live t.map).length ≤ (dropEmpty t.held).length + 1 ∧ (dropEmpty t.held = [] → live t.map = [⟨1,40⟩]) := by
  obtain ⟨s,booted,sound⟩ := @swap_unfragmented 10 ⟨1,40⟩ (by decide) (by decide) (by decide) (by decide) shortRun
  cases boot_tenSlots.symm.trans booted
  rcases sound (by decide +kernel) with ended | ⟨member,_⟩
  · exact ended
  · exact absurd member (by decide)

def Full (s : Swap) : Op → Prop
  | .mfree size addr =>
    size ≠ 0 ∧ Apart ⟨addr,size⟩ (live s.map) ∧ (live s.map).length + 1 = s.map.mMap.length
  | _ => False

/-- The call stays inside the array, a full map drops the fragment with a message,
and the terminator stays in the array. -/
structure Contained (s : Swap) (op : Op) : Prop where
  inside : ∀ slot, step s op ≠ .error (.outside slot)
  drops : ∀ size addr, op = .mfree size addr → Full s op →
    step s op = .ok ⟨s.map,s.held.erase ⟨addr,size⟩,s.console ++ [overflow s.map size addr]⟩
  terminated : ∀ t, step s op = .ok t → t.map.mMap[(live t.map).length]? = some terminator

theorem contained_iff_below (s : Swap) (op : Op) (steady : Steady slots region s)
    (held : Held s op) : Contained s op ↔ Below s op := by
  constructor
  · intro contained
    by_contra full
    cases op with
    | malloc size => exact full trivial
    | malloc3 dSize sSize uSize => exact full trivial
    | mfree size addr => exact contained.inside slots ((mfree_step steady held).2 full)
  intro below
  have cases := step_steady s op steady ⟨held,below⟩
  refine ⟨?_,?_,?_⟩
  · intro slot failed
    rcases cases with ⟨t,ok,_⟩ | ⟨e,stopped,_,rfl⟩
    · exact absurd (failed.symm.trans ok) (by simp)
    · exact absurd (failed.symm.trans stopped) (by simp)
  · rintro size addr rfl ⟨nonzero,apart,full⟩
    exact absurd (below nonzero apart) (by omega)
  · intro t ok
    rcases cases with ⟨next,done,kept⟩ | ⟨e,stopped,_⟩
    · cases done.symm.trans ok
      exact kept.partitioned.terminated
    · exact absurd (stopped.symm.trans ok) (by simp)

/-- A run stays inside the array exactly when no call needs the one slot that is
left for the terminator. -/
theorem swap_contained (several : 1 < slots) (filled : 0 < region.len)
    (low : 0 < region.start) (high : region.stop < 2^32) (ops : List Op) :
    ∃ s, boot slots region = .ok s ∧ (Along step Held s ops → (Along step Contained s ops ↔ Along step Below s ops)) := by
  obtain ⟨s,ok,steady⟩ := boot_steady several filled low high
  refine ⟨s,ok,fun along => ?_⟩
  refine Along.congr contained_iff_below ?_ ops s steady along
  intro s op t steady held below ended
  rcases step_steady s op steady ⟨held,below⟩ with ⟨next,done,kept⟩ | ⟨e,stopped,_⟩
  · cases done.symm.trans ended
    exact kept
  · exact absurd (stopped.symm.trans ended) (by simp)

/-- Nineteen regions of one unit, of which every second is freed again: nine holes
and the rest of the region would be ten fragments. -/
def checkerboard : List Op := List.replicate 19 (.malloc 1) ++ (List.range 9).map (fun i => .mfree 1 (2 * i + 2))

theorem swap_contained_shortRun : Along step Contained tenSlots shortRun := by
  obtain ⟨s,booted,exactly⟩ := @swap_contained 10 ⟨1,40⟩ (by decide) (by decide) (by decide) (by decide) shortRun
  cases boot_tenSlots.symm.trans booted
  exact (exactly (by decide +kernel)).mpr (by decide +kernel)

/-- `swapent` of ten slots: the last free writes the eleventh. -/
theorem checkerboard_outside : boot 10 ⟨1,40⟩ = .ok tenSlots ∧ Along step Held tenSlots checkerboard ∧
      run step tenSlots checkerboard = .error (.outside 10) ∧ ¬ Along step Contained tenSlots checkerboard := by
  have failed : run step tenSlots checkerboard = .error (.outside 10) := rfl
  refine ⟨rfl,by decide +kernel,failed,?_⟩
  intro contained
  exact run_ne_error checkerboard _ (contained.imp fun s op holds => holds.inside 10) failed

end Retrobsd.ResourceMap

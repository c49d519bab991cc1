import Retrobsd.Swapping

/-! What is on the swap device: the blocks of the processes that are swapped out and of
the argument areas share the device with the map, and hold the images. -/
namespace Retrobsd.Swapping
open Finset
open Function (update update_of_ne update_self)
open Lib.Extents ResourceMap
open SleepQueues (Slot)

variable {n slots : Nat} {area : Extent} {s t : State n}

def State.alive (s : State n) (p : Slot n) : Prop := (s.procs p).stat ≠ .null ∧ (s.procs p).stat ≠ .szomb

instance (s : State n) (p : Slot n) : Decidable (s.alive p) := instDecidableAnd

def State.out (s : State n) (p : Slot n) : Prop := p ≠ 0 ∧ s.alive p ∧ (s.procs p).sload = false ∧ s.inCore ≠ some p

instance (s : State n) (p : Slot n) : Decidable (s.out p) := instDecidableAnd

def Proc.extents (p : Proc) : List Extent := [⟨p.daddr,btod p.dsize⟩,⟨p.saddr,btod p.ssize⟩,⟨p.addr.blkno,btod usize⟩]

def State.args (s : State n) (p : Slot n) : List Extent := if s.bno p = 0 then [] else [⟨s.bno p,btod argSize⟩]

def State.regions (s : State n) (p : Slot n) : List Extent := (if s.out p then (s.procs p).extents else []) ++ s.args p

def State.held (s : State n) : List Extent := (List.finRange (n + 2)).flatMap s.regions

theorem withProc_self (s : State n) (p : Slot n) (proc : Proc) : (s.withProc p proc).procs p = proc := update_self _ _ _

variable {s : State n} {p q : Slot n} {x : Extent} {a count b : Nat} {l held : List Extent} {α : Type} {map : Map}

theorem withProc_other (ne : q ≠ p) (proc : Proc) : (s.withProc p proc).procs q = s.procs q := update_of_ne ne _ _

theorem cover_held (s : State n) (u : Nat) : cover s.held u = ∑ p, cover (s.regions p) u := by
  rw [Fin.sum_univ_def]
  exact List.countP_flatMap

theorem cover_change (others : ∀ q, q ≠ p → t.regions q = s.regions q) (u : Nat) :
    cover t.held u + cover (s.regions p) u = cover s.held u + cover (t.regions p) u := by
  have rest : ∑ q ∈ Finset.univ.erase p, cover (t.regions q) u = ∑ q ∈ Finset.univ.erase p, cover (s.regions q) u :=
    sum_congr rfl fun q inside => by rw [others q (ne_of_mem_erase inside)]
  rw [cover_held,cover_held,← add_sum_erase _ _ (mem_univ p),← add_sum_erase _ (fun q => cover (s.regions q) u)
    (mem_univ p),rest]
  omega

theorem held_same (same : ∀ q, t.regions q = s.regions q) : t.held = s.held := by
  rw [State.held,State.held,funext same]

def On (l : List Extent) (a : Nat) : Prop := 0 < cover l (a / 1024)

theorem on_of_range (fits : count ≤ x.len * 1024) (low : x.start * 1024 ≤ a) (high : a < x.start * 1024 + count) : On [x] a := by
  rw [On,cover_cons,if_pos]
  · simp
  · omega

theorem On.head (here : On [x] a) : On (x :: l) a := by
  simp only [On,cover_cons,cover_nil] at here ⊢
  omega

theorem On.tail (here : On l a) : On (x :: l) a := by
  simp only [On,cover_cons] at here ⊢
  omega

theorem transfer_outside {target source : Nat → α} {src : Nat} (fits : count ≤ x.len * 1024) (off : ¬ On [x] a) :
    transfer target (x.start * 1024) count source src a = target a := by
  rw [transfer,if_neg]
  exact fun inside => off (on_of_range fits inside.1 inside.2)

theorem transfer_inside {target source : Nat → α} {dst src i : Nat} (inside : i < count) :
    transfer target dst count source src (dst + i) = source (src + i) := by
  rw [transfer,if_pos (by omega),Nat.add_sub_cancel_left]

theorem cells_congr {f g : Nat → α} (same : ∀ i, i < count → f (a + i) = g (b + i)) : cells f a count = cells g b count :=
  List.map_congr_left fun i inside => same i (List.mem_range.mp inside)

theorem ofCells_congr {f g : Nat → Cell n} (same : ∀ i, i < usize → f i = g i) : User.ofCells f = User.ofCells g := by
  have rest : ∀ i : Fin (usize - 2), f (i + 2) = g (i + 2) := fun i => same _ (by have := i.isLt; omega)
  simp only [User.ofCells,same 0 (by decide),same 1 (by decide),rest]

theorem ofCells_cell (u : User n) : User.ofCells u.cell = u := by
  obtain ⟨procp,nswap,rest⟩ := u
  simp only [User.ofCells,User.cell,User.mk.injEq,reduceIte,true_and]
  refine ⟨rfl,?_⟩
  ext i
  rw [if_neg (by omega),if_neg (by omega),dif_pos (by simp)]
  rfl

theorem btod_covers {size : Nat} (small : size ≤ maxmem) : size ≤ btod size * 1024 ∧ (size ≠ 0 → btod size ≠ 0) := by
  have whole : sizeT (size + 1023) = size + 1023 := Nat.mod_eq_of_lt (by rw [maxmem] at small; omega)
  rw [btod,whole]
  omega

theorem btod_usize : usize ≤ btod usize * 1024 := by decide

structure Proc.Alike (p q : Proc) : Prop where
  dsize : p.dsize = q.dsize
  ssize : p.ssize = q.ssize
  daddr : p.daddr = q.daddr
  saddr : p.saddr = q.saddr
  addr : p.addr = q.addr

theorem Proc.Alike.refl (p : Proc) : p.Alike p := ⟨rfl,rfl,rfl,rfl,rfl⟩

theorem Proc.Alike.extents {p q : Proc} (alike : p.Alike q) : p.extents = q.extents := by
  rw [Proc.extents,Proc.extents,alike.dsize,alike.ssize,alike.daddr,alike.saddr,alike.addr]

theorem stored_congr (alike : (t.procs p).Alike (s.procs p)) (fits : (s.procs p).dsize + (s.procs p).ssize ≤ maxmem)
    (same : ∀ a, On (s.procs p).extents a → t.disk a = s.disk a) : t.stored p = s.stored p := by
  have data := (btod_covers (by omega : (s.procs p).dsize ≤ maxmem)).1
  have stack := (btod_covers (by omega : (s.procs p).ssize ≤ maxmem)).1
  rw [State.stored,State.stored,alike.dsize,alike.ssize,alike.daddr,alike.saddr,alike.addr,Image.mk.injEq]
  refine ⟨cells_congr fun i inside => ?_,cells_congr fun i inside => ?_,ofCells_congr fun i inside => ?_⟩
  · exact same _ (On.head (on_of_range data (Nat.le_add_right _ _) (Nat.add_lt_add_left inside _)))
  · exact same _ (On.tail (On.head (on_of_range stack (Nat.le_add_right _ _) (Nat.add_lt_add_left inside _))))
  · exact same _ (On.tail (On.tail (on_of_range btod_usize (Nat.le_add_right _ _) (Nat.add_lt_add_left inside _))))

/-- The swap area is shared among the map and what processes have of it, and the blocks
of a process that is swapped out hold its image. -/
structure Stored (slots : Nat) (area : Extent) (s : State n) : Prop where
  steady : Steady slots area ⟨s.map,s.held,[]⟩
  fits : ∀ p, s.alive p → (s.procs p).dsize + (s.procs p).ssize ≤ maxmem
  kept : ∀ p, s.out p → s.stored p = s.went p
  args : ∀ p, s.bno p ≠ 0 → p ≠ 0 ∧ s.alive p

theorem regions_same (out : t.out p ↔ s.out p) (alike : s.out p → (t.procs p).Alike (s.procs p)) (bno : t.bno p = s.bno p) :
    t.regions p = s.regions p := by
  rw [State.regions,State.regions,State.args,State.args,bno]
  by_cases away : s.out p
  · rw [if_pos (out.mpr away),if_pos away,(alike away).extents]
  · rw [if_neg fun now => away (out.mp now),if_neg away]

theorem Stored.frame (stored : Stored slots area s) (map : t.map = s.map) (disk : t.disk = s.disk)
    (went : t.went = s.went) (bno : t.bno = s.bno)
    (out : ∀ p, t.out p ↔ s.out p) (alike : ∀ p, s.out p → (t.procs p).Alike (s.procs p))
    (fits : ∀ p, t.alive p → (t.procs p).dsize + (t.procs p).ssize ≤ maxmem) (args : ∀ p, s.bno p ≠ 0 → t.alive p) :
    Stored slots area t := by
  have held : t.held = s.held := held_same fun p => regions_same (out p) (alike p) (by rw [bno])
  refine ⟨?_,fits,fun p away => ?_,fun p some => ?_⟩
  · rw [map,held]
    exact stored.steady
  · have before := (out p).mp away
    rw [went,← stored.kept p before]
    exact stored_congr (alike p before) (stored.fits p before.2.1) fun a _ => by rw [disk]
  · rw [bno] at some
    exact ⟨(stored.args p some).1,args p some⟩

def departed (s : State n) (q : Slot n) (map : Map) (a : List Nat) : State n :=
  let p := s.procs q
  let disk := transfer s.disk (a.getD 0 0 * 1024) p.dsize s.mem p.daddr
  let disk := transfer disk (a.getD 1 0 * 1024) p.ssize s.mem p.saddr
  let s := {s with u := {s.u with nswap := s.u.nswap + 1}}
  let disk := transfer disk (a.getD 2 0 * 1024) usize (s.area p.addr).cell 0
  {s with
    map
    disk
    went := update s.went q (s.image q)
    procs := update s.procs q {p with
      daddr := a.getD 0 0,saddr := a.getD 1 0,addr := .block (a.getD 2 0)
      sload := false,slock := false,time := 0}}

theorem departed_self (s : State n) (q : Slot n) (map : Map) (a : List Nat) : (departed s q map a).procs q = {s.procs q with
      daddr := a.getD 0 0,saddr := a.getD 1 0,addr := .block (a.getD 2 0)
      sload := false,slock := false,time := 0} := update_self _ _ _

theorem departed_other (ne : p ≠ q) (map : Map) (a : List Nat) :
    (departed s q map a).procs p = s.procs p := update_of_ne ne _ _

theorem swapout_cases (steady : Steady slots area ⟨s.map,held,[]⟩) (q : Slot n) :
    swapout s q = .error (.panic "out of swap space") ∨
    ∃ map a, swapout s q = .ok (departed s q map a) ∧
    Steady slots area ⟨map,((departed s q map a).procs q).extents ++ held,[]⟩ := by
  rw [swapout]
  dsimp only
  rcases malloc3_carves steady.toRepresents (btod (s.procs q).dsize) (btod (s.procs q).ssize) (btod usize) with
    ⟨map,none,_⟩ | ⟨map,a,final,some,carved,becomes⟩
  · rw [none]
    exact .inl rfl
  rw [some]
  refine .inr ⟨map,a,rfl,?_⟩
  have three : a.length = 3 := addrs_carved carved
  obtain ⟨x,y,z,rfl⟩ := List.length_eq_three.mp three
  have whole := steady.carved carved becomes
  rw [departed_self]
  exact whole

theorem cover_le_one (steady : Steady slots area ⟨map,held,[]⟩) (u : Nat) : cover held u ≤ 1 := by
  have total := steady.units u
  simp only [cover_cons,cover_nil] at total
  split_ifs at total <;> omega

theorem off_tail (once : cover (x :: l) (a / 1024) ≤ 1) (here : On [x] a) : ¬ On l a := by
  simp only [On,cover_cons,cover_nil] at once here ⊢
  omega

theorem departed_extents (s : State n) (q : Slot n) (map : Map) (a : List Nat) : ((departed s q map a).procs q).extents =
      [⟨a.getD 0 0,btod (s.procs q).dsize⟩,⟨a.getD 1 0,btod (s.procs q).ssize⟩,⟨a.getD 2 0,btod usize⟩] := by
  rw [departed_self]
  rfl

theorem departed_off (small : (s.procs q).dsize + (s.procs q).ssize ≤ maxmem) {a : List Nat}
    (off : ¬ On ((departed s q map a).procs q).extents b) : (departed s q map a).disk b = s.disk b := by
  have data := (btod_covers (by omega : (s.procs q).dsize ≤ maxmem)).1
  have stack := (btod_covers (by omega : (s.procs q).ssize ≤ maxmem)).1
  rw [departed_extents] at off
  calc (departed s q map a).disk b
    _ = _ := transfer_outside (x := ⟨a.getD 2 0,btod usize⟩) btod_usize fun bad => off (On.tail (On.tail bad))
    _ = _ := transfer_outside (x := ⟨a.getD 1 0,btod (s.procs q).ssize⟩) stack fun bad => off (On.tail (On.head bad))
    _ = s.disk b := transfer_outside (x := ⟨a.getD 0 0,btod (s.procs q).dsize⟩) data fun bad => off (On.head bad)

theorem departed_kept (small : (s.procs q).dsize + (s.procs q).ssize ≤ maxmem) {a : List Nat}
    (once : ∀ u, cover ((departed s q map a).procs q).extents u ≤ 1) : (departed s q map a).stored q =
    (departed s q map a).went q := by
  have data := (btod_covers (by omega : (s.procs q).dsize ≤ maxmem)).1
  have stack := (btod_covers (by omega : (s.procs q).ssize ≤ maxmem)).1
  rw [departed_extents] at once
  have later : ∀ u, cover [⟨a.getD 1 0,btod (s.procs q).ssize⟩,⟨a.getD 2 0,btod usize⟩] u ≤ 1 := by
    intro u
    have whole := once u
    rw [cover_cons] at whole
    omega
  have past : (departed s q map a).went q = _ := update_self _ _ _
  rw [past,State.stored,departed_self,State.image,Image.mk.injEq]
  refine ⟨cells_congr fun i inside => ?_,cells_congr fun i inside => ?_,?_⟩
  · have on := on_of_range (x := ⟨a.getD 0 0,btod (s.procs q).dsize⟩) data (Nat.le_add_right _ i) (Nat.add_lt_add_left inside _)
    have off := off_tail (once _) on
    calc (departed s q map a).disk _
      _ = _ := transfer_outside (x := ⟨a.getD 2 0,btod usize⟩) btod_usize fun bad => off (On.tail bad)
      _ = _ := transfer_outside (x := ⟨a.getD 1 0,btod (s.procs q).ssize⟩) stack fun bad => off (On.head bad)
      _ = _ := transfer_inside inside
  · have on := on_of_range (x := ⟨a.getD 1 0,btod (s.procs q).ssize⟩) stack (Nat.le_add_right _ i) (Nat.add_lt_add_left inside _)
    calc (departed s q map a).disk _
      _ = _ := transfer_outside (x := ⟨a.getD 2 0,btod usize⟩) btod_usize (off_tail (later _) on)
      _ = _ := transfer_inside inside
  · refine (ofCells_congr fun i inside => ?_).trans (ofCells_cell _)
    refine (transfer_inside inside).trans ?_
    rw [Nat.zero_add]

theorem cover_extents_le (away : s.out p) (u : Nat) : cover (s.procs p).extents u ≤ cover s.held u := by
  rw [cover_held]
  have own : cover (s.procs p).extents u ≤ cover (s.regions p) u := by
    rw [State.regions,if_pos away,cover_append]
    exact Nat.le_add_right _ _
  exact own.trans (single_le_sum (f := fun p => cover (s.regions p) u) (fun _ _ => Nat.zero_le _) (mem_univ p))

theorem Stored.departs (stored : Stored slots area s) (inside : ¬ s.out q)
    (small : (s.procs q).dsize + (s.procs q).ssize ≤ maxmem)
    {a : List Nat} (steady : Steady slots area ⟨map,((departed s q map a).procs q).extents ++ s.held,[]⟩)
    (maps : t.map = map) (disk : t.disk = (departed s q map a).disk) (went : t.went = (departed s q map a).went)
    (bno : t.bno = s.bno)
    (out : ∀ p, t.out p ↔ p = q ∨ s.out p) (alike : ∀ p, (t.procs p).Alike ((departed s q map a).procs p))
    (fits : ∀ p, t.alive p → (t.procs p).dsize + (t.procs p).ssize ≤ maxmem) (args : ∀ p, s.bno p ≠ 0 → t.alive p) :
    Stored slots area t := by
  have once := cover_le_one steady
  have away : t.out q := (out q).mpr (.inl rfl)
  have others : ∀ p, p ≠ q → t.regions p = s.regions p := by
    intro p ne
    refine regions_same ((out p).trans (or_iff_right ne)) (fun _ => ?_) (by rw [bno])
    rw [← departed_other (s := s) ne map a]
    exact alike p
  refine ⟨?_,fits,fun p gone => ?_,fun p some => ?_⟩
  · rw [maps]
    refine steady.holding fun u => ?_
    have change := cover_change others u
    have own : t.regions q = ((departed s q map a).procs q).extents ++ s.regions q := by
      rw [State.regions,State.regions,if_pos away,if_neg inside,(alike q).extents,State.args,State.args,bno]
      rfl
    rw [own,cover_append] at change
    rw [cover_append]
    omega
  · rw [went]
    rcases eq_or_ne p q with rfl | ne
    · rw [← departed_kept small fun u => ?_]
      · refine stored_congr (alike p) ?_ fun b _ => by rw [disk]
        rw [departed_self]
        exact small
      have whole := once u
      rw [cover_append] at whole
      exact Nat.le_of_add_right_le whole
    have before : s.out p := ((out p).mp gone).resolve_left ne
    have same := alike p
    rw [departed_other ne] at same
    rw [show (departed s q map a).went p = s.went p from update_of_ne ne _ _,← stored.kept p before]
    refine stored_congr same (stored.fits p before.2.1) fun b on => ?_
    rw [disk]
    refine departed_off small fun both => ?_
    have whole := once (b / 1024)
    have owned := cover_extents_le before (b / 1024)
    rw [cover_append] at whole
    rw [On] at on both
    omega
  · rw [bno] at some
    exact ⟨(stored.args p some).1,args p some⟩

theorem release_cases {size addr : Nat} (steady : Steady slots area ⟨s.map,⟨addr,size⟩ :: held,[]⟩) (nonzero : size ≠ 0) :
    (∃ map, release s size addr = .ok {s with map} ∧ Steady slots area ⟨map,held,[]⟩) ∨
      release s size addr = .error (.map (.outside slots)) := by
  have member : (⟨addr,size⟩ : Extent) ∈ ⟨addr,size⟩ :: held := List.mem_cons_self
  obtain ⟨room,past⟩ := steady.frees nonzero member
  rw [release]
  by_cases below : Below ⟨s.map,⟨addr,size⟩ :: held,[]⟩ (.mfree size addr)
  · obtain ⟨map,ok,becomes⟩ := room below
    rw [ok]
    refine .inl ⟨map,rfl,steady.released nonzero member becomes fun u => ?_⟩
    rw [cover_cons,cover_cons,cover_nil,Nat.zero_add]
  · rw [past below]
    exact .inr rfl

theorem transfer_nothing (target source : Nat → α) (dst src : Nat) : transfer target dst 0 source src = target := by
  ext a
  rw [transfer,if_neg (by omega)]

theorem fetch_cases {blkno : Nat} (steady : Steady slots area ⟨s.map,⟨blkno,btod count⟩ :: held,[]⟩)
    (small : count ≤ maxmem) (core : Nat) :
    (∃ map, fetch s core count blkno = .ok {s with map,mem := transfer s.mem core count s.disk (blkno * 1024)} ∧
      Steady slots area ⟨map,held,[]⟩) ∨ fetch s core count blkno = .error (.map (.outside slots)) := by
  rw [fetch]
  split_ifs with zero
  · refine .inl ⟨s.map,?_,steady.holding fun u => ?_⟩
    · rw [zero,transfer_nothing]
    have nothing := cover_empty (x := ⟨blkno,btod count⟩) (by rw [zero]; rfl) u
    rw [cover_cons] at nothing ⊢
    rw [cover_nil] at nothing
    omega
  · exact release_cases (s := {s with mem := transfer s.mem core count s.disk (blkno * 1024)}) steady
      ((btod_covers small).2 zero)

def arrived (s : State n) (q : Slot n) (map : Map) : State n :=
  let p := s.procs q
  let saddr := minus userDataEnd p.ssize
  let s := {s with
    map
    mem := transfer (transfer s.mem userDataStart p.dsize s.disk (p.daddr * 1024)) saddr p.ssize s.disk (p.saddr * 1024)
    u0 := .ofCells fun i => s.disk (p.addr.blkno * 1024 + i)}
  let s := s.withProc q {p with daddr := userDataStart,saddr,addr := .u0,sload := true,time := 0}
  {s with back := (s.went q,s.image q) :: s.back}

theorem arrived_self (s : State n) (q : Slot n) (map : Map) : (arrived s q map).procs q =
    {s.procs q with daddr := userDataStart,saddr := minus userDataEnd (s.procs q).ssize,addr := .u0,sload := true,time := 0} :=
  update_self _ _ _

theorem arrived_other (ne : p ≠ q) (map : Map) : (arrived s q map).procs p = s.procs p := update_of_ne ne _ _

theorem arrived_out (map : Map) (p : Slot n) : (arrived s q map).out p ↔ s.out p ∧ p ≠ q := by
  rcases eq_or_ne p q with rfl | ne
  · refine ⟨fun away => ?_,fun away => absurd rfl away.2⟩
    have loaded := away.2.2.1
    rw [arrived_self] at loaded
    cases loaded
  · rw [State.out,State.out,State.alive,State.alive,arrived_other ne,and_iff_left ne]
    rfl

theorem swapin_cases (stored : Stored slots area s) (away : s.out q) :
    (∃ map, swapin s q = .ok (arrived s q map) ∧ Steady slots area ⟨map,(arrived s q map).held,[]⟩) ∨
      swapin s q = .error (.map (.outside slots)) := by
  have small := stored.fits q away.2.1
  have others : ∀ p, p ≠ q → (arrived s q s.map).regions p = s.regions p := by
    intro p ne
    refine regions_same ((arrived_out s.map p).trans (and_iff_left ne)) (fun _ => ?_) rfl
    rw [arrived_other ne]
    exact .refl _
  have own : (arrived s q s.map).regions q = s.args q := by
    rw [State.regions,if_neg fun bad => ((arrived_out s.map q).mp bad).2 rfl]
    rfl
  have first : Steady slots area ⟨s.map,(s.procs q).extents ++ (arrived s q s.map).held,[]⟩ := by
    refine stored.steady.holding fun u => ?_
    have change := cover_change others u
    rw [own,State.regions,if_pos away,cover_append] at change
    rw [cover_append]
    dsimp only
    omega
  rw [swapin]
  dsimp only
  rcases fetch_cases first (by omega) userDataStart with ⟨map,ok,second⟩ | failed
  · rw [ok]
    dsimp only
    rcases fetch_cases (s := {s with map,mem := transfer s.mem userDataStart (s.procs q).dsize s.disk ((s.procs q).daddr * 1024)})
      second (by omega) (minus userDataEnd (s.procs q).ssize) with ⟨map,ok,third⟩ | failed
    · rw [ok]
      dsimp only
      rcases release_cases (s := {s with map,mem := _,u0 := _}) third (by decide) with ⟨map,ok,last⟩ | failed
      · rw [ok]
        exact .inl ⟨map,rfl,last⟩
      rw [failed]
      exact .inr rfl
    · rw [failed]
      exact .inr rfl
  · rw [failed]
    exact .inr rfl

theorem minus_small (less : b ≤ a) (high : a < 2^32) : minus a b = a - b := by
  rw [minus,sizeT,show a + 2^32 - b = a - b + 2^32 by omega,Nat.add_mod_right,Nat.mod_eq_of_lt (by omega)]

theorem arrived_image (small : (s.procs q).dsize + (s.procs q).ssize ≤ maxmem) (map : Map) :
    (arrived s q map).image q = s.stored q := by
  have saddr : minus userDataEnd (s.procs q).ssize = userDataEnd - (s.procs q).ssize :=
    minus_small (by rw [maxmem] at small; rw [userDataEnd]; omega) (by decide)
  rw [State.image,arrived_self,State.stored,Image.mk.injEq]
  refine ⟨cells_congr fun i inside => ?_,cells_congr fun i inside => transfer_inside inside,rfl⟩
  have inside : i < (s.procs q).dsize := inside
  have below : ¬ (minus userDataEnd (s.procs q).ssize ≤ userDataStart + i ∧
    userDataStart + i < minus userDataEnd (s.procs q).ssize + (s.procs q).ssize) := by
    rw [saddr]
    simp only [maxmem,userDataEnd,userDataStart] at small ⊢
    omega
  calc (arrived s q map).mem (userDataStart + i)
    _ = _ := if_neg below
    _ = _ := transfer_inside inside

theorem Stored.arrives (stored : Stored slots area s) (away : s.out q)
    (steady : Steady slots area ⟨map,(arrived s q map).held,[]⟩) : Stored slots area (arrived s q map) := by
  have alive : ∀ p, (arrived s q map).alive p ↔ s.alive p := by
    intro p
    rcases eq_or_ne p q with rfl | ne
    · rw [State.alive,State.alive,arrived_self]
    · rw [State.alive,State.alive,arrived_other ne]
  refine ⟨steady,fun p live => ?_,fun p gone => ?_,fun p some => ⟨(stored.args p some).1,(alive p).mpr (stored.args p some).2⟩⟩
  · have before := stored.fits p ((alive p).mp live)
    rcases eq_or_ne p q with rfl | ne
    · rw [arrived_self]
      exact before
    rw [arrived_other ne]
    exact before
  · obtain ⟨before,ne⟩ := (arrived_out map p).mp gone
    rw [show (arrived s q map).went p = s.went p from rfl,← stored.kept p before]
    refine stored_congr ?_ (stored.fits p before.2.1) fun _ _ => rfl
    rw [arrived_other ne]
    exact .refl _

end Retrobsd.Swapping

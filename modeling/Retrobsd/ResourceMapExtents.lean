import Retrobsd.Lib.Extents
import Retrobsd.ResourceMap

/-! The array routines of the resource map compute the list operations on free
extents. A map that stands for a list of extents holds them in its first slots,
followed by an all-zero entry; what lies behind that entry is arbitrary. -/
namespace Retrobsd.ResourceMap
open Lib.Extents List Option

def entry (e : Extent) : Mapent := ⟨e.len,e.start⟩

def terminator : Mapent := ⟨0,0⟩

/-- Addresses are positive and every end of an extent is a `size_t` value. -/
def Bounded (l : List Extent) : Prop := ∀ e ∈ l, 0 < e.start ∧ e.stop < 2^32

structure Represents (mp : Map) (l : List Extent) : Prop where
  shape : ∃ rest, mp.mMap = l.map entry ++ terminator :: rest
  positive : Positive l
  bounded : Bounded l

structure SameFrame (mp next : Map) : Prop where
  slots : next.mMap.length = mp.mMap.length
  limit : next.mLimit = mp.mLimit
  name : next.mName = mp.mName

structure Becomes (mp next : Map) (l : List Extent) : Prop extends SameFrame mp next where
  shape : ∃ rest, next.mMap = l.map entry ++ terminator :: rest

variable {limit : Nat} {name : String}

theorem read_middle (pre post : List Mapent) (e : Mapent) : read ⟨pre ++ e :: post,limit,name⟩ pre.length = .ok e := by
  simp [read]

theorem read_next (pre post : List Mapent) (x e : Mapent) :
    read ⟨pre ++ x :: e :: post,limit,name⟩ (pre.length + 1) = .ok e := by
  simp [read]

theorem write_middle (pre post : List Mapent) (e x : Mapent) :
    write ⟨pre ++ e :: post,limit,name⟩ pre.length x = .ok ⟨pre ++ x :: post,limit,name⟩ := by
  simp [write]

@[simp] theorem entry_mSize (e : Extent) : (entry e).mSize = e.len := rfl

@[simp] theorem entry_mAddr (e : Extent) : (entry e).mAddr = e.start := rfl

theorem entry_size_ne {e : Extent} (positive : 0 < e.len) : (entry e).mSize ≠ 0 := Nat.pos_iff_ne_zero.mp positive

theorem sizeT_of_lt {n : Nat} (small : n < 2^32) : sizeT n = n := Nat.mod_eq_of_lt small

/-- Both shifting loops move the rest of the map one slot down; the terminator is
copied, so that two of them remain. -/
theorem shiftDown_removes (l : List Extent) (positive : Positive l) (pre rest : List Mapent) (x : Mapent)
    (fuel : Nat) (enough : l.length < fuel) :
    shiftDown fuel ⟨pre ++ x :: (l.map entry ++ terminator :: rest),limit,name⟩ pre.length pre.length =
      .ok ⟨pre ++ (l.map entry ++ terminator :: terminator :: rest),limit,name⟩ := by
  induction l generalizing pre x fuel with
  | nil =>
    obtain _ | fuel := fuel
    · omega
    simp only [shiftDown,map_nil,nil_append,read_next,bind,Except.bind,write_middle]
    rfl
  | cons e l ih =>
    obtain _ | fuel := fuel
    · omega
    have here := entry_size_ne (positive e (by simp))
    have tail := ih (fun f member => positive f (by simp [member])) (pre ++ [entry e]) (entry e) fuel (by simpa using enough)
    simp only [append_assoc,singleton_append,length_append,length_singleton] at tail
    simp only [shiftDown,map_cons,cons_append,read_next,bind,Except.bind,write_middle,here,if_false]
    exact tail

theorem closeGap_eq (fuel : Nat) : ∀ (mp : Map) (ep bp : Nat), closeGap fuel mp ep bp = shiftDown fuel mp (ep + 1) bp := by
  induction fuel with
  | zero => exact fun _ _ _ => rfl
  | succ fuel ih =>
    intro mp ep bp
    simp only [closeGap,shiftDown,ih,ne_eq,ite_not]

def Rest (l : List Extent) (size : Nat) (after : List Mapent) : Prop :=
    after.length = size ∧ ∃ rest, after = l.map entry ++ terminator :: rest

theorem mallocLoop_allocates (size : Nat) (l : List Extent) (positive : Positive l) (bounded : Bounded l)
    (pre rest : List Mapent) (fuel : Nat) (enough : l.length < fuel) :
    ∃ after, mallocLoop size fuel ⟨pre ++ (l.map entry ++ terminator :: rest),limit,name⟩ pre.length =
        .ok (⟨pre ++ after,limit,name⟩,((allocate size l).map Prod.fst).getD 0) ∧
      Rest (((allocate size l).map Prod.snd).getD l) (l.length + 1 + rest.length) after := by
  induction l generalizing pre fuel with
  | nil =>
    obtain _ | fuel := fuel
    · omega
    refine ⟨terminator :: rest,?_,by simp; omega,rest,by simp [allocate]⟩
    simp only [mallocLoop,map_nil,nil_append,read_middle,bind,Except.bind]
    rfl
  | cons e l ih =>
    obtain _ | fuel := fuel
    · omega
    have filled := positive e (by simp)
    have limits := bounded e (by simp)
    have others : Positive l := fun f member => positive f (by simp [member])
    have nonzero : ¬ e.len = 0 := by omega
    simp only [map_cons,cons_append,mallocLoop,read_middle,write_middle,bind,Except.bind,entry,nonzero,if_false,
      ge_iff_le,pure,Except.pure]
    by_cases fits : size ≤ e.len
    · by_cases all : e.len = size
      · subst size
        have removed := @shiftDown_removes limit name l others pre rest ⟨0,e.start⟩
          (pre ++ ⟨0,e.start⟩ :: (l.map entry ++ terminator :: rest)).length (by simp; omega)
        refine ⟨l.map entry ++ terminator :: terminator :: rest,?_,by simp; omega,terminator :: rest,?_⟩
        · simp only [le_refl,if_true,removed,allocate,Nat.sub_self,ne_eq,not_true_eq_false,if_false]
          rfl
        · simp [allocate]
      have left : ¬ e.len - size = 0 := by omega
      have inside : sizeT (e.start + size) = e.start + size := sizeT_of_lt (by simp only [Extent.stop] at limits; omega)
      refine ⟨entry ⟨e.start + size,e.len - size⟩ :: (l.map entry ++ terminator :: rest),?_,by simp; omega,rest,
        by simp [allocate,all,fits]⟩
      simp only [fits,if_true,left,allocate,all,ne_eq,not_false_eq_true,inside,if_false]
      rfl
    · obtain ⟨after,searched,size_eq,more,shape⟩ := ih others (fun f member => bounded f (by simp [member]))
        (pre ++ [entry e]) fuel (by simpa using enough)
      simp only [append_assoc,singleton_append,length_append,length_singleton,entry] at searched
      refine ⟨entry e :: after,?_,by simp [size_eq]; omega,more,?_⟩
      · simp only [fits,if_false,searched,allocate,Option.map_map]
        rfl
      · cases found : allocate size l <;> simp [allocate,fits,found,shape]

theorem malloc_allocates {mp : Map} {l : List Extent} (represents : Represents mp l) {size : Nat} (nonzero : size ≠ 0) :
    ∃ next, malloc mp size = .ok (next,((allocate size l).map Prod.fst).getD 0) ∧
    Becomes mp next (((allocate size l).map Prod.snd).getD l) := by
  obtain ⟨rest,shape⟩ := represents.shape
  obtain ⟨mMap,limit,name⟩ := mp
  subst shape
  obtain ⟨after,searched,size_eq,more,final⟩ := @mallocLoop_allocates limit name size l
    represents.positive represents.bounded [] rest (l.map entry ++ terminator :: rest).length (by simp)
  refine ⟨⟨after,limit,name⟩,?_,⟨by simp [size_eq]; omega,rfl,rfl⟩,more,final⟩
  simpa [malloc,nonzero] using searched

theorem skip_below (addr : Nat) (below above : List Extent) (positive : Positive below)
    (lower : ∀ e ∈ below, e.start ≤ addr) (upper : ∀ e ∈ above, addr < e.start) (pre rest : List Mapent)
    (fuel : Nat) (enough : below.length < fuel) :
    skip addr fuel ⟨pre ++ (below.map entry ++ (above.map entry ++ terminator :: rest)),limit,name⟩ pre.length =
      .ok (pre.length + below.length) := by
  induction below generalizing pre fuel with
  | nil =>
    obtain _ | fuel := fuel
    · omega
    cases above with
    | nil =>
      simp only [skip,map_nil,nil_append,read_middle,bind,Except.bind]
      rfl
    | cons f above =>
      have high : ¬ (entry f).mAddr ≤ addr := not_le.mpr (upper f (by simp))
      simp only [skip,map_nil,nil_append,map_cons,cons_append,read_middle,bind,Except.bind,high,and_false,if_false]
      rfl
  | cons e below ih =>
    obtain _ | fuel := fuel
    · omega
    have here := entry_size_ne (positive e (by simp))
    have low : (entry e).mAddr ≤ addr := lower e (by simp)
    have tail := ih (fun f member => positive f (by simp [member])) (fun f member => lower f (by simp [member]))
      (pre ++ [entry e]) fuel (by simpa using enough)
    simp only [append_assoc,singleton_append,length_append,length_singleton] at tail
    simp only [skip,map_cons,cons_append,read_middle,bind,Except.bind,ne_eq,here,not_false_eq_true,low,and_true,
      if_true,tail,length_cons]
    congr 1
    omega

theorem findEnd_terminator (l : List Extent) (positive : Positive l) (pre rest : List Mapent) (fuel : Nat)
    (enough : l.length < fuel) :
    findEnd fuel ⟨pre ++ (l.map entry ++ terminator :: rest),limit,name⟩ pre.length = .ok (pre.length + l.length) := by
  induction l generalizing pre fuel with
  | nil =>
    obtain _ | fuel := fuel
    · omega
    simp only [findEnd,map_nil,nil_append,read_middle,bind,Except.bind]
    rfl
  | cons e l ih =>
    obtain _ | fuel := fuel
    · omega
    have here := entry_size_ne (positive e (by simp))
    have tail := ih (fun f member => positive f (by simp [member])) (pre ++ [entry e]) fuel (by simpa using enough)
    simp only [append_assoc,singleton_append,length_append,length_singleton] at tail
    simp only [findEnd,map_cons,cons_append,read_middle,bind,Except.bind,ne_eq,here,not_false_eq_true,if_true,tail,length_cons]
    congr 1
    omega

/-- The insertion loop runs from the top, so that each entry is read before its
slot is overwritten; slot `start` keeps a stale copy. -/
theorem shiftUp_moves (pre mid rest : List Mapent) (y : Mapent) :
    ∃ stale, shiftUp pre.length mid.length ⟨pre ++ (mid ++ y :: rest),limit,name⟩ =
      .ok ⟨pre ++ stale :: (mid ++ rest),limit,name⟩ := by
  induction mid using reverseRecOn generalizing y rest with
  | nil => exact ⟨y,rfl⟩
  | append_singleton mid m ih =>
    obtain ⟨stale,moved⟩ := ih (m :: rest) m
    refine ⟨stale,?_⟩
    have source := @read_middle limit name (pre ++ mid) (y :: rest) m
    have target := @write_middle limit name (pre ++ mid ++ [m]) rest y m
    simp only [length_append,length_singleton,append_assoc,singleton_append,← Nat.add_assoc] at source target
    simp only [length_append,length_singleton,shiftUp,append_assoc,singleton_append,source,bind,Except.bind,target,moved]

theorem shiftUp_outside (pre mid : List Mapent) (m : Mapent) :
    shiftUp pre.length (mid.length + 1) ⟨pre ++ (mid ++ [m]),limit,name⟩ =
      .error (.outside (pre.length + mid.length + 1)) := by
  have source := @read_middle limit name (pre ++ mid) [] m
  simp only [length_append,append_assoc] at source
  have past : ¬ pre.length + mid.length + 1 < (pre ++ (mid ++ [m])).length := by simp; omega
  simp only [shiftUp,source,bind,Except.bind,write,past,if_false]

theorem gapped_split {l : List Extent} (gapped : Gapped l) (addr : Nat) :
    ∃ below above, l = below ++ above ∧ (∀ e ∈ below, e.start ≤ addr) ∧ ∀ e ∈ above, addr < e.start := by
  induction l with
  | nil => exact ⟨[],[],rfl,by simp,by simp⟩
  | cons e l ih =>
    have head : ∀ b ∈ l, e.stop < b.start := fun b member => rel_of_pairwise_cons gapped member
    by_cases low : e.start ≤ addr
    · obtain ⟨below,above,split,lower,upper⟩ := ih gapped.of_cons
      exact ⟨e :: below,above,by simp [split],by simpa [low] using lower,upper⟩
    refine ⟨[],e :: l,rfl,by simp,?_⟩
    intro f member
    rcases mem_cons.mp member with rfl | inside
    · omega
    have gap := head f inside
    simp only [Extent.stop] at gap
    omega

theorem abutsRight_value {x : Extent} {above : List Extent} (positive : Positive above)
    (fits : x.stop < 2^32) (right : ∀ f ∈ above, x.stop ≤ f.start) (pre rest : List Mapent) :
    abutsRight ⟨pre ++ (above.map entry ++ terminator :: rest),limit,name⟩ x.len x.start pre.length =
      .ok (decide (above.head?.map Extent.start = some x.stop)) := by
  have stop : sizeT (x.start + x.len) = x.stop := sizeT_of_lt fits
  cases above with
  | nil =>
    simp only [abutsRight,map_nil,nil_append,read_middle,bind,Except.bind]
    rfl
  | cons f above =>
    have here := entry_size_ne (positive f (by simp))
    have beyond := right f (by simp)
    have same : x.stop ≥ (entry f).mAddr ↔ f.start = x.stop := by
      simp only [entry]
      omega
    simp only [abutsRight,map_cons,cons_append,read_middle,bind,Except.bind,ne_eq,here,not_false_eq_true,
      true_and,stop,same,head?_cons,map_some,some.injEq]
    rfl

section
variable {x : Extent} {below above : List Extent} {rest : List Mapent}
    (positive : Positive (below ++ above)) (bounded : Bounded (below ++ above))
    (nonempty : 0 < x.len) (fits : x.stop < 2^32) (clear : Clear x (below ++ above))
    (lower : ∀ e ∈ below, e.start ≤ x.start) (upper : ∀ e ∈ above, x.start < e.start)
include nonempty clear lower in
theorem below_stops {e : Extent} (member : e ∈ below) : e.stop ≤ x.start := by
  have low := lower e member
  rcases clear e (by simp [member]) with left | right
  · exact left
  simp only [Extent.stop] at right
  omega

include clear upper positive in
theorem above_starts {e : Extent} (member : e ∈ above) : x.stop ≤ e.start := by
  have high := upper e member
  have filled := positive e (by simp [member])
  rcases clear e (by simp [member]) with left | right
  · simp only [Extent.stop] at left
    omega
  · exact right

include bounded nonempty clear lower in
theorem abutsLeft_value : abutsLeft ⟨below.map entry ++ (above.map entry ++ terminator :: rest),limit,
    name⟩ x.start below.length =
      .ok (decide (below.getLast?.map Extent.stop = some x.start)) := by
  induction below using reverseRecOn with
  | nil => rfl
  | append_singleton init e =>
    have left := below_stops nonempty clear lower (by simp : e ∈ init ++ [e])
    have limits := bounded e (by simp)
    have at_ep := @read_middle limit name (init.map entry) (above.map entry ++ terminator :: rest) (entry e)
    have stop : sizeT ((entry e).mAddr + (entry e).mSize) = e.stop := sizeT_of_lt limits.2
    have same : e.stop ≥ x.start ↔ e.stop = x.start := by omega
    simp only [length_map] at at_ep
    simp only [abutsLeft,map_append,map_cons,map_nil,append_assoc,singleton_append,
      length_append,length_singleton,Nat.add_one_ne_zero,if_false,Nat.add_sub_cancel,at_ep,bind,Except.bind,
      stop,same,getLast?_append,getLast?_singleton,some_or,map_some,some.injEq]
    rfl

include nonempty clear lower in
theorem below_apart (gapped : Gapped (below ++ above)) (apart : below.getLast?.map Extent.stop ≠ some x.start)
    {e : Extent} (member : e ∈ below) : e.stop ≠ x.start := by
  intro touching
  obtain ⟨before,after,split⟩ := append_of_mem member
  rcases eq_nil_or_concat after with rfl | ⟨init,last,rfl⟩
  · simp [split,touching] at apart
  have order : e.stop < last.start := by
    have pair := pairwise_append.mp gapped
    rw [split] at pair
    exact rel_of_pairwise_cons (pairwise_append.mp pair.1).2.1 (by simp)
  have ends := below_stops nonempty clear lower (by simp [split] : last ∈ below)
  simp only [Extent.stop] at order ends touching
  omega

include clear upper positive in
theorem above_apart (gapped : Gapped (below ++ above)) (apart : above.head?.map Extent.start ≠ some x.stop)
    {e : Extent} (member : e ∈ above) : x.stop ≠ e.start := by
  intro touching
  cases above with
  | nil => cases member
  | cons f fs =>
    rcases mem_cons.mp member with rfl | inside
    · exact apart (by simp [touching])
    have order : f.stop < e.start := rel_of_pairwise_cons (pairwise_append.mp gapped).2.1 inside
    have starts := above_starts positive clear upper (mem_cons_self : f ∈ f :: fs)
    simp only [Extent.stop] at order starts touching
    omega

end

section
variable {x e : Extent} {init above : List Extent} {rest : List Mapent}

/-- The piece on the left grows, and swallows the piece on the right when the
freed space closes the gap between them. -/
theorem joinLeft_releases (positive : Positive (init ++ e :: above)) (bounded : Bounded (init ++ e :: above))
    (gapped : Gapped (init ++ e :: above)) (fits : x.stop < 2^32)
    (right : ∀ f ∈ above, x.stop ≤ f.start) (touching : e.stop = x.start) :
    ∃ next, joinLeft ⟨init.map entry ++ (entry e :: (above.map entry ++ terminator :: rest)),limit,name⟩ x.len x.start
        (init.length + 1) = .ok next ∧
      Becomes ⟨init.map entry ++ (entry e :: (above.map entry ++ terminator :: rest)),limit,name⟩ next
      (release x (init ++ e :: above)) := by
  have limits := bounded e (by simp)
  have filled : Positive above := fun f member => positive f (by simp [member])
  have starts : ∀ f ∈ init, f.start ≤ x.start ∧ f.stop ≠ x.start := by
    intro f member
    have here := positive e (by simp)
    have order := (pairwise_append.mp gapped).2.2 f member e (by simp)
    simp only [Extent.stop] at order touching ⊢
    omega
  have released : release x (init ++ e :: above) = init ++ release x (e :: above) := release_append starts
  have before : ¬ x.start < e.start := by
    simp only [Extent.stop] at touching
    omega
  have stop : sizeT (e.start + e.len) = x.start := (sizeT_of_lt limits.2).trans touching
  have grown : sizeT (e.len + x.len) = e.len + x.len := sizeT_of_lt (by simp only [Extent.stop] at fits touching ⊢; omega)
  have end_x : sizeT (x.start + x.len) = x.stop := sizeT_of_lt fits
  have at_ep := @read_middle limit name (init.map entry)
  have put_ep := @write_middle limit name (init.map entry)
  have at_bp := @read_next limit name (init.map entry)
  simp only [length_map] at at_ep put_ep at_bp
  -- the test on the right is made on the map whose left piece has grown already
  have tested := @abutsRight_value limit name x above filled fits right (init.map entry ++ [⟨e.len + x.len,e.start⟩]) rest
  simp only [length_append,length_map,length_singleton,append_assoc,singleton_append] at tested
  simp only [joinLeft,Nat.add_sub_cancel,at_ep,bind,Except.bind,entry_mAddr,entry_mSize,stop,lt_irrefl,gt_iff_lt,
    if_false,grown,put_ep,tested,released]
  cases above with
  | nil =>
    refine ⟨⟨init.map entry ++ ⟨e.len + x.len,e.start⟩ :: terminator :: rest,limit,name⟩,rfl,⟨by simp,rfl,rfl⟩,rest,?_⟩
    simp [release.eq_def,before,touching,entry]
  | cons f fs =>
    have beyond := right f (by simp)
    by_cases closed : f.start = x.stop
    · have swallowed : sizeT (e.len + x.len + f.len) = e.len + x.len + f.len := by
        have high := (bounded f (by simp)).2
        refine sizeT_of_lt ?_
        simp only [Extent.stop] at high closed touching
        omega
      have moved := @shiftDown_removes limit name fs (fun g member => filled g (by simp [member]))
        (init.map entry ++ [⟨e.len + x.len + f.len,e.start⟩]) rest (entry f)
        (init.map entry ++ ⟨e.len + x.len + f.len,
        e.start⟩ :: entry f :: (fs.map entry ++ terminator :: rest)).length (by simp; omega)
      simp only [length_append,length_map,length_singleton,append_assoc,singleton_append] at moved
      refine ⟨⟨init.map entry ++ ⟨e.len + x.len + f.len,e.start⟩ :: (fs.map entry ++ terminator :: terminator :: rest),
        limit,name⟩,?_,⟨by simp; omega,rfl,rfl⟩,terminator :: rest,?_⟩
      · simp only [map_cons,cons_append,head?_cons,map_some,closed,decide_true,if_true,at_bp,closeGap_eq,
          entry_mAddr,entry_mSize,end_x,lt_irrefl,if_false,swallowed,length_append,length_map]
        exact moved
      · simp [release.eq_def,before,touching,closed,entry]
    · refine ⟨⟨init.map entry ++ ⟨e.len + x.len,e.start⟩ :: ((f :: fs).map entry ++ terminator :: rest),limit,name⟩,?_,
        ⟨by simp,rfl,rfl⟩,rest,?_⟩
      · simp only [head?_cons,map_some,some.injEq,closed,decide_false]
        rfl
      · simp [release.eq_def,before,touching,Ne.symm closed,entry]

theorem joinRight_releases (bounded : Bounded (e :: above)) (nonempty : 0 < x.len) (fits : x.stop < 2^32)
    (touching : e.start = x.stop) :
    joinRight ⟨init.map entry ++ (entry e :: (above.map entry ++ terminator :: rest)),limit,name⟩ x.len x.start init.length =
      .ok ⟨(init ++ release x (e :: above)).map entry ++ terminator :: rest,limit,name⟩ := by
  have high := (bounded e (by simp)).2
  have at_bp := @read_middle limit name (init.map entry)
  have put_bp := @write_middle limit name (init.map entry)
  have end_x : sizeT (x.start + x.len) = x.stop := sizeT_of_lt fits
  have grown : sizeT (e.len + x.len) = x.len + e.len := by
    rw [Nat.add_comm]
    refine sizeT_of_lt ?_
    simp only [Extent.stop] at high touching
    omega
  have before : x.start < x.stop := by simp only [Extent.stop]; omega
  simp only [length_map] at at_bp put_bp
  simp only [joinRight,at_bp,bind,Except.bind,entry_mAddr,entry_mSize,end_x,touching,lt_irrefl,if_false,grown,put_bp]
  simp [release.eq_def,touching,before,entry]

theorem addEntry_cases (positive : Positive above) (pre : List Mapent) (size addr : Nat) :
    (pre.length + above.length + 1 > limit → addEntry ⟨pre ++ (above.map entry ++ terminator :: rest),limit,name⟩
        size addr pre.length = .ok (⟨pre ++ (above.map entry ++ terminator :: rest),limit,name⟩,
          [overflow ⟨pre ++ (above.map entry ++ terminator :: rest),limit,name⟩ size addr])) ∧
    (pre.length + above.length + 1 ≤ limit → rest = [] →
      addEntry ⟨pre ++ (above.map entry ++ terminator :: rest),limit,name⟩ size addr pre.length =
        .error (.outside (pre.length + above.length + 1))) ∧
    (pre.length + above.length + 1 ≤ limit → ∀ y more, rest = y :: more →
      addEntry ⟨pre ++ (above.map entry ++ terminator :: rest),limit,name⟩ size addr pre.length =
        .ok (⟨pre ++ (⟨size,addr⟩ :: (above.map entry ++ terminator :: more)),limit,name⟩,[])) := by
  have found := @findEnd_terminator limit name above positive pre rest
    (pre ++ (above.map entry ++ terminator :: rest)).length (by simp; omega)
  have count : pre.length + above.length + 1 - pre.length = above.length + 1 := by omega
  refine ⟨?_,?_,?_⟩
  · intro full
    simp only [addEntry,found,bind,Except.bind,full,if_true]
    rfl
  · rintro room rfl
    have past := @shiftUp_outside limit name pre (above.map entry) terminator
    simp only [length_map] at past
    simp only [addEntry,found,bind,Except.bind,not_lt.mpr room,if_false,count,past]
  · rintro room y more rfl
    obtain ⟨stale,moved⟩ := @shiftUp_moves limit name pre (above.map entry ++ [terminator]) more y
    simp only [length_append,length_map,length_singleton,append_assoc,singleton_append] at moved
    simp only [addEntry,found,bind,Except.bind,not_lt.mpr room,if_false,count,moved,write_middle]
    rfl

end

structure Freeable (mp : Map) (l : List Extent) (x : Extent) : Prop extends Represents mp l where
  gapped : Gapped l
  clear : Clear x l
  nonempty : 0 < x.len
  address : 0 < x.start
  fits : x.stop < 2^32

theorem apart_iff {x : Extent} {below above : List Extent} (gapped : Gapped (below ++ above))
    (positive : Positive (below ++ above)) (clear : Clear x (below ++ above)) (nonempty : 0 < x.len)
    (lower : ∀ e ∈ below, e.start ≤ x.start) (upper : ∀ e ∈ above, x.start < e.start) :
    Apart x (below ++ above) ↔ below.getLast?.map Extent.stop ≠ some x.start ∧ above.head?.map Extent.start ≠ some x.stop := by
  constructor
  · intro apart
    refine ⟨?_,?_⟩
    · intro touching
      obtain ⟨e,last,same⟩ := map_eq_some_iff.mp touching
      exact (apart e (by simp [mem_of_getLast? last])).1 same
    intro touching
    obtain ⟨f,first,same⟩ := map_eq_some_iff.mp touching
    exact (apart f (by simp [mem_of_head? first])).2 same.symm
  · rintro ⟨left,right⟩ e member
    rcases mem_append.mp member with inside | inside
    · have low := lower e inside
      exact ⟨below_apart nonempty clear lower gapped left inside,by simp only [Extent.stop]; omega⟩
    have high := upper e inside
    exact ⟨by simp only [Extent.stop]; omega,above_apart positive clear upper gapped right inside⟩

theorem release_above {x : Extent} {below above : List Extent} (gapped : Gapped (below ++ above))
    (clear : Clear x (below ++ above)) (nonempty : 0 < x.len) (lower : ∀ e ∈ below, e.start ≤ x.start)
    (apart : below.getLast?.map Extent.stop ≠ some x.start) :
    release x (below ++ above) = below ++ release x above :=
  release_append fun e member => ⟨lower e member,below_apart nonempty clear lower gapped apart member⟩

theorem release_front {x : Extent} {above : List Extent} (upper : ∀ e ∈ above, x.start < e.start)
    (apart : above.head?.map Extent.start ≠ some x.stop) : release x above = x :: above := by
  cases above with
  | nil => rfl
  | cons f fs =>
    have before := upper f (by simp)
    have hole : ¬ x.stop = f.start := fun touching => apart (by simp [touching])
    rw [release.eq_def]
    simp only [before,hole,if_true,if_false]

theorem mfree_dispatch {x : Extent} {below above : List Extent} {rest : List Mapent}
    (positive : Positive (below ++ above)) (bounded : Bounded (below ++ above)) (clear : Clear x (below ++ above))
    (nonempty : 0 < x.len) (address : 0 < x.start) (fits : x.stop < 2^32)
    (lower : ∀ e ∈ below, e.start ≤ x.start) (upper : ∀ e ∈ above, x.start < e.start) :
    let mp : Map := ⟨below.map entry ++ (above.map entry ++ terminator :: rest),limit,name⟩
    mfree mp x.len x.start =
      if below.getLast?.map Extent.stop = some x.start then
        (joinLeft mp x.len x.start below.length).map (·,[])
      else if above.head?.map Extent.start = some x.stop then
        (joinRight mp x.len x.start below.length).map (·,[])
      else addEntry mp x.len x.start below.length := by
  have skipped := @skip_below limit name x.start below above (fun e member => positive e (by simp [member])) lower upper [] rest
    (below.map entry ++ (above.map entry ++ terminator :: rest)).length (by simp)
  have left := @abutsLeft_value limit name x below above rest bounded nonempty clear lower
  have right := @abutsRight_value limit name x above (fun e member => positive e (by simp [member])) fits
    (fun f member => above_starts positive clear upper member) (below.map entry) rest
  simp only [nil_append,length_nil,Nat.zero_add] at skipped
  simp only [length_map] at right
  simp only [mfree,Nat.pos_iff_ne_zero.mp nonempty,Nat.pos_iff_ne_zero.mp address,if_false,skipped,bind,Except.bind,
    left,right,decide_eq_true_eq]
  split_ifs
  · cases joinLeft _ _ _ _ <;> rfl
  · cases joinRight _ _ _ _ <;> rfl
  · rfl

theorem mfree_joins {mp : Map} {l : List Extent} {x : Extent} (free : Freeable mp l x) (touching : ¬ Apart x l) :
    ∃ next, mfree mp x.len x.start = .ok (next,[]) ∧ Becomes mp next (release x l) := by
  obtain ⟨⟨⟨rest,shape⟩,positive,bounded⟩,gapped,clear,nonempty,address,fits⟩ := free
  obtain ⟨mMap,limit,name⟩ := mp
  obtain ⟨below,above,rfl,lower,upper⟩ := gapped_split gapped x.start
  simp only [map_append,append_assoc] at shape
  subst shape
  rw [mfree_dispatch positive bounded clear nonempty address fits lower upper]
  rw [apart_iff gapped positive clear nonempty lower upper,not_and_or,not_not,not_not] at touching
  by_cases joined : below.getLast?.map Extent.stop = some x.start
  · rw [if_pos joined]
    rcases eq_nil_or_concat below with rfl | ⟨init,e,rfl⟩
    · simp at joined
    simp only [concat_eq_append,append_assoc,singleton_append,map_append,map_cons,map_nil,length_append,length_singleton] at *
    obtain ⟨next,done,becomes⟩ := @joinLeft_releases limit name x e init above rest positive bounded
      gapped fits (fun f member => @above_starts x (init ++ [e]) above (by simpa using positive) (by simpa using clear)
        upper f member) (by simpa using joined)
    exact ⟨next,by rw [done]; rfl,becomes⟩
  have ahead := touching.resolve_left joined
  rw [if_neg joined,if_pos ahead]
  cases above with
  | nil => simp at ahead
  | cons f fs =>
    have done := @joinRight_releases limit name x f below fs rest
      (fun e member => bounded e (mem_append_right _ member)) nonempty fits (by simpa using ahead)
    refine ⟨⟨(below ++ release x (f :: fs)).map entry ++ terminator :: rest,limit,name⟩,
      by rw [map_cons,cons_append,done]; rfl,⟨?_,rfl,rfl⟩,rest,?_⟩
    · have before := upper f (by simp)
      have stop : x.stop = f.start := by simpa using ahead.symm
      simp [release.eq_def,before,stop]
    · rw [release_above gapped clear nonempty lower joined]

theorem mfree_apart {mp : Map} {l : List Extent} {x : Extent} (free : Freeable mp l x) (apart : Apart x l) :
    (mp.mLimit < l.length + 1 → mfree mp x.len x.start = .ok (mp,[overflow mp x.len x.start])) ∧
    (l.length + 1 ≤ mp.mLimit → mp.mMap.length = l.length + 1 → mfree mp x.len x.start = .error (.outside (l.length + 1))) ∧
    (l.length + 1 ≤ mp.mLimit → l.length + 1 < mp.mMap.length →
      ∃ next, mfree mp x.len x.start = .ok (next,[]) ∧ Becomes mp next (release x l)) := by
  obtain ⟨⟨⟨rest,shape⟩,positive,bounded⟩,gapped,clear,nonempty,address,fits⟩ := free
  obtain ⟨mMap,limit,name⟩ := mp
  obtain ⟨below,above,rfl,lower,upper⟩ := gapped_split gapped x.start
  simp only [map_append,append_assoc] at shape
  subst shape
  obtain ⟨left,right⟩ := (apart_iff gapped positive clear nonempty lower upper).mp apart
  rw [mfree_dispatch positive bounded clear nonempty address fits lower upper,if_neg left,if_neg right,
    release_above gapped clear nonempty lower left,release_front upper right]
  obtain ⟨full,past,room⟩ := @addEntry_cases limit name above rest
    (fun e member => positive e (by simp [member])) (below.map entry) x.len x.start
  simp only [length_map,length_append] at full past room ⊢
  refine ⟨full,?_,?_⟩
  · intro fits size
    exact past fits (length_eq_zero_iff.mp (by simp at size; omega))
  intro fits size
  cases rest with
  | nil => simp at size; omega
  | cons y more =>
    refine ⟨_,room fits y more rfl,⟨by simp; omega,rfl,rfl⟩,more,?_⟩
    simp [entry]

end Retrobsd.ResourceMap

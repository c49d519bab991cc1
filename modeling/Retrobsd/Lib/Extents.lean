import Retrobsd.Lib.Indices

/-! Lists of address extents, as a first-fit allocator keeps them. `cover` counts
how many extents of a list hold one unit, so that a partition of a region is one
equation between counts. -/
namespace Retrobsd.Lib.Extents
open List

structure Extent where
  start : Nat
  len : Nat
deriving DecidableEq

def Extent.stop (e : Extent) : Nat := e.start + e.len

def Extent.holds (e : Extent) (u : Nat) : Bool := decide (e.start ≤ u) && decide (u < e.stop)

def cover (l : List Extent) (u : Nat) : Nat := l.countP (·.holds u)

def Gapped (l : List Extent) : Prop := l.Pairwise (fun a b => a.stop < b.start)

def Positive (l : List Extent) : Prop := ∀ e ∈ l, 0 < e.len

def dropEmpty (l : List Extent) : List Extent := l.filter (fun e => decide (0 < e.len))

def carve (i n : Nat) (l : List Extent) : List Extent := l.modify i (fun e => ⟨e.start + n,e.len - n⟩)

/-- First fit, with an exhausted extent taken out of the list. -/
def allocate (n : Nat) : List Extent → Option (Nat × List Extent)
  | [] => none
  | e :: es =>
    if n ≤ e.len then some (e.start,if e.len = n then es else ⟨e.start + n,e.len - n⟩ :: es)
    else (allocate n es).map (fun r => (r.1,e :: r.2))

/-- Pieces of the listed lengths carved off one after the other, wherever they
fit, with the addresses at which they start. -/
inductive Carved : List Extent → List Nat → List Nat → List Extent → Prop where
  | nil (l : List Extent) : Carved l [] [] l
  | cons {l : List Extent} {i n : Nat} {e : Extent} {sizes addrs : List Nat} {final : List Extent}
      (at_i : l[i]? = some e) (fits : n ≤ e.len) (rest : Carved (carve i n l) sizes addrs final) :
      Carved l (n :: sizes) (e.start :: addrs) final

def release (x : Extent) : List Extent → List Extent
  | [] => [x]
  | e :: es =>
    if x.start < e.start then
      if x.stop = e.start then ⟨x.start,x.len + e.len⟩ :: es else x :: e :: es
    else if e.stop = x.start then
      match es with
      | [] => [⟨e.start,e.len + x.len⟩]
      | f :: fs => if x.stop = f.start then ⟨e.start,e.len + x.len + f.len⟩ :: fs
        else ⟨e.start,e.len + x.len⟩ :: f :: fs
    else e :: release x es

def Apart (x : Extent) (l : List Extent) : Prop := ∀ e ∈ l, e.stop ≠ x.start ∧ x.stop ≠ e.start

instance (x : Extent) (l : List Extent) : Decidable (Apart x l) := by
  unfold Apart; infer_instance

@[simp] theorem cover_nil (u : Nat) : cover [] u = 0 := rfl

@[simp] theorem cover_cons (e : Extent) (l : List Extent) (u : Nat) :
    cover (e :: l) u = cover l u + if e.start ≤ u ∧ u < e.start + e.len then 1 else 0 := by
  simp only [cover,countP_cons,Extent.holds,Bool.and_eq_true,decide_eq_true_eq]
  rfl

@[simp] theorem cover_append (l m : List Extent) (u : Nat) :
    cover (l ++ m) u = cover l u + cover m u := by
  simp [cover,countP_append]

variable {l final : List Extent} {sizes addrs : List Nat} {x : Extent}

theorem cover_pos_of_mem {e : Extent} (member : e ∈ l) (u : Nat) (low : e.start ≤ u) (high : u < e.stop) : 0 < cover l u := by
  refine countP_pos_iff.mpr ⟨e,member,?_⟩
  simp [Extent.holds,low,high]

theorem cover_perm {m : List Extent} (same : l.Perm m) (u : Nat) : cover l u = cover m u := same.countP_eq _

theorem cover_dropEmpty (l : List Extent) (u : Nat) : cover (dropEmpty l) u = cover l u := by
  induction l with
  | nil => rfl
  | cons e l ih =>
    by_cases empty : 0 < e.len
    · simp only [dropEmpty,filter_cons,empty,decide_true,if_true,cover_cons]
      rw [← ih]
      rfl
    have skipped : dropEmpty (e :: l) = dropEmpty l := by simp [dropEmpty,empty]
    rw [skipped,ih,cover_cons]
    have none : ¬ (e.start ≤ u ∧ u < e.start + e.len) := by omega
    simp [none]

theorem positive_dropEmpty (l : List Extent) : Positive (dropEmpty l) := by
  intro e member
  simpa using (mem_filter.mp member).2

theorem dropEmpty_of_positive (positive : Positive l) :
    dropEmpty l = l := filter_eq_self.mpr fun e member => by simpa using positive e member

theorem gapped_dropEmpty (gapped : Gapped l) : Gapped (dropEmpty l) := gapped.sublist filter_sublist

theorem carve_cons_zero (n : Nat) (e : Extent) (l : List Extent) : carve 0 n (e :: l) = ⟨e.start + n,e.len - n⟩ :: l := rfl

theorem carve_cons_succ (i n : Nat) (e : Extent) (l : List Extent) : carve (i + 1) n (e :: l) = e :: carve i n l := by
  simp [carve]

theorem cover_carve (l : List Extent) (i n : Nat) (e : Extent) (at_i : l[i]? = some e)
    (fits : n ≤ e.len) (u : Nat) : cover (carve i n l) u + cover [⟨e.start,n⟩] u = cover l u := by
  induction l generalizing i with
  | nil => simp at at_i
  | cons f l ih =>
    cases i with
    | zero =>
      have same : f = e := by simpa using at_i
      subst f
      simp only [carve_cons_zero,cover_cons,cover_nil]
      split_ifs <;> omega
    | succ i =>
      have tail := ih i (by simpa using at_i)
      simp only [carve_cons_succ,cover_cons,cover_nil] at tail ⊢
      omega

theorem gapped_carve (gapped : Gapped l) (i n : Nat) (e : Extent) (at_i : l[i]? = some e) (fits : n ≤ e.len) :
    Gapped (carve i n l) := by
  induction l generalizing i with
  | nil => simp at at_i
  | cons f l ih =>
    have head : ∀ b ∈ l, f.stop < b.start := fun b member => rel_of_pairwise_cons gapped member
    cases i with
    | zero =>
      have same : f = e := by simpa using at_i
      subst f
      rw [carve_cons_zero]
      refine pairwise_cons.mpr ⟨?_,gapped.of_cons⟩
      intro b member
      have gap := head b member
      simp only [Extent.stop] at gap ⊢
      omega
    | succ i =>
      rw [carve_cons_succ]
      have at_tail : l[i]? = some e := by simpa using at_i
      refine pairwise_cons.mpr ⟨?_,ih gapped.of_cons i at_tail⟩
      intro b member
      obtain ⟨j,at_j⟩ := mem_iff_getElem?.mp member
      by_cases same : j = i
      · subst j
        have moved : b = ⟨e.start + n,e.len - n⟩ := by
          simpa [carve,List.getElem?_modify,at_tail,eq_comm] using at_j
        have gap := head e (mem_of_getElem? at_tail)
        rw [moved]
        exact lt_of_lt_of_le gap (Nat.le_add_right _ _)
      · have old : l[j]? = some b := by simpa [carve,List.getElem?_modify,Ne.symm same] using at_j
        exact head b (mem_of_getElem? old)

def pieces (sizes addrs : List Nat) : List Extent := addrs.zipWith Extent.mk sizes

theorem cover_carved (carved : Carved l sizes addrs final) (u : Nat) :
    cover final u + cover (pieces sizes addrs) u = cover l u := by
  induction carved with
  | nil l => simp [pieces]
  | @cons l i n e sizes addrs final at_i fits rest ih =>
    have split := cover_carve l i n e at_i fits u
    simp only [pieces,zipWith_cons_cons,cover_cons,cover_nil] at ih split ⊢
    omega

theorem gapped_carved (carved : Carved l sizes addrs final) (gapped : Gapped l) : Gapped final := by
  induction carved with
  | nil l => exact gapped
  | cons at_i fits rest ih => exact ih (gapped_carve gapped _ _ _ at_i fits)

theorem addrs_carved (carved : Carved l sizes addrs final) : addrs.length = sizes.length := by
  induction carved with
  | nil => rfl
  | cons _ _ _ ih => rw [length_cons,length_cons,ih]

theorem allocate_carved {n a : Nat} (positive : Positive l) (found : allocate n l = some (a,final)) :
    ∃ middle, Carved l [n] [a] middle ∧ final = dropEmpty middle := by
  induction l generalizing a final with
  | nil => simp [allocate] at found
  | cons e l ih =>
    have rest : Positive l := fun f member => positive f (by simp [member])
    have kept := dropEmpty_of_positive rest
    by_cases fits : n ≤ e.len
    · simp only [allocate,fits,if_true] at found
      have same := Prod.mk.inj (Option.some.inj found)
      refine ⟨carve 0 n (e :: l),?_,?_⟩
      · rw [← same.1]
        exact .cons (by simp) fits (.nil _)
      rw [← same.2,carve_cons_zero]
      by_cases all : e.len = n
      · simpa [dropEmpty,all] using kept.symm
      have left : n < e.len := by omega
      simpa [dropEmpty,all,left] using kept.symm
    simp only [allocate,fits,if_false] at found
    obtain ⟨⟨b,tail⟩,inner,same⟩ := Option.map_eq_some_iff.mp found
    have same := Prod.mk.inj same
    obtain ⟨middle,carved,dropped⟩ := ih rest inner
    refine ⟨e :: middle,?_,?_⟩
    · rw [← same.1]
      cases carved with
      | @cons _ i _ f _ _ _ at_i fits ends =>
        cases ends
        exact .cons (i := i + 1) (by simpa using at_i) fits (by rw [carve_cons_succ]; exact .nil _)
    · have here := positive e (by simp)
      rw [← same.2,dropped]
      simp [dropEmpty,here]

theorem allocate_eq_none {n : Nat} : allocate n l = none ↔ ∀ e ∈ l, e.len < n := by
  induction l with
  | nil => simp [allocate]
  | cons e l ih =>
    by_cases fits : n ≤ e.len
    · simp [allocate,fits]
    simp [allocate,fits,ih]
    omega

def Clear (x : Extent) (l : List Extent) : Prop := ∀ e ∈ l, e.stop ≤ x.start ∨ x.stop ≤ e.start

theorem clear_of_cover (positive : Positive l) (nonempty : 0 < x.len)
    (uncovered : ∀ u, x.start ≤ u → u < x.stop → cover l u = 0) : Clear x l := by
  intro e member
  by_contra overlap
  simp only [not_or,not_le] at overlap
  -- the larger of the two starts lies in both extents
  have inside := positive e member
  have shared := cover_pos_of_mem member (max e.start x.start) (le_max_left _ _) (by simp only [Extent.stop] at overlap ⊢; omega)
  have outside := uncovered (max e.start x.start) (le_max_right _ _) (by simp only [Extent.stop] at overlap ⊢; omega)
  omega

theorem cover_release (clear : Clear x l) (u : Nat) : cover (release x l) u = cover (x :: l) u := by
  induction l with
  | nil => rfl
  | cons e l ih =>
    have rest : Clear x l := fun f member => clear f (by simp [member])
    have here := clear e (by simp)
    unfold release
    split_ifs with before joined joined
    · simp only [Extent.stop] at here joined
      simp only [cover_cons]
      split_ifs <;> omega
    · rfl
    · cases l with
      | nil =>
        simp only [Extent.stop] at here joined
        simp only [cover_cons,cover_nil]
        split_ifs <;> omega
      | cons f fs =>
        have next := clear f (by simp)
        dsimp only
        split_ifs with closed
        · simp only [Extent.stop] at here joined next closed
          simp only [cover_cons]
          split_ifs <;> omega
        simp only [Extent.stop] at here joined next closed
        simp only [cover_cons]
        split_ifs <;> omega
    · rw [cover_cons,ih rest]
      simp only [cover_cons]
      omega

theorem release_append {below above : List Extent} (lower : ∀ e ∈ below, e.start ≤ x.start ∧ e.stop ≠ x.start) :
    release x (below ++ above) = below ++ release x above := by
  induction below with
  | nil => rfl
  | cons e below ih =>
    obtain ⟨first,apart⟩ := lower e (by simp)
    have before : ¬ x.start < e.start := not_lt.mpr first
    rw [cons_append,release.eq_def]
    simp [before,apart,ih (fun f member => lower f (by simp [member]))]

theorem start_of_mem_release {y : Extent} (member : y ∈ release x l) : y.start = x.start ∨ ∃ e ∈ l, y.start = e.start := by
  induction l with
  | nil => exact .inl (by rw [mem_singleton.mp member])
  | cons e l ih =>
    unfold release at member
    split_ifs at member with before joined joined
    · rcases mem_cons.mp member with rfl | inside
      · exact .inl rfl
      · exact .inr ⟨y,by simp [inside],rfl⟩
    · rcases mem_cons.mp member with rfl | inside
      · exact .inl rfl
      · exact .inr ⟨y,inside,rfl⟩
    · cases l with
      | nil => exact .inr ⟨e,by simp,by rw [mem_singleton.mp member]⟩
      | cons f fs =>
        dsimp only at member
        split_ifs at member with closed
        · rcases mem_cons.mp member with rfl | inside
          · exact .inr ⟨e,by simp,rfl⟩
          · exact .inr ⟨y,by simp [inside],rfl⟩
        rcases mem_cons.mp member with rfl | inside
        · exact .inr ⟨e,by simp,rfl⟩
        · exact .inr ⟨y,mem_cons_of_mem _ inside,rfl⟩
    · rcases mem_cons.mp member with rfl | inside
      · exact .inr ⟨y,by simp,rfl⟩
      rcases ih inside with same | ⟨f,present,same⟩
      · exact .inl same
      · exact .inr ⟨f,by simp [present],same⟩

theorem positive_release (positive : Positive l) (nonempty : 0 < x.len) : Positive (release x l) := by
  induction l with
  | nil => simpa [release,Positive] using nonempty
  | cons e l ih =>
    have here := positive e (by simp)
    have rest : Positive l := fun f member => positive f (by simp [member])
    unfold release
    split_ifs with before joined joined
    · simpa [Positive,nonempty] using rest
    · simpa [Positive,nonempty,here] using rest
    · cases l with
      | nil => simp [Positive,nonempty]
      | cons f fs =>
        have beyond : ∀ a ∈ fs, 0 < a.len := fun a member => rest a (by simp [member])
        dsimp only
        split_ifs
        · simpa [Positive,nonempty] using beyond
        · simpa [Positive,nonempty] using rest
    · simpa [Positive,here] using ih rest

theorem gapped_release (gapped : Gapped l) (positive : Positive l) (nonempty : 0 < x.len) (clear : Clear x l) :
    Gapped (release x l) := by
  induction l with
  | nil => exact pairwise_singleton _ _
  | cons e l ih =>
    have here := clear e (by simp)
    have filled := positive e (by simp)
    have rest : Clear x l := fun f member => clear f (by simp [member])
    have head : ∀ b ∈ l, e.stop < b.start := fun b member => rel_of_pairwise_cons gapped member
    unfold release
    split_ifs with before joined joined
    · refine pairwise_cons.mpr ⟨?_,gapped.of_cons⟩
      intro b member
      have gap := head b member
      simp only [Extent.stop] at gap joined ⊢
      omega
    · refine pairwise_cons.mpr ⟨?_,gapped⟩
      intro b member
      simp only [Extent.stop] at here joined ⊢
      rcases mem_cons.mp member with rfl | inside
      · omega
      have gap := head b inside
      simp only [Extent.stop] at gap
      omega
    · cases l with
      | nil => exact pairwise_singleton _ _
      | cons f fs =>
        have next := rest f (by simp)
        have gap := head f (by simp)
        have beyond : ∀ b ∈ fs, f.stop < b.start := fun b member =>
          rel_of_pairwise_cons gapped.of_cons member
        have fpos := positive f (by simp)
        dsimp only
        split_ifs with closed
        · refine pairwise_cons.mpr ⟨?_,gapped.of_cons.of_cons⟩
          intro b member
          have after := beyond b member
          simp only [Extent.stop] at after joined closed ⊢
          omega
        refine pairwise_cons.mpr ⟨?_,gapped.of_cons⟩
        intro b member
        simp only [Extent.stop] at gap next joined closed ⊢
        rcases mem_cons.mp member with rfl | inside
        · omega
        have after := beyond b inside
        simp only [Extent.stop] at after
        omega
    · have tail := ih gapped.of_cons (fun f member => positive f (by simp [member])) rest
      refine pairwise_cons.mpr ⟨?_,tail⟩
      intro b member
      rcases start_of_mem_release member with same | ⟨f,present,same⟩
      · simp only [Extent.stop] at here joined ⊢
        omega
      have gap := head f present
      omega

variable {held : List Extent} {region : Extent}

theorem held_between {e f : Extent} (gapped : Gapped l) (positive : Positive l)
    (units : ∀ u, cover l u + cover held u = cover [region] u)
    (first : e ∈ l) (second : f ∈ l) (less : e.stop < f.start) : ∃ x ∈ held, x.start = e.stop := by
  obtain ⟨a,b,rfl⟩ := append_of_mem first
  obtain ⟨-,tail,below⟩ := pairwise_append.mp gapped
  have above := (pairwise_cons.mp tail).1
  have some : ∀ g ∈ a ++ e :: b, g.start < g.stop := fun g member => Nat.lt_add_of_pos_right (positive g member)
  have free : ∀ g ∈ a ++ e :: b, ∀ u, g.start ≤ u → u < g.stop → cover held u = 0 ∧ region.start ≤ u ∧ u < region.stop := by
    intro g member u low high
    have covered := cover_pos_of_mem member u low high
    have total := units u
    rw [cover_cons,cover_nil] at total
    split_ifs at total with inside
    · exact ⟨by omega,inside⟩
    · omega
  have ends := some e first
  have starts := some f second
  have low := free e first (e.stop - 1) (by omega) (by omega)
  have high := free f second f.start le_rfl starts
  have gap : cover (a ++ e :: b) e.stop = 0 := by
    refine countP_eq_zero.mpr fun g member holds => ?_
    simp only [Extent.holds,Bool.and_eq_true,decide_eq_true_eq] at holds
    rcases mem_append.mp member with left | right
    · have := below g left e mem_cons_self
      omega
    rcases mem_cons.mp right with rfl | later
    · omega
    · have := above g later
      omega
  have total := units e.stop
  rw [gap,cover_cons,cover_nil,if_pos ⟨by omega,lt_trans less high.2.2⟩] at total
  obtain ⟨x,member,holds⟩ := countP_pos_iff.mp (show 0 < held.countP (·.holds e.stop) by change 0 < cover held _; omega)
  refine ⟨x,member,?_⟩
  simp only [Extent.holds,Bool.and_eq_true,decide_eq_true_eq] at holds
  by_contra early
  exact absurd low.1 (cover_pos_of_mem member _ (by omega) (by omega)).ne'

theorem length_le_held (gapped : Gapped l) (positive : Positive l) (units : ∀ u, cover l u + cover held u = cover [region] u) :
    l.length ≤ held.length + 1 := by
  rcases eq_nil_or_concat l with rfl | ⟨front,last,rfl⟩
  · exact Nat.zero_le _
  rw [concat_eq_append] at *
  obtain ⟨sorted,-,before⟩ := pairwise_append.mp gapped
  have distinct : (front.map Extent.stop).Nodup := pairwise_map.mpr <| sorted.imp_of_mem fun {a b} _ member less => by
    have := positive b (by simp [member])
    simp only [Extent.stop] at less ⊢
    omega
  have starts : front.map Extent.stop ⊆ held.map Extent.start := fun u member => by
    obtain ⟨e,inside,rfl⟩ := mem_map.mp member
    obtain ⟨x,mine,same⟩ := held_between gapped positive units (mem_append_left _ inside)
      (mem_append_right front (mem_singleton_self last))
      (before e inside last (mem_singleton_self last))
    exact mem_map.mpr ⟨x,mine,same⟩
  have few := (distinct.subperm starts).length_le
  rw [length_map,length_map] at few
  rw [length_append,length_singleton]
  omega

end Retrobsd.Lib.Extents

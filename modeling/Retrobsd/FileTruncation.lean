import Retrobsd.FileBlocks
import Retrobsd.Lib.RadixNumbers

/-! What `indirtrunc` and `itrunc` free and what they keep. Below each address of the
inode the blocks behind the new end go to the free list, and the others keep what
they hold. -/
namespace Retrobsd.FileData
open List Finset Multiset Nat
open Function

open FreeList (Volume)
open Lib.Radix Layout

/-- What happens to a block address in the loop of `indirtrunc`. -/
def releaseSlot (ino : Nat) : Nat → Volume → Nat → Except Fault Volume
  | 0,v,nb => free v ino nb
  | level + 1,v,nb => (indirtrunc ino level v nb (-1)).bind fun v => free v ino nb

def truncBelow (ino : Nat) : Nat → Volume → Nat → Nat → Except Fault Volume
  | 0,v,_,_ => .ok v
  | level + 1,v,nb,last => indirtrunc ino level v nb last

def releaseAbove (ino level : Nat) (v : Volume) (bn : Nat) (last : Int) : Except Fault Volume := (slotsAbove last).foldlM
    (fun w i => if (v.disk bn).word i ≠ 0 then releaseSlot ino level w ((v.disk bn).word i) else .ok w)
    {v with disk := update v.disk bn (clearAbove (v.disk bn) last)}

theorem indirtrunc_whole (ino level : Nat) (v : Volume) (bn : Nat) :
    indirtrunc ino level v bn (-1) = releaseAbove ino level v bn (-1) := by
  cases level with
  | zero => rfl
  | succ level =>
    have result : indirtrunc ino (level + 1) v bn (-1) = (releaseAbove ino (level + 1) v bn (-1)).bind fun w => .ok w := rfl
    rw [result]
    cases releaseAbove ino (level + 1) v bn (-1) <;> rfl

theorem indirtrunc_part (ino level : Nat) (v : Volume) (bn last : Nat) :
    indirtrunc ino level v bn last = (releaseAbove ino level v bn ((last / 256^level : Nat) : Int)).bind fun w =>
      if (v.disk bn).word (last / 256^level) ≠ 0 then truncBelow ino level w
        ((v.disk bn).word (last / 256^level)) (last % 256^level)
      else .ok w := by
  cases level with
  | zero =>
    have result : indirtrunc ino 0 v bn last = releaseAbove ino 0 v bn last := rfl
    rw [result,Nat.pow_zero,Nat.div_one]
    cases releaseAbove ino 0 v bn last with
    | error e => rfl
    | ok w =>
      simp only [Except.bind,truncBelow]
      split_ifs <;> rfl
  | succ level =>
    have quotient : (if (last : Int) > 0 then (last : Int) / ((nindir^(level + 1) : Nat) : Int) else last) =
        ((last / 256^(level + 1) : Nat) : Int) := by
      split_ifs with positive
      · rfl
      have zero : last = 0 := by omega
      rw [zero]
      simp
    have rest : (last : Int) % ((nindir^(level + 1) : Nat) : Int) = ((last % 256^(level + 1) : Nat) : Int) := rfl
    have natural : (last : Int) ≥ 0 := by omega
    simp only [indirtrunc,quotient,rest,natural,true_and,Int.toNat_natCast]
    rfl

def Frees (k : Nat) (release : Volume → Nat → Except Fault Volume) : Prop :=
  ∀ {v : Volume} {a : Nat} {m : Multiset Nat} {l : List Nat}, a ≠ 0 → Held v (indirect.owned v.disk k a + m) l →
    ∃ v' l', release v a = .ok v' ∧ Held v' m l' ∧ (l' : Multiset Nat) = indirect.owned v.disk k a + (l : Multiset Nat) ∧
      ∀ x ∈ m, v'.disk x = v.disk x

variable {k j : Nat} {l : List Nat} {lastblock : Int}

theorem foldlM_frees {release : Volume → Nat → Except Fault Volume} (frees : Frees k release) (word : Nat → Nat)
    (slots : List Nat) : ∀ {v : Volume} {m : Multiset Nat} {l : List Nat},Held v
    (indirect.forest v.disk (slots.map fun i => (k,word i)) + m) l →
      ∃ v' l', slots.foldlM (fun w i => if word i ≠ 0 then release w (word i) else .ok w) v = .ok v' ∧ Held v' m l' ∧
        (l' : Multiset Nat) = indirect.forest v.disk (slots.map fun i => (k,word i)) + (l : Multiset Nat) ∧
        ∀ x ∈ m, v'.disk x = v.disk x := by
  induction slots with
  | nil =>
    intro v m l held
    refine ⟨v,l,rfl,?_,by simp [forest],fun _ _ => rfl⟩
    simpa [forest] using held
  | cons i slots ih =>
    intro v m l held
    rw [List.map_cons,forest_cons,add_assoc] at held
    by_cases hole : word i = 0
    · rw [hole,owned_empty,zero_add] at held
      obtain ⟨v',l',done,held',given,frame⟩ := ih held
      refine ⟨v',l',?_,held',?_,frame⟩
      · rw [foldlM_cons,if_neg (by simpa using hole)]
        exact done
      rw [List.map_cons,forest_cons,hole,owned_empty,zero_add]
      exact given
    obtain ⟨v1,l1,first,held1,given1,frame1⟩ := frees hole held
    have rest : indirect.forest v1.disk (slots.map fun i => (k,word i)) = indirect.forest v.disk
      (slots.map fun i => (k,word i)) :=
      forest_congr fun b member => frame1 b (mem_add.mpr (.inl member))
    rw [← rest] at held1
    obtain ⟨v',l',done,held',given,frame⟩ := ih held1
    refine ⟨v',l',?_,held',?_,fun x member => ?_⟩
    · rw [foldlM_cons,if_pos hole,first]
      exact done
    · rw [given,rest,given1,List.map_cons,forest_cons]
      ac_rfl
    · rw [frame x member,frame1 x (mem_add.mpr (.inr member))]

def keptBelow (h : Nat → Block) (k a : Nat) (last : Int) : Multiset Nat :=
  ∑ j ∈ (Finset.range 256).filter (fun j : Nat => ¬ last < (j : Int)), indirect.owned h k ((h a).word j)

theorem forest_slotsAbove (h : Nat → Block) (k : Nat) (word : Nat → Nat) (last : Int) :
    indirect.forest h ((slotsAbove last).map fun i => (k,word i)) =
      ∑ j ∈ (Finset.range 256).filter (fun j : Nat => last < (j : Int)), indirect.owned h k (word j) := by
  have distinct : (slotsAbove last).Nodup := nodup_reverse.mpr (nodup_range.filter _)
  have same : (slotsAbove last).toFinset = (Finset.range 256).filter (fun j : Nat => last < (j : Int)) := by
    ext j
    simp [slotsAbove,nindir]
  rw [← same,List.sum_toFinset _ distinct]
  simp only [forest,List.map_map]
  rfl

theorem releaseAbove_spec {ino : Nat} (frees : Frees k (releaseSlot ino k)) {v : Volume} {a : Nat} {m : Multiset Nat}
    (used : a ≠ 0) (held : Held v (indirect.owned v.disk (k + 1) a + m) l) (last : Int) :
    ∃ v' l', releaseAbove ino k v a last = .ok v' ∧ Held v' (a ::ₘ (keptBelow v.disk k a last + m)) l' ∧
      (l' : Multiset Nat) + (a ::ₘ keptBelow v.disk k a last) = indirect.owned v.disk (k + 1) a + (l : Multiset Nat) ∧
      v'.disk a = clearAbove (v.disk a) last ∧ ∀ x ∈ keptBelow v.disk k a last + m, v'.disk x = v.disk x := by
  have parts : indirect.owned v.disk (k + 1) a = indirect.forest v.disk ((slotsAbove last).map fun i => (k,(v.disk a).word i)) +
      (a ::ₘ keptBelow v.disk k a last) := by
    rw [owned_succ used,forest_slotsAbove,keptBelow,add_cons]
    congr 1
    exact (sum_filter_add_sum_filter_not _ _ _).symm
  rw [parts,add_assoc,cons_add] at held
  have distinct := held.nodup
  rw [Multiset.add_cons,Multiset.nodup_cons] at distinct
  have away : ∀ x, x ∈ indirect.forest v.disk ((slotsAbove last).map fun i => (k,(v.disk a).word i)) +
      (keptBelow v.disk k a last + m) → update v.disk a (clearAbove (v.disk a) last) x = v.disk x := by
    intro x member
    apply update_of_ne
    rintro rfl
    exact distinct.1 member
  have stored := held.store (b := a) (by simp) (clearAbove (v.disk a) last)
  have same := @forest_congr _ indirect v.disk (update v.disk a (clearAbove (v.disk a) last))
    ((slotsAbove last).map fun i => (k,(v.disk a).word i)) fun b member => away b (mem_add.mpr (.inl member))
  rw [← same] at stored
  obtain ⟨v',l',done,held',given,frame⟩ := foldlM_frees frees _ (slotsAbove last) stored
  refine ⟨v',l',done,held',?_,?_,fun x member => ?_⟩
  · rw [given,same,parts]
    ac_rfl
  · rw [frame a (mem_cons_self _ _)]
    exact update_self _ _ _
  · rw [frame x (mem_cons_of_mem member)]
    exact away x (mem_add.mpr (.inr member))

theorem releaseSlot_frees (ino k : Nat) : Frees k (releaseSlot ino k) := by
  induction k with
  | zero =>
    intro v a m l used held
    have single : indirect.owned v.disk 0 a = {a} := if_neg used
    rw [single,singleton_add] at held
    obtain ⟨v',done,held',frame⟩ := held.free ino
    exact ⟨v',a :: l,done,held',by rw [single]; rfl,frame⟩
  | succ k ih =>
    intro v a m l used held
    obtain ⟨v1,l1,first,held1,given,_,frame1⟩ := releaseAbove_spec ih used held (-1)
    have nothing : keptBelow v.disk k a (-1) = 0 := by
      rw [keptBelow,filter_false_of_mem,sum_empty]
      intro j _
      omega
    rw [nothing,zero_add] at held1 frame1
    obtain ⟨v',done,held',frame⟩ := held1.free ino
    refine ⟨v',a :: l1,?_,held',?_,fun x member => (frame x member).trans (frame1 x member)⟩
    · rw [releaseSlot,indirtrunc_whole,first]
      exact done
    · rw [← given,nothing,← cons_coe,add_cons,add_zero]

theorem word_clearAbove (b : Block) (inside : j < 256) (last : Nat) :
    (clearAbove b last).word j = if j ≤ last then b.word j else 0 := by
  by_cases kept : j ≤ last
  · rw [if_pos kept,clearAbove,Block.word_writeWords_other inside]
    rw [if_neg (by omega)]
  rw [if_neg kept]
  refine Block.word_writeWords inside ?_ (by decide)
  rw [if_pos (by omega)]

theorem keptBelow_eq (h : Nat → Block) (k a : Nat) {last : Nat} (inside : last < 256) : keptBelow h k a last =
    indirect.owned h k ((h a).word last) + ∑ j ∈ Finset.range last, indirect.owned h k ((h a).word j) := by
  have range : (Finset.range 256).filter (fun j : Nat => ¬ (last : Int) < (j : Int)) = Finset.range (last + 1) := by
    ext j
    simp only [Finset.mem_filter,Finset.mem_range]
    omega
  rw [keptBelow,range,Finset.sum_range_succ,add_comm]

structure Cut (h h' : Nat → Block) (k a last : Nat) (m : Multiset Nat) : Prop where
  contents : ∀ n, indirect.contents h' k a n = if n % 256^k ≤ last then indirect.contents h k a n else Block.zero
  leaf : ∀ n, indirect.leaf h' k a n = if n % 256^k ≤ last then indirect.leaf h k a n else 0
  numbered : ∀ base, indirect.numbered h' k a base = (indirect.numbered h k a base).filter fun e => e.2 ≤ base + last
  frame : ∀ x ∈ m, h' x = h x

def Cuts (k : Nat) (trunc : Volume → Nat → Nat → Except Fault Volume) : Prop :=
  ∀ {v : Volume} {a last : Nat} {m : Multiset Nat} {l : List Nat}, a ≠ 0 → last < 256^k →
  Held v (indirect.owned v.disk k a + m) l →
    ∃ v' l', trunc v a last = .ok v' ∧ Held v' (indirect.owned v'.disk k a + m) l' ∧
      (l' : Multiset Nat) + indirect.owned v'.disk k a = indirect.owned v.disk k a + (l : Multiset Nat) ∧
      Cut v.disk v'.disk k a last m

theorem mod_le_iff (k n last : Nat) : n % 256^(k + 1) ≤ last ↔
    indirect.digit k n < last / 256^k ∨ indirect.digit k n = last / 256^k ∧ n % 256^k ≤ last % 256^k := by
  have power : 0 < 256^k := Nat.pow_pos (by decide)
  have small := mod_lt n power
  have rest := mod_lt last power
  have parts := div_add_mod last (256^k)
  have digits : n % 256^(k + 1) = n % 256^k + 256^k * indirect.digit k n := mod_pow_succ
  rw [digits]
  generalize indirect.digit k n = d
  generalize last / 256^k = e at parts ⊢
  constructor
  · intro below
    rcases Nat.lt_trichotomy d e with less | same | more
    · exact .inl less
    · subst same
      exact .inr ⟨rfl,by omega⟩
    have step : 256^k * (e + 1) ≤ 256^k * d := Nat.mul_le_mul_left _ more
    rw [mul_succ] at step
    omega
  · rintro (less | ⟨rfl,below⟩)
    · have step : 256^k * (d + 1) ≤ 256^k * e := Nat.mul_le_mul_left _ less
      rw [mul_succ] at step
      omega
    · omega

theorem indirtrunc_cuts {ino : Nat} (below : Cuts k (truncBelow ino k)) :
    Cuts (k + 1) fun v a last => indirtrunc ino k v a last := by
  intro v a last m l used small held
  have power : 0 < 256^k := Nat.pow_pos (by decide)
  have inside : last / 256^k < 256 := by
    rw [Nat.div_lt_iff_lt_mul power,← Nat.pow_succ']
    exact small
  obtain ⟨v1,l1,first,held1,given1,root,frame1⟩ := releaseAbove_spec (releaseSlot_frees ino k) used held (last / 256^k : Nat)
  rw [keptBelow_eq _ _ _ inside] at held1 given1 frame1
  generalize address : (v.disk a).word (last / 256^k) = c at held1 given1 frame1
  -- what the last step does, whether there is a block or not
  have step : ∃ v' l', (if c ≠ 0 then truncBelow ino k v1 c (last % 256^k) else .ok v1) = .ok v' ∧
      Held v' (a ::ₘ (indirect.owned v'.disk k c + ∑ j ∈ Finset.range (last / 256^k),
      indirect.owned v.disk k ((v.disk a).word j) + m)) l' ∧
      (l' : Multiset Nat) + indirect.owned v'.disk k c = indirect.owned v.disk k c + (l1 : Multiset Nat) ∧
      v'.disk a = clearAbove (v.disk a) (last / 256^k : Nat) ∧
      (∀ n, indirect.contents v'.disk k c n = if n % 256^k ≤ last % 256^k then indirect.contents v.disk k c n else Block.zero) ∧
      (∀ n, indirect.leaf v'.disk k c n = if n % 256^k ≤ last % 256^k then indirect.leaf v.disk k c n else 0) ∧
      (∀ base, indirect.numbered v'.disk k c base = (indirect.numbered v.disk k c base).filter fun e =>
      e.2 ≤ base + last % 256^k) ∧
      ∀ x ∈ ∑ j ∈ Finset.range (last / 256^k), indirect.owned v.disk k ((v.disk a).word j) + m, v'.disk x = v.disk x := by
    by_cases hole : c = 0
    · subst hole
      refine ⟨v1,l1,by simp,by simpa using held1,by simp,root,fun n => ?_,fun n => ?_,fun base => by simp,
        fun x member => frame1 x ?_⟩
      · rw [contents_empty,contents_empty]
        exact (ite_self _).symm
      · rw [leaf_empty,leaf_empty,ite_self]
      · rw [add_assoc]
        exact mem_add.mpr (.inr member)
    have same : indirect.owned v1.disk k c = indirect.owned v.disk k c := owned_congr fun b member => frame1 b (by simp [member])
    have order : ∀ s, a ::ₘ (s + ∑ j ∈ Finset.range (last / 256^k), indirect.owned v.disk k ((v.disk a).word j) + m) =
        s + (a ::ₘ (∑ j ∈ Finset.range (last / 256^k), indirect.owned v.disk k ((v.disk a).word j) + m)) := by
      intro s
      rw [add_cons,add_assoc]
    rw [order,← same] at held1
    obtain ⟨v',l',done,held',given,cut⟩ := below hole (mod_lt _ power) held1
    have kept : ∀ b ∈ indirect.owned v.disk k c, v1.disk b = v.disk b := fun b member => frame1 b (by simp [member])
    refine ⟨v',l',by rw [if_pos hole]; exact done,by rw [order]; exact held',by rw [given,same],?_,fun n => ?_,fun n => ?_,
      fun base => ?_,fun x member => ?_⟩
    · rw [cut.frame a (mem_cons_self _ _),root]
    · rw [cut.contents,contents_congr kept]
    · rw [cut.leaf,leaf_congr kept]
    · rw [cut.numbered,numbered_congr kept]
    · rw [cut.frame x (mem_cons_of_mem member)]
      refine frame1 x ?_
      rw [add_assoc]
      exact mem_add.mpr (.inr member)
  obtain ⟨v',l',done,held',given',root',below',leaf',numbered',frame'⟩ := step
  have children : ∀ j, j < indirect.fan → indirect.child (v'.disk a) j =
      if j ≤ last / 256^k then indirect.child (v.disk a) j else 0 := by
    intro j bound
    rw [root']
    exact word_clearAbove _ bound _
  have same : ∀ j, j < last / 256^k → ∀ b ∈ indirect.owned v.disk k (indirect.child (v.disk a) j), v'.disk b = v.disk b := by
    intro j bound b member
    refine frame' b (Multiset.mem_add.mpr (.inl ?_))
    exact Multiset.mem_sum.mpr ⟨j,Finset.mem_range.mpr bound,member⟩
  have child : indirect.child (v.disk a) (last / 256^k) = c := address
  have whole : last / 256^k * indirect.fan^k + last % 256^k = last := div_add_mod' last (256^k)
  refine ⟨v',l',?_,?_,?_,fun n => ?_,fun n => ?_,fun base => ?_,fun x member => frame' x (mem_add.mpr (.inr member))⟩
  · dsimp only
    rw [indirtrunc_part,first,address]
    exact done
  · rw [owned_cut used inside children same,child,cons_add]
    exact held'
  · rw [owned_cut used inside children same,child,← given1,add_cons,add_cons,← add_assoc,given',← add_assoc]
    congr 2
    exact add_comm _ _
  · rw [contents_cut used children same,child,below']
    simp only [mod_le_iff]
    by_cases less : indirect.digit k n < last / 256^k
    · rw [if_pos less,if_pos (.inl less)]
    rw [if_neg less]
    by_cases equal : indirect.digit k n = last / 256^k
    · rw [if_pos equal,contents_succ used,equal,child]
      simp
    rw [if_neg equal,if_neg (by simp [less,equal])]
    rfl
  · rw [leaf_cut used children same,child,leaf']
    simp only [mod_le_iff]
    by_cases less : indirect.digit k n < last / 256^k
    · rw [if_pos less,if_pos (.inl less)]
    rw [if_neg less]
    by_cases equal : indirect.digit k n = last / 256^k
    · rw [if_pos equal,leaf_succ used,equal,child]
      simp
    · rw [if_neg equal,if_neg (by simp [less,equal])]
  · have parts := @numbered_cut _ _ _ _ _ _ base _ (last % 256^k) used (mod_lt _ power) children same (by
      rw [child]
      exact numbered' _)
    rw [parts]
    exact filter_congr fun e _ => by rw [whole]

theorem truncBelow_cuts (ino k : Nat) : Cuts k (truncBelow ino k) := by
  induction k with
  | zero =>
    intro v a last m l _ small held
    refine ⟨v,l,rfl,held,add_comm _ _,fun n => ?_,fun n => ?_,fun base => ?_,fun _ _ => rfl⟩
    · rw [if_pos (by rw [Nat.pow_zero,mod_one]; omega)]
    · rw [if_pos (by rw [Nat.pow_zero,mod_one]; omega)]
    refine (Multiset.filter_eq_self.mpr fun e member => ?_).symm
    have high := (numbered_bounds member).2
    rw [Nat.pow_zero] at high
    omega
  | succ k ih => exact indirtrunc_cuts ih

def firstBlock (i : Fin 7) : Nat :=
  if i.val < 4 then i.val else if i.val = 4 then 4 else if i.val = 5 then 260 else 65796

def truncSlot (tip : Inode) (lastblock : Int) (v : Volume) (i : Fin 7) : Except Fault Volume :=
  if lastblock < (firstBlock i : Int) then
    if tip.iAddr i ≠ 0 then releaseSlot tip.iNumber (level i) v (tip.iAddr i) else .ok v
  else if lastblock - (firstBlock i : Int) < ((256^level i : Nat) : Int) ∧ tip.iAddr i ≠ 0 then
    truncBelow tip.iNumber (level i) v (tip.iAddr i) (lastblock - (firstBlock i : Int)).toNat
  else .ok v

theorem lastiblock_eq (lastblock : Int) (bound : j < 3) : lastiblock lastblock j = lastblock - (firstBlock (ib j) : Int) := by
  have cases : j = 0 ∨ j = 1 ∨ j = 2 := by omega
  rcases cases with rfl | rfl | rfl
  · rfl
  · simp only [lastiblock,ndaddr,nindir,show firstBlock (ib 1) = 260 from rfl]
    omega
  · simp only [lastiblock,ndaddr,nindir,show firstBlock (ib 2) = 65796 from rfl]
    omega

theorem truncLevels_cons (tip : Inode) (lastblock : Int) (bound : j < 3) (levels : List Nat) (v : Volume)
    (below : lastblock - (firstBlock (ib j) : Int) < ((256^(j + 1) : Nat) : Int)) :
    truncLevels tip lastblock (j :: levels) v = (truncSlot tip lastblock v (ib j)).bind fun v =>
      if lastblock ≥ (firstBlock (ib j) : Int) then .ok (v,true) else truncLevels tip lastblock levels v := by
  have height : level (ib j) = j + 1 := by
    have cases : j = 0 ∨ j = 1 ∨ j = 2 := by omega
    rcases cases with rfl | rfl | rfl <;> rfl
  rw [truncLevels,truncSlot,lastiblock_eq lastblock bound,height]
  by_cases cut : lastblock < (firstBlock (ib j) : Int)
  · have negative : lastblock - (firstBlock (ib j) : Int) < 0 := by omega
    have reached : ¬ lastblock - (firstBlock (ib j) : Int) ≥ 0 := by omega
    have reached' : ¬ lastblock ≥ (firstBlock (ib j) : Int) := by omega
    simp only [cut,negative,reached,reached',if_true,if_false]
    by_cases hole : tip.iAddr (ib j) = 0
    · simp only [hole,ne_eq,not_true_eq_false,if_false]
      rfl
    simp only [hole,ne_eq,not_false_eq_true,if_true,releaseSlot]
    cases indirtrunc tip.iNumber j v (tip.iAddr (ib j)) (-1) <;> rfl
  have positive : ¬ lastblock - (firstBlock (ib j) : Int) < 0 := by omega
  have reached : lastblock - (firstBlock (ib j) : Int) ≥ 0 := by omega
  have reached' : lastblock ≥ (firstBlock (ib j) : Int) := by omega
  have value : ((lastblock - (firstBlock (ib j) : Int)).toNat : Int) = lastblock - (firstBlock (ib j) : Int) := by omega
  simp only [cut,positive,reached,reached',below,if_true,if_false,true_and]
  by_cases hole : tip.iAddr (ib j) = 0
  · simp only [hole,ne_eq,not_true_eq_false,if_false]
    rfl
  simp only [hole,ne_eq,not_false_eq_true,if_true,truncBelow,value]
  cases indirtrunc tip.iNumber j v (tip.iAddr (ib j)) (lastblock - (firstBlock (ib j) : Int)) <;> rfl

theorem truncSlot_kept (tip : Inode) {i : Fin 7} (above : (firstBlock i : Int) + ((256^level i : Nat) : Int) ≤ lastblock)
    (v : Volume) : truncSlot tip lastblock v i = .ok v := by
  have power : 0 < 256^level i := Nat.pow_pos (by decide)
  rw [truncSlot,if_neg (by omega),if_neg (by omega)]

theorem truncSlot_direct (tip : Inode) (lastblock : Int) (direct : j < 4) (v : Volume) :
    truncSlot tip lastblock v (Fin.ofNat 7 j) =
      if lastblock < (j : Nat) ∧ tip.iAddr (Fin.ofNat 7 j) ≠ 0 then free v tip.iNumber
        (tip.iAddr (Fin.ofNat 7 j)) else .ok v := by
  have first : firstBlock (Fin.ofNat 7 j) = j := by
    have value : (Fin.ofNat 7 j).val = j := by
      simp only [Fin.ofNat]
      omega
    rw [firstBlock,value,if_pos direct]
  have height : level (Fin.ofNat 7 j) = 0 := by
    simp only [level,Fin.ofNat]
    omega
  rw [truncSlot,first,height]
  by_cases cut : lastblock < (j : Int)
  · rw [if_pos cut]
    simp only [cut,true_and]
    rfl
  · simp only [cut,false_and,if_false,truncBelow]
    split_ifs <;> rfl

theorem foldlM_kept (tip : Inode) (slots : List (Fin 7))
    (above : ∀ i ∈ slots, (firstBlock i : Int) + ((256^level i : Nat) : Int) ≤ lastblock) (v : Volume) :
    slots.foldlM (truncSlot tip lastblock) v = .ok v := by
  induction slots with
  | nil => rfl
  | cons i slots ih =>
    rw [foldlM_cons,truncSlot_kept tip (above i mem_cons_self)]
    exact ih fun j member => above j (mem_cons_of_mem i member)

theorem truncDirect_eq (tip : Inode) (lastblock : Int) (v : Volume) :
    truncDirect tip lastblock v = [3,2,1,0].foldlM (truncSlot tip lastblock) v := by
  have mapped : ([3,2,1,0] : List (Fin 7)) = ([3,2,1,0] : List Nat).map (Fin.ofNat 7) := rfl
  rw [mapped,foldlM_map,truncDirect]
  have body : ∀ (slots : List Nat), (∀ j ∈ slots, j < 4) → ∀ w, slots.foldlM (fun v i =>
      if lastblock < (i : Nat) ∧ tip.iAddr (Fin.ofNat 7 i) ≠ 0 then free v tip.iNumber
        (tip.iAddr (Fin.ofNat 7 i)) else .ok v) w =
        slots.foldlM (fun v i => truncSlot tip lastblock v (Fin.ofNat 7 i)) w := by
    intro slots small
    induction slots with
    | nil => exact fun _ => rfl
    | cons j slots ih =>
      intro w
      rw [foldlM_cons,foldlM_cons,truncSlot_direct tip lastblock (small j mem_cons_self)]
      congr 1
      exact funext fun u => ih (fun i member => small i (mem_cons_of_mem j member)) u
  exact body _ (by decide) v

theorem freeBlocks_eq (tip : Inode) (small : lastblock < maxBlocks) (v : Volume) :
    freeBlocks tip lastblock v = [6,5,4,3,2,1,0].foldlM (truncSlot tip lastblock) v := by
  have bound : (maxBlocks : Int) = 2097152 := rfl
  have third : (firstBlock (ib 2) : Int) = 65796 := rfl
  have second : (firstBlock (ib 1) : Int) = 260 := rfl
  have first : (firstBlock (ib 0) : Int) = 4 := rfl
  rw [freeBlocks,foldlM_cons,truncLevels_cons tip lastblock (by decide) _ v (by rw [third]; norm_num; omega),third]
  show _ = (truncSlot tip lastblock v (ib 2)).bind _
  cases truncSlot tip lastblock v (ib 2) with
  | error e => rfl
  | ok v =>
  simp only [Except.bind]
  by_cases top : lastblock ≥ 65796
  · rw [if_pos top,foldlM_kept]
    · rfl
    intro i member
    have cases : i ∈ ([5,4,3,2,1,0] : List (Fin 7)) := member
    fin_cases cases <;> simp [firstBlock,level] <;> omega
  rw [if_neg top,foldlM_cons,truncLevels_cons tip lastblock (by decide) _ v (by rw [second]; norm_num; omega),second]
  show _ = (truncSlot tip lastblock v (ib 1)).bind _
  cases truncSlot tip lastblock v (ib 1) with
  | error e => rfl
  | ok v =>
  simp only [Except.bind]
  by_cases middle : lastblock ≥ 260
  · rw [if_pos middle,foldlM_kept]
    · rfl
    intro i member
    have cases : i ∈ ([4,3,2,1,0] : List (Fin 7)) := member
    fin_cases cases <;> simp [firstBlock,level] <;> omega
  rw [if_neg middle,foldlM_cons,truncLevels_cons tip lastblock (by decide) _ v (by rw [first]; norm_num; omega),first]
  show _ = (truncSlot tip lastblock v (ib 0)).bind _
  cases truncSlot tip lastblock v (ib 0) with
  | error e => rfl
  | ok v =>
  simp only [Except.bind]
  by_cases low : lastblock ≥ 4
  · rw [if_pos low,foldlM_kept]
    · rfl
    intro i member
    have cases : i ∈ ([3,2,1,0] : List (Fin 7)) := member
    fin_cases cases <;> simp [firstBlock,level] <;> omega
  rw [if_neg low]
  exact truncDirect_eq tip lastblock v

theorem keptAddr_eq (tip : Inode) (lastblock : Int) (i : Fin 7) :
    keptAddr tip lastblock i = if lastblock < (firstBlock i : Int) then 0 else tip.iAddr i := by
  unfold keptAddr
  by_cases direct : i.val < 4
  · have first : firstBlock i = i.val := if_pos direct
    rw [if_pos (show i.val < ndaddr from direct),first]
  have slot : ib (i.val - ndaddr) = i := by
    apply Fin.ext
    simp only [ib,Fin.ofNat,ndaddr]
    omega
  rw [if_neg (show ¬ i.val < ndaddr from direct),lastiblock_eq lastblock (by unfold ndaddr; omega),slot]
  simp only [sub_neg]

structure CutSlot (tip : Inode) (lastblock : Int) (h h' : Nat → Block) (i : Fin 7) : Prop where
  contents : ∀ n, n < 256^level i → indirect.contents h' (level i) (keptAddr tip lastblock i) n =
    if (firstBlock i : Int) + n ≤ lastblock then indirect.contents h (level i) (tip.iAddr i) n else Block.zero
  leaf : ∀ n, n < 256^level i → indirect.leaf h' (level i) (keptAddr tip lastblock i) n =
    if (firstBlock i : Int) + n ≤ lastblock then indirect.leaf h (level i) (tip.iAddr i) n else 0
  numbered : indirect.numbered h' (level i) (keptAddr tip lastblock i) (firstBlock i) =
    (indirect.numbered h (level i) (tip.iAddr i) (firstBlock i)).filter fun e => (e.2 : Int) ≤ lastblock

theorem truncSlot_spec (tip : Inode) (lastblock : Int) (i : Fin 7) {v : Volume} {m : Multiset Nat}
    (held : Held v (indirect.owned v.disk (level i) (tip.iAddr i) + m) l) :
    ∃ v' l', truncSlot tip lastblock v i = .ok v' ∧
    Held v' (indirect.owned v'.disk (level i) (keptAddr tip lastblock i) + m) l' ∧
      (l' : Multiset Nat) + indirect.owned v'.disk (level i) (keptAddr tip lastblock i) =
        indirect.owned v.disk (level i) (tip.iAddr i) + (l : Multiset Nat) ∧
      CutSlot tip lastblock v.disk v'.disk i ∧ ∀ x ∈ m, v'.disk x = v.disk x := by
  rw [truncSlot,keptAddr_eq]
  by_cases hole : tip.iAddr i = 0
  · -- nothing is below the address
    have nothing : (if lastblock < (firstBlock i : Int) then 0 else tip.iAddr i) = 0 := by rw [hole,ite_self]
    rw [hole,owned_empty] at held
    refine ⟨v,l,?_,by rw [nothing,owned_empty]; exact held,by rw [nothing,hole,owned_empty]; exact add_comm _ _,
      ⟨fun n _ => ?_,fun n _ => ?_,?_⟩,fun _ _ => rfl⟩
    · simp [hole,ite_self]
    · rw [keptAddr_eq,nothing,hole,contents_empty]
      exact (ite_self _).symm
    · rw [keptAddr_eq,nothing,hole,leaf_empty,ite_self]
    · rw [keptAddr_eq,nothing,hole,numbered_empty]
      rfl
  by_cases cut : lastblock < (firstBlock i : Int)
  · rw [if_pos cut,if_pos cut,if_pos hole]
    obtain ⟨v',l',done,held',given,frame⟩ := releaseSlot_frees tip.iNumber (level i) hole held
    refine ⟨v',l',done,by rw [owned_empty,zero_add]; exact held',by rw [owned_empty,add_zero]; exact given,
      ⟨fun n _ => ?_,fun n _ => ?_,?_⟩,frame⟩
    · rw [keptAddr_eq,if_pos cut,contents_empty,if_neg (by omega)]
      rfl
    · rw [keptAddr_eq,if_pos cut,leaf_empty,if_neg (by omega)]
    rw [keptAddr_eq,if_pos cut,numbered_empty]
    refine (filter_eq_nil.mpr fun e member => ?_).symm
    have low := (numbered_bounds member).1
    omega
  rw [if_neg cut,if_neg cut]
  by_cases part : lastblock - (firstBlock i : Int) < ((256^level i : Nat) : Int)
  · rw [if_pos ⟨part,hole⟩]
    have inside : (lastblock - (firstBlock i : Int)).toNat < 256^level i := by omega
    obtain ⟨v',l',done,held',given,cuts⟩ := truncBelow_cuts tip.iNumber (level i) hole inside held
    have order : ∀ n, n ≤ (lastblock - (firstBlock i : Int)).toNat ↔ (firstBlock i : Int) + n ≤ lastblock := fun n => by omega
    refine ⟨v',l',done,held',given,⟨fun n small => ?_,fun n small => ?_,?_⟩,cuts.frame⟩
    · rw [keptAddr_eq,if_neg cut,cuts.contents,mod_eq_of_lt small]
      simp only [order]
    · rw [keptAddr_eq,if_neg cut,cuts.leaf,mod_eq_of_lt small]
      simp only [order]
    · rw [keptAddr_eq,if_neg cut,cuts.numbered]
      exact filter_congr fun e _ => by omega
  · rw [if_neg fun both => part both.1]
    refine ⟨v,l,rfl,held,add_comm _ _,⟨fun n small => ?_,fun n small => ?_,?_⟩,fun _ _ => rfl⟩
    · rw [keptAddr_eq,if_neg cut,if_pos (by omega)]
    · rw [keptAddr_eq,if_neg cut,if_pos (by omega)]
    rw [keptAddr_eq,if_neg cut]
    refine (Multiset.filter_eq_self.mpr fun e member => ?_).symm
    have high := (numbered_bounds member).2
    change e.2 < firstBlock i + 256^level i at high
    omega

def trees (addr : Fin 7 → Nat) (slots : List (Fin 7)) : List (Nat × Nat) := slots.map fun i => (level i,addr i)

theorem truncSlots_spec (tip : Inode) (lastblock : Int) (slots : List (Fin 7)) :
    ∀ {v : Volume} {m : Multiset Nat} {l : List Nat},
    Held v (indirect.forest v.disk (trees tip.iAddr slots) + m) l →
    ∃ v' l', slots.foldlM (truncSlot tip lastblock) v = .ok v' ∧
      Held v' (indirect.forest v'.disk (trees (keptAddr tip lastblock) slots) + m) l' ∧
      (l' : Multiset Nat) + indirect.forest v'.disk (trees (keptAddr tip lastblock) slots) =
        indirect.forest v.disk (trees tip.iAddr slots) + (l : Multiset Nat) ∧
      (∀ i ∈ slots, CutSlot tip lastblock v.disk v'.disk i) ∧ ∀ x ∈ m, v'.disk x = v.disk x := by
  induction slots with
  | nil =>
    intro v m l held
    exact ⟨v,l,rfl,held,add_comm _ _,by simp,fun _ _ => rfl⟩
  | cons i slots ih =>
    intro v m l held
    rw [trees,List.map_cons,forest_cons,add_assoc] at held
    obtain ⟨v1,l1,first,held1,given1,cut1,frame1⟩ := truncSlot_spec tip lastblock i held
    have rest : indirect.forest v1.disk (trees tip.iAddr slots) = indirect.forest v.disk (trees tip.iAddr slots) :=
      forest_congr fun b member => frame1 b (mem_add.mpr (.inl member))
    have regroup : ∀ a b c : Multiset Nat, a + (b + c) = b + (a + c) := fun a b c => by
      rw [← add_assoc,add_comm a b,add_assoc]
    change Held v1 (indirect.owned v1.disk (level i)
      (keptAddr tip lastblock i) + (indirect.forest v.disk (trees tip.iAddr slots) + m)) l1 at held1
    rw [← rest,regroup] at held1
    obtain ⟨v',l',done,held',given,cuts,frame⟩ := ih held1
    have kept : ∀ b ∈ indirect.owned v1.disk (level i) (keptAddr tip lastblock i), v'.disk b = v1.disk b := fun b member =>
      frame b (mem_add.mpr (.inl member))
    refine ⟨v',l',?_,?_,?_,?_,fun x member => ?_⟩
    · rw [foldlM_cons,first]
      exact done
    · rw [trees,List.map_cons,forest_cons,add_assoc,owned_congr kept,regroup]
      exact held'
    · rw [rest] at given
      rw [trees,trees,List.map_cons,List.map_cons,forest_cons,forest_cons,owned_congr kept,regroup]
      change indirect.owned v1.disk (level i) (keptAddr tip lastblock i) +
        (↑l' + indirect.forest v'.disk (trees (keptAddr tip lastblock) slots)) =
          indirect.owned v.disk (level i) (tip.iAddr i) + indirect.forest v.disk (trees tip.iAddr slots) + ↑l
      rw [given,regroup,add_comm (indirect.owned v1.disk _ _),given1]
      ac_rfl
    · intro j member
      rcases mem_cons.mp member with same | later
      · subst same
        refine ⟨fun n small => ?_,fun n small => ?_,?_⟩
        · rw [contents_congr kept]
          exact cut1.contents n small
        · rw [leaf_congr kept]
          exact cut1.leaf n small
        · rw [numbered_congr kept]
          exact cut1.numbered
      · have before : ∀ b ∈ indirect.owned v.disk (level j) (tip.iAddr j), v1.disk b = v.disk b := fun b below =>
          frame1 b (mem_add.mpr (.inl (mem_forest (r := (level j,tip.iAddr j)) (mem_map.mpr ⟨j,later,rfl⟩) below)))
        refine ⟨fun n small => ?_,fun n small => ?_,?_⟩
        · rw [(cuts j later).contents n small,contents_congr before]
        · rw [(cuts j later).leaf n small,leaf_congr before]
        · rw [(cuts j later).numbered,numbered_congr before]
    · rw [frame x (mem_add.mpr (.inr member)),frame1 x (mem_add.mpr (.inr member))]

theorem blocksOf_forest (h : Nat → Block) (addr : Fin 7 → Nat) :
    blocksOf h addr = indirect.forest h (trees addr [6,5,4,3,2,1,0]) := by
  simp only [blocksOf,trees,forest,List.map_cons,List.map_nil,List.sum_cons,List.sum_nil,add_zero,Fin.sum_univ_seven]
  ac_rfl

theorem firstBlock_place (bn : Nat) : firstBlock (place bn).1 + (place bn).2 = bn := by
  rcases place_cases bn with ⟨near,slot,rest⟩ | ⟨_,_,slot,rest⟩ | ⟨_,_,slot,rest⟩ | ⟨_,slot,rest⟩
  · rw [firstBlock,slot,if_pos near,rest]
    rfl
  all_goals
    rw [slot,rest]
    simp only [firstBlock,show ((4 : Fin 7) : Nat) = 4 from rfl,show ((5 : Fin 7) : Nat) = 5 from rfl,
      show ((6 : Fin 7) : Nat) = 6 from rfl]
    norm_num
    omega

def numberedBlocks (h : Nat → Block) (addr : Fin 7 → Nat) : Multiset (Nat × Nat) :=
    ∑ i, indirect.numbered h (level i) (addr i) (firstBlock i)

theorem numberedBlocks_fst (h : Nat → Block) (addr : Fin 7 → Nat) : (numberedBlocks h addr).map Prod.fst = blocksOf h addr := by
  rw [numberedBlocks,← coe_mapAddMonoidHom,map_sum]
  exact sum_congr rfl fun i _ => owned_numbered

def leafAt (h : Nat → Block) (addr : Fin 7 → Nat) (bn : Nat) : Nat :=
    indirect.leaf h (level (place bn).1) (addr (place bn).1) (place bn).2

theorem freeBlocks_spec {f : File} {others : Multiset Nat} (sound : Sound f others l)
    (small : lastblock < maxBlocks) (length : Nat) :
    ∃ v' l', freeBlocks f.ip lastblock f.volume = .ok v' ∧
    Sound ⟨v',{f.ip with iSize := length,iAddr := keptAddr f.ip lastblock}⟩ others l' ∧
      (l' : Multiset Nat) + blocksOf v'.disk (keptAddr f.ip lastblock) = blocksOf f.volume.disk f.ip.iAddr + (l : Multiset Nat) ∧
      (numberedBlocks v'.disk (keptAddr f.ip lastblock) = (numberedBlocks f.volume.disk f.ip.iAddr).filter fun e =>
      (e.2 : Int) ≤ lastblock) ∧
      (∀ bn < mapBlocks, leafAt v'.disk (keptAddr f.ip lastblock) bn =
        if (bn : Int) ≤ lastblock then leafAt f.volume.disk f.ip.iAddr bn else 0) ∧
      ∀ bn < maxBlocks, blockAt ⟨v',{f.ip with iSize := length,iAddr := keptAddr f.ip lastblock}⟩ bn =
        if (bn : Int) ≤ lastblock then blockAt f bn else Block.zero := by
  have held := sound
  unfold Sound at held
  rw [blocksOf_forest] at held
  obtain ⟨v',l',done,held',given,cuts,_⟩ := truncSlots_spec f.ip lastblock [6,5,4,3,2,1,0] held
  have every : ∀ i : Fin 7, i ∈ ([6,5,4,3,2,1,0] : List (Fin 7)) := by decide
  have number : ∀ bn, (firstBlock (place bn).1 : Int) + (place bn).2 ≤ lastblock ↔ (bn : Int) ≤ lastblock := fun bn => by
    have first := firstBlock_place bn
    omega
  refine ⟨v',l',by rw [freeBlocks_eq f.ip small]; exact done,?_,?_,?_,fun bn bound => ?_,fun bn bound => ?_⟩
  · unfold Sound
    rw [blocksOf_forest]
    exact held'
  · rw [blocksOf_forest,blocksOf_forest]
    exact given
  · rw [numberedBlocks,numberedBlocks,filter_sum]
    exact sum_congr rfl fun i _ => (cuts i (every i)).numbered
  · have result := (cuts _ (every _)).leaf _ (place_lt bound)
    simp only [number] at result
    exact result
  · have result := (cuts _ (every _)).contents _ (place_lt (bound.trans maxBlocks_lt))
    simp only [number] at result
    exact result

end Retrobsd.FileData

import Retrobsd.Lib.Indices

/-! How many places of a finite table point to a thing. Tables are functions to an
option type, and are changed at one place or by copying a row. -/
namespace Retrobsd.Lib.Counting
open Finset
open Function

variable {ι α : Type} [Fintype ι] [DecidableEq α]

def hits (f : ι → Option α) (a : α) : Nat := (Finset.univ.filter fun i => f i = some a).card

def weight (x : Option α) (a : α) : Nat := if x = some a then 1 else 0

@[simp] theorem weight_none (a : α) : weight none a = 0 := rfl

@[simp] theorem weight_self (a : α) : weight (some a) a = 1 := if_pos rfl

variable {a : α} {f : ι → Option α} {i : ι}

theorem weight_of_ne {b : α} (ne : b ≠ a) : weight (some b) a = 0 := if_neg fun same => ne (Option.some.inj same)

theorem hits_eq_sum (f : ι → Option α) (a : α) : hits f a = ∑ i, weight (f i) a := by
  rw [hits,card_filter]
  rfl

theorem hits_update [DecidableEq ι] (f : ι → Option α) (i : ι) (x : Option α) (a : α) :
    hits (update f i x) a + weight (f i) a = hits f a + weight x a := by
  rw [hits_eq_sum,hits_eq_sum,← add_sum_erase _ _ (mem_univ i),← add_sum_erase Finset.univ (fun j => weight (f j) a)
    (mem_univ i),update_self]
  have rest : ∑ j ∈ Finset.univ.erase i, weight (update f i x j) a = ∑ j ∈ Finset.univ.erase i, weight (f j) a := by
    refine sum_congr rfl fun j member => ?_
    rw [update_of_ne (ne_of_mem_erase member)]
  omega

theorem hits_pos (holds : f i = some a) : 0 < hits f a := card_pos.mpr ⟨i,by simp [holds]⟩

theorem hits_eq_zero : hits f a = 0 ↔ ∀ i, f i ≠ some a := by
  simp [hits,filter_eq_empty_iff]

theorem exists_of_hits (some : 0 < hits f a) : ∃ i, f i = Option.some a := by
  obtain ⟨i,member⟩ := card_pos.mp some
  exact ⟨i,(mem_filter.mp member).2⟩

theorem two_le_hits {j : ι} (ne : i ≠ j) (first : f i = some a) (second : f j = some a) : 2 ≤ hits f a :=
  one_lt_card.mpr ⟨i,by simp [first],j,by simp [second],ne⟩

theorem eq_of_hits_le_one (few : hits f a ≤ 1) {j : ι} (first : f i = some a) (second : f j = some a) : i = j :=
  card_le_one.mp few i (by simp [first]) j (by simp [second])

theorem hits_le_card (f : ι → Option α) (a : α) : hits f a ≤ Fintype.card ι := card_filter_le _ _

theorem hits_copy {κ : Type} [Fintype κ] [DecidableEq ι] (f : ι × κ → Option α) {source target : ι}
    (empty : ∀ k, f (target,k) = none) (a : α) :
    hits (fun q : ι × κ => if q.1 = target then f (source,q.2) else f q) a = hits f a + hits (fun k => f (source,k)) a := by
  simp only [hits_eq_sum,Fintype.sum_prod_type]
  rw [← add_sum_erase _ _ (mem_univ target),← add_sum_erase Finset.univ (fun i => ∑ k, weight (f (i,k)) a) (mem_univ target)]
  have rest : ∑ i ∈ Finset.univ.erase target, ∑ k, weight (if i = target then f (source,k) else f (i,k)) a =
      ∑ i ∈ Finset.univ.erase target, ∑ k, weight (f (i,k)) a := by
    refine sum_congr rfl fun i member => ?_
    simp only [ne_of_mem_erase member,if_false]
  simp only [if_true,rest,empty,weight_none,sum_const_zero]
  omega

theorem countP_eq_hits [DecidableEq ι] {l : List ι} (once : l.Nodup) (all : ∀ i, f i = some a → i ∈ l) :
    l.countP (fun i => decide (f i = some a)) = hits f a := by
  rw [List.countP_eq_length_filter,hits,← List.toFinset_card_of_nodup (once.filter _)]
  congr 1
  ext i
  simp only [List.mem_toFinset,List.mem_filter,decide_eq_true_eq,mem_filter,mem_univ,true_and]
  exact ⟨fun both => both.2,fun holds => ⟨all i holds,holds⟩⟩

end Retrobsd.Lib.Counting

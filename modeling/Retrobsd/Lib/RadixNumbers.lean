import Retrobsd.Lib.Radix

/-! The cells of a radix tree, each with the first number that it leads to. A tree that
is cut off behind a number has the cells whose first number is not behind it. -/
namespace Retrobsd.Lib.Radix
open Finset Multiset
open Function

variable {β : Type} {t : Layout β} {h h' : Nat → β} {k a i n base : Nat}

def Layout.numbered (t : Layout β) (h : Nat → β) : Nat → Nat → Nat → Multiset (Nat × Nat)
  | 0,a,base => if a = 0 then 0 else {(a,base)}
  | k + 1,a,base => if a = 0 then 0
    else (a,base) ::ₘ ∑ i ∈ Finset.range t.fan, numbered t h k (t.child (h a) i) (base + i * t.fan^k)

@[simp] theorem numbered_empty : t.numbered h k 0 base = 0 := by
  cases k <;> rfl

theorem numbered_succ (used : a ≠ 0) : t.numbered h (k + 1) a base =
    (a,base) ::ₘ ∑ i ∈ Finset.range t.fan, t.numbered h k (t.child (h a) i) (base + i * t.fan^k) := if_neg used

theorem owned_numbered : (t.numbered h k a base).map Prod.fst = t.owned h k a := by
  induction k generalizing a base with
  | zero =>
    by_cases empty : a = 0 <;> simp [Layout.numbered,Layout.owned,empty]
  | succ k ih =>
    by_cases empty : a = 0
    · rw [empty,numbered_empty,owned_empty,Multiset.map_zero]
    rw [numbered_succ empty,owned_succ empty,Multiset.map_cons]
    congr 1
    rw [← coe_mapAddMonoidHom,map_sum]
    exact sum_congr rfl fun i _ => ih

theorem numbered_bounds {e : Nat × Nat} (member : e ∈ t.numbered h k a base) : base ≤ e.2 ∧ e.2 < base + t.fan^k := by
  induction k generalizing a base with
  | zero =>
    by_cases empty : a = 0
    · simp [empty] at member
    have same : e = (a,base) := by simpa [Layout.numbered,empty] using member
    rw [same]
    simp
  | succ k ih =>
    by_cases empty : a = 0
    · simp [empty] at member
    rw [numbered_succ empty,Multiset.mem_cons,Multiset.mem_sum] at member
    have power : 0 < t.fan^(k + 1) := Nat.pow_pos t.positive
    rcases member with rfl | ⟨j,bound,below⟩
    · exact ⟨le_rfl,by dsimp only; omega⟩
    obtain ⟨low,high⟩ := ih below
    have step : (j + 1) * t.fan^k ≤ t.fan * t.fan^k := Nat.mul_le_mul_right _ (Finset.mem_range.mp bound)
    rw [Nat.pow_succ']
    rw [Nat.add_one_mul] at step
    omega

theorem numbered_congr (same : ∀ b ∈ t.owned h k a, h' b = h b) : t.numbered h' k a base = t.numbered h k a base := by
  induction k generalizing a base with
  | zero => rfl
  | succ k ih =>
    by_cases empty : a = 0
    · rw [empty,numbered_empty,numbered_empty]
    rw [numbered_succ empty,numbered_succ empty,same a (root_mem empty)]
    congr 1
    refine Finset.sum_congr rfl fun i member => ih fun b inside => same b ?_
    rw [owned_succ_at empty (Finset.mem_range.mp member)]
    simp [inside]

theorem numbered_blank (used : a ≠ 0) (blank : h a = t.blank) : t.numbered h k a base = {(a,base)} := by
  cases k with
  | zero => exact if_neg used
  | succ k =>
    rw [numbered_succ used,blank]
    simp [t.child_blank]

theorem numbered_graft {more : Multiset (Nat × Nat)} (used : a ≠ 0) (inside : i < t.fan)
    (others : ∀ j, j ≠ i → j < t.fan → t.child (h' a) j = t.child (h a) j) (same : ∀ b ∈ t.siblings h k a i, h' b = h b)
    (below : t.numbered h' k (t.child (h' a) i) (base + i * t.fan^k) = t.numbered h k (t.child (h a) i)
    (base + i * t.fan^k) + more) :
    t.numbered h' (k + 1) a base = t.numbered h (k + 1) a base + more := by
  have member := Finset.mem_range.mpr inside
  have rest : ∑ j ∈ (Finset.range t.fan).erase i, t.numbered h' k (t.child (h' a) j) (base + j * t.fan^k) =
      ∑ j ∈ (Finset.range t.fan).erase i, t.numbered h k (t.child (h a) j) (base + j * t.fan^k) := by
    refine sum_congr rfl fun j present => ?_
    obtain ⟨other,bound⟩ := Finset.mem_erase.mp present
    rw [others j other (Finset.mem_range.mp bound)]
    exact numbered_congr fun b below => same b (mem_siblings other (Finset.mem_range.mp bound) below)
  rw [numbered_succ used,numbered_succ used,← add_sum_erase _ _ member,← add_sum_erase (Finset.range t.fan)
    (fun j => t.numbered h k (t.child (h a) j) (base + j * t.fan^k)) member,rest,below,cons_add]
  congr 1
  rw [add_assoc,add_assoc]
  congr 1
  exact add_comm _ _

theorem filter_sum {ι α : Type} (s : Finset ι) (f : ι → Multiset α) (p : α → Prop) [DecidablePred p] :
    (∑ i ∈ s, f i).filter p = ∑ i ∈ s, (f i).filter p := by
  classical
  induction s using Finset.induction_on with
  | empty => rfl
  | insert i s fresh ih => rw [sum_insert fresh,sum_insert fresh,filter_add,ih]

theorem numbered_cut {last r : Nat} (used : a ≠ 0) (small : r < t.fan^k)
    (children : ∀ j, j < t.fan → t.child (h' a) j = if j ≤ last then t.child (h a) j else 0)
    (same : ∀ j, j < last → ∀ b ∈ t.owned h k (t.child (h a) j), h' b = h b)
    (below : t.numbered h' k (t.child (h a) last) (base + last * t.fan^k) =
      (t.numbered h k (t.child (h a) last) (base + last * t.fan^k)).filter fun e => e.2 ≤ base + last * t.fan^k + r) :
    t.numbered h' (k + 1) a base = (t.numbered h (k + 1) a base).filter fun e => e.2 ≤ base + (last * t.fan^k + r) := by
  rw [numbered_succ used,numbered_succ used,Multiset.filter_cons_of_pos _ (by dsimp only; omega)]
  congr 1
  rw [filter_sum]
  refine Finset.sum_congr rfl fun j bound => ?_
  have inside := Finset.mem_range.mp bound
  rw [children j inside]
  rcases Nat.lt_trichotomy j last with less | rfl | more
  · have step : (j + 1) * t.fan^k ≤ last * t.fan^k := Nat.mul_le_mul_right _ less
    rw [Nat.add_one_mul] at step
    rw [if_pos less.le,Multiset.filter_eq_self.mpr fun e member => ?_]
    · exact numbered_congr (same j less)
    have high := (numbered_bounds member).2
    omega
  · rw [if_pos le_rfl,below,Nat.add_assoc]
  · have step : (last + 1) * t.fan^k ≤ j * t.fan^k := Nat.mul_le_mul_right _ more
    rw [Nat.add_one_mul] at step
    rw [if_neg (by omega),numbered_empty,filter_eq_nil.mpr fun e member => ?_]
    have low := (numbered_bounds member).1
    omega

theorem store_shape {b : Nat} {c : β} (distinct : (t.owned h k a).Nodup) (leaf : t.leaf h k a n = b) (used : b ≠ 0) :
    (∀ base, t.numbered (update h b c) k a base = t.numbered h k a base) ∧ ∀ m,
    t.leaf (update h b c) k a m = t.leaf h k a m := by
  induction k generalizing a with
  | zero => exact ⟨fun _ => rfl,fun _ => rfl⟩
  | succ k ih =>
    obtain ⟨nonzero,down,first,root,beside⟩ := @store_below _ _ _ _ _ _ _ c distinct leaf used
    obtain ⟨numbers,leaves⟩ := ih first down
    constructor
    · intro base
      have grafted := @numbered_graft _ _ h (update h b c) _ _ _ base 0 nonzero (digit_lt t k n)
        (fun j _ _ => by rw [root]) beside (by rw [root,numbers,add_zero])
      rwa [add_zero] at grafted
    intro m
    rw [leaf_succ nonzero,leaf_succ nonzero,root]
    by_cases here : t.digit k m = t.digit k n
    · rw [here]
      exact leaves m
    · exact leaf_congr fun x member => beside x (mem_siblings here (digit_lt t k m) member)

theorem leaf_cut {last : Nat} (used : a ≠ 0)
    (children : ∀ j, j < t.fan → t.child (h' a) j = if j ≤ last then t.child (h a) j else 0)
    (same : ∀ j, j < last → ∀ b ∈ t.owned h k (t.child (h a) j), h' b = h b) (n : Nat) :
    t.leaf h' (k + 1) a n = if t.digit k n < last then t.leaf h (k + 1) a n
      else if t.digit k n = last then t.leaf h' k (t.child (h a) last) n else 0 := by
  rw [leaf_succ used,children _ (digit_lt t k n)]
  by_cases below : t.digit k n < last
  · rw [if_pos below,if_pos below.le,leaf_succ used]
    exact leaf_congr (same _ below)
  rw [if_neg below]
  by_cases here : t.digit k n = last
  · rw [if_pos here,if_pos here.le,here]
  · rw [if_neg here,if_neg (by omega),leaf_empty]

end Retrobsd.Lib.Radix

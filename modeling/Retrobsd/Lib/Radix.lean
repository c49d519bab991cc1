import Retrobsd.Lib.Indices

/-! Radix trees in a heap. A cell of level `k + 1` has the addresses of `fan` cells of
level `k`, and address 0 is an empty tree; what the cells of level 0 hold is the
contents. Where the cells of a tree are distinct, a change of one part of it leaves
the contents of the others. -/
namespace Retrobsd.Lib.Radix
open Finset Multiset Nat
open Function

structure Layout (β : Type) where
  child : β → Nat → Nat
  fan : Nat
  blank : β
  child_blank : ∀ i, child blank i = 0
  positive : 0 < fan

variable {β : Type} (t : Layout β)

namespace Layout

def digit (k n : Nat) : Nat := n / t.fan^k % t.fan

def leaf (h : Nat → β) : Nat → Nat → Nat → Nat
  | 0,a,_ => a
  | k + 1,a,n => if a = 0 then 0 else leaf h k (t.child (h a) (t.digit k n)) n

def owned (h : Nat → β) : Nat → Nat → Multiset Nat
  | 0,a => if a = 0 then 0 else {a}
  | k + 1,a => if a = 0 then 0 else a ::ₘ ∑ i ∈ Finset.range t.fan, owned h k (t.child (h a) i)

def contents (h : Nat → β) (k a n : Nat) : β := if t.leaf h k a n = 0 then t.blank else h (t.leaf h k a n)

/-- The cells below all children but one. -/
def siblings (h : Nat → β) (k a i : Nat) : Multiset Nat := ∑ j ∈ (Finset.range t.fan).erase i, t.owned h k (t.child (h a) j)

end Layout

open Layout

variable {t : Layout β} {h h' : Nat → β} {k a i n : Nat}

theorem digit_lt (t : Layout β) (k n : Nat) : t.digit k n < t.fan := mod_lt _ t.positive

@[simp] theorem owned_empty : t.owned h k 0 = 0 := by
  cases k <;> rfl

@[simp] theorem leaf_empty : t.leaf h k 0 n = 0 := by
  cases k <;> rfl

@[simp] theorem contents_empty : t.contents h k 0 n = t.blank := by
  rw [contents,leaf_empty,if_pos rfl]

theorem owned_succ (used : a ≠ 0) :
    t.owned h (k + 1) a = a ::ₘ ∑ i ∈ Finset.range t.fan, t.owned h k (t.child (h a) i) := if_neg used

theorem owned_succ_at (used : a ≠ 0) (inside : i < t.fan) :
    t.owned h (k + 1) a = a ::ₘ (t.owned h k (t.child (h a) i) + t.siblings h k a i) := by
  rw [owned_succ used,siblings]
  congr 1
  exact (add_sum_erase _ (fun j => t.owned h k (t.child (h a) j)) (mem_range.mpr inside)).symm

theorem regroup (c s m : Multiset Nat) : a ::ₘ (c + s) + m = c + (a ::ₘ s + m) := by
  rw [cons_add,cons_add,add_cons,add_assoc]

theorem contents_succ (used : a ≠ 0) : t.contents h (k + 1) a n = t.contents h k (t.child (h a) (t.digit k n)) n := by
  have same : t.leaf h (k + 1) a n = t.leaf h k (t.child (h a) (t.digit k n)) n := if_neg used
  rw [contents,contents,same]

theorem leaf_succ (used : a ≠ 0) : t.leaf h (k + 1) a n = t.leaf h k (t.child (h a) (t.digit k n)) n := if_neg used

theorem root_mem (used : a ≠ 0) : a ∈ t.owned h k a := by
  cases k with
  | zero => simp [owned,used]
  | succ k => simp [owned_succ used]

variable {b : Nat} {p : Nat → Bool}

theorem mem_siblings {j : Nat} (other : j ≠ i) (inside : j < t.fan)
    (member : b ∈ t.owned h k (t.child (h a) j)) : b ∈ t.siblings h k a i :=
  Multiset.mem_sum.mpr ⟨j,Finset.mem_erase.mpr ⟨other,Finset.mem_range.mpr inside⟩,member⟩

theorem leaf_mem (used : t.leaf h k a n ≠ 0) : t.leaf h k a n ∈ t.owned h k a := by
  induction k generalizing a with
  | zero =>
    have nonzero : a ≠ 0 := used
    simp [leaf,owned,nonzero]
  | succ k ih =>
    by_cases empty : a = 0
    · rw [empty,leaf_empty] at used
      exact absurd rfl used
    have down : t.leaf h (k + 1) a n = t.leaf h k (t.child (h a) (t.digit k n)) n := if_neg empty
    rw [down] at used ⊢
    rw [owned_succ_at empty (digit_lt t k n)]
    simp [ih used]

theorem mod_eq_iff (t : Layout β) (k n m : Nat) :
    n % t.fan^(k + 1) = m % t.fan^(k + 1) ↔ t.digit k n = t.digit k m ∧ n % t.fan^k = m % t.fan^k := by
  rw [mod_pow_succ,mod_pow_succ]
  have power : 0 < t.fan^k := Nat.pow_pos t.positive
  have first := mod_lt n power
  have second := mod_lt m power
  constructor
  · intro equal
    have quotient := congrArg (· / t.fan^k) equal
    have rest := congrArg (· % t.fan^k) equal
    simp only [add_mul_div_left _ _ power,div_eq_of_lt first,div_eq_of_lt second,Nat.zero_add] at quotient
    simp only [add_mul_mod_self_left,mod_mod] at rest
    exact ⟨quotient,rest⟩
  · rintro ⟨digits,rests⟩
    simp only [digit] at digits
    rw [digits,rests]

theorem leaf_injective {m : Nat} (distinct : (t.owned h k a).Nodup) (used : t.leaf h k a n ≠ 0)
    (same : t.leaf h k a m = t.leaf h k a n) : m % t.fan^k = n % t.fan^k := by
  induction k generalizing a with
  | zero => rw [Nat.pow_zero,mod_one,mod_one]
  | succ k ih =>
    have nonzero : a ≠ 0 := by
      rintro rfl
      exact used leaf_empty
    rw [leaf_succ nonzero] at used same
    rw [leaf_succ nonzero] at same
    rw [owned_succ_at nonzero (digit_lt t k n),nodup_cons,nodup_add] at distinct
    obtain ⟨_,first,_,apart⟩ := distinct
    by_cases digits : t.digit k m = t.digit k n
    · rw [digits] at same
      exact (mod_eq_iff t k m n).mpr ⟨digits,ih first used same⟩
    have there : t.leaf h k (t.child (h a) (t.digit k m)) m ≠ 0 := by rwa [same]
    have second := mem_siblings digits (digit_lt t k m) (leaf_mem there)
    rw [same] at second
    exact absurd second (disjoint_left.mp apart (leaf_mem used))

theorem owned_congr (same : ∀ b ∈ t.owned h k a, h' b = h b) : t.owned h' k a = t.owned h k a := by
  induction k generalizing a with
  | zero => rfl
  | succ k ih =>
    by_cases empty : a = 0
    · rw [empty,owned_empty,owned_empty]
    have root := same a (root_mem empty)
    rw [owned_succ empty,owned_succ empty,root]
    congr 1
    refine Finset.sum_congr rfl fun i member => ih fun b inside => same b ?_
    rw [owned_succ_at empty (Finset.mem_range.mp member)]
    simp [inside]

theorem leaf_congr (same : ∀ b ∈ t.owned h k a, h' b = h b) : t.leaf h' k a n = t.leaf h k a n := by
  induction k generalizing a with
  | zero => rfl
  | succ k ih =>
    by_cases empty : a = 0
    · rw [empty,leaf_empty,leaf_empty]
    rw [leaf_succ empty,leaf_succ empty,same a (root_mem empty)]
    refine ih fun b inside => same b ?_
    rw [owned_succ_at empty (digit_lt t k n)]
    simp [inside]

theorem contents_congr (same : ∀ b ∈ t.owned h k a, h' b = h b) : t.contents h' k a n = t.contents h k a n := by
  rw [contents,contents,leaf_congr same]
  split_ifs with empty
  · rfl
  · exact same _ (leaf_mem empty)

theorem owned_blank (used : a ≠ 0) (blank : h a = t.blank) : t.owned h k a = {a} := by
  cases k with
  | zero => exact if_neg used
  | succ k =>
    rw [owned_succ used,blank]
    simp [t.child_blank]

theorem contents_blank (used : a ≠ 0) (blank : h a = t.blank) : t.contents h k a n = t.blank := by
  cases k with
  | zero => simp [contents,leaf,used,blank]
  | succ k => rw [contents_succ used,blank,t.child_blank,contents_empty]

theorem owned_graft (used : a ≠ 0) (inside : i < t.fan) (others : ∀ j, j ≠ i → j < t.fan → t.child (h' a) j = t.child (h a) j)
    (same : ∀ b ∈ t.siblings h k a i, h' b = h b) :
    t.owned h' (k + 1) a = a ::ₘ (t.owned h' k (t.child (h' a) i) + t.siblings h k a i) := by
  rw [owned_succ_at used inside]
  congr 2
  refine sum_congr rfl fun j member => ?_
  obtain ⟨other,bound⟩ := Finset.mem_erase.mp member
  rw [others j other (Finset.mem_range.mp bound)]
  exact owned_congr fun b present => same b (mem_siblings other (Finset.mem_range.mp bound) present)

theorem contents_graft (used : a ≠ 0) (others : ∀ j, j ≠ i → j < t.fan → t.child (h' a) j = t.child (h a) j)
    (same : ∀ b ∈ t.siblings h k a i, h' b = h b) (n : Nat) :
    t.contents h' (k + 1) a n = if t.digit k n = i then t.contents h' k (t.child (h' a) i) n else t.contents h (k + 1) a n := by
  rw [contents_succ used]
  by_cases here : t.digit k n = i
  · rw [if_pos here,here]
  rw [if_neg here,others _ here (digit_lt t k n),contents_succ used]
  exact contents_congr fun b present => same b (mem_siblings here (digit_lt t k n) present)

theorem store_below {c : β} (distinct : (t.owned h (k + 1) a).Nodup) (leaf : t.leaf h (k + 1) a n = b) (used : b ≠ 0) :
    a ≠ 0 ∧ t.leaf h k (t.child (h a) (t.digit k n)) n = b ∧ (t.owned h k (t.child (h a) (t.digit k n))).Nodup ∧
      update h b c a = h a ∧ ∀ x ∈ t.siblings h k a (t.digit k n), update h b c x = h x := by
  have nonzero : a ≠ 0 := by
    rintro rfl
    rw [leaf_empty] at leaf
    exact used leaf.symm
  have down : t.leaf h k (t.child (h a) (t.digit k n)) n = b := by
    rw [← leaf]
    exact (if_neg nonzero).symm
  have below : b ∈ t.owned h k (t.child (h a) (t.digit k n)) := by
    rw [← down] at used ⊢
    exact leaf_mem used
  rw [owned_succ_at nonzero (digit_lt t k n),nodup_cons,nodup_add] at distinct
  obtain ⟨fresh,first,_,apart⟩ := distinct
  refine ⟨nonzero,down,first,update_of_ne (fun same => ?_) _ _,fun x member => update_of_ne (fun same => ?_) _ _⟩
  · exact fresh (mem_add.mpr (.inl (same ▸ below)))
  · exact disjoint_left.mp apart below (same ▸ member)

theorem store_leaf {c : β} (distinct : (t.owned h k a).Nodup) (leaf : t.leaf h k a n = b)
    (used : b ≠ 0) : t.owned (update h b c) k a = t.owned h k a ∧
    ∀ m, t.contents (update h b c) k a m = if m % t.fan^k = n % t.fan^k then c else t.contents h k a m := by
  induction k generalizing a with
  | zero =>
    have same : a = b := leaf
    subst same
    refine ⟨rfl,fun m => ?_⟩
    rw [if_pos (by simp [mod_one])]
    simp [contents,Layout.leaf,used]
  | succ k ih =>
    obtain ⟨nonzero,down,first,root,beside⟩ := @store_below _ _ _ _ _ _ _ c distinct leaf used
    have children : ∀ j, j ≠ t.digit k n → j < t.fan → t.child (update h b c a) j = t.child (h a) j := fun j _ _ => by
      rw [root]
    obtain ⟨kept,changed⟩ := ih first down
    constructor
    · rw [owned_graft nonzero (digit_lt t k n) children beside,owned_succ_at nonzero (digit_lt t k n),root,kept]
    intro m
    rw [contents_graft nonzero children beside,root]
    by_cases here : t.digit k m = t.digit k n
    · rw [if_pos here,changed]
      simp only [mod_eq_iff,here,true_and]
      by_cases rests : m % t.fan^k = n % t.fan^k
      · rw [if_pos rests,if_pos rests]
      · rw [if_neg rests,if_neg rests,contents_succ nonzero,here]
    · rw [if_neg here,if_neg]
      rw [mod_eq_iff]
      exact fun both => here both.1

theorem owned_cut {last : Nat} (used : a ≠ 0) (inside : last < t.fan)
    (children : ∀ j, j < t.fan → t.child (h' a) j = if j ≤ last then t.child (h a) j else 0)
    (same : ∀ j, j < last → ∀ b ∈ t.owned h k (t.child (h a) j), h' b = h b) :
    t.owned h' (k + 1) a = a ::ₘ (t.owned h' k (t.child (h a) last) + ∑ j ∈ Finset.range last,
    t.owned h k (t.child (h a) j)) := by
  rw [owned_succ used]
  congr 1
  have split : Finset.range t.fan = Finset.range (last + 1) ∪ (Finset.range t.fan).filter (last < ·) := by
    ext j
    simp only [Finset.mem_union,Finset.mem_range,Finset.mem_filter]
    omega
  have apart : Disjoint (Finset.range (last + 1)) ((Finset.range t.fan).filter (last < ·)) := by
    rw [Finset.disjoint_left]
    intro j low high
    simp only [Finset.mem_range,Finset.mem_filter] at low high
    omega
  have gone : ∑ j ∈ (Finset.range t.fan).filter (last < ·), t.owned h' k (t.child (h' a) j) = 0 := by
    refine Finset.sum_eq_zero fun j member => ?_
    obtain ⟨bound,above⟩ := Finset.mem_filter.mp member
    rw [children j (Finset.mem_range.mp bound),if_neg (by omega),owned_empty]
  rw [split,sum_union apart,gone,add_zero,sum_range_succ,add_comm,children last inside,if_pos le_rfl]
  congr 1
  refine Finset.sum_congr rfl fun j member => ?_
  have bound := Finset.mem_range.mp member
  rw [children j (by omega),if_pos (by omega)]
  exact owned_congr (same j bound)

theorem contents_cut {last : Nat} (used : a ≠ 0)
    (children : ∀ j, j < t.fan → t.child (h' a) j = if j ≤ last then t.child (h a) j else 0)
    (same : ∀ j, j < last → ∀ b ∈ t.owned h k (t.child (h a) j), h' b = h b) (n : Nat) :
    t.contents h' (k + 1) a n = if t.digit k n < last then t.contents h (k + 1) a n
      else if t.digit k n = last then t.contents h' k (t.child (h a) last) n else t.blank := by
  rw [contents_succ used,children _ (digit_lt t k n)]
  by_cases below : t.digit k n < last
  · rw [if_pos below,if_pos below.le,contents_succ used]
    exact contents_congr (same _ below)
  rw [if_neg below]
  by_cases here : t.digit k n = last
  · rw [if_pos here,if_pos here.le,here]
  · rw [if_neg here,if_neg (by omega),contents_empty]

def Layout.sight (t : Layout β) (p : Nat → Bool) (h : Nat → β) : Nat → β := fun a => if p a then t.blank else h a

theorem sight_hidden (hidden : p a = true) : t.sight p h a = t.blank := if_pos hidden

theorem sight_seen (seen : p a = false) : t.sight p h a = h a := by
  simp [sight,seen]

theorem leaf_hidden (hidden : p a = true) : t.leaf (t.sight p h) (k + 1) a n = 0 := by
  by_cases empty : a = 0
  · rw [empty,leaf_empty]
  · rw [leaf_succ empty,sight_hidden hidden,t.child_blank,leaf_empty]

theorem leaf_seen (used : a ≠ 0) (seen : p a = false) :
    t.leaf (t.sight p h) (k + 1) a n = t.leaf (t.sight p h) k (t.child (h a) (t.digit k n)) n := by
  rw [leaf_succ used,sight_seen seen]

theorem sight_leaf (used : t.leaf (t.sight p h) k a n ≠ 0) : t.leaf (t.sight p h) k a n = t.leaf h k a n := by
  induction k generalizing a with
  | zero => rfl
  | succ k ih =>
    cases seen : p a with
    | true => exact absurd (leaf_hidden seen) used
    | false =>
      have nonzero : a ≠ 0 := by
        rintro rfl
        exact used leaf_empty
      rw [leaf_seen nonzero seen] at used ⊢
      rw [leaf_succ nonzero,ih used]

theorem sight_congr (same : ∀ b ∈ t.owned h k a, h' b = h b) : t.leaf (t.sight p h') k a n = t.leaf (t.sight p h) k a n := by
  induction k generalizing a with
  | zero => rfl
  | succ k ih =>
    by_cases empty : a = 0
    · rw [empty,leaf_empty,leaf_empty]
    cases seen : p a with
    | true => rw [leaf_hidden seen,leaf_hidden seen]
    | false =>
      rw [leaf_seen empty seen,leaf_seen empty seen,same a (root_mem empty)]
      refine ih fun b inside => same b ?_
      rw [owned_succ_at empty (digit_lt t k n)]
      simp [inside]

theorem sight_graft (others : ∀ j, j ≠ i → j < t.fan → t.child (h' a) j = t.child (h a) j)
    (same : ∀ b ∈ t.siblings h k a i, h' b = h b) (other : t.digit k n ≠ i) :
    t.leaf (t.sight p h') (k + 1) a n = t.leaf (t.sight p h) (k + 1) a n := by
  by_cases empty : a = 0
  · rw [empty,leaf_empty,leaf_empty]
  cases seen : p a with
  | true => rw [leaf_hidden seen,leaf_hidden seen]
  | false =>
    rw [leaf_seen empty seen,leaf_seen empty seen,others _ other (digit_lt t k n)]
    exact sight_congr fun b present => same b (mem_siblings other (digit_lt t k n) present)

/-- The cells of several trees, which are given by their levels and roots. -/
def Layout.forest (t : Layout β) (h : Nat → β) (l : List (Nat × Nat)) : Multiset Nat := (l.map fun r => t.owned h r.1 r.2).sum

@[simp] theorem forest_cons (r : Nat × Nat) (l : List (Nat × Nat)) : t.forest h (r :: l) = t.owned h r.1 r.2 + t.forest h l :=
  List.sum_cons

theorem mem_forest {l : List (Nat × Nat)} {r : Nat × Nat} (member : r ∈ l)
    (below : b ∈ t.owned h r.1 r.2) : b ∈ t.forest h l := by
  induction l with
  | nil => cases member
  | cons r' l ih =>
    rw [forest_cons]
    rcases List.mem_cons.mp member with same | later
    · rw [← same]
      exact mem_add.mpr (.inl below)
    · exact mem_add.mpr (.inr (ih later))

theorem forest_congr {l : List (Nat × Nat)} (same : ∀ b ∈ t.forest h l, h' b = h b) : t.forest h' l = t.forest h l := by
  unfold forest
  congr 1
  refine List.map_congr_left fun r member => ?_
  exact owned_congr fun b below => same b (mem_forest member below)

end Retrobsd.Lib.Radix

import Retrobsd.Lib.Indices

/-! A range of addresses that is divided into segments, each of which begins where the
one before it ends. A property of the segments may mention where each begins and ends. -/
namespace Retrobsd.Lib.Segments
open List

variable {κ : Type}

/-- Where a list of segments begins, when the last one ends at `top`. -/
def first (top : Nat) : List (Nat × κ) → Nat
  | [] => top
  | (a,_) :: _ => a

def Every (P : Nat → κ → Nat → Prop) (top : Nat) : List (Nat × κ) → Prop
  | [] => True
  | (a,k) :: l => P a k (first top l) ∧ Every P top l

variable {P Q : Nat → κ → Nat → Prop} {top : Nat} {l r : List (Nat × κ)} {a : Nat} {k : κ}

theorem first_append : first top (l ++ r) = first (first top r) l := by
  cases l <;> rfl

theorem every_append : Every P top (l ++ r) ↔ Every P (first top r) l ∧ Every P top r := by
  induction l with
  | nil => exact ⟨fun every => ⟨trivial,every⟩,And.right⟩
  | cons s l ih =>
    obtain ⟨a,k⟩ := s
    rw [cons_append,Every,Every,ih,first_append,and_assoc]

theorem Every.mem (every : Every P top l) (member : (a,k) ∈ l) : ∃ e, P a k e := by
  induction l with
  | nil => cases member
  | cons s l ih =>
    rcases mem_cons.mp member with rfl | later
    · exact ⟨_,every.1⟩
    · exact ih every.2 later

section
variable (ordered : ∀ {a k e}, P a k e → a < e)
include ordered

section
variable (every : Every P top l)
include every

theorem Every.first_le : first top l ≤ top := by
  induction l with
  | nil => exact Nat.le_refl top
  | cons s l ih => exact ((ordered every.1).le).trans (ih every.2)

theorem Every.imp (next : ∀ a k e, (a,k) ∈ l → first top l ≤ a → e ≤ top → P a k e → Q a k e) : Every Q top l := by
  induction l with
  | nil => trivial
  | cons s l ih =>
    obtain ⟨a,k⟩ := s
    obtain ⟨here,later⟩ := every
    have below := later.first_le ordered
    refine ⟨next a k _ mem_cons_self (Nat.le_refl a) below here,ih later fun b k' e member from_ to_ => ?_⟩
    exact next b k' e (mem_cons_of_mem _ member) ((ordered here).le.trans from_) to_

theorem Every.bounds (member : (a,k) ∈ l) : first top l ≤ a ∧ a < top := by
  induction l with
  | nil => cases member
  | cons s l ih =>
    have below := every.2.first_le ordered
    rcases mem_cons.mp member with rfl | later
    · exact ⟨Nat.le_refl a,lt_of_lt_of_le (ordered every.1) below⟩
    obtain ⟨from_,to_⟩ := ih every.2 later
    exact ⟨(ordered every.1).le.trans from_,to_⟩

theorem Every.apart {b : Nat} {k' : κ} (one : (a,k) ∈ l) (other : (b,k') ∈ l) :
    (a = b ∧ k = k') ∨ ∃ e, (P a k e ∧ e ≤ b) ∨ (P b k' e ∧ e ≤ a) := by
  induction l with
  | nil => cases one
  | cons s l ih =>
    rcases mem_cons.mp one with rfl | later <;> rcases mem_cons.mp other with same | later'
    · obtain ⟨rfl,rfl⟩ := Prod.mk.inj same
      exact .inl ⟨rfl,rfl⟩
    · exact .inr ⟨_,.inl ⟨every.1,(every.2.bounds ordered later').1⟩⟩
    · subst same
      exact .inr ⟨_,.inr ⟨every.1,(every.2.bounds ordered later).1⟩⟩
    · exact ih every.2 later later'

theorem Every.length_le : first top l + l.length ≤ top := by
  induction l with
  | nil => exact Nat.le_refl top
  | cons s l ih =>
    have rest := ih every.2
    have step := ordered every.1
    rw [length_cons,first]
    omega

end

end

end Retrobsd.Lib.Segments

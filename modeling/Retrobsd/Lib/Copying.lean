import Retrobsd.Lib.Indices

/-! Copying inside of one memory, one cell after the other from the first one. Where
the cells that are written begin among those that are still to be read, the cells before
them are repeated. -/
namespace Retrobsd.Lib.Copying
open Function

variable {α : Type}

def copyUp (m : Nat → α) (src dst : Nat) : Nat → Nat → α
  | 0 => m
  | n + 1 => copyUp (update m dst (m src)) (src + 1) (dst + 1) n

variable {m : Nat → α} {src dst n i a : Nat}

theorem copyUp_add (k : Nat) : ∀ {m : Nat → α} {src dst : Nat},copyUp m src dst (n + k) = copyUp (copyUp m src dst n)
    (src + n) (dst + n) k := by
  induction n with
  | zero =>
    intro m src dst
    rw [Nat.zero_add]
    rfl
  | succ n ih =>
    intro m src dst
    rw [Nat.add_right_comm,copyUp,copyUp,ih,Nat.add_right_comm,Nat.add_right_comm dst,Nat.add_assoc src,Nat.add_assoc dst]

theorem copyUp_last : copyUp m src dst (n + 1) = update (copyUp m src dst n) (dst + n)
    (copyUp m src dst n (src + n)) := copyUp_add 1

theorem copyUp_other (outside : a < dst ∨ dst + n ≤ a) : copyUp m src dst n a = m a := by
  induction n with
  | zero => rfl
  | succ n ih =>
    rw [copyUp_last,update_of_ne (by omega)]
    exact ih (by omega)

theorem copyUp_apart (apart : dst ≤ src ∨ src + n ≤ dst) (inside : i < n) : copyUp m src dst n (dst + i) = m (src + i) := by
  induction n with
  | zero => omega
  | succ n ih =>
    rw [copyUp_last]
    rcases Nat.lt_succ_iff_lt_or_eq.mp inside with before | rfl
    · rw [update_of_ne (by omega)]
      exact ih (by omega) before
    rw [update_self]
    exact copyUp_other (by omega)

theorem copyUp_within (above : src < dst) (inside : i < n) : copyUp m src dst n (dst + i) = m (src + i % (dst - src)) := by
  induction n generalizing i with
  | zero => omega
  | succ n ih =>
    rw [copyUp_last]
    rcases Nat.lt_succ_iff_lt_or_eq.mp inside with before | rfl
    · rw [update_of_ne (by omega)]
      exact ih before
    rw [update_self]
    by_cases near : i < dst - src
    · rw [Nat.mod_eq_of_lt near]
      exact copyUp_other (by omega)
    have back : src + i = dst + (i - (dst - src)) := by omega
    rw [back,ih (by omega),Nat.mod_eq_sub_mod (by omega : i ≥ dst - src)]

theorem copyUp_eq {m' : Nat → α} (apart : dst ≤ src ∨ src + n ≤ dst) (copied : ∀ i < n, m' (dst + i) = m (src + i))
    (others : ∀ a, a < dst ∨ dst + n ≤ a → m' a = m a) : m' = copyUp m src dst n := by
  funext a
  by_cases inside : dst ≤ a ∧ a < dst + n
  · obtain ⟨i,rfl⟩ := Nat.exists_eq_add_of_le inside.1
    rw [copyUp_apart apart (by omega),copied i (by omega)]
  · rw [copyUp_other (by omega),others a (by omega)]

end Retrobsd.Lib.Copying

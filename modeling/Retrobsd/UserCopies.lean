import Retrobsd.TransferConfinement

/-! Copies between the kernel and the user: `copyin`, `copyout` and the `bcopy` under
them. Of the range of the user the first and the last address are looked at. -/
namespace Retrobsd.UserCopies
open Transfers

abbrev Memory := Word → BitVec 8

def Covers (start : Word) (n : Nat) (a : Word) : Prop := (a - start).toNat < n

instance (start : Word) (n : Nat) (a : Word) : Decidable (Covers start n a) := inferInstanceAs (Decidable (_ < _))

def move (size : Nat) (src dst : Word) (m : Memory) : Memory := fun a => if Covers dst size a then m (src + (a - dst)) else m a

variable {src dst : Word} {m : Memory}

section

def unaligned (p : Word) (sz : Word) : Bool := p &&& (sz - 1) ≠ 0

def words (nbytes : Nat) (src dst : Word) (m : Memory) : Nat × Word × Word × Memory :=
  if nbytes ≥ 4 * 4 then
    let m := move 4 src dst m
    let m := move 4 (src + 4) (dst + 4) m
    let m := move 4 (src + 8) (dst + 8) m
    let m := move 4 (src + 12) (dst + 12) m
    words (nbytes - 4 * 4) (src + 16) (dst + 16) m
  else if nbytes ≥ 4 then words (nbytes - 4) (src + 4) (dst + 4) (move 4 src dst m)
  else (nbytes,src,dst,m)

def residual : Nat → Word → Word → Memory → Memory
  | 0,_,_,m => m
  | nbytes + 1,src,dst,m => residual nbytes (src + 1) (dst + 1) (move 1 src dst m)

def bcopy (src dst nbytes : Word) (m : Memory) : Memory :=
  if nbytes ≥ 16 ∧ ¬ unaligned src 4 ∧ ¬ unaligned dst 4 then
    let (nbytes,src,dst,m) := words nbytes.toNat src dst m
    residual nbytes src dst m
  else residual nbytes.toNat src dst m

def copyout (src dst nbytes : Word) (m : Memory) : Option Errno × Memory :=
  if baduaddr dst ∨ baduaddr (dst + nbytes - 1) then (some .efault,m) else (none,bcopy src dst nbytes m)

def copyin (src dst nbytes : Word) (m : Memory) : Option Errno × Memory :=
  if baduaddr src ∨ baduaddr (src + nbytes - 1) then (some .efault,m) else (none,bcopy src dst nbytes m)

def Apart (src dst : Word) (n : Nat) : Prop := ∀ a, Covers src n a → ¬ Covers dst n a

variable {n k : Nat}

theorem Apart.first (apart : Apart src dst (n + k)) : Apart src dst n := by
  intro a read written
  exact apart a (Nat.lt_add_right k read) (Nat.lt_add_right k written)

theorem covers_add {start a : Word} (fits : n + k < 2^32) :
    Covers start (n + k) a ↔ Covers start n a ∨ Covers (start + BitVec.ofNat 32 n) k a := by
  unfold Covers
  bv_omega

theorem Apart.rest (fits : n + k < 2^32) (apart : Apart src dst (n + k)) :
    Apart (src + BitVec.ofNat 32 n) (dst + BitVec.ofNat 32 n) k := by
  intro a read written
  exact apart a ((covers_add fits).mpr (.inr read)) ((covers_add fits).mpr (.inr written))

theorem move_zero : move 0 src dst m = m := rfl

theorem move_add (fits : n + k < 2^32) (apart : Apart src dst (n + k)) :
    move k (src + BitVec.ofNat 32 n) (dst + BitVec.ofNat 32 n) (move n src dst m) = move (n + k) src dst m := by
  funext a
  have same : src + BitVec.ofNat 32 n + (a - (dst + BitVec.ofNat 32 n)) = src + (a - dst) := by bv_omega
  unfold move
  rw [same]
  by_cases late : Covers (dst + BitVec.ofNat 32 n) k a
  · have whole : Covers dst (n + k) a := (covers_add fits).mpr (.inr late)
    have read : Covers src (n + k) (src + (a - dst)) := by
      unfold Covers at whole ⊢
      bv_omega
    have kept : ¬ Covers dst n (src + (a - dst)) := by
      intro written
      exact apart _ read ((covers_add fits).mpr (.inl written))
    rw [if_pos late,if_pos whole,if_neg kept]
  · rw [if_neg late]
    by_cases early : Covers dst n a
    · rw [if_pos early,if_pos ((covers_add fits).mpr (.inl early))]
    · rw [if_neg early,if_neg (mt (covers_add fits).mp (not_or.mpr ⟨early,late⟩))]

theorem residual_move (fits : n < 2^32) (apart : Apart src dst n) : residual n src dst m = move n src dst m := by
  induction n generalizing src dst m with
  | zero => rfl
  | succ n ih =>
    rw [Nat.add_comm] at fits apart
    rw [residual]
    calc residual n (src + 1) (dst + 1) (move 1 src dst m)
        = move n (src + 1) (dst + 1) (move 1 src dst m) := ih (by omega) (apart.rest fits)
      _ = move (1 + n) src dst m := move_add fits apart
      _ = move (n + 1) src dst m := by rw [Nat.add_comm]

/-- The state of the loops over words where `n` bytes were to copy at first. -/
def Copied (n : Nat) (src dst : Word) (m : Memory) (r : Nat × Word × Word × Memory) : Prop := ∃ copied left,
  copied + left = n ∧ r = (left,src + BitVec.ofNat 32 copied,dst + BitVec.ofNat 32 copied,move copied src dst m)

theorem Copied.after {r : Nat × Word × Word × Memory} (fits : k + n < 2^32) (apart : Apart src dst (k + n))
    (later : Copied n (src + BitVec.ofNat 32 k) (dst + BitVec.ofNat 32 k) (move k src dst m) r) :
    Copied (k + n) src dst m r := by
  obtain ⟨copied,left,rfl,rfl⟩ := later
  rw [← Nat.add_assoc] at fits apart ⊢
  refine ⟨k + copied,left,rfl,?_⟩
  rw [move_add (by omega) apart.first,BitVec.ofNat_add,BitVec.add_assoc,BitVec.add_assoc]

theorem words_copied (fits : n < 2^32) (apart : Apart src dst n) : Copied n src dst m (words n src dst m) := by
  fun_induction words n src dst m with
  | case1 n src dst m0 many m1 m2 m3 m4 ih =>
    obtain ⟨n,rfl⟩ := Nat.exists_eq_add_of_le many
    rw [Nat.add_sub_cancel_left] at ih ⊢
    have four : Apart src dst (4 + 4 + 4 + 4) := apart.first
    have second : m2 = move (4 + 4) src dst m0 := move_add (by decide) four.first.first
    have third : m3 = move (4 + 4 + 4) src dst m0 := by
      simp only [m3,second]
      exact move_add (by decide) four.first
    have fourth : m4 = move (4 + 4 + 4 + 4) src dst m0 := by
      simp only [m4,third]
      exact move_add (by decide) four
    have later := ih (by omega) (apart.rest fits)
    rw [fourth] at later ⊢
    exact later.after fits apart
  | case2 n src dst m0 few one ih =>
    obtain ⟨n,rfl⟩ := Nat.exists_eq_add_of_le one
    rw [Nat.add_sub_cancel_left] at ih ⊢
    exact (ih (by omega) (apart.rest fits)).after fits apart
  | case3 n src dst m0 few none => exact ⟨0,n,Nat.zero_add n,by simp [move_zero]⟩

theorem bcopy_move {nbytes : Word} (apart : Apart src dst nbytes.toNat) :
    bcopy src dst nbytes m = move nbytes.toNat src dst m := by
  rw [bcopy]
  split
  · obtain ⟨copied,left,sum,same⟩ := words_copied (m := m) nbytes.isLt apart
    have fits : copied + left < 2^32 := by omega
    rw [← sum] at apart
    rw [same,← sum]
    exact (residual_move (by omega) (apart.rest fits)).trans (move_add fits apart)
  · exact residual_move nbytes.isLt apart

end

variable {nbytes : Word}

section

def Allowed (user : Word) (n : Nat) : Prop := (∀ a, Covers user n a → userDataStart ≤ a ∧ a < userDataEnd) ∨
  ∀ a, Covers user n a → userFlashStart ≤ a ∧ a < userFlashEnd

def Ends (user nbytes : Word) : Prop := baduaddr user = false ∧ baduaddr (user + nbytes - 1) = false

instance (user nbytes : Word) : Decidable (Ends user nbytes) := instDecidableAnd

variable {user : Word}

end

end Retrobsd.UserCopies

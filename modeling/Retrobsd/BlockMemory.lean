import Retrobsd.UserCopies

/-! `bcopy`, `bzero` and `bcmp` of machdep.c, which work on words where the addresses allow it, against what they do to
one byte after the other. -/
namespace Retrobsd.BlockMemory
open Transfers UserCopies BitVec

/-- A store of zeros to `size` bytes. -/
def clear (size : Nat) (dst : Word) (m : Memory) : Memory := fun a => if Covers dst size a then 0 else m a

/-- The loop up to an aligned address, which is at most three bytes away. `none` is the `return` in it. -/
def align : Nat → Word → Word → Memory → Memory × Option (Word × Word)
  | 0,dst,nbytes,m => (m,some (dst,nbytes))
  | turns + 1,dst,nbytes,m =>
    if unaligned dst 4 then
      let m := clear 1 dst m
      if nbytes - 1 = 0 then (m,none) else align turns (dst + 1) (nbytes - 1) m
    else (m,some (dst,nbytes))

def clearWords (nbytes : Nat) (dst : Word) (m : Memory) : Nat × Word × Memory :=
  if nbytes ≥ 4 * 4 then
    let m := clear 4 dst m
    let m := clear 4 (dst + 4) m
    let m := clear 4 (dst + 8) m
    let m := clear 4 (dst + 12) m
    clearWords (nbytes - 4 * 4) (dst + 16) m
  else if nbytes ≥ 4 then clearWords (nbytes - 4) (dst + 4) (clear 4 dst m)
  else (nbytes,dst,m)

def clearBytes : Nat → Word → Memory → Memory
  | 0,_,m => m
  | nbytes + 1,dst,m => clearBytes nbytes (dst + 1) (clear 1 dst m)

def bzero (dst nbytes : Word) (m : Memory) : Memory :=
  match align 3 dst nbytes m with
  | (m,none) => m
  | (m,some (dst,nbytes)) =>
    let (nbytes,dst,m) := clearWords nbytes.toNat dst m
    clearBytes nbytes dst m

def load (m : Memory) (a : Word) : Nat :=
    (m a).toNat + 2^8 * (m (a + 1)).toNat + 2^16 * (m (a + 2)).toNat + 2^24 * (m (a + 3)).toNat

def compareWords (m : Memory) (nbytes : Nat) (s1 s2 : Word) : Nat × Word × Word :=
  if nbytes ≥ 4 then
    if load m s1 ≠ load m s2 then (nbytes,s1,s2) else compareWords m (nbytes - 4) (s1 + 4) (s2 + 4)
  else (nbytes,s1,s2)

def compareBytes (m : Memory) : Nat → Word → Word → Int
  | 0,_,_ => 0
  | nbytes + 1,s1,s2 => if m s1 ≠ m s2 then (m s1).toNat - (m s2).toNat else compareBytes m nbytes (s1 + 1) (s2 + 1)

def bcmp (m1 m2 nbytes : Word) (m : Memory) : Int :=
  if nbytes ≥ 16 ∧ ¬ unaligned m1 4 ∧ ¬ unaligned m2 4 then
    let (nbytes,s1,s2) := compareWords m nbytes.toNat m1 m2
    compareBytes m nbytes s1 s2
  else compareBytes m nbytes.toNat m1 m2

inductive Call where
  | bcopy (src dst nbytes : Word)
  | bzero (dst nbytes : Word)
  | bcmp (m1 m2 nbytes : Word)
deriving DecidableEq

structure Compared (m : Memory) (m1 m2 : Word) (n : Nat) (result : Int) : Prop where
  same : result = 0 ↔ ∀ i < n, m (m1 + BitVec.ofNat 32 i) = m (m2 + BitVec.ofNat 32 i)
  first : ∀ i < n, (∀ j < i, m (m1 + BitVec.ofNat 32 j) = m (m2 + BitVec.ofNat 32 j)) →
    m (m1 + BitVec.ofNat 32 i) ≠ m (m2 + BitVec.ofNat 32 i) →
    result = (m (m1 + BitVec.ofNat 32 i)).toNat - (m (m2 + BitVec.ofNat 32 i)).toNat

def Call.Right : Call → Prop
  | .bcopy src dst nbytes => Apart src dst nbytes.toNat → ∀ m, UserCopies.bcopy src dst nbytes m = move nbytes.toNat src dst m
  | .bzero dst nbytes => ∀ m, BlockMemory.bzero dst nbytes m = clear nbytes.toNat dst m
  | .bcmp m1 m2 nbytes => ∀ m, Compared m m1 m2 nbytes.toNat (BlockMemory.bcmp m1 m2 nbytes m)

variable {dst src nbytes : Word} {m : Memory} {n k : Nat}

theorem clear_add (fits : n + k < 2^32) : clear k (dst + BitVec.ofNat 32 n) (clear n dst m) = clear (n + k) dst m := by
  funext a
  have cover : Covers dst (n + k) a ↔ _ := covers_add fits
  unfold clear
  by_cases late : Covers (dst + BitVec.ofNat 32 n) k a
  · rw [if_pos late,if_pos (cover.mpr (.inr late))]
  rw [if_neg late]
  exact if_congr ⟨fun early => cover.mpr (.inl early),fun whole => (cover.mp whole).resolve_right late⟩ rfl rfl

theorem clear_zero : clear 0 dst m = m := rfl

theorem clearBytes_clear (fits : n < 2^32) : clearBytes n dst m = clear n dst m := by
  induction n generalizing dst m with
  | zero => rfl
  | succ n ih =>
    have sum : 1 + n < 2^32 := by omega
    calc clearBytes n (dst + 1) (clear 1 dst m) = clear n (dst + 1) (clear 1 dst m) := ih (by omega)
      _ = clear (1 + n) dst m := clear_add sum
      _ = clear (n + 1) dst m := by rw [Nat.add_comm]

/-- The state of the loops over words where `n` bytes were to clear at first. -/
def Cleared (n : Nat) (dst : Word) (m : Memory) (r : Nat × Word × Memory) : Prop := ∃ done left,
  done + left = n ∧ r = (left,dst + BitVec.ofNat 32 done,clear done dst m)

theorem Cleared.after {r : Nat × Word × Memory} (fits : k + n < 2^32)
    (later : Cleared n (dst + BitVec.ofNat 32 k) (clear k dst m) r) :
    Cleared (k + n) dst m r := by
  obtain ⟨done,left,rfl,rfl⟩ := later
  refine ⟨k + done,left,Nat.add_assoc _ _ _,?_⟩
  rw [clear_add (by omega),BitVec.ofNat_add,BitVec.add_assoc]

theorem clearWords_cleared (fits : n < 2^32) : Cleared n dst m (clearWords n dst m) := by
  fun_induction clearWords n dst m with
  | case1 n dst m0 many m1 m2 m3 m4 ih =>
    obtain ⟨n,rfl⟩ := Nat.exists_eq_add_of_le many
    rw [Nat.add_sub_cancel_left] at ih ⊢
    have second : m2 = clear (4 + 4) dst m0 := clear_add (by decide)
    have third : m3 = clear (4 + 4 + 4) dst m0 := by
      simp only [m3,second]
      exact clear_add (by decide)
    have fourth : m4 = clear (4 + 4 + 4 + 4) dst m0 := by
      simp only [m4,third]
      exact clear_add (by decide)
    have later := ih (by omega)
    rw [fourth] at later ⊢
    exact later.after fits
  | case2 n dst m0 few one ih =>
    obtain ⟨n,rfl⟩ := Nat.exists_eq_add_of_le one
    rw [Nat.add_sub_cancel_left] at ih ⊢
    exact (ih (by omega)).after fits
  | case3 n dst m0 few none => exact ⟨0,n,Nat.zero_add n,by simp [clear_zero]⟩

def clearRest : Memory × Option (Word × Word) → Memory
  | (m,none) => m
  | (m,some (dst,nbytes)) => clear nbytes.toNat dst m

theorem bzero_rest : bzero dst nbytes m = clearRest (align 3 dst nbytes m) := by
  rw [bzero]
  rcases align 3 dst nbytes m with ⟨m,_ | ⟨dst,nbytes⟩⟩
  · rfl
  obtain ⟨done,left,sum,same⟩ := @clearWords_cleared dst m _ nbytes.isLt
  have fits : done + left < 2^32 := sum ▸ nbytes.isLt
  dsimp only
  rw [same,clearRest,← sum]
  exact (clearBytes_clear (by omega)).trans (clear_add fits)

theorem align_clear (turns : Nat) (more : nbytes ≠ 0) : clearRest (align turns dst nbytes m) = clear nbytes.toNat dst m := by
  induction turns generalizing dst nbytes m with
  | zero => rfl
  | succ turns ih =>
    rw [align]
    split_ifs with odd last
    · have one : nbytes = 1 := by bv_omega
      rw [one]
      rfl
    · have sum : nbytes.toNat = 1 + (nbytes - 1).toNat := by bv_omega
      rw [ih last,sum]
      exact clear_add (by bv_omega)
    · rfl

theorem align_zeros (turns : Nat) {a : Word} (zero : m a = 0) : clearRest (align turns dst nbytes m) a = 0 := by
  have kept : ∀ (n : Nat) (dst : Word) (m : Memory), m a = 0 → clear n dst m a = 0 := fun n dst m zero => by
    rw [clear]
    split_ifs
    · rfl
    · exact zero
  induction turns generalizing dst nbytes m with
  | zero => exact kept _ _ _ zero
  | succ turns ih =>
    rw [align]
    split_ifs
    · exact kept _ _ _ zero
    · exact ih (kept _ _ _ zero)
    · exact kept _ _ _ zero

theorem bzero_right : (∀ m, bzero dst nbytes m = clear nbytes.toNat dst m) ↔ (nbytes = 0 → ¬unaligned dst 4) := by
  by_cases none : nbytes = 0
  · subst none
    constructor
    · intro right _ odd
      have same := congrFun (right fun _ => 1) dst
      have zero : bzero dst 0 (fun _ => 1) dst = 0 := by
        rw [bzero_rest,align,if_pos odd,if_neg (by decide)]
        exact align_zeros 2 (if_pos (by simp [Covers]))
      rw [zero] at same
      have wrong : (0 : BitVec 8) = 1 := same.trans (if_neg (Nat.not_lt_zero _))
      exact absurd wrong (by decide)
    · intro even m
      rw [bzero_rest,align,if_neg (even rfl)]
      rfl
  · exact iff_of_true (fun m => bzero_rest.trans (align_clear 3 none)) fun zero => absurd zero none

theorem load_eq {a b : Word} : load m a = load m b ↔ ∀ i < 4, m (a + BitVec.ofNat 32 i) = m (b + BitVec.ofNat 32 i) := by
  have bytes : (∀ i < 4, m (a + BitVec.ofNat 32 i) = m (b + BitVec.ofNat 32 i)) ↔
      (m a).toNat = (m b).toNat ∧ (m (a + 1)).toNat = (m (b + 1)).toNat ∧ (m (a + 2)).toNat = (m (b + 2)).toNat ∧
        (m (a + 3)).toNat = (m (b + 3)).toNat := by
    simp only [toNat_inj]
    constructor
    · exact fun same => ⟨by simpa using same 0 (by decide),same 1 (by decide),same 2 (by decide),same 3 (by decide)⟩
    rintro ⟨zero,one,two,three⟩ i small
    rcases (by omega : i = 0 ∨ i = 1 ∨ i = 2 ∨ i = 3) with rfl | rfl | rfl | rfl
    · simpa using zero
    · exact one
    · exact two
    · exact three
  rw [bytes,load,load]
  omega

theorem compareBytes_compared : Compared m src dst n (compareBytes m n src dst) := by
  induction n generalizing src dst with
  | zero => exact ⟨iff_of_true rfl fun i small => absurd small (Nat.not_lt_zero i),fun i small =>
    absurd small (Nat.not_lt_zero i)⟩
  | succ n ih =>
    have next : ∀ (a : Word) (i : Nat), a + 1 + BitVec.ofNat 32 i = a + BitVec.ofNat 32 (i + 1) := fun a i => by
      rw [BitVec.add_assoc,Nat.add_comm,BitVec.ofNat_add]
      rfl
    rw [compareBytes]
    split_ifs with differ
    · have nonzero : ((m src).toNat : Int) - (m dst).toNat ≠ 0 := by
        rw [ne_eq,← toNat_inj] at differ
        omega
      refine ⟨iff_of_false nonzero fun all => differ (by simpa using all 0 n.succ_pos),fun i small before here => ?_⟩
      cases i with
      | zero => simp
      | succ i => exact absurd (by simpa using before 0 i.succ_pos) differ
    have head := not_not.mp differ
    obtain ⟨same,first⟩ := @ih (dst + 1) (src + 1)
    refine ⟨same.trans ⟨fun all i small => ?_,fun all i small => ?_⟩,fun i small before here => ?_⟩
    · cases i with
      | zero => simpa using head
      | succ i => simpa only [next] using all i (by omega)
    · simpa only [next] using all (i + 1) (by omega)
    cases i with
    | zero => exact absurd (by simpa using head) here
    | succ i =>
      simp only [next] at first
      exact first i (by omega) (fun j earlier => before (j + 1) (by omega)) here

theorem compareWords_compared (fits : n < 2^32) :
    Compared m src dst n (compareBytes m (compareWords m n src dst).1 (compareWords m n src dst).2.1
    (compareWords m n src dst).2.2) := by
  fun_induction compareWords m n src dst with
  | case1 | case3 => exact compareBytes_compared
  | case2 n s1 s2 many same ih =>
    obtain ⟨n,rfl⟩ := Nat.exists_eq_add_of_le many
    rw [Nat.add_sub_cancel_left] at ih ⊢
    have equal := load_eq.mp (not_not.mp same)
    obtain ⟨zero,first⟩ := ih (by omega)
    have next : ∀ (a : Word) (i : Nat), a + 4 + BitVec.ofNat 32 i = a + BitVec.ofNat 32 (4 + i) := fun a i => by
      rw [BitVec.add_assoc,BitVec.ofNat_add]
      rfl
    simp only [next] at zero first
    refine ⟨zero.trans ⟨fun all i small => ?_,fun all i small => all (4 + i) (by omega)⟩,fun i small before here => ?_⟩
    · by_cases early : i < 4
      · exact equal i early
      · simpa [Nat.add_sub_cancel' (Nat.not_lt.mp early)] using all (i - 4) (by omega)
    by_cases early : i < 4
    · exact absurd (equal i early) here
    obtain ⟨i,rfl⟩ := Nat.exists_eq_add_of_le (Nat.not_lt.mp early)
    exact first i (by omega) (fun j earlier => before (4 + j) (by omega)) here

/-- The calls do what they are to do, except that `bzero` of no byte at an unaligned address does not stop. -/
theorem primitives_right_iff (c : Call) : c.Right ↔ ∀ dst, c = .bzero dst 0 → ¬unaligned dst 4 := by
  cases c with
  | bcopy src dst nbytes => exact iff_of_true (fun apart _ => bcopy_move apart) nofun
  | bzero dst nbytes =>
    refine bzero_right.trans ⟨fun even other same => ?_,fun even none => even dst (none ▸ rfl)⟩
    cases same
    exact even rfl
  | bcmp m1 m2 nbytes =>
    refine iff_of_true (fun m => ?_) nofun
    rw [bcmp]
    split_ifs
    · exact compareWords_compared nbytes.isLt
    · exact compareBytes_compared

theorem bzero_nothing : ¬(Call.bzero 1 0).Right := fun right => by
  have even := bzero_right.mp right rfl
  exact absurd even (by decide)

end Retrobsd.BlockMemory

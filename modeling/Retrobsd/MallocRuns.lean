import Retrobsd.MallocCalls
import Retrobsd.Lib.Run

/-! Programs that call `malloc`, `free` and `realloc` of `malloc.c` in any order. -/
namespace Retrobsd.Malloc
open List Option
open Function
open Lib.Segments

structure Sound (w : World) (segs : List (Nat × Kind)) : Prop where
  arena : Arena w.state (Within w.granted) segs
  live : ∀ p b, w.live p = some b ↔ ∃ a, p = a + 1 ∧ (a,.live b) ∈ segs

structure Unused (w : World) : Prop where
  zero : w.state.memory w.state.allocs = 0
  below : w.state.allocs + 1 < w.state.brk
  bounded : w.state.brk ≤ space
  none : ∀ p, w.live p = none

variable {granted : Nat → Prop} {a : Nat} {l r segs : List (Nat × Kind)}

section
variable {m : Memory} {allocs top x : Nat} {k k' : Kind}

theorem Shown.between (shown : Shown m granted allocs top (l ++ (a,k) :: r)) (above : a < x)
    (below : x < Lib.Segments.first top r) :
    ∀ k', (x,k') ∉ l ++ (a,k) :: r := by
  intro k' member
  have whole := every_append.mp shown.every
  rcases mem_append.mp member with early | member
  · have low : x < a := (whole.1.bounds Fits.order early).2
    omega
  rcases mem_cons.mp member with same | late
  · exact absurd (Prod.mk.inj same).1 (by omega)
  have high := (whole.2.2.bounds Fits.order late).1
  omega

theorem Shown.unique (shown : Shown m granted allocs top segs) (one : (a,k) ∈ segs) (other : (a,k') ∈ segs) : k = k' := by
  rcases shown.every.apart Fits.order one other with ⟨_,same⟩ | ⟨e,⟨fits,reach⟩ | ⟨fits,reach⟩⟩
  · exact same
  · exact absurd fits.order (Nat.not_lt.mpr reach)
  · exact absurd fits.order (Nat.not_lt.mpr reach)

end

variable {s : State}

theorem words_spec {nbytes : Nat} (more : nbytes ≠ 0) (small : nbytes < 2^30) :
    2 ≤ words nbytes ∧ words nbytes ≤ 2^28 + 1 ∧ nbytes ≤ 4 * (words nbytes - 1) ∧
    words nbytes = (nbytes + WORD - 1) % 2^32 / WORD + 1 := by
  unfold words WORD
  omega

def Ready (w : World) : Prop := Unused w ∨ ∃ segs, Sound w segs

def Proper (w : World) : Op → Prop
  | .malloc nbytes _ => nbytes < 2^30
  | .free ap => (w.live ap).isSome = true
  | .realloc vp nbytes _ => (w.live vp).isSome = true ∧ nbytes < 2^30
  | .store ap i _ => (w.live ap).any (fun b => 4 * i < b.nbytes) = true

instance decidableProper (w : World) : ∀ op, Decidable (Proper w op)
  | .malloc nbytes _ => inferInstanceAs (Decidable (nbytes < 2^30))
  | .free _ | .store _ _ _ => inferInstanceAs (Decidable (_ = _))
  | .realloc _ _ _ => inferInstanceAs (Decidable (_ ∧ _))

/-- A search of `malloc` begins at a header of the arena, as `allock` has it. -/
def Meets (w : World) : Op → Prop
  | .malloc nbytes _ => nbytes = 0 ∨ w.state.begin.allock = true
  | _ => True

instance decidableMeets (w : World) : ∀ op, Decidable (Meets w op)
  | .malloc _ _ => inferInstanceAs (Decidable (_ ∨ _))
  | .free _ | .realloc _ _ _ | .store _ _ _ => isTrue trivial

/-- What the callers rely on: their blocks lie apart, in memory that was granted, and
have the words that were stored into them. -/
structure Consistent (w : World) : Prop where
  ready : Ready w
  apart : ∀ p b p' b', w.live p = some b → w.live p' = some b' → p ≠ p' → 4 * p + b.nbytes ≤ 4 * p' ∨ 4 * p' + b'.nbytes ≤ 4 * p
  inside : ∀ p b, w.live p = some b → ∀ x, p ≤ x → 4 * x < 4 * p + b.nbytes → Within w.granted x
  data : ∀ p b i v, w.live p = some b → b.data i = some v → w.state.memory (p + i) = v

section
variable {w : World} {b : Block}

theorem Ready.consistent (ready : Ready w) : Consistent w := by
  refine ⟨ready,?_,?_,?_⟩ <;> rcases ready with unused | ⟨segs,sound⟩
  · intro p b p' b' live
    rw [unused.none] at live
    cases live
  · intro p b p' b' live live' other
    obtain ⟨a,rfl,member⟩ := (sound.live p b).mp live
    obtain ⟨a',rfl,member'⟩ := (sound.live p' b').mp live'
    rcases sound.arena.shown.every.apart Fits.order member member' with ⟨rfl,_⟩ | ⟨e,⟨fits,reach⟩ | ⟨fits,reach⟩⟩
    · exact absurd rfl other
    · have size := fits.size b rfl
      have order := fits.order
      exact .inl (by omega)
    · have size := fits.size b' rfl
      have order := fits.order
      exact .inr (by omega)
  · intro p b live
    rw [unused.none] at live
    cases live
  · intro p b live x above below
    obtain ⟨a,rfl,member⟩ := (sound.live p b).mp live
    obtain ⟨e,fits⟩ := sound.arena.shown.every.mem member
    have size := fits.size b rfl
    have order := fits.order
    exact fits.inside x (by simp) (by omega) (by omega)
  · intro p b i v live
    rw [unused.none] at live
    cases live
  · intro p b i v live stored
    obtain ⟨a,rfl,member⟩ := (sound.live p b).mp live
    obtain ⟨e,fits⟩ := sound.arena.shown.every.mem member
    exact (fits.data b i v rfl stored).2

variable {nbytes : Nat}

theorem moved_other {s' : State} {q onw x : Nat} (more : nbytes ≠ 0) (small : nbytes < 2^30)
    (outside : x ≤ q ∨ q + words nbytes ≤ x) :
    (if q = a then s' else s'.move (a + 1) (q + 1) nbytes onw).memory x = s'.memory x := by
  obtain ⟨_,_,_,size⟩ := words_spec more small
  split_ifs with same
  · rfl
  unfold State.move
  dsimp only
  generalize (nbytes + WORD - 1) % 2^32 / WORD = c at size
  generalize shorter : (if c < onw then c else onw) = n
  have bound : n ≤ c := by
    rw [← shorter]
    split_ifs <;> omega
  have copied : Lib.Copying.copyUp s'.memory (a + 1) (q + 1) n x = s'.memory x := Lib.Copying.copyUp_other (by omega)
  split_ifs with taken
  · rw [update_of_ne (by omega),copied]
  · exact copied

section
variable {t : State} {p q e : Nat} {grants : Grants} {regions : List (Nat × Nat)} (busy : testbusy (s.memory (p - 1)) = true)
include busy

end

end

def fresh : World where
  state := ⟨fun _ => 0,100,0,0,0,1024⟩
  live := fun _ => none
  granted := []

end Retrobsd.Malloc

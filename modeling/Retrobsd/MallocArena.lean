import Retrobsd.Malloc
import Retrobsd.Lib.Segments

/-! The arena of `malloc` as a list of segments: what its searches leave of it, and what
they find. -/
namespace Retrobsd.Malloc
open List
open Function
open Lib.Segments

inductive Kind where
  | free
  | gap
  | live (b : Block)

def Kind.busy : Kind → Nat
  | .free => 0
  | _ => 1

/-- A segment from the header at `a` to the next header at `e`. -/
structure Fits (m : Memory) (granted : Nat → Prop) (a : Nat) (k : Kind) (e : Nat) : Prop where
  order : a < e
  word : m a = 4 * e + k.busy
  inside : (∀ b, k ≠ .gap → a < b → b < e → granted b)
  size : ∀ b, k = .live b → b.nbytes ≤ 4 * (e - (a + 1))
  data : ∀ b i v, k = .live b → b.data i = some v → 4 * i < b.nbytes ∧ m (a + 1 + i) = v

structure Shown (m : Memory) (granted : Nat → Prop) (allocs top : Nat) (segs : List (Nat × Kind)) : Prop where
  every : Every (Fits m granted) top segs
  start : ∃ rest, segs = (allocs,.gap) :: rest
  around : m top = 4 * allocs + 1
  headers : ∀ a k, (a,k) ∈ segs → a = allocs ∨ a = allocs + 1 ∨ granted a
  topmost : top = allocs + 1 ∨ granted top

/-- What a search leaves: free segments are joined, and only their headers are written. -/
structure Swept (m m' : Memory) (segs segs' : List (Nat × Kind)) : Prop where
  fewer : ∀ s ∈ segs', s ∈ segs
  live : ∀ a b, (a,.live b) ∈ segs → (a,.live b) ∈ segs'
  kept : ∀ x, (∀ k, (x,k) ∉ segs) → m' x = m x
  length : segs'.length ≤ segs.length

section
variable {m m' : Memory} {granted : Nat → Prop} {allocs top a b p nw : Nat} {k : Kind} {segs segs' l r : List (Nat × Kind)}

theorem Swept.refl : Swept m m segs segs := ⟨fun _ => id,fun _ _ => id,fun _ _ => rfl,Nat.le_refl _⟩

theorem Swept.trans {m'' : Memory} {segs'' : List (Nat × Kind)} (one : Swept m m' segs segs')
    (other : Swept m' m'' segs' segs'') :
    Swept m m'' segs segs'' := by
  refine ⟨fun s member => one.fewer s (other.fewer s member),fun a b member => other.live a b (one.live a b member),
    fun x absent => ?_,other.length.trans one.length⟩
  exact (other.kept x fun k member => absent k (one.fewer _ member)).trans (one.kept x absent)

theorem Fits.congr {e : Nat} (fits : Fits m granted a k e) (same : ∀ x, a ≤ x → x < e → m' x = m x) : Fits m' granted a k e := by
  refine ⟨fits.order,(same a (Nat.le_refl a) fits.order).trans fits.word,fits.inside,fits.size,fun b i v live stored => ?_⟩
  obtain ⟨within,held⟩ := fits.data b i v live stored
  have fit := fits.size b live
  exact ⟨within,(same _ (by omega) (by omega)).trans held⟩

theorem every_congr (every : Every (Fits m granted) top l) (same : ∀ x, first top l ≤ x → x < top → m' x = m x) :
    Every (Fits m' granted) top l :=
  every.imp Fits.order fun _ _ _ _ from_ to_ fits => fits.congr fun x above below =>
  same x (from_.trans above) (below.trans_le to_)

theorem target_word (e : Nat) (k : Kind) : target (4 * e + k.busy) = e := by
  unfold target
  cases k <;> simp only [Kind.busy] <;> omega

theorem Shown.first (shown : Shown m granted allocs top segs) : first top segs = allocs := by
  obtain ⟨rest,rfl⟩ := shown.start
  rfl

theorem Shown.above (shown : Shown m granted allocs top (l ++ (a,.free) :: r)) : allocs < a := by
  obtain ⟨rest,start⟩ := shown.start
  cases l with
  | nil => cases start
  | cons s l =>
    obtain ⟨rfl,rfl⟩ := List.cons.inj start
    have member : (a,Kind.free) ∈ l ++ (a,.free) :: r := mem_append_right _ mem_cons_self
    exact (shown.every.1).order.trans_le (shown.every.2.bounds Fits.order member).1

theorem Shown.later (shown : Shown m granted allocs top (l ++ (a,k) :: r)) (other : k ≠ .gap) : l ≠ [] := by
  rintro rfl
  obtain ⟨rest,start⟩ := shown.start
  cases start
  exact other rfl

theorem Shown.replace {mid : List (Nat × Kind)} (shown : Shown m granted allocs top (l ++ (mid ++ r))) (mid' : List (Nat × Kind))
    (later : l ≠ [])
    (same : ∀ x, x < Lib.Segments.first (Lib.Segments.first top r) mid ∨ Lib.Segments.first top r ≤ x → m' x = m x)
    (starts : Lib.Segments.first (Lib.Segments.first top r) mid' = Lib.Segments.first (Lib.Segments.first top r) mid)
    (every : Every (Fits m' granted) (Lib.Segments.first top r) mid')
    (headers : ∀ a k, (a,k) ∈ mid' → a = allocs ∨ a = allocs + 1 ∨ granted a) :
    Shown m' granted allocs top (l ++ (mid' ++ r)) := by
  have whole := shown.every
  rw [every_append,every_append,first_append] at whole
  obtain ⟨before,_,rest⟩ := whole
  refine ⟨?_,?_,?_,fun a k member => ?_,shown.topmost⟩
  · rw [every_append,every_append,first_append,starts]
    exact ⟨every_congr before fun x _ below => same x (.inl below),every,every_congr rest fun x above _ => same x (.inr above)⟩
  · obtain ⟨s,l,rfl⟩ := exists_cons_of_ne_nil later
    obtain ⟨_,start⟩ := shown.start
    obtain ⟨rfl,_⟩ := List.cons.inj start
    exact ⟨_,rfl⟩
  · rw [same top (.inr (rest.first_le Fits.order))]
    exact shown.around
  · rcases mem_append.mp member with early | member
    · exact shown.headers a k (mem_append_left _ early)
    rcases mem_append.mp member with new | late
    · exact headers a k new
    · exact shown.headers a k (mem_append_right _ (mem_append_right _ late))

theorem Shown.chain (shown : Shown m granted allocs top (l ++ r)) :
    Every (Fits m granted) top r := (every_append.mp shown.every).2

variable {fuel t temp : Nat}

structure Found (granted : Nat → Prop) (allocs top nw : Nat) (m : Memory) (segs : List (Nat × Kind))
    (m' : Memory) (a : Nat) : Prop where
  room : ∃ l r, Shown m' granted allocs top (l ++ (a,.free) :: r) ∧ Swept m m' segs (l ++ (a,.free) :: r) ∧
    fits a nw (Lib.Segments.first top r) = true

end

end Retrobsd.Malloc

import Retrobsd.Lib.Indices

/-! Terminated texts that are read from a stream and copied in pieces, each of which ends
with the text or where its space does. -/
namespace Retrobsd.Lib.Pieces
open List

variable {α : Type}

def skip (n : Nat) (src : Nat → α) : Nat → α := fun i => src (n + i)

def Spells (src : Nat → α) : List α → Prop
  | [] => True
  | a :: text => src 0 = a ∧ Spells (skip 1 src) text

def Terminated (stop : α) (text : List α) : Prop := ∃ s, text = s ++ [stop] ∧ stop ∉ s

theorem skip_zero (src : Nat → α) : skip 0 src = src := funext fun i => by simp [skip]

theorem skip_skip (m n : Nat) (src : Nat → α) : skip m (skip n src) = skip (n + m) src :=
  funext fun i => by simp [skip,Nat.add_assoc]

theorem spells_iff : Spells src text ↔ ∀ (i : Nat) (inside : i < text.length), src i = text[i] := by
  induction text generalizing src with
  | nil => simp [Spells]
  | cons a text ih =>
    rw [Spells,ih]
    constructor
    · rintro ⟨head,rest⟩ (_ | i) inside
      · exact head
      have next := rest i (by simpa using inside)
      rwa [skip,Nat.add_comm] at next
    intro all
    refine ⟨all 0 (by simp),fun i inside => ?_⟩
    rw [skip,Nat.add_comm]
    exact all (i + 1) (by simpa using inside)

theorem Terminated.ne_nil (terminated : Terminated stop text) : text ≠ [] := by
  obtain ⟨s,rfl,-⟩ := terminated
  simp

theorem Terminated.append (front : List α) (fresh : stop ∉ front) (terminated : Terminated stop text) :
    Terminated stop (front ++ text) := by
  obtain ⟨s,rfl,rest⟩ := terminated
  exact ⟨front ++ s,by simp,by simp [fresh,rest]⟩

theorem spells_append {front : List α} :
    Spells src (front ++ text) ↔ Spells src front ∧ Spells (skip front.length src) text := by
  induction front generalizing src with
  | nil => simp [Spells,skip_zero]
  | cons a front ih =>
    rw [cons_append,Spells,ih,skip_skip,Spells,and_assoc,length_cons,Nat.add_comm]

theorem spells_congr {other : Nat → α} (same : ∀ i < text.length, src i = other i) : Spells src text ↔ Spells other text := by
  rw [spells_iff,spells_iff]
  exact forall₂_congr fun i inside => by rw [same i inside]

theorem Terminated.longer {front : List α} (terminated : Terminated stop text) (spells : Spells src text)
    (begins : Spells src front) (fresh : stop ∉ front) : front.length < text.length := by
  obtain ⟨s,rfl,-⟩ := terminated
  by_contra short
  have last : s.length < front.length := by simp at short; omega
  have stops := spells_iff.mp spells s.length (by simp)
  rw [spells_iff.mp begins s.length last] at stops
  apply fresh
  rw [mem_iff_getElem]
  exact ⟨s.length,last,by simpa using stops⟩

theorem spells_unique {other : List α} (spells : Spells src text) (again : Spells src other)
    (same : text.length = other.length) :
    text = other := by
  apply ext_getElem same
  intro i left right
  rw [← spells_iff.mp spells i left,← spells_iff.mp again i right]

theorem Spells.drop {n : Nat} (short : n ≤ text.length) (spells : Spells src text) : Spells (skip n src) (text.drop n) := by
  have split := take_append_drop n text
  rw [← split,spells_append,length_take,Nat.min_eq_left short] at spells
  exact spells.2

theorem Terminated.drop {n : Nat} (short : n < text.length) (terminated : Terminated stop text) :
    Terminated stop (text.drop n) := by
  obtain ⟨s,rfl,fresh⟩ := terminated
  have inside : n ≤ s.length := by simpa [Nat.lt_succ_iff] using short
  exact ⟨s.drop n,by rw [drop_append_of_le_length inside],fun member => fresh (mem_of_mem_drop member)⟩

theorem Terminated.length_le {other : List α} (terminated : Terminated stop text) (spells : Spells src text)
    (ends : Terminated stop other) (again : Spells src other) : other.length ≤ text.length := by
  obtain ⟨s,rfl,fresh⟩ := ends
  have longer := terminated.longer spells (spells_append.mp again).1 fresh
  rw [length_append]
  exact longer

theorem Terminated.unique {other : List α} (terminated : Terminated stop text) (spells : Spells src text)
    (ends : Terminated stop other) (again : Spells src other) : text = other :=
  spells_unique spells again (Nat.le_antisymm (ends.length_le again terminated spells) (terminated.length_le spells ends again))

variable [DecidableEq α]

/-- What is copied where there is space for so many elements, and whether that ends it. -/
def piece (stop : α) (src : Nat → α) : Nat → List α × Bool
  | 0 => ([],false)
  | space + 1 =>
    if src 0 = stop then ([stop],true)
    else
      let (copied,ended) := piece stop (fun i => src (i + 1)) space
      (src 0 :: copied,ended)

variable {stop : α} {src : Nat → α} {text : List α}

theorem piece_spec (stop : α) (src : Nat → α) (space : Nat) :
    Spells src (piece stop src space).1 ∧ (piece stop src space).1.length ≤ space ∧
      ((piece stop src space).2 = true ∧ Terminated stop (piece stop src space).1 ∨
        (piece stop src space).2 = false ∧ (piece stop src space).1.length = space ∧ stop ∉ (piece stop src space).1) := by
  induction space generalizing src with
  | zero => simp [piece,Spells]
  | succ space ih =>
    unfold piece
    split_ifs with head
    · exact ⟨⟨head,trivial⟩,by simp,.inl ⟨rfl,[],rfl,by simp⟩⟩
    have same : (fun i => src (i + 1)) = skip 1 src := funext fun i => by rw [skip,Nat.add_comm]
    rw [same]
    obtain ⟨spells,short,result⟩ := ih (skip 1 src)
    refine ⟨⟨rfl,spells⟩,by simpa using short,?_⟩
    obtain ⟨ended,terminated⟩ | ⟨ended,full,fresh⟩ := result
    · exact .inl ⟨ended,terminated.append [src 0] (by simpa using Ne.symm head)⟩
    · exact .inr ⟨ended,by simpa using full,by simp [fresh,Ne.symm head]⟩

theorem piece_text (space : Nat) (spells : Spells src text) (terminated : Terminated stop text) :
    piece stop src space = (text.take space,decide (text.length ≤ space)) := by
  obtain ⟨begins,short,⟨ended,ends⟩ | ⟨ended,full,fresh⟩⟩ := piece_spec stop src space
  · have whole := terminated.unique spells ends begins
    rw [← whole] at short
    ext1
    · rw [← whole,take_of_length_le short]
    · rw [ended,decide_eq_true short]
  have longer := terminated.longer spells begins fresh
  rw [full] at longer
  have split := take_append_drop space text
  rw [← split,spells_append] at spells
  ext1
  · exact spells_unique begins spells.1 (by rw [full,length_take,Nat.min_eq_left (Nat.le_of_lt longer)])
  · rw [ended,decide_eq_false (Nat.not_le.mpr longer)]

theorem piece_congr {other : Nat → α} (space : Nat) (same : ∀ i < space, src i = other i) :
    piece stop src space = piece stop other space := by
  induction space generalizing src other with
  | zero => rfl
  | succ space ih =>
    unfold piece
    rw [same 0 (by omega),ih fun i small => same (i + 1) (by omega)]

end Retrobsd.Lib.Pieces

import Retrobsd.ProcessTable

/-! The search of `newproc` for a number that nobody bears. A pass over the processes
raises the candidate past the numbers it meets and lowers the bound up to which the
numbers after it are known to be free. -/
namespace Retrobsd.ProcessTable
open List

variable {ids : List (Int × Int)}

def Taken (ids : List (Int × Int)) (m : Int) : Prop := ∃ i ∈ ids, i.1 = m ∨ i.2 = m

def Neighbours (ids : List (Int × Int)) (m : Int) : Prop := ∃ i ∈ ids, i.1 = m ∧ i.2 = m + 1 ∨ i.2 = m ∧ i.1 = m + 1

def wrapped (m : Int) : Int := if m ≥ 30000 then 100 else m

/-- The candidates: the first, and after one that is taken the next. -/
inductive Reached (ids : List (Int × Int)) (first : Int) : Int → Prop where
  | start : Reached ids first (wrapped first)
  | next {m : Int} (before : Reached ids first m) (taken : Taken ids m) : Reached ids first (wrapped (m + 1))

variable {m : Int}

theorem Reached.only {first : Int} (unused : ¬ Taken ids (wrapped first)) (reached : Reached ids first m) :
    m = wrapped first := by
  induction reached with
  | start => rfl
  | next _ taken ih => exact absurd (ih ▸ taken) unused

def Climbs (ids : List (Int × Int)) (m k : Int) : Prop := ∀ j, m ≤ j → j < k → Taken ids j

theorem Climbs.cons {k : Int} (taken : Taken ids m) (climbs : Climbs ids (m + 1) k) : Climbs ids m k := by
  intro j low high
  rcases eq_or_lt_of_le low with rfl | above
  · exact taken
  · exact climbs j above high

theorem Reached.climb {first : Int} (k : Nat) (reached : Reached ids first m) (climbs : Climbs ids m (m + k))
    (small : m + k ≤ 30000)
    (below : m < 30000) : Reached ids first (wrapped (m + k)) := by
  induction k with
  | zero =>
    have same : wrapped (m + (0 : Nat)) = m := by simp [wrapped,below]
    rwa [same]
  | succ k ih =>
    have before := ih (fun j low high => climbs j low (by omega)) (by omega)
    have inside : wrapped (m + k) = m + k := if_neg (by omega)
    rw [inside] at before
    have next := before.next (climbs _ (by omega) (by omega))
    rwa [show m + ((k + 1 : Nat) : Int) = m + k + 1 by push_cast; omega]

/-- No number of these processes is from `m` up to `c`. -/
def Free (seen : List (Int × Int)) (m c : Int) : Prop := ∀ i ∈ seen, ¬ (m ≤ i.1 ∧ i.1 < c) ∧ ¬ (m ≤ i.2 ∧ i.2 < c)

variable {c : Int}

theorem Free.mono {seen : List (Int × Int)} {k d : Int} (free : Free seen m c) (low : m ≤ k) (high : d ≤ c) : Free seen k d := by
  intro i member
  obtain ⟨one,two⟩ := free i member
  exact ⟨by omega,by omega⟩

structure Scanned (ids : List (Int × Int)) (m k c : Int) (again : Bool) : Prop where
  climbs : Climbs ids m k
  high : k ≤ 30000
  bound : c ≤ 30000
  found : again = false → m ≤ k ∧ k < c ∧ Free ids k c
  retries : again = true → m < k ∧ c ≤ k

theorem lowered {pid pgrp : Int} (below : m < c) (one : pid ≠ m) (two : pgrp ≠ m) :
    ∃ d, (if pgrp > m ∧ (if pid > m ∧ c > pid then pid else c) > pgrp then pgrp else if pid > m ∧ c > pid then pid else c) = d ∧
      m < d ∧ d ≤ c ∧ Free [(pid,pgrp)] m d := by
  refine ⟨_,rfl,?_,?_,?_⟩
  · split_ifs <;> omega
  · split_ifs <;> omega
  intro i member
  rw [mem_singleton.mp member]
  dsimp only
  split_ifs <;> constructor <;> omega

theorem Free.snoc {seen : List (Int × Int)} {i : Int × Int} (free : Free seen m c) (here : Free [i] m c) :
    Free (seen ++ [i]) m c := by
  intro j member
  rcases mem_append.mp member with old | new
  · exact free j old
  · exact here j new

theorem scan_spec (rest seen : List (Int × Int)) (below : m < c) (bound : c ≤ 30000) (free : Free seen m c)
    (apart : ∀ k, m ≤ k → k < 30000 → Climbs (seen ++ rest) m k → ¬ Neighbours (seen ++ rest) k) :
    Scanned (seen ++ rest) m (scan rest m c).1 (scan rest m c).2.1 (scan rest m c).2.2 := by
  induction rest generalizing seen m c with
  | nil =>
    rw [append_nil]
    have high : m ≤ 30000 := by omega
    exact ⟨fun j low less => absurd low (not_le.mpr less),high,bound,fun _ => ⟨le_refl m,below,free⟩,fun again =>
      absurd again (by simp [scan])⟩
  | cons i rest ih =>
    obtain ⟨pid,pgrp⟩ := i
    have shape : seen ++ (pid,pgrp) :: rest = (seen ++ [(pid,pgrp)]) ++ rest := by simp
    have member : (pid,pgrp) ∈ seen ++ (pid,pgrp) :: rest := by simp
    by_cases used : pid = m ∨ pgrp = m
    · have taken : Taken (seen ++ (pid,pgrp) :: rest) m := ⟨_,member,used⟩
      by_cases passes : m + 1 ≥ c
      · have ended : scan ((pid,pgrp) :: rest) m c = (m + 1,c,true) := by simp [scan,used,passes]
        rw [ended]
        have climbs : Climbs (seen ++ (pid,pgrp) :: rest) m (m + 1) := Climbs.cons taken fun j low high =>
          absurd low (not_le.mpr high)
        have high : m + 1 ≤ 30000 := by omega
        exact ⟨climbs,high,bound,fun again => absurd again (by simp),fun _ => ⟨Int.lt_succ m,passes⟩⟩
      have lonely := apart m (le_refl m) (by omega) fun j low high => absurd low (by omega)
      have one : pid ≠ m + 1 := fun same =>
        lonely ⟨_,member,Or.inr ⟨used.resolve_left (by simp only [same]; omega),same⟩⟩
      have two : pgrp ≠ m + 1 := fun same =>
        lonely ⟨_,member,Or.inl ⟨used.resolve_right (by simp only [same]; omega),same⟩⟩
      obtain ⟨d,named,above,lower,here⟩ := @lowered (m + 1) c pid pgrp (by omega) one two
      have goes : scan ((pid,pgrp) :: rest) m c = scan rest (m + 1) d := by
        rw [← named]
        simp [scan,used,passes]
      rw [goes]
      rw [shape] at taken apart ⊢
      have later := ih (seen ++ [(pid,pgrp)]) above (by omega) ((free.mono (by omega) lower).snoc here)
        fun k low high climbs => apart k (by omega) high (climbs.cons taken)
      exact ⟨later.climbs.cons taken,later.high,later.bound,fun again =>
        ⟨by have := (later.found again).1; omega,(later.found again).2⟩,
        fun again => ⟨by have := (later.retries again).1; omega,(later.retries again).2⟩⟩
    · obtain ⟨d,named,above,lower,here⟩ := @lowered m c pid pgrp below (fun same => used (Or.inl same))
        fun same => used (Or.inr same)
      have goes : scan ((pid,pgrp) :: rest) m c = scan rest m d := by
        rw [← named]
        simp [scan,used]
      rw [goes]
      rw [shape] at apart ⊢
      exact ih (seen ++ [(pid,pgrp)]) above (by omega) ((free.mono (le_refl m) lower).snoc here) apart

def numbers (ids : List (Int × Int)) : List Int := ids.flatMap fun i => [i.1,i.2]

def rank (ids : List (Int × Int)) (m : Int) : Nat := (numbers ids).countP (m ≤ ·)

theorem numbers_length (ids : List (Int × Int)) : (numbers ids).length = 2 * ids.length := by
  induction ids with
  | nil => rfl
  | cons i ids ih =>
    rw [numbers,flatMap_cons,length_append,← numbers,ih]
    simp only [length_cons,length_nil]
    omega

theorem rank_le (ids : List (Int × Int)) (m : Int) : rank ids m ≤ 2 * ids.length := by
  rw [← numbers_length]
  exact countP_le_length

theorem countP_succ_lt {l : List Int} (member : m ∈ l) : l.countP (m + 1 ≤ ·) < l.countP (m ≤ ·) := by
  induction l with
  | nil => cases member
  | cons k l ih =>
    have fewer : l.countP (m + 1 ≤ ·) ≤ l.countP (m ≤ ·) := by
      refine countP_mono_left fun j _ high => ?_
      simp only [decide_eq_true_eq] at high ⊢
      omega
    rw [countP_cons,countP_cons]
    simp only [decide_eq_true_eq]
    rcases mem_cons.mp member with rfl | later
    · split_ifs <;> omega
    have less := ih later
    split_ifs <;> omega

theorem rank_succ (taken : Taken ids m) : rank ids (m + 1) < rank ids m := by
  obtain ⟨i,member,borne⟩ := taken
  refine countP_succ_lt (mem_flatMap.mpr ⟨i,member,?_⟩)
  simpa [eq_comm] using borne

theorem Climbs.rank (k : Nat) (climbs : Climbs ids m (m + k)) : rank ids (m + k) + k ≤ rank ids m := by
  induction k with
  | zero => simp
  | succ k ih =>
    have before := ih fun j low high => climbs j low (by omega)
    have last := rank_succ (climbs (m + k) (by omega) (by omega))
    rw [show m + ((k + 1 : Nat) : Int) = m + k + 1 by push_cast; omega]
    omega

structure Chosen (ids : List (Int × Int)) (m c : Int) : Prop where
  below : m < c
  bound : c ≤ 30000
  free : Free ids m c

def Enough (ids : List (Int × Int)) (m : Int) (turns : Nat) : Prop :=
  m + rank ids m < 30000 ∧ rank ids m < turns ∨ rank ids m + 2 * ids.length + 2 ≤ turns

theorem Enough.wrapped {turns : Nat} (enough : Enough ids m turns) (room : 2 * ids.length + 100 < 30000) :
    Enough ids (wrapped m) turns := by
  rw [ProcessTable.wrapped]
  split_ifs with wraps
  · have most := rank_le ids 100
    refine Or.inl ⟨by omega,?_⟩
    rcases enough with ⟨low,_⟩ | long
    · omega
    · omega
  · exact enough

theorem retry_spec {first : Int} (room : 2 * ids.length + 100 < 30000) (apart : ∀ m, Reached ids first m → ¬ Neighbours ids m)
    (turns : Nat) (reached : Reached ids first (wrapped m)) (checks : c ≤ m ∨ 30000 ≤ m) (enough : Enough ids m turns) :
    ∃ k d, retry ids turns m c = some (k,d) ∧ Chosen ids k d := by
  induction turns generalizing m c with
  | zero =>
    rcases enough with ⟨_,none⟩ | none
    · exact absurd none (by simp)
    · exact absurd none (by simp)
  | succ turns ih =>
    have less : wrapped m < 30000 := by
      rw [wrapped]
      split_ifs <;> omega
    have again := enough.wrapped room
    have scans : (if m ≥ 30000 then 100 else m) ≥ (if m ≥ 30000 then 0 else c) := by
      split_ifs <;> omega
    obtain ⟨k,d,more,ended⟩ : ∃ k d more, scan ids (wrapped m) 30000 = (k,d,more) := ⟨_,_,_,rfl⟩
    have scanned := scan_spec (m := wrapped m) (c := 30000) ids [] less (le_refl _)
      (fun i member => by cases member) fun j low high climbs => by
      refine apart j ?_
      obtain ⟨up,rfl⟩ : ∃ up : Nat, j = wrapped m + up := ⟨(j - wrapped m).toNat,by omega⟩
      have climbed := reached.climb up climbs (by omega) less
      rwa [show wrapped (wrapped m + up) = wrapped m + up from if_neg (by omega)] at climbed
    rw [nil_append,ended] at scanned
    change scan ids (if m ≥ 30000 then 100 else m) 30000 = (k,d,more) at ended
    rw [retry]
    simp only [scans,if_true,ended]
    cases more with
    | false =>
      obtain ⟨_,below,free⟩ := scanned.found rfl
      exact ⟨k,d,rfl,below,scanned.bound,free⟩
    | true =>
      obtain ⟨above,passed⟩ := scanned.retries rfl
      obtain ⟨up,rfl⟩ : ∃ up : Nat, k = wrapped m + up := ⟨(k - wrapped m).toNat,by omega⟩
      have used := Climbs.rank up scanned.climbs
      refine ih (reached.climb up scanned.climbs scanned.high less) (Or.inl passed) ?_
      rcases again with ⟨low,many⟩ | long
      · exact Or.inl ⟨by omega,by omega⟩
      · exact Or.inr (by omega)

theorem retry_chosen {mpid pidchecked : Int} (room : 2 * ids.length + 100 < 30000)
    (apart : ∀ m, Reached ids mpid m → ¬ Neighbours ids m) (scans : pidchecked ≤ mpid ∨ 30000 ≤ mpid) :
    ∃ k d, retry ids (4 * ids.length + 4) mpid pidchecked = some (k,d) ∧ Chosen ids k d := by
  have most := rank_le ids mpid
  exact retry_spec room apart _ Reached.start scans (Or.inr (by omega))

/-- A process that bears a number and the next one is seen only once in a pass. -/
example : retry [(106,105)] 64 105 0 = some (106,30000) := by decide

end Retrobsd.ProcessTable

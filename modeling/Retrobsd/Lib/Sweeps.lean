import Retrobsd.Lib.Run

/-! A list that is gone through again and again, as long as a turn makes progress. Progress is counted;
an item that has made some is done for good, so the turns end. -/
namespace Retrobsd.Lib.Sweeps
open Lib.Run List

variable {σ τ ι κ ε : Type} {step : σ → ι → Except ε σ} {count : σ → Nat} {loops : ε}

def sweeps (step : σ → ι → Except ε σ) (count : σ → Nat) (loops : ε) (xs : List ι) : Nat → σ → Except ε σ
  | 0,_ => .error loops
  | n + 1,s => match run step s xs with
    | .error e => .error e
    | .ok t => if count t = count s then .ok t else sweeps step count loops xs n t

/-- Every step that the turns take is allowed in the state that it meets. -/
def AlongSweeps (step : σ → ι → Except ε σ) (count : σ → Nat) (allowed : σ → ι → Prop) (xs : List ι) : Nat → σ → Prop
  | 0,_ => True
  | n + 1,s => Along step allowed s xs ∧ ∀ t, run step s xs = .ok t → count t ≠ count s → AlongSweeps step count allowed xs n t

variable {n : Nat}

theorem sweeps_fuel {xs : List ι} {k : Nat} {s t : σ} (ended : sweeps step count loops xs n s = .ok t)
    (enough : sweeps step count loops xs k s ≠ .error loops) : sweeps step count loops xs k s = .ok t := by
  induction n generalizing s k with
  | zero => cases ended
  | succ n ih =>
    cases k with
    | zero => exact absurd rfl enough
    | succ k =>
      rw [sweeps] at ended enough ⊢
      split at ended
      · cases ended
      next u ran =>
        rw [ran] at enough
        dsimp only at enough ⊢
        split at ended
        next still => rw [if_pos still]; exact ended
        next moved =>
          rw [if_neg moved] at enough ⊢
          exact ih ended enough

variable {inv : σ → Prop} {xs : List ι}

section
variable (preserved : ∀ s, ∀ x ∈ xs, ∀ t, inv s → step s x = .ok t → inv t)
include preserved

theorem AlongSweeps.imp_of {allowed weaker : σ → ι → Prop}
    (implied : ∀ s, ∀ x ∈ xs, inv s → allowed s x → weaker s x) {s : σ} (start : inv s)
    (along : AlongSweeps step count allowed xs n s) : AlongSweeps step count weaker xs n s := by
  induction n generalizing s with
  | zero => trivial
  | succ n ih =>
    have both : Along step (fun s x => x ∈ xs ∧ allowed s x) s xs := (Along.of_forall s fun x member => member).and along.1
    refine ⟨?_,fun t ran moved => ih ?_ (along.2 t ran moved)⟩
    · exact Along.of_invariant (fun s x here now => implied s x now.1 here now.2)
        (fun s x t here now done => preserved s x now.1 t here done) xs s start both
    · exact run_invariant (fun s x t here now done => preserved s x now.1 t here done) xs s t start both ran

theorem sweeps_invariant {s t : σ} (start : inv s)
    (ended : sweeps step count loops xs n s = .ok t) : inv t := by
  have turn : ∀ s t, inv s → run step s xs = .ok t → inv t := fun s t start ran =>
    run_invariant (fun s x t here member done => preserved s x member t here done) xs s t start
    (Along.of_forall s fun x member => member) ran
  induction n generalizing s with
  | zero => cases ended
  | succ n ih =>
    rw [sweeps] at ended
    split at ended
    · cases ended
    next u ran =>
      split at ended
      · cases ended
        exact turn s _ start ran
      · exact ih (turn s u start ran) ended

theorem sweeps_last {s t : σ} (start : inv s)
    (ended : sweeps step count loops xs n s = .ok t) : ∃ u, inv u ∧ run step u xs = .ok t ∧ count t = count u := by
  induction n generalizing s with
  | zero => cases ended
  | succ n ih =>
    rw [sweeps] at ended
    split at ended
    · cases ended
    next u ran =>
      split at ended
      next still =>
        cases ended
        exact ⟨s,start,ran,still⟩
      next =>
        refine ih ?_ ended
        exact run_invariant (fun s x t here member done => preserved s x member t here done) xs s u start
          (Along.of_forall s fun x member => member) ran

end

section
variable {done : ι → σ → Prop}

/-- What a step does for the items: those that are done stay so, and one that makes progress was not done, and is then. -/
structure Moves (step : σ → ι → Except ε σ) (count : σ → Nat) (inv : σ → Prop) (done : ι → σ → Prop) (xs : List ι) : Prop where
  keeps : ∀ s, ∀ x ∈ xs, ∀ t, inv s → step s x = .ok t → inv t ∧ count s ≤ count t ∧ ∀ y, done y s → done y t
  finishes : ∀ s, ∀ x ∈ xs, ∀ t, inv s → step s x = .ok t → count t ≠ count s → ¬ done x s ∧ done x t

variable {s t : σ}

theorem Moves.mono {ys : List ι} (moves : Moves step count inv done xs) (inside : ∀ y ∈ ys, y ∈ xs) :
    Moves step count inv done ys where
  keeps s y member := moves.keeps s y (inside y member)
  finishes s y member := moves.finishes s y (inside y member)

theorem Moves.turn (moves : Moves step count inv done xs) (start : inv s) (ran : run step s xs = .ok t) :
    (inv t ∧ count s ≤ count t ∧ ∀ y, done y s → done y t) ∧ (count t ≠ count s → ∃ x ∈ xs, ¬ done x s ∧ done x t) := by
  induction xs generalizing s with
  | nil =>
    cases ran
    exact ⟨⟨start,Nat.le_refl _,fun _ now => now⟩,fun moved => absurd rfl moved⟩
  | cons x xs ih =>
    obtain ⟨u,first,ran⟩ := of_run_cons ran
    obtain ⟨here,more,stays⟩ := moves.keeps s x mem_cons_self u start first
    obtain ⟨⟨last,most,stay⟩,finished⟩ := ih (moves.mono fun y member => mem_cons_of_mem _ member) here ran
    refine ⟨⟨last,Nat.le_trans more most,fun y now => stay y (stays y now)⟩,fun moved => ?_⟩
    by_cases still : count u = count s
    · obtain ⟨y,member,undone,made⟩ := finished (still ▸ moved)
      exact ⟨y,mem_cons_of_mem _ member,fun now => undone (stays y now),made⟩
    obtain ⟨undone,made⟩ := moves.finishes s x mem_cons_self u start first still
    exact ⟨x,mem_cons_self,undone,stay x made⟩

theorem Moves.quiet (moves : Moves step count inv done xs) {like : σ → σ → Prop} {left : ι → σ → Prop} (refl : ∀ s, like s s)
    (trans : ∀ s t u, like s t → like t u → like s u) (stays : ∀ x s t, left x s → like s t → left x t)
    (here : ∀ s, ∀ x ∈ xs, ∀ t, inv s → step s x = .ok t → count t = count s → like s t ∧ left x t) (start : inv s)
    (ran : run step s xs = .ok t) (still : count t = count s) : like s t ∧ ∀ x ∈ xs, left x t := by
  induction xs generalizing s with
  | nil =>
    cases ran
    exact ⟨refl _,fun _ bad => (nomatch bad)⟩
  | cons x xs ih =>
    have tail := moves.mono fun y (member : y ∈ xs) => mem_cons_of_mem _ member
    obtain ⟨u,first,ran⟩ := of_run_cons ran
    obtain ⟨inv',more,_⟩ := moves.keeps s x mem_cons_self u start first
    obtain ⟨⟨_,most,_⟩,_⟩ := tail.turn inv' ran
    have one : count u = count s := Nat.le_antisymm (still ▸ most) more
    obtain ⟨same,made⟩ := here s x mem_cons_self u start first one
    obtain ⟨alike,rest⟩ := ih tail (fun s y member => here s y (mem_cons_of_mem _ member)) inv' ran (by rw [still,one])
    refine ⟨trans s u t same alike,fun y member => ?_⟩
    rcases mem_cons.mp member with rfl | later
    · exact stays y u t made alike
    · exact rest y later

open Classical in
noncomputable def undone (done : ι → σ → Prop) (xs : List ι) (s : σ) : Nat := (xs.filter fun x => ¬ done x s).length

theorem undone_lt (stay : ∀ y, done y s → done y t) (one : ∃ x ∈ xs, ¬ done x s ∧ done x t) :
    undone done xs t < undone done xs s := by
  classical
  have less : ∀ ys : List ι, undone done ys t ≤ undone done ys s := by
    intro ys
    rw [undone,undone,← countP_eq_length_filter,← countP_eq_length_filter]
    refine countP_mono_left fun y _ left => ?_
    simp only [decide_eq_true_eq] at left ⊢
    exact fun now => left (stay y now)
  obtain ⟨x,member,todo,made⟩ := one
  obtain ⟨front,back,rfl⟩ := append_of_mem member
  have before := less front
  have after := less back
  have split : ∀ u, undone done (front ++ x :: back) u = undone done front u + (undone done [x] u + undone done back u) := by
    intro u
    rw [undone,undone,undone,undone,← length_append,← length_append,← filter_append,← filter_append]
    rfl
  have here : undone done [x] t < undone done [x] s := by
    simp [undone,todo,made]
  rw [split t,split s]
  omega

theorem sweeps_ends (moves : Moves step count inv done xs) (never : ∀ s, ∀ x ∈ xs, inv s → step s x ≠ .error loops)
    (fuel : xs.length < n) (start : inv s) : sweeps step count loops xs n s ≠ .error loops := by
  have few : undone done xs s < n := Nat.lt_of_le_of_lt (length_filter_le _ _) fuel
  clear fuel
  induction n generalizing s with
  | zero => exact absurd few (Nat.not_lt_zero _)
  | succ n ih =>
    rw [sweeps]
    split
    next e failed =>
      intro bad
      cases bad
      have inside : Along step (fun _ x => x ∈ xs) s xs := Along.of_forall s fun x member => member
      refine run_ne_error xs s ?_ failed
      exact Along.of_invariant (fun u x here member => never u x member here)
        (fun u x v here member ok => (moves.keeps u x member v here ok).1) xs s start inside
    next t ran =>
      split
      · exact fun bad => (nomatch bad)
      next moved =>
        obtain ⟨⟨last,_,stay⟩,finished⟩ := moves.turn start ran
        have fewer := undone_lt stay (finished moved)
        exact ih last (by omega)

end

section
variable {other : τ → κ → Except ε τ} {counted : τ → Nat} {same : σ → τ → Prop} {allowed : σ → ι → Prop}

theorem sweeps_simulates {ys : List κ} (counts : ∀ s t, same s t → count s = counted t)
    (turn : ∀ s t s', same s t → Along step allowed s xs → run step s xs = .ok s' → ∃ t', run other t ys = .ok t' ∧ same s' t')
    {s s' : σ} {t : τ} (start : same s t) (along : AlongSweeps step count allowed xs n s)
    (ended : sweeps step count loops xs n s = .ok s') : ∃ t', sweeps other counted loops ys n t = .ok t' ∧ same s' t' := by
  induction n generalizing s t with
  | zero => cases ended
  | succ n ih =>
    rw [sweeps] at ended
    split at ended
    · cases ended
    next u ran =>
      obtain ⟨v,answered,like⟩ := turn s t u start along.1 ran
      rw [sweeps,answered]
      dsimp only
      rw [← counts s t start,← counts u v like]
      split at ended
      next still =>
        cases ended
        rw [if_pos still]
        exact ⟨v,rfl,like⟩
      next moved =>
        rw [if_neg moved]
        exact ih like (along.2 u ran moved) ended

end

end Retrobsd.Lib.Sweeps

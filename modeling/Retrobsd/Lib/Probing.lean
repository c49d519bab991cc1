import Retrobsd.Lib.Indices

/-! A hash table with open addresses: from its place a key is looked for in one slot after the other. The
entries stand in the order in which they were made, each with its slot, so that the last ones can be
taken out again. Which entry answers a key is left open; it need not have the same key. -/
namespace Retrobsd.Lib.Probing
open List Nat

variable {κ : Type} {size : Nat} {hit : κ → Bool} {table : List (Nat × κ)} {hp q i n : Nat}

def place (table : List (Nat × κ)) (hp : Nat) : Option Nat := table.findIdx? fun e => e.1 == hp

def next (size hp : Nat) : Nat := if hp + 1 ≥ size then 0 else hp + 1

/-- The slot of an entry that answers the key, or the first empty one; it takes at most so many tries. -/
def probe (size : Nat) (hit : κ → Bool) (table : List (Nat × κ)) : Nat → Nat → Option (Nat × Option Nat)
  | 0,_ => none
  | n + 1,hp => match place table hp with
    | none => some (hp,none)
    | some i => if (table[i]?).any fun e => hit e.2 then some (hp,some i) else probe size hit table n (next size hp)

theorem place_some (found : place table hp = some i) : ∃ k, table[i]? = some (hp,k) := by
  obtain ⟨inside,slot,_⟩ := List.findIdx?_eq_some_iff_getElem.mp found
  refine ⟨table[i].2,?_⟩
  rw [List.getElem?_eq_getElem inside]
  exact congrArg some (Prod.ext (by simpa using slot) rfl)

theorem place_append (found : place table hp = some i) (more : List (Nat × κ)) : place (table ++ more) hp = some i := by
  rw [place] at found
  rw [place,List.findIdx?_append,found]
  rfl

theorem place_insert (empty : place table hp = none) (k : κ) : place (table ++ [(hp,k)]) hp = some table.length := by
  rw [place] at empty
  rw [place,List.findIdx?_append,empty]
  simp

theorem probe_append (found : probe size hit table n hp = some (q,some i)) (more : List (Nat × κ)) :
    probe size hit (table ++ more) n hp = some (q,some i) := by
  induction n generalizing hp with
  | zero => cases found
  | succ n ih =>
    rw [probe] at found
    cases here : place table hp with
    | none => rw [here] at found; cases found
    | some j =>
      rw [here] at found
      obtain ⟨k,entry⟩ := place_some here
      have same : (table ++ more)[j]? = table[j]? := by
        rw [entry,List.getElem?_append_left (List.getElem?_eq_some_iff.mp entry).1,entry]
      rw [probe,place_append here]
      dsimp only at found ⊢
      rw [same]
      split at found
      next hits => rw [if_pos hits]; exact found
      next miss => rw [if_neg miss]; exact ih found

theorem probe_insert (missed : probe size hit table n hp = some (q,none)) {k : κ} (hits : hit k = true) :
    probe size hit (table ++ [(q,k)]) n hp = some (q,some table.length) := by
  induction n generalizing hp with
  | zero => cases missed
  | succ n ih =>
    rw [probe] at missed
    cases here : place table hp with
    | none =>
      rw [here] at missed
      cases missed
      rw [probe,place_insert here]
      simp [hits]
    | some j =>
      rw [here] at missed
      obtain ⟨_,entry⟩ := place_some here
      have same : (table ++ [(q,k)])[j]? = table[j]? := by
        rw [entry,List.getElem?_append_left (List.getElem?_eq_some_iff.mp entry).1,entry]
      rw [probe,place_append here]
      dsimp only at missed ⊢
      rw [same]
      split at missed
      · cases missed
      next miss => rw [if_neg miss]; exact ih missed

theorem probe_hit (found : probe size hit table n hp = some (q,some i)) : ∃ k, table[i]? = some (q,k) ∧ hit k = true := by
  induction n generalizing hp with
  | zero => cases found
  | succ n ih =>
    rw [probe] at found
    cases here : place table hp with
    | none => rw [here] at found; cases found
    | some j =>
      rw [here] at found
      dsimp only at found
      split at found
      next hits =>
        cases found
        obtain ⟨k,entry⟩ := place_some here
        rw [entry] at hits
        exact ⟨k,entry,hits⟩
      next => exact ih found

theorem probe_bound (found : probe size hit table n hp = some (q,some i)) : i < table.length := by
  obtain ⟨k,entry,_⟩ := probe_hit found
  exact (List.getElem?_eq_some_iff.mp entry).1

theorem not_mem_of_place (empty : place table hp = none) : hp ∉ table.map Prod.fst := by
  rintro member
  obtain ⟨e,there,rfl⟩ := mem_map.mp member
  have other := List.findIdx?_eq_none_iff.mp empty e there
  rw [beq_self_eq_true] at other
  cases other

theorem next_mod (inside : hp < size) : next size hp = (hp + 1) % size := by
  rw [next]
  split
  next last =>
    have whole : hp + 1 = size := by omega
    rw [whole,mod_self]
  next => rw [mod_eq_of_lt (by omega)]

theorem probe_passed {r : Option Nat} (found : probe size hit table n hp = some (q,r)) (inside : hp < size) :
    ∃ k < n, q = (hp + k) % size ∧ place table q = r ∧
      ∀ j < k, ∃ i e, place table ((hp + j) % size) = some i ∧ table[i]? = some e ∧ hit e.2 = false := by
  induction n generalizing hp with
  | zero => cases found
  | succ n ih =>
    have first : (hp + 0) % size = hp := mod_eq_of_lt inside
    rw [probe] at found
    cases here : place table hp with
    | none =>
      rw [here] at found
      cases found
      exact ⟨0,n.succ_pos,first.symm,here,fun j before => absurd before (Nat.not_lt_zero j)⟩
    | some i =>
      rw [here] at found
      obtain ⟨key,entry⟩ := place_some here
      dsimp only at found
      split at found
      · cases found
        exact ⟨0,n.succ_pos,first.symm,here,fun j before => absurd before (Nat.not_lt_zero j)⟩
      next miss =>
        have shift : ∀ k, ((hp + 1) % size + k) % size = (hp + (k + 1)) % size := fun k => by
          rw [mod_add_mod,Nat.add_right_comm,Nat.add_assoc]
        rw [next_mod inside] at found
        obtain ⟨k,bound,same,there,passed⟩ := ih found (mod_lt _ (by omega))
        refine ⟨k + 1,by omega,same.trans (shift k),there,fun j before => ?_⟩
        cases j with
        | zero =>
          rw [entry] at miss
          exact ⟨i,_,first.symm ▸ here,entry,Bool.not_eq_true _ |>.mp miss⟩
        | succ j =>
          rw [← shift]
          exact passed j (by omega)

theorem occupied (endless : probe size hit table n hp = none) (inside : hp < size) :
    ∀ k < n, (hp + k) % size ∈ table.map Prod.fst := by
  induction n generalizing hp with
  | zero => exact fun k bad => absurd bad (Nat.not_lt_zero k)
  | succ n ih =>
    rw [probe] at endless
    cases here : place table hp with
    | none => rw [here] at endless; cases endless
    | some i =>
      rw [here] at endless
      dsimp only at endless
      split at endless
      · cases endless
      intro k bound
      cases k with
      | zero =>
        obtain ⟨e,entry⟩ := place_some here
        rw [Nat.add_zero,mod_eq_of_lt inside]
        exact mem_map.mpr ⟨(hp,e),mem_of_getElem? entry,rfl⟩
      | succ k =>
        rw [next_mod inside] at endless
        have later := ih endless (mod_lt _ (by omega)) k (by omega)
        rwa [mod_add_mod,Nat.add_right_comm,Nat.add_assoc] at later

theorem probe_total (hit : κ → Bool) (room : table.length < size) (inside : hp < size) :
    ∃ r, probe size hit table size hp = some r := by
  cases endless : probe size hit table size hp with
  | some r => exact ⟨r,rfl⟩
  | none =>
    have all : Finset.range size ⊆ (table.map Prod.fst).toFinset := by
      intro slot member
      rw [Finset.mem_range] at member
      have taken := occupied endless inside ((slot + (size - hp)) % size) (mod_lt _ (by omega))
      have there : (hp + (slot + (size - hp)) % size) % size = slot := by
        rw [add_mod_mod,show hp + (slot + (size - hp)) = slot + size by omega,add_mod_right,mod_eq_of_lt member]
      rw [there] at taken
      exact mem_toFinset.mpr taken
    have many := Finset.card_le_card all
    have few := toFinset_card_le (table.map Prod.fst)
    rw [Finset.card_range] at many
    rw [length_map] at few
    omega

end Retrobsd.Lib.Probing

import Retrobsd.Lib.Indices

/-! Delta lists. A sorted list of deadlines is kept as differences: what is due
keeps the time that has passed since, and every later deadline its distance to
the one before it, or to the present when that one is due. -/
namespace Retrobsd.Lib.Deltas
open List

def deltas (now : Int) : Int → List Int → List Int
  | _,[] => []
  | base,d :: ds => (if d ≤ now then d - now else d - base) :: deltas now (max base d) ds

def tick : List Int → List Int
  | [] => []
  | x :: xs => if x - 1 < 0 then (x - 1) :: tick xs else (x - 1) :: xs

def lower (t : Int) : List Int → List Int
  | [] => []
  | x :: xs => (x - t) :: xs

def enter : Int → List Int → List Int
  | t,[] => [t]
  | t,x :: xs => if x < t then x :: enter (if 0 < x then t - x else t) xs else t :: lower t (x :: xs)

def skip : Int → List Int → Nat
  | _,[] => 0
  | t,x :: xs => if x < t then skip (if 0 < x then t - x else t) xs + 1 else 0

@[simp] theorem length_deltas (now : Int) : ∀ (base : Int) (ds : List Int), (deltas now base ds).length = ds.length
  | _,[] => rfl
  | _,_ :: ds => by simp [deltas,length_deltas now _ ds]

theorem deltas_now {now later base : Int} : ∀ {ds : List Int}, (∀ d ∈ ds, now < d ∧ later ≤ d) → later ≤ base →
    (∀ d ∈ ds, base ≤ d) → ds.Pairwise (· ≤ ·) → deltas now base ds = deltas later base ds
  | [],_,_,_,_ => rfl
  | d :: ds,after,low,above,sorted => by
    obtain ⟨first,rest⟩ := pairwise_cons.mp sorted
    have here := after d (by simp)
    have behind := above d (by simp)
    have ih := @deltas_now now later (max base d) ds (fun x member => after x (by simp [member])) (by omega)
      (fun x member => by have := first x member; have := above x (by simp [member]); omega) rest
    rw [deltas,deltas,ih,if_neg (by omega)]
    split
    · congr 1
      omega
    · rfl

theorem tick_deltas {now : Int} :
    ∀ {ds : List Int}, ds.Pairwise (· ≤ ·) → tick (deltas now now ds) = deltas (now + 1) (now + 1) ds
  | [],_ => rfl
  | d :: ds,sorted => by
    obtain ⟨first,rest⟩ := pairwise_cons.mp sorted
    rw [deltas,deltas,tick]
    by_cases due : d ≤ now
    · rw [if_pos due,if_pos (by omega),if_pos (by omega),max_eq_left due,max_eq_left (by omega),tick_deltas rest]
      congr 1
      omega
    have later : deltas now (max now d) ds = deltas (now + 1) (max (now + 1) d) ds := by
      rw [max_eq_right (by omega),max_eq_right (by omega)]
      apply deltas_now
      · intro x member
        have := first x member
        omega
      · omega
      · exact first
      · exact rest
    rw [if_neg due,if_neg (by omega),later]
    congr 1
    split <;> omega

theorem enter_deltas {now D : Int} (after : now < D) : ∀ {ds : List Int} {base : Int}, now ≤ base → base < D →
    (∀ d ∈ ds, now < d → base ≤ d) → ds.Pairwise (· ≤ ·) →
    enter (D - base) (deltas now base ds) = deltas now base (ds.orderedInsert (· ≤ ·) D)
  | [],base,_,_,_,_ => by
    rw [deltas,enter,orderedInsert_nil,deltas,if_neg (by omega)]
    rfl
  | d :: ds,base,low,before,above,sorted => by
    obtain ⟨first,rest⟩ := pairwise_cons.mp sorted
    rw [deltas,enter,orderedInsert_cons]
    by_cases due : d ≤ now
    · have ih := @enter_deltas now D after ds base low before (fun x member => above x (by simp [member])) rest
      rw [if_pos due,if_pos (by omega),if_neg (by omega),if_neg (by omega),deltas,if_pos due,max_eq_left (by omega),ih]
    have behind := above d (by simp) (by omega)
    rw [if_neg due]
    by_cases less : d < D
    · have ih := @enter_deltas now D after ds d (by omega) less (fun x member _ => first x member) rest
      have moved : (if 0 < d - base then D - base - (d - base) else D - base) = D - d := by split <;> omega
      rw [if_pos (by omega),moved,if_neg (by omega),deltas,if_neg due,max_eq_right behind,ih]
    rw [if_neg (by omega),if_pos (by omega),deltas,if_neg (by omega),lower,deltas,if_neg due,max_eq_right behind,
      max_eq_right before.le,max_eq_right (by omega)]
    congr 2
    omega

theorem skip_deltas {now D : Int} (after : now < D) : ∀ {ds : List Int} {base : Int}, now ≤ base → base < D →
    (∀ d ∈ ds, now < d → base ≤ d) → ds.Pairwise (· ≤ ·) →
    skip (D - base) (deltas now base ds) = (ds.takeWhile fun d => !decide (D ≤ d)).length
  | [],_,_,_,_,_ => rfl
  | d :: ds,base,low,before,above,sorted => by
    obtain ⟨first,rest⟩ := pairwise_cons.mp sorted
    rw [deltas,skip]
    by_cases due : d ≤ now
    · have ih := @skip_deltas now D after ds base low before (fun x member => above x (by simp [member])) rest
      have less : ¬ D ≤ d := by omega
      rw [if_pos due,if_pos (by omega),if_neg (by omega),max_eq_left (by omega),ih]
      simp [less]
    have behind := above d (by simp) (by omega)
    rw [if_neg due]
    by_cases less : d < D
    · have ih := @skip_deltas now D after ds d (by omega) less (fun x member _ => first x member) rest
      have moved : (if 0 < d - base then D - base - (d - base) else D - base) = D - d := by split <;> omega
      have notAfter : ¬ D ≤ d := by omega
      rw [if_pos (by omega),moved,max_eq_right behind,ih]
      simp [notAfter]
    · have notLess : D ≤ d := by omega
      rw [if_neg (by omega)]
      simp [notLess]

theorem deltas_remove {now d : Int} {r : List Int} : ∀ {l : List Int} {base : Int}, now ≤ base →
    (∀ x ∈ l ++ d :: r, now < x → base ≤ x) → (l ++ d :: r).Pairwise (· ≤ ·) →
    ∃ x xs, deltas now base (l ++ d :: r) = deltas now base l ++ x :: xs ∧
      deltas now base (l ++ r) = deltas now base l ++ if 0 < x then lower (-x) xs else xs
  | [],base,low,above,sorted => by
    obtain ⟨first,rest⟩ := pairwise_cons.mp sorted
    refine ⟨_,_,rfl,?_⟩
    simp only [nil_append,deltas]
    by_cases due : d ≤ now
    · rw [if_pos due,if_neg (by omega),max_eq_left (by omega)]
    have behind := above d (by simp) (by omega)
    rw [if_neg due,max_eq_right behind]
    by_cases apart : 0 < d - base
    · rw [if_pos apart]
      cases r with
      | nil => rfl
      | cons y ys =>
        have := first y (by simp)
        rw [deltas,deltas,lower,if_neg (by omega),if_neg (by omega),max_eq_right (by omega),max_eq_right (by omega)]
        congr 1
        omega
    · rw [if_neg apart,show base = d by omega]
  | y :: l,base,low,above,sorted => by
    obtain ⟨first,rest⟩ := pairwise_cons.mp sorted
    obtain ⟨x,xs,whole,without⟩ := @deltas_remove now d r l (max base y) (by omega) (fun z member later => by
        have := first z member
        have := above z (by simp at member ⊢; tauto) later
        omega) rest
    refine ⟨x,xs,?_,?_⟩
    · simp only [cons_append,deltas,whole]
    · simp only [cons_append,deltas,without]

theorem head_due {now : Int} {ds : List Int} (sorted : ds.Pairwise (· ≤ ·)) :
    (∃ x ∈ (deltas now now ds).head?, x ≤ 0) ↔ ∃ d ∈ ds, d ≤ now := by
  cases ds with
  | nil => simp [deltas]
  | cons d ds =>
    obtain ⟨first,-⟩ := pairwise_cons.mp sorted
    simp only [deltas,List.head?_cons,Option.mem_some_iff,exists_eq_left']
    constructor
    · intro due
      refine ⟨d,by simp,?_⟩
      split at due <;> omega
    rintro ⟨e,member,passed⟩
    have least : d ≤ e := by
      rcases mem_cons.mp member with rfl | later
      · exact le_refl e
      · exact first e later
    rw [if_pos (by omega)]
    omega

theorem due_iff {now : Int} : ∀ {ds : List Int}, ds.Pairwise (· ≤ ·) → ∀ {i : Nat} {d : Int}, ds[i]? = some d →
    (d ≤ now ↔ ∀ x ∈ (deltas now now ds).take (i + 1), x ≤ 0)
  | [],_,_,_,found => by simp at found
  | e :: ds,sorted,i,d,found => by
    obtain ⟨first,rest⟩ := pairwise_cons.mp sorted
    by_cases due : e ≤ now
    · rw [deltas,if_pos due,max_eq_left due]
      cases i with
      | zero =>
        obtain rfl : e = d := by simpa using found
        simp [due]
      | succ i =>
        have ih := @due_iff now ds rest i d (by simpa using found)
        rw [take_succ_cons,ih]
        simp [due]
    have least : e ≤ d := by
      cases i with
      | zero => exact le_of_eq (by simpa using found)
      | succ i => exact first d (mem_of_getElem? (by simpa using found))
    rw [deltas,if_neg due,take_succ_cons]
    constructor
    · intro passed
      omega
    intro all
    have := all (e - now) (by simp)
    omega

theorem mem_deltas {now lo hi : Int} (passed : lo ≤ 0) : ∀ {ds : List Int} {base : Int}, now ≤ base →
    (∀ d ∈ ds, now < d → base ≤ d) → ds.Pairwise (· ≤ ·) → (∀ d ∈ ds, lo ≤ d - now ∧ d - now ≤ hi) →
    ∀ x ∈ deltas now base ds, lo ≤ x ∧ x ≤ hi
  | [],_,_,_,_,_,_,member => by simp [deltas] at member
  | d :: ds,base,low,above,sorted,bounds,x,member => by
    obtain ⟨first,rest⟩ := pairwise_cons.mp sorted
    have here := bounds d (by simp)
    rw [deltas,mem_cons] at member
    rcases member with rfl | later
    · split
      · exact here
      have := above d (by simp) (by omega)
      omega
    apply @mem_deltas now lo hi passed ds (max base d) (by omega) ?_ rest (fun y inside => bounds y (by simp [inside])) x later
    intro y inside after
    have := first y inside
    have := above y (by simp [inside]) after
    omega

end Retrobsd.Lib.Deltas

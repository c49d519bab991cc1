import Retrobsd.Lib.Indices

/-! Singly linked lists in a store of links, and families of lists that share the
items of one pool. A list is what the links lead over until a given end, which
for a whole list is the null address. -/
namespace Retrobsd.Lib.Chains
open List
open Function
variable {α : Type}

def Leads (next : α → α) : α → List α → α → Prop
  | p,[],q => p = q
  | p,x :: l,q => p = x ∧ Leads next (next x) l q

def Chain (next : α → α) (null p : α) (l : List α) : Prop := Leads next p l null ∧ null ∉ l

variable {next : α → α} {p null : α} {l : List α}

theorem leads_append {q : α} (l m : List α) : Leads next p (l ++ m) q ↔ ∃ r, Leads next p l r ∧ Leads next r m q := by
  induction l generalizing p with
  | nil => simp [Leads]
  | cons x l ih => simp [Leads,ih,and_assoc]

theorem Leads.congr {next' : α → α} {q : α} (leads : Leads next p l q) (same : ∀ x ∈ l, next' x = next x) :
    Leads next' p l q := by
  induction l generalizing p with
  | nil => exact leads
  | cons x l ih =>
    obtain ⟨here,later⟩ := leads
    rw [← same x mem_cons_self] at later
    exact ⟨here,ih later fun y member => same y (mem_cons_of_mem _ member)⟩

theorem Chain.congr {next' : α → α} (chain : Chain next null p l) (same : ∀ x ∈ l, next' x = next x) : Chain next' null p l :=
  ⟨chain.1.congr same,chain.2⟩

theorem chain_nil : Chain next null p [] ↔ p = null := by
  simp [Chain,Leads]

theorem chain_cons {x : α} : Chain next null p (x :: l) ↔ p = x ∧ x ≠ null ∧ Chain next null (next x) l := by
  simp only [Chain,Leads,mem_cons,not_or]
  constructor
  · rintro ⟨⟨here,later⟩,other,absent⟩
    exact ⟨here,fun same => other same.symm,later,absent⟩
  rintro ⟨here,other,later,absent⟩
  exact ⟨⟨here,later⟩,fun same => other same.symm,absent⟩

theorem Chain.nil_of_null (chain : Chain next null null l) : l = [] := by
  cases l with
  | nil => rfl
  | cons x l => exact absurd (chain_cons.mp chain).1.symm (chain_cons.mp chain).2.1

theorem Chain.cons_of_ne (chain : Chain next null p l) (other : p ≠ null) :
    ∃ rest, l = p :: rest ∧ Chain next null (next p) rest := by
  cases l with
  | nil => exact absurd (chain_nil.mp chain) other
  | cons x l =>
    obtain ⟨rfl,-,later⟩ := chain_cons.mp chain
    exact ⟨l,rfl,later⟩

section
variable [DecidableEq α] {next : α → α} {p q x null y : α} {l : List α}

theorem Leads.frame {v : α} (leads : Leads next p l q) (absent : x ∉ l) : Leads (update next x v) p l q := by
  apply leads.congr
  intro y member
  apply update_of_ne
  rintro rfl
  exact absent member

theorem Chain.frame {v : α} (chain : Chain next null p l) (absent : x ∉ l) :
    Chain (update next x v) null p l := ⟨chain.1.frame absent,chain.2⟩

theorem Chain.push (chain : Chain next null p l) (absent : x ∉ l) (real : x ≠ null) :
    Chain (update next x p) null x (x :: l) := by
  apply chain_cons.mpr
  rw [update_self]
  exact ⟨rfl,real,chain.frame absent⟩

theorem Chain.extend (chain : Chain next null p (l ++ [x])) (once : x ∉ l) (absent : y ∉ l ++ [x]) (real : y ≠ null)
    (ends : next y = null) :
    Chain (update next x y) null p (l ++ [x,y]) := by
  obtain ⟨leads,clear⟩ := chain
  obtain ⟨r,front,here,-⟩ := (leads_append l [x]).mp leads
  have other : y ≠ x := by rintro rfl; simp at absent
  constructor
  · apply (leads_append l [x,y]).mpr
    refine ⟨r,front.frame once,here,?_⟩
    simp [Leads,update_of_ne other,ends]
  · simp only [mem_append,mem_cons,not_mem_nil,or_false,not_or] at clear ⊢
    exact ⟨clear.1,clear.2,fun same => real same.symm⟩

theorem Chain.shorten (chain : Chain next null p (l ++ [x,y])) (once : x ∉ l) :
    Chain (update next x null) null p (l ++ [x]) := by
  obtain ⟨leads,clear⟩ := chain
  obtain ⟨r,front,here,-⟩ := (leads_append l [x,y]).mp leads
  constructor
  · apply (leads_append l [x]).mpr
    exact ⟨r,front.frame once,here,by simp [Leads]⟩
  simp only [mem_append,mem_cons,not_mem_nil,or_false,not_or] at clear ⊢
  exact ⟨clear.1,clear.2.1⟩

theorem Leads.insert {r : List α} (leads : Leads next p (l ++ y :: r) q) (once : (l ++ y :: r).Nodup)
    (absent : x ∉ l ++ y :: r) :
    Leads (update (update next y x) x (next y)) p (l ++ y :: x :: r) q := by
  obtain ⟨m,front,here,later⟩ := (leads_append l (y :: r)).mp leads
  obtain ⟨-,tail,apart⟩ := nodup_append.mp once
  have notFront : y ∉ l := fun member => apart y member y (by simp) rfl
  have notLater : y ∉ r := (nodup_cons.mp tail).1
  simp only [mem_append,mem_cons,not_or] at absent
  apply (leads_append l (y :: x :: r)).mpr
  refine ⟨m,(front.frame notFront).frame absent.1,here,?_,?_⟩
  · rw [update_of_ne (Ne.symm absent.2.1),update_self]
  rw [update_self]
  exact (later.frame notLater).frame absent.2.2

theorem Leads.remove {r : List α} (leads : Leads next p (l ++ y :: x :: r) q)
    (once : (l ++ y :: x :: r).Nodup) : Leads (update next y (next x)) p (l ++ y :: r) q := by
  obtain ⟨m,front,here,-,later⟩ := (leads_append l (y :: x :: r)).mp leads
  obtain ⟨-,tail,apart⟩ := nodup_append.mp once
  have notFront : y ∉ l := fun member => apart y member y (by simp) rfl
  have notLater : y ∉ x :: r := (nodup_cons.mp tail).1
  simp only [mem_cons,not_or] at notLater
  apply (leads_append l (y :: r)).mpr
  refine ⟨m,front.frame notFront,here,?_⟩
  rw [update_self]
  exact later.frame notLater.2

end

/-- Every item of the pool is on exactly one of the lists, once. -/
structure Partition {κ : Type} (pool : α → Prop) (lists : κ → List α) : Prop where
  once : ∀ i, (lists i).Nodup
  apart : ∀ i j, i ≠ j → (lists i).Disjoint (lists j)
  cover : ∀ x, pool x ↔ ∃ i, x ∈ lists i

section
variable {κ : Type} {pool : α → Prop} {lists lists' : κ → List α}

theorem Partition.mem_pool (parted : Partition pool lists) {i : κ} {x : α} (member : x ∈ lists i) :
    pool x := (parted.cover x).mpr ⟨i,member⟩

theorem Partition.unique (parted : Partition pool lists) {i j : κ} {x : α} (first : x ∈ lists i)
    (second : x ∈ lists j) : i = j := by
  by_contra other
  exact parted.apart i j other first second

theorem Partition.move (parted : Partition pool lists) {i j : κ} {x : α} (other : i ≠ j)
    (source : (lists i).Perm (x :: lists' i)) (target : (lists' j).Perm (x :: lists j))
    (others : ∀ r, r ≠ i → r ≠ j → lists' r = lists r) : Partition pool lists' := by
  have taken : ∀ y, y ∈ lists i ↔ y = x ∨ y ∈ lists' i := by
    intro y
    rw [source.mem_iff,mem_cons]
  have given : ∀ y, y ∈ lists' j ↔ y = x ∨ y ∈ lists j := by
    intro y
    rw [target.mem_iff,mem_cons]
  have here : x ∈ lists i := (taken x).mpr (.inl rfl)
  have distinct : x ∉ lists' i ∧ (lists' i).Nodup := nodup_cons.mp (source.nodup_iff.mp (parted.once i))
  -- Where an item is afterwards tells where it was.
  have back : ∀ r y, y ∈ lists' r → (y = x ∧ r = j) ∨ (y ≠ x ∧ y ∈ lists r) := by
    intro r y member
    by_cases atSource : r = i
    · subst atSource
      exact .inr ⟨fun same => distinct.1 (same ▸ member),(taken y).mpr (.inr member)⟩
    by_cases atTarget : r = j
    · subst atTarget
      rcases (given y).mp member with same | before
      · exact .inl ⟨same,rfl⟩
      · exact .inr ⟨fun same => other (parted.unique here (same ▸ before)),before⟩
    · rw [others r atSource atTarget] at member
      exact .inr ⟨fun same => atSource (parted.unique (same ▸ member) here),member⟩
  constructor
  · intro r
    by_cases atSource : r = i
    · exact atSource ▸ distinct.2
    by_cases atTarget : r = j
    · subst atTarget
      apply target.nodup_iff.mpr
      exact nodup_cons.mpr ⟨fun member => other (parted.unique here member),parted.once r⟩
    · rw [others r atSource atTarget]
      exact parted.once r
  · intro r s ne y first second
    rcases back r y first with ⟨isX,rfl⟩ | ⟨notX,before⟩
    · rcases back s y second with ⟨-,rfl⟩ | ⟨notX,-⟩
      · exact ne rfl
      · exact notX isX
    rcases back s y second with ⟨isX,-⟩ | ⟨-,other⟩
    · exact notX isX
    · exact ne (parted.unique before other)
  intro y
  rw [parted.cover]
  constructor
  · rintro ⟨r,member⟩
    by_cases atSource : r = i
    · subst atSource
      rcases (taken y).mp member with rfl | kept
      · exact ⟨j,(given y).mpr (.inl rfl)⟩
      · exact ⟨r,kept⟩
    by_cases atTarget : r = j
    · subst atTarget
      exact ⟨r,(given y).mpr (.inr member)⟩
    · exact ⟨r,(others r atSource atTarget).symm ▸ member⟩
  · rintro ⟨r,member⟩
    rcases back r y member with ⟨rfl,-⟩ | ⟨-,before⟩
    · exact ⟨i,here⟩
    · exact ⟨r,before⟩

end

end Retrobsd.Lib.Chains

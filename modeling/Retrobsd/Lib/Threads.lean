import Retrobsd.Lib.Indices

/-! Lists threaded through their items. A family of heads shares one link per item, the
place of a pointer is a cell, and items may know the cell that points to them, so that one
can be taken out without a search. -/
namespace Retrobsd.Lib.Threads
open List
open Function

variable {κ α : Type}

inductive Cell (κ α : Type) where
  | head (k : κ)
  | link (x : α)
deriving DecidableEq

structure Store (κ α : Type) where
  head : κ → Option α
  next : α → Option α

def Store.get (t : Store κ α) : Cell κ α → Option α
  | .head k => t.head k
  | .link x => t.next x

def Store.put [DecidableEq κ] [DecidableEq α] (t : Store κ α) : Cell κ α → Option α → Store κ α
  | .head k,v => {t with head := update t.head k v}
  | .link x,v => {t with next := update t.next x v}

def Forward (next : α → Option α) : Option α → List α → Prop
  | p,[] => p = none
  | p,x :: l => p = some x ∧ Forward next (next x) l

def walk (next : α → Option α) : Nat → Option α → List α
  | 0,_ => []
  | _ + 1,none => []
  | n + 1,some x => x :: walk next n (next x)

variable {next : α → Option α} {p : Option α} {l : List α} {n : Nat}

theorem walk_eq (forward : Forward next p l) (enough : l.length ≤ n) :
    walk next n p = l := by
  induction l generalizing p n with
  | nil =>
    cases forward
    cases n <;> rfl
  | cons x l ih =>
    obtain ⟨rfl,rest⟩ := forward
    cases n with
    | zero => exact absurd enough (by simp)
    | succ n => exact congrArg (x :: ·) (ih rest (Nat.le_of_succ_le_succ enough))

theorem Forward.congr {next' : α → Option α} (forward : Forward next p l)
    (same : ∀ x ∈ l, next' x = next x) : Forward next' p l := by
  induction l generalizing p with
  | nil => exact forward
  | cons x l ih =>
    obtain ⟨here,rest⟩ := forward
    rw [← same x mem_cons_self] at rest
    exact ⟨here,ih rest fun y member => same y (mem_cons_of_mem _ member)⟩

/-- The search for an item by the cells that lead to it, which takes it out. -/
def Store.delete [DecidableEq κ] [DecidableEq α] (t : Store κ α) (x : α) : Nat → Cell κ α → Option (Store κ α)
  | 0,_ => none
  | n + 1,cell => match t.get cell with
    | none => none
    | some y => if y = x then some (t.put cell (t.next x)) else t.delete x n (.link y)

section
variable [DecidableEq κ] [DecidableEq α] {t : Store κ α} {x : α} {v : Option α}

theorem Forward.frame (forward : Forward next p l) (absent : x ∉ l) :
    Forward (update next x v) p l := by
  refine forward.congr fun y member => update_of_ne ?_ _ _
  rintro rfl
  exact absent member

theorem Forward.push (forward : Forward next p l) (absent : x ∉ l) :
    Forward (update next x p) (some x) (x :: l) := by
  refine ⟨rfl,?_⟩
  rw [update_self]
  exact forward.frame absent

def Cell.Outside (cell : Cell κ α) (l : List α) : Prop := ∀ x ∈ l, cell ≠ .link x

theorem get_put (t : Store κ α) (cell : Cell κ α) (v : Option α) : (t.put cell v).get cell = v := by
  cases cell <;> exact update_self _ _ _

variable {cell : Cell κ α}

theorem next_put (other : cell ≠ .link x) : (t.put cell v).next x = t.next x := by
  cases cell with
  | head k => rfl
  | link y => exact update_of_ne (fun same => other (congrArg Cell.link same.symm)) _ _

theorem head_put {k : κ} (other : cell ≠ .head k) : (t.put cell v).head k = t.head k := by
  cases cell with
  | head j => exact update_of_ne (fun same => other (congrArg Cell.head same.symm)) _ _
  | link y => rfl

structure Deleted (t r : Store κ α) (cell : Cell κ α) (x : α) (l : List α) : Prop where
  forward : Forward r.next (r.get cell) (l.erase x)
  heads : ∀ k, cell ≠ .head k → r.head k = t.head k
  links : ∀ y, cell ≠ .link y → y ∉ l → r.next y = t.next y

theorem delete_spec (cell : Cell κ α) (forward : Forward t.next (t.get cell) l) (once : l.Nodup)
    (outside : cell.Outside l) (member : x ∈ l) (enough : l.length ≤ n) :
    ∃ r, t.delete x n cell = some r ∧ Deleted t r cell x l := by
  induction l generalizing cell n with
  | nil => cases member
  | cons y l ih =>
    obtain ⟨here,rest⟩ := forward
    obtain ⟨absent,single⟩ := nodup_cons.mp once
    cases n with
    | zero => exact absurd enough (by simp)
    | succ n =>
      rw [Store.delete,here]
      dsimp only
      by_cases same : y = x
      · subst same
        rw [if_pos rfl]
        refine ⟨_,rfl,?_,fun k other => head_put other,fun z other _ => next_put other⟩
        rw [get_put,erase_cons_head]
        exact rest.congr fun z inside => next_put (outside z (mem_cons_of_mem _ inside))
      rw [if_neg same]
      have inside : x ∈ l := (mem_cons.mp member).resolve_left (Ne.symm same)
      have other : (Cell.link y : Cell κ α).Outside l := by
        rintro z found equal
        cases equal
        exact absent found
      obtain ⟨r,ran,deleted⟩ := ih (.link y) rest single other inside (Nat.le_of_succ_le_succ enough)
      refine ⟨r,ran,?_,fun k _ => deleted.heads k (by simp),?_⟩
      · rw [erase_cons_tail (by simpa using same)]
        have kept : r.get cell = some y := by
          rw [← here]
          cases cell with
          | head k => exact deleted.heads k (by simp)
          | link z =>
            refine deleted.links z (fun equal => outside z ?_ rfl) (fun found => outside z (mem_cons_of_mem _ found) rfl)
            cases equal
            exact mem_cons_self
        exact ⟨kept,deleted.forward⟩
      · intro z ne elsewhere
        refine deleted.links z (fun equal => elsewhere ?_) (fun found => elsewhere (mem_cons_of_mem _ found))
        cases equal
        exact mem_cons_self

def Cell.after (cell : Cell κ α) (a : List α) : Cell κ α := (a.getLast?.map Cell.link).getD cell

omit [DecidableEq κ] [DecidableEq α] in
theorem after_cons (cell : Cell κ α) (y : α) (a : List α) : cell.after (y :: a) = (Cell.link y).after a := by
  cases a with
  | nil => rfl
  | cons z a =>
    obtain ⟨v,last⟩ : ∃ v, (z :: a).getLast? = some v := ⟨_,getLast?_eq_some_getLast (cons_ne_nil z a)⟩
    rw [Cell.after,Cell.after,getLast?_cons_cons,last]
    rfl

omit [DecidableEq κ] [DecidableEq α] in
theorem after_snoc (cell : Cell κ α) (a : List α) (x : α) : cell.after (a ++ [x]) = .link x := by
  simp [Cell.after]

omit [DecidableEq κ] [DecidableEq α] in
theorem Forward.after {a : List α} (forward : Forward t.next (t.get cell) (a ++ l)) :
    Forward t.next (t.get (cell.after a)) l := by
  induction a generalizing cell with
  | nil => exact forward
  | cons y a ih =>
    rw [after_cons]
    exact ih forward.2

theorem delete_after {a b : List α} (forward : Forward t.next (t.get cell) (a ++ x :: b)) (absent : x ∉ a)
    (enough : a.length < n) : t.delete x n cell = some (t.put (cell.after a) (t.next x)) := by
  induction a generalizing cell n with
  | nil =>
    obtain _ | m := n
    · omega
    rw [Store.delete,show t.get cell = some x from forward.1]
    simp [Cell.after]
  | cons y a ih =>
    obtain _ | m := n
    · omega
    have ne : y ≠ x := fun same => absent (same ▸ mem_cons_self)
    rw [Store.delete,show t.get cell = some y from forward.1,after_cons]
    simp only [if_neg ne]
    exact @ih m (.link y) forward.2 (fun inside => absent (mem_cons_of_mem _ inside)) (by simpa using enough)

def Store.push (t : Store κ α) (k : κ) (x : α) : Store κ α := ⟨update t.head k (some x),update t.next x (t.head k)⟩

/-- A family of lists, no two of which share an item. -/
structure Holds (t : Store κ α) (lists : κ → List α) : Prop where
  forward : ∀ k, Forward t.next (t.head k) (lists k)
  once : ∀ k, (lists k).Nodup
  apart : ∀ j k x, x ∈ lists j → x ∈ lists k → j = k

variable {lists : κ → List α}

theorem Holds.push (holds : Holds t lists) {k : κ} (absent : ∀ j, x ∉ lists j) :
    Holds (t.push k x) (update lists k (x :: lists k)) where
  forward j := by
    rcases eq_or_ne j k with rfl | ne
    · have head : (t.push j x).head j = some x := update_self _ _ _
      rw [update_self,head]
      exact (holds.forward j).push (absent j)
    have head : (t.push k x).head j = t.head j := update_of_ne ne _ _
    rw [update_of_ne ne,head]
    exact (holds.forward j).frame (absent j)
  once j := by
    rcases eq_or_ne j k with rfl | ne
    · rw [update_self]
      exact nodup_cons.mpr ⟨absent j,holds.once j⟩
    rw [update_of_ne ne]
    exact holds.once j
  apart i j y one two := by
    have there : ∀ i, y ∈ update lists k (x :: lists k) i → i = k ∧ y = x ∨ y ∈ lists i := by
      intro i inside
      rcases eq_or_ne i k with rfl | ne
      · rw [update_self] at inside
        exact (mem_cons.mp inside).imp (fun same => ⟨rfl,same⟩) id
      rw [update_of_ne ne] at inside
      exact .inr inside
    rcases there i one with ⟨rfl,rfl⟩ | old <;> rcases there j two with ⟨rfl,same⟩ | older
    · rfl
    · exact absurd older (absent j)
    · exact absurd (same ▸ old) (absent i)
    · exact holds.apart i j y old older

theorem Holds.delete (holds : Holds t lists) {k : κ} (member : x ∈ lists k)
    (enough : (lists k).length ≤ n) :
    ∃ r, t.delete x n (.head k) = some r ∧ Holds r (update lists k ((lists k).erase x)) := by
  obtain ⟨r,found,deleted⟩ := delete_spec (.head k) (holds.forward k) (holds.once k) (fun _ _ => by simp) member enough
  refine ⟨r,found,fun j => ?_,fun j => ?_,fun i j y one two => ?_⟩
  · rcases eq_or_ne j k with rfl | ne
    · rw [update_self]
      exact deleted.forward
    rw [update_of_ne ne,deleted.heads j (fun same => ne (Cell.head.inj same).symm)]
    exact (holds.forward j).congr fun y inside => deleted.links y (by simp) fun also => ne (holds.apart j k y inside also)
  · rcases eq_or_ne j k with rfl | ne
    · rw [update_self]
      exact (holds.once j).erase x
    rw [update_of_ne ne]
    exact holds.once j
  · have there : ∀ i, y ∈ update lists k ((lists k).erase x) i → y ∈ lists i := by
      intro i inside
      rcases eq_or_ne i k with rfl | ne
      · rw [update_self] at inside
        exact mem_of_mem_erase inside
      · rwa [update_of_ne ne] at inside
    exact holds.apart i j y (there i one) (there j two)

end

/-- A store in which every item knows the cell that points to it. -/
structure Backed (κ α : Type) extends Store κ α where
  prev : α → Cell κ α

def Linked (t : Backed κ α) : Cell κ α → Option α → List α → Prop
  | _,p,[] => p = none
  | cell,p,x :: l => p = some x ∧ t.prev x = cell ∧ Linked t (.link x) (t.next x) l

variable {cell : Cell κ α} {t : Backed κ α}

theorem Linked.forward (linked : Linked t cell p l) : Forward t.next p l := by
  induction l generalizing cell p with
  | nil => exact linked
  | cons x l ih => exact ⟨linked.1,ih linked.2.2⟩

theorem Linked.congr {r : Backed κ α} (linked : Linked t cell p l)
    (next : ∀ x ∈ l, r.next x = t.next x) (prev : ∀ x ∈ l, r.prev x = t.prev x) : Linked r cell p l := by
  induction l generalizing cell p with
  | nil => exact linked
  | cons x l ih =>
    obtain ⟨here,back,rest⟩ := linked
    refine ⟨here,(prev x mem_cons_self).trans back,?_⟩
    rw [next x mem_cons_self]
    exact ih rest (fun y inside => next y (mem_cons_of_mem _ inside)) fun y inside => prev y (mem_cons_of_mem _ inside)

variable {x : α}

theorem Linked.snoc {r : Backed κ α} (linked : Linked t cell p l)
    (once : l.Nodup) (prevs : ∀ y ∈ l, r.prev y = t.prev y) (nexts : ∀ y ∈ l, l.getLast? ≠ some y → r.next y = t.next y)
    (last : ∀ y, l.getLast? = some y → r.next y = some x) (prev : r.prev x = cell.after l) (next : r.next x = none) :
    Linked r cell (if l = [] then some x else p) (l ++ [x]) := by
  induction l generalizing cell p with
  | nil => exact ⟨rfl,prev,next⟩
  | cons y l ih =>
    obtain ⟨here,back,rest⟩ := linked
    obtain ⟨absent,single⟩ := nodup_cons.mp once
    have end_ : ∀ z ∈ l, (y :: l).getLast? = l.getLast? := by
      rintro z inside
      obtain ⟨w,m,rfl⟩ := exists_cons_of_ne_nil (ne_nil_of_mem inside)
      exact getLast?_cons_cons
    have later := ih rest single (fun z inside => prevs z (mem_cons_of_mem y inside))
      (fun z inside other => nexts z (mem_cons_of_mem y inside) (end_ z inside ▸ other))
      (fun z found => last z ((end_ z (mem_of_getLast? found)).trans found)) (prev.trans (after_cons cell y l))
    refine ⟨here,(prevs y mem_cons_self).trans back,?_⟩
    cases l with
    | nil => exact (last y rfl).symm ▸ later
    | cons z l =>
      rw [nexts y mem_cons_self fun found => absent (mem_of_getLast? (getLast?_cons_cons ▸ found))]
      exact later

section
variable [DecidableEq α] {t : Backed κ α}

def Backed.setPrev (t : Backed κ α) (p : Option α) (cell : Cell κ α) : Backed κ α :=
  match p with
  | none => t
  | some x => {t with prev := update t.prev x cell}

theorem setPrev_store (t : Backed κ α) (p : Option α) (cell : Cell κ α) : (t.setPrev p cell).toStore = t.toStore := by
  cases p <;> rfl

theorem setPrev_prev (other : p ≠ some x) : (t.setPrev p cell).prev x = t.prev x := by
  cases p with
  | none => rfl
  | some y => exact update_of_ne (fun same => other (congrArg some same.symm)) _ _

variable [DecidableEq κ]

/-- `if ((*x->prev = x->next) != NULL) x->next->prev = x->prev;` -/
def Backed.unlink (t : Backed κ α) (x : α) : Backed κ α :=
  ({t with toStore := t.put (t.prev x) (t.next x)} : Backed κ α).setPrev (t.next x) (t.prev x)

/-- `x->next = head; if (x->next) x->next->prev = &x->next; x->prev = &head; head = x;` -/
def Backed.push (t : Backed κ α) (k : κ) (x : α) : Backed κ α :=
  let r := ({t with next := update t.next x (t.head k)} : Backed κ α).setPrev (t.head k) (.link x)
  {r with prev := update r.prev x (.head k),head := update r.head k (some x)}

theorem push_next (t : Backed κ α) (k : κ) (x : α) : (t.push k x).next = update t.next x (t.head k) := by
  cases first : t.head k <;> simp [Backed.push,Backed.setPrev,first]

theorem push_head (t : Backed κ α) (k : κ) (x : α) : (t.push k x).head = update t.head k (some x) := by
  cases first : t.head k <;> simp [Backed.push,Backed.setPrev,first]

variable {k : κ}

theorem push_linked (linked : Linked t (.head k) (t.head k) l) (once : (x :: l).Nodup) :
    Linked (t.push k x) (.head k) ((t.push k x).head k) (x :: l) := by
  obtain ⟨absent,single⟩ := nodup_cons.mp once
  refine ⟨update_self _ _ _,update_self _ _ _,?_⟩
  rw [push_next,update_self]
  cases l with
  | nil => exact linked
  | cons y l =>
    obtain ⟨first,_,rest⟩ := linked
    have ne : y ≠ x := fun same => absent (same ▸ mem_cons_self)
    refine ⟨first,?_,?_⟩
    · refine (update_of_ne ne _ _).trans ?_
      rw [first]
      exact update_self _ _ _
    rw [push_next,update_of_ne ne]
    have later : ∀ z ∈ l, z ≠ x := by
      rintro z inside rfl
      exact absent (mem_cons_of_mem _ inside)
    refine rest.congr (fun z inside => ?_) fun z inside => ?_
    · rw [push_next]
      exact update_of_ne (later z inside) _ _
    refine (update_of_ne (later z inside) _ _).trans ?_
    refine setPrev_prev ?_
    rw [first]
    intro same
    cases same
    exact (nodup_cons.mp single).1 inside

variable {m : List α}

theorem push_other {j : κ} (ne : j ≠ k) (source : Linked t (.head k) (t.head k) l)
    (linked : Linked t (.head j) (t.head j) m) (absent : x ∉ m) (apart : ∀ y ∈ l, y ∉ m) :
    Linked (t.push k x) (.head j) ((t.push k x).head j) m := by
  rw [push_head,update_of_ne ne]
  have others : ∀ z ∈ m, z ≠ x := by
    rintro z inside rfl
    exact absent inside
  refine linked.congr (fun z inside => ?_) fun z inside => ?_
  · rw [push_next]
    exact update_of_ne (others z inside) _ _
  refine (update_of_ne (others z inside) _ _).trans ?_
  refine setPrev_prev ?_
  intro same
  cases l with
  | nil => exact absurd (source.symm.trans same) (by simp)
  | cons y l => exact apart z (Option.some.inj (source.1.symm.trans same) ▸ mem_cons_self) inside

theorem unlink_store (t : Backed κ α) (x : α) : (t.unlink x).toStore = t.put (t.prev x) (t.next x) := setPrev_store _ _ _

variable {y : α}

theorem unlink_next (other : t.prev x ≠ .link y) : (t.unlink x).next y = t.next y := by
  rw [unlink_store]
  exact next_put other

theorem unlink_next_prev (here : t.prev x = .link y) : (t.unlink x).next y = t.next x := by
  rw [unlink_store,here]
  exact update_self _ _ _

theorem unlink_prev (other : t.next x ≠ some y) : (t.unlink x).prev y = t.prev y := setPrev_prev other

theorem unlink_prev_next (here : t.next x = some y) : (t.unlink x).prev y = t.prev x := by
  rw [Backed.unlink,here]
  exact update_self _ _ _

omit [DecidableEq α] [DecidableEq κ] in
theorem Linked.middle {a b : List α} (linked : Linked t cell p (a ++ x :: b)) :
    t.next x = b.head? ∧ t.prev x = (a.getLast?.map Cell.link).getD cell := by
  induction a generalizing cell p with
  | nil =>
    obtain ⟨_,back,rest⟩ := linked
    refine ⟨?_,back⟩
    cases b with
    | nil => exact rest
    | cons y b => exact rest.1
  | cons z a ih =>
    obtain ⟨next,prev⟩ := ih linked.2.2
    refine ⟨next,?_⟩
    rw [prev]
    cases a with
    | nil => rfl
    | cons w a =>
      obtain ⟨v,last⟩ : ∃ v, (w :: a).getLast? = some v := ⟨_,getLast?_eq_some_getLast (cons_ne_nil w a)⟩
      rw [getLast?_cons_cons,last]
      rfl

theorem unlink_linked {a b : List α} (linked : Linked t cell p (a ++ x :: b))
    (once : (a ++ x :: b).Nodup) (outside : cell.Outside (a ++ x :: b)) :
    Linked (t.unlink x) cell (if a = [] then t.next x else p) (a ++ b) := by
  induction a generalizing cell p with
  | nil =>
    obtain ⟨_,back,rest⟩ := linked
    rw [if_pos rfl]
    cases b with
    | nil => exact rest
    | cons y b =>
      obtain ⟨here,_,later⟩ := rest
      have apart : ∀ z ∈ y :: b, t.prev x ≠ .link z := by
        intro z inside
        rw [back]
        exact outside z (mem_cons_of_mem _ inside)
      refine ⟨here,(unlink_prev_next here).trans back,?_⟩
      rw [unlink_next (apart y mem_cons_self)]
      refine later.congr (fun z inside => unlink_next (apart z (mem_cons_of_mem _ inside))) fun z inside => unlink_prev ?_
      rw [here]
      intro same
      exact (nodup_cons.mp (nodup_cons.mp once).2).1 (Option.some.inj same ▸ inside)
  | cons z a ih =>
    obtain ⟨here,back,rest⟩ := linked
    obtain ⟨absent,single⟩ := nodup_cons.mp once
    obtain ⟨next,prev⟩ := rest.middle
    have other : (Cell.link z : Cell κ α).Outside (a ++ x :: b) := by
      rintro y inside same
      cases same
      exact absent inside
    have later := ih rest single other
    rw [if_neg (by simp)]
    refine ⟨here,?_,?_⟩
    · refine (unlink_prev ?_).trans back
      rw [next]
      intro same
      exact absent (mem_append_right _ (mem_cons_of_mem _ (mem_of_mem_head? same)))
    have link : (t.unlink x).next z = if a = [] then t.next x else t.next z := by
      split_ifs with empty
      · subst empty
        exact unlink_next_prev prev
      refine unlink_next ?_
      rw [prev]
      cases last : a.getLast? with
      | none => exact absurd (getLast?_eq_none_iff.mp last) empty
      | some w =>
        intro same
        cases same
        exact absent (mem_append_left _ (mem_of_mem_getLast? last))
    rw [link]
    exact later

theorem unlink_listed (linked : Linked t (.head k) (t.head k) l) (once : l.Nodup) (member : x ∈ l) :
    Linked (t.unlink x) (.head k) ((t.unlink x).head k) (l.erase x) := by
  obtain ⟨a,b,rfl⟩ := append_of_mem member
  have fresh : x ∉ a := fun inside => (nodup_append.mp once).2.2 x inside x mem_cons_self rfl
  have shape : (a ++ x :: b).erase x = a ++ b := by
    rw [erase_append_right _ fresh,erase_cons_head]
  obtain ⟨_,prev⟩ := linked.middle
  have head : (t.unlink x).head k = if a = [] then t.next x else t.head k := by
    rw [unlink_store]
    split_ifs with empty
    · subst empty
      rw [show t.prev x = .head k from prev]
      exact update_self _ _ _
    refine head_put ?_
    rw [prev]
    cases last : a.getLast? with
    | none => exact absurd (getLast?_eq_none_iff.mp last) empty
    | some w => simp
  rw [shape,head]
  exact unlink_linked linked once fun y _ => by simp

omit [DecidableEq α] [DecidableEq κ] in
theorem Linked.prev_mem (linked : Linked t cell p l) (member : x ∈ l) :
    t.prev x = cell ∨ ∃ w ∈ l, t.prev x = .link w := by
  obtain ⟨a,b,rfl⟩ := append_of_mem member
  rw [linked.middle.2]
  cases last : a.getLast? with
  | none => exact .inl rfl
  | some w => exact .inr ⟨w,mem_append_left _ (mem_of_mem_getLast? last),rfl⟩

omit [DecidableEq α] [DecidableEq κ] in
theorem Linked.next_mem (linked : Linked t cell p l) (member : x ∈ l)
    (next : t.next x = some y) : y ∈ l := by
  obtain ⟨a,b,rfl⟩ := append_of_mem member
  rw [linked.middle.1] at next
  exact mem_append_right _ (mem_cons_of_mem _ (mem_of_mem_head? next))

theorem unlink_head {j : κ} (ne : j ≠ k) (source : Linked t (.head k) (t.head k) l) (member : x ∈ l) :
    (t.unlink x).head j = t.head j := by
  rw [unlink_store]
  refine head_put ?_
  rcases source.prev_mem member with first | ⟨w,_,later⟩
  · exact fun same => ne (Cell.head.inj (first.symm.trans same)).symm
  · simp [later]

theorem unlink_next_outside {z : α} (source : Linked t (.head k) (t.head k) l) (member : x ∈ l) (outside : z ∉ l) :
    (t.unlink x).next z = t.next z := by
  refine unlink_next fun same => ?_
  rcases source.prev_mem member with first | ⟨w,inside,later⟩
  · cases first.symm.trans same
  · exact outside (Cell.link.inj (later.symm.trans same) ▸ inside)

theorem unlink_forward (source : Linked t (.head k) (t.head k) l) (member : x ∈ l)
    (forward : Forward t.next p m) (apart : ∀ y ∈ l, y ∉ m) : Forward (t.unlink x).next p m :=
  forward.congr fun z inside => unlink_next_outside source member fun found => apart z found inside

theorem unlink_other {j : κ} (ne : j ≠ k) (source : Linked t (.head k) (t.head k) l) (member : x ∈ l)
    (linked : Linked t (.head j) (t.head j) m) (apart : ∀ y ∈ l, y ∉ m) :
    Linked (t.unlink x) (.head j) ((t.unlink x).head j) m := by
  rw [unlink_head ne source member]
  refine linked.congr (fun z inside => unlink_next_outside source member fun found => apart z found inside)
    fun z inside => unlink_prev ?_
  exact fun next => apart z (source.next_mem member next) inside

end

end Retrobsd.Lib.Threads

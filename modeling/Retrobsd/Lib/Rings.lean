import Retrobsd.Lib.Indices

/-! Families of circular doubly linked lists over one pool of items. Every list
has a head of its own, and the links of heads and items are two functions on
nodes, so that taking an item out needs no head. -/
namespace Retrobsd.Lib.Rings
open List
open Function

inductive Node (η β : Type) where
  | head (h : η)
  | item (b : β)
deriving DecidableEq

structure Links (ν : Type) where
  forw : ν → ν
  back : ν → ν

section
variable {ν : Type} [DecidableEq ν]

def Links.unlink (k : Links ν) (x : ν) : Links ν :=
  let k : Links ν := {k with forw := update k.forw (k.back x) (k.forw x)}
  {k with back := update k.back (k.forw x) (k.back x)}

/-- `x->forw = d->forw; x->back = d; d->forw->back = x; d->forw = x;` -/
def Links.insertAfter (k : Links ν) (d x : ν) : Links ν :=
  let k : Links ν := {k with forw := update k.forw x (k.forw d)}
  let k : Links ν := {k with back := update k.back x d}
  let k : Links ν := {k with back := update k.back (k.forw d) x}
  {k with forw := update k.forw d x}

/-- `d->forw->back = x; x->forw = d->forw; d->forw = x; x->back = d;` -/
def Links.insertHead (k : Links ν) (d x : ν) : Links ν :=
  let k : Links ν := {k with back := update k.back (k.forw d) x}
  let k : Links ν := {k with forw := update k.forw x (k.forw d)}
  let k : Links ν := {k with forw := update k.forw d x}
  {k with back := update k.back x d}

/-- `d->back->forw = x; x->back = d->back; d->back = x; x->forw = d;` -/
def Links.insertBefore (k : Links ν) (d x : ν) : Links ν :=
  let k : Links ν := {k with forw := update k.forw (k.back d) x}
  let k : Links ν := {k with back := update k.back x (k.back d)}
  let k : Links ν := {k with back := update k.back d x}
  {k with forw := update k.forw x d}

end

variable {ν : Type}

def items {η β : Type} (k : Links (Node η β)) : Nat → Node η β → List β
  | 0,_ => []
  | _ + 1,.head _ => []
  | fuel + 1,.item b => b :: items k fuel (k.forw (.item b))

/-- From `a` over the nodes of `l` to `b`, with the backward links alike. -/
def Path (k : Links ν) (a : ν) : List ν → ν → Prop
  | [],b => k.forw a = b ∧ k.back b = a
  | x :: l,b => k.forw a = x ∧ k.back x = a ∧ Path k x l b

theorem path_append (k : Links ν) (a b x : ν) (l m : List ν) : Path k a (l ++ x :: m) b ↔ Path k a l x ∧ Path k x m b := by
  induction l generalizing a with
  | nil => simp [Path,and_assoc]
  | cons y l ih => simp [Path,ih,and_assoc]

variable {k : Links ν} {a b : ν} {l : List ν}

theorem Path.congr {k' : Links ν} (path : Path k a l b)
    (forw : ∀ n ∈ a :: l, k'.forw n = k.forw n) (back : ∀ n ∈ b :: l, k'.back n = k.back n) : Path k' a l b := by
  induction l generalizing a with
  | nil => exact ⟨(forw a (by simp)).trans path.1,(back b (by simp)).trans path.2⟩
  | cons x l ih =>
    refine ⟨(forw a (by simp)).trans path.1,(back x (by simp)).trans path.2.1,?_⟩
    refine ih path.2.2 (fun n member => forw n (mem_cons_of_mem _ member)) (fun n member => back n ?_)
    rcases mem_cons.mp member with rfl | inside
    · simp
    · simp [inside]

theorem Path.back_mem (path : Path k a l b) : k.back b ∈ a :: l := by
  induction l generalizing a with
  | nil => simp [path.2]
  | cons x l ih => exact mem_cons_of_mem _ (ih path.2.2)

theorem Path.forw_mem (path : Path k a l b) : k.forw a ∈ b :: l := by
  cases l with
  | nil => simp [path.1]
  | cons x l => simp [path.1]

theorem Path.retarget {k' : Links ν} {z : ν} (path : Path k a l b) (distinct : (a :: l).Nodup)
    (forw : ∀ n ∈ a :: l, n ≠ k.back b → k'.forw n = k.forw n) (last : k'.forw (k.back b) = z)
    (back : ∀ n ∈ l, k'.back n = k.back n) (ends : k'.back z = k.back b) : Path k' a l z := by
  induction l generalizing a with
  | nil =>
    rw [path.2] at last ends
    exact ⟨last,ends⟩
  | cons x l ih =>
    have inside := path.2.2.back_mem
    have other : a ≠ k.back b := fun same => (nodup_cons.mp distinct).1 (same ▸ inside)
    refine ⟨(forw a (by simp) other).trans path.1,(back x (by simp)).trans path.2.1,?_⟩
    exact ih path.2.2 distinct.of_cons (fun n member => forw n (mem_cons_of_mem _ member)) (fun n member =>
      back n (mem_cons_of_mem _ member))

section
variable [DecidableEq ν] {k : Links ν} {d x : ν} {l m : List ν}

theorem Path.unlink (path : Path k d (l ++ x :: m) d) (distinct : (d :: (l ++ x :: m)).Nodup) :
    Path (k.unlink x) d (l ++ m) d := by
  obtain ⟨first,second⟩ := (path_append k d d x l m).mp path
  have parts : (d :: l).Nodup := distinct.sublist (by simp)
  have source := first.back_mem
  have after : k.forw x ∈ d :: m := second.forw_mem
  have apart : k.back x ≠ x := by
    intro same
    rw [same] at source
    simp only [nodup_cons,mem_append,mem_cons,not_or,nodup_append] at distinct
    rcases mem_cons.mp source with rfl | inside
    · simp at distinct
    · exact distinct.2.2.2 x inside x (by simp) rfl
  have next : (k.unlink x).back = update k.back (k.forw x) (k.back x) := by
    simp only [Links.unlink,update_of_ne (Ne.symm apart)]
  have prior : (k.unlink x).forw = update k.forw (k.back x) (k.forw x) := rfl
  have head : ∀ z, z = k.forw x → (∀ n ∈ l, n ≠ z) → Path (k.unlink x) d l z := by
    rintro z rfl outside
    refine first.retarget parts ?_ ?_ ?_ ?_
    · intro n member other
      rw [prior,update_of_ne other]
    · rw [prior,update_self]
    · intro n member
      rw [next,update_of_ne (outside n member)]
    · rw [next,update_self]
  simp only [nodup_cons,mem_append,mem_cons,not_or,nodup_append] at distinct
  cases m with
  | nil =>
    rw [append_nil]
    refine head d second.1.symm fun n member same => ?_
    exact distinct.1.1 (same ▸ member)
  | cons z m =>
    refine (path_append _ _ _ _ _ _).mpr ⟨head z second.1.symm ?_,?_⟩
    · intro n member same
      exact distinct.2.2.2 n member n (by simp [same]) rfl
    refine second.2.2.congr ?_ ?_
    · intro n member
      rw [prior,update_of_ne]
      rintro rfl
      rcases mem_cons.mp source with same | inside
      · exact distinct.1.2.2 (by rw [← same]; exact member)
      · exact distinct.2.2.2 _ inside _ (.inr member) rfl
    intro n member
    rw [next,second.1,update_of_ne]
    rintro rfl
    rcases mem_cons.mp member with same | inside
    · exact distinct.1.2.2 (by simp [same])
    have fresh := distinct.2.2.1
    simp only [nodup_cons] at fresh
    exact fresh.2.1 inside

theorem Path.insertAfter (path : Path k d l d) (distinct : (d :: l).Nodup) (fresh : x ∉ d :: l) :
    Path (k.insertAfter d x) d (x :: l) d := by
  have other : x ≠ d := fun same => fresh (by simp [same])
  have old := path.forw_mem
  have target : k.forw d ≠ x := fun same => fresh (same ▸ old)
  have forw : (k.insertAfter d x).forw = update (update k.forw x (k.forw d)) d x := rfl
  have back : (k.insertAfter d x).back = update (update k.back x d) (k.forw d) x := by
    simp only [Links.insertAfter,update_of_ne (Ne.symm other)]
  refine ⟨by rw [forw,update_self],?_,?_⟩
  · rw [back,update_of_ne (Ne.symm target),update_self]
  cases l with
  | nil =>
    refine ⟨?_,?_⟩
    · rw [forw,update_of_ne other,update_self,path.1]
    · rw [back,path.1,update_self]
  | cons z l =>
    have apart : ∀ n ∈ z :: l, n ≠ d := fun n member same => (nodup_cons.mp distinct).1 (same ▸ member)
    have away : ∀ n ∈ z :: l, n ≠ x := fun n member same => fresh (mem_cons_of_mem _ (same ▸ member))
    refine ⟨?_,?_,path.2.2.congr ?_ ?_⟩
    · rw [forw,update_of_ne other,update_self,path.1]
    · rw [back,path.1,update_self]
    · intro n member
      rw [forw,update_of_ne (apart n member),update_of_ne (away n member)]
    intro n member
    rcases mem_cons.mp member with rfl | inside
    · rw [back,path.1,update_of_ne (Ne.symm (apart z (by simp))),update_of_ne (Ne.symm other)]
    have differs : n ≠ z := fun same => (nodup_cons.mp distinct.of_cons).1 (same ▸ inside)
    rw [back,path.1,update_of_ne differs,update_of_ne (away n (by simp [inside]))]

theorem insertHead_eq (path : Path k d l d) (fresh : x ∉ d :: l) : k.insertHead d x = k.insertAfter d x := by
  have other : d ≠ x := fun same => fresh (by simp [same])
  have target : k.forw d ≠ x := fun same => fresh (same ▸ path.forw_mem)
  simp only [Links.insertHead,Links.insertAfter,update_of_ne other,update_comm target]

theorem Path.insertBefore (path : Path k d l d) (distinct : (d :: l).Nodup) (fresh : x ∉ d :: l) :
    Path (k.insertBefore d x) d (l ++ [x]) d := by
  have other : x ≠ d := fun same => fresh (by simp [same])
  have source := path.back_mem
  have target : k.back d ≠ x := fun same => fresh (same ▸ source)
  have forw : (k.insertBefore d x).forw = update (update k.forw (k.back d) x) x d := rfl
  have back : (k.insertBefore d x).back = update (update k.back x (k.back d)) d x := rfl
  refine (path_append _ _ _ _ _ _).mpr ⟨path.retarget distinct ?_ ?_ ?_ ?_,?_,?_⟩
  · intro n member last
    have away : n ≠ x := fun same => fresh (same ▸ member)
    rw [forw,update_of_ne away,update_of_ne last]
  · rw [forw,update_of_ne target,update_self]
  · intro n member
    have away : n ≠ x := fun same => fresh (mem_cons_of_mem _ (same ▸ member))
    have apart : n ≠ d := fun same => (nodup_cons.mp distinct).1 (same ▸ member)
    rw [back,update_of_ne apart,update_of_ne away]
  · rw [back,update_of_ne other,update_self]
  · rw [forw,update_self]
  · rw [back,update_self]

end

section
variable {η β : Type}

def Near (lists : η → List β) (h : η) (n : Node η β) : Prop := n = .head h ∨ ∃ c ∈ lists h, n = .item c

/-- Each head leads over its list and back to itself, and no item is linked twice. -/
structure Holds (k : Links (Node η β)) (lists : η → List β) : Prop where
  path : ∀ h, Path k (.head h) ((lists h).map .item) (.head h)
  nodup : ∀ h, (lists h).Nodup
  disjoint : ∀ h h' b, b ∈ lists h → b ∈ lists h' → h = h'

variable {k : Links (Node η β)} {lists : η → List β} {h : η} {b : β} {l : List β} {n : Node η β}

theorem nodup_ring (h : η) (distinct : l.Nodup) : (Node.head h :: l.map Node.item).Nodup := by
  refine nodup_cons.mpr ⟨by simp,distinct.map fun a b same => by cases same; rfl⟩

theorem near_of_mem (member : n ∈ Node.head h :: (lists h).map Node.item) : Near lists h n := by
  rcases mem_cons.mp member with same | inside
  · exact .inl same
  obtain ⟨c,present,rfl⟩ := mem_map.mp inside
  exact .inr ⟨c,present,rfl⟩

theorem Holds.apart (holds : Holds k lists) {g : η} (other : g ≠ h) (here : Near lists g n) : ¬ Near lists h n := by
  rcases here with rfl | ⟨c,present,rfl⟩ <;> rintro (same | ⟨c',there,same⟩) <;> cases same
  · exact other rfl
  · exact other (holds.disjoint g h c present there)

theorem Holds.unchanged (holds : Holds k lists) {k' : Links (Node η β)}
    (forw : ∀ n, Near lists h n → k'.forw n = k.forw n) (back : ∀ n, Near lists h n → k'.back n = k.back n) :
    Path k' (.head h) ((lists h).map .item) (.head h) :=
  (holds.path h).congr (fun n member => forw n (near_of_mem member)) (fun n member => back n (near_of_mem member))

theorem Holds.neighbours (holds : Holds k lists) (member : b ∈ lists h) :
    Near lists h (k.forw (.item b)) ∧ Near lists h (k.back (.item b)) := by
  obtain ⟨l,m,parts⟩ := append_of_mem member
  have path := holds.path h
  rw [parts,map_append,map_cons,path_append] at path
  have after := path.2.forw_mem
  have before := path.1.back_mem
  refine ⟨near_of_mem ?_,near_of_mem ?_⟩ <;> rw [parts] <;> simp only [mem_cons,map_append,map_cons,mem_append] at after before ⊢
  · tauto
  · tauto

theorem items_path (path : Path k n (l.map .item) (.head h)) (fuel : Nat) (enough : l.length < fuel) :
    items k fuel (k.forw n) = l := by
  induction l generalizing n fuel with
  | nil =>
    obtain _ | fuel := fuel
    · omega
    rw [path.1,items]
  | cons b l ih =>
    obtain _ | fuel := fuel
    · omega
    rw [path.1,items,ih path.2.2 fuel (by simpa using enough)]

theorem Holds.items_eq (holds : Holds k lists) (h : η) (fuel : Nat) (enough : (lists h).length < fuel) :
    items k fuel (k.forw (.head h)) = lists h :=
  items_path (holds.path h) fuel enough

theorem Holds.forw_head_eq (holds : Holds k lists) (h : η) :
    k.forw (.head h) = match lists h with | [] => .head h | b :: _ => .item b := by
  have path := holds.path h
  cases found : lists h with
  | nil =>
    rw [found] at path
    exact path.1
  | cons b l =>
    rw [found] at path
    exact path.1

theorem split_of_mem (distinct : l.Nodup) (member : b ∈ l) : ∃ init tail, l = init ++ b :: tail ∧ b ∉ init := by
  obtain ⟨init,tail,rfl⟩ := append_of_mem member
  refine ⟨init,tail,rfl,fun present => ?_⟩
  exact (nodup_append.mp distinct).2.2 b present b (by simp) rfl

theorem Holds.fresh_node (fresh : ∀ g, b ∉ lists g) : Node.item b ∉ Node.head h :: (lists h).map Node.item := by
  simpa using fresh h

theorem Holds.forw_head (holds : Holds k lists) (h : η) : Near lists h (k.forw (.head h)) := near_of_mem (holds.path h).forw_mem

theorem Holds.back_head (holds : Holds k lists) (h : η) : Near lists h (k.back (.head h)) := near_of_mem (holds.path h).back_mem

variable [DecidableEq η]

theorem Holds.insert (holds : Holds k lists) (fresh : ∀ g, b ∉ lists g) {k' : Links (Node η β)}
    (order : l.Perm (b :: lists h)) (path : Path k' (.head h) (l.map .item) (.head h))
    (forw : ∀ n, n ≠ .item b → ¬ Near lists h n → k'.forw n = k.forw n)
    (back : ∀ n, n ≠ .item b → ¬ Near lists h n → k'.back n = k.back n) :
    Holds k' (update lists h l) := by
  have inside : ∀ g, ∀ c ∈ update lists h l g, c ∈ lists g ∨ (c = b ∧ g = h) :=
    (forall_update_iff lists fun g l => ∀ c ∈ l, c ∈ lists g ∨ (c = b ∧ g = h)).mpr
    ⟨fun c present => (mem_cons.mp (order.mem_iff.mp present)).elim (fun new => .inr ⟨new,rfl⟩) .inl,fun g _ c => .inl⟩
  refine ⟨?_,?_,?_⟩
  · refine (forall_update_iff lists fun g l => Path k' (.head g) (l.map .item) (.head g)).mpr ⟨path,fun g same => ?_⟩
    have item : ∀ n, Near lists g n → n ≠ .item b := by
      rintro n (rfl | ⟨c,present,rfl⟩) equal <;> cases equal
      exact fresh g present
    exact holds.unchanged (fun n near => forw n (item n near) (holds.apart same near))
      (fun n near => back n (item n near) (holds.apart same near))
  · exact (forall_update_iff lists fun _ l => l.Nodup).mpr
      ⟨order.nodup_iff.mpr (nodup_cons.mpr ⟨fresh h,holds.nodup h⟩),fun g _ => holds.nodup g⟩
  · intro g g' c one two
    rcases inside g c one with old | ⟨rfl,rfl⟩ <;> rcases inside g' _ two with old' | ⟨new,rfl⟩
    · exact holds.disjoint g g' c old old'
    · exact absurd (new ▸ old) (fresh g)
    · exact absurd old' (fresh g')
    · rfl

variable [DecidableEq β]

theorem unlink_forw_self (k : Links (Node η β)) (x : Node η β) : update k.forw (k.back x) (k.forw x) x = k.forw x := by
  by_cases self : x = k.back x
  · rw [← self,update_self]
  · rw [update_of_ne self]

theorem Holds.unlink (holds : Holds k lists) (member : b ∈ lists h) :
    Holds (k.unlink (.item b)) (update lists h ((lists h).erase b)) := by
  obtain ⟨after,before⟩ := holds.neighbours member
  have inside : ∀ g, update lists h ((lists h).erase b) g ⊆ lists g :=
    (forall_update_iff lists fun g l => l ⊆ lists g).mpr ⟨fun _ => mem_of_mem_erase,fun _ _ => Subset.refl _⟩
  refine ⟨?_,?_,fun g g' c one two => holds.disjoint g g' c (inside g one) (inside g' two)⟩
  · refine (forall_update_iff lists fun g l => Path (k.unlink (.item b)) (.head g) (l.map .item) (.head g)).mpr
      ⟨?_,fun g same => ?_⟩
    · obtain ⟨l,m,parts,away⟩ := split_of_mem (holds.nodup h) member
      have path := holds.path h
      have distinct := nodup_ring h (holds.nodup h)
      rw [parts,map_append,map_cons] at path distinct
      rw [parts,erase_append_right _ away,erase_cons_head,map_append]
      exact path.unlink distinct
    refine holds.unchanged (fun n near => ?_) (fun n near => ?_)
    · exact update_of_ne (fun equal : n = _ => holds.apart same near (equal ▸ before)) _ _
    refine update_of_ne (fun equal => holds.apart same near ?_) _ _
    rw [equal]
    show Near lists h (update k.forw (k.back (.item b)) (k.forw (.item b)) (.item b))
    rw [unlink_forw_self]
    exact after
  · exact (forall_update_iff lists fun _ l => l.Nodup).mpr ⟨(holds.nodup h).erase b,fun g _ => holds.nodup g⟩

theorem Holds.insertAfter (holds : Holds k lists) (fresh : ∀ g, b ∉ lists g) :
    Holds (k.insertAfter (.head h) (.item b)) (update lists h (b :: lists h)) := by
  refine holds.insert fresh (List.Perm.refl _) ?_ ?_ ?_
  · exact (holds.path h).insertAfter (nodup_ring h (holds.nodup h)) (Holds.fresh_node fresh)
  · intro n item away
    have other : n ≠ .head h := fun same => away (.inl same)
    simp only [Links.insertAfter,update_of_ne other,update_of_ne item]
  intro n item away
  have first : (Node.head h : Node η β) ≠ .item b := fun same => by cases same
  have other : n ≠ k.forw (.head h) := fun same => away (same ▸ holds.forw_head h)
  simp only [Links.insertAfter,update_of_ne first,update_of_ne other,update_of_ne item]

theorem Holds.insertHead (holds : Holds k lists) (fresh : ∀ g, b ∉ lists g) :
    Holds (k.insertHead (.head h) (.item b)) (update lists h (b :: lists h)) := by
  rw [insertHead_eq (holds.path h) (Holds.fresh_node fresh)]
  exact holds.insertAfter fresh

theorem Holds.insertBefore (holds : Holds k lists) (fresh : ∀ g, b ∉ lists g) :
    Holds (k.insertBefore (.head h) (.item b)) (update lists h (lists h ++ [b])) := by
  refine holds.insert fresh (perm_append_singleton _ _) ?_ ?_ ?_
  · rw [map_append]
    exact (holds.path h).insertBefore (nodup_ring h (holds.nodup h)) (Holds.fresh_node fresh)
  · intro n item away
    have other : n ≠ k.back (.head h) := fun same => away (same ▸ holds.back_head h)
    simp only [Links.insertBefore,update_of_ne other,update_of_ne item]
  · intro n item away
    have other : n ≠ .head h := fun same => away (.inl same)
    simp only [Links.insertBefore,update_of_ne other,update_of_ne item]

end
end Retrobsd.Lib.Rings

import Retrobsd.Lib.Rings
import Retrobsd.Lib.Threads

/-! The table of the inodes in core, of `ufs_inode.c`: hash chains by device and number,
and the list of the slots without a reference, which keep what they were read with. -/
namespace Retrobsd.InodeCache
open List
open Function
open Lib.Rings (Node Links items)
open Lib.Threads (Cell Backed Linked)

def ninode : Nat := 24
def inohsz : Nat := 16
def rootino : Nat := 2

abbrev Slot := Fin ninode

structure Dinode where
  mode : Nat
  nlink : Nat
  uid : Nat
  gid : Nat
  size : Nat
  addr : Fin 7 → Nat
  flags : Nat
  atime : Nat
  mtime : Nat
  ctime : Nat

/-- A slot, with those bits of `i_flag` that are looked at here. -/
structure Inode where
  ilocked : Bool
  iwant : Bool
  imount : Bool
  iupd : Bool
  iacc : Bool
  ichg : Bool
  imod : Bool
  ipipe : Bool
  count : Nat
  dev : Nat
  number : Nat
  node : Dinode

def Inode.setFlag (ip : Inode) (ilocked : Bool) : Inode := {ip with
    ilocked,iwant := false,imount := false
    iupd := false,iacc := false,ichg := false,imod := false,ipipe := false}

/-- `ihead` with `i_forw` and `i_back`, and `ifreeh` and `ifreet` with `i_freef` and
`i_freeb`, which nothing reads while the slot is in use. -/
structure Table where
  hash : Links (Node (Fin inohsz) Slot)
  free : Backed Unit Slot
  freet : Cell Unit Slot
  inode : Slot → Inode

structure Mount where
  inodp : Option Slot
  dev : Nat

def inohash (dev ino : Nat) : Fin inohsz := ⟨(dev + ino) % inohsz,Nat.mod_lt _ (by decide)⟩

def Table.set (t : Table) (x : Slot) (ip : Inode) : Table := {t with inode := update t.inode x ip}

def Table.chain (t : Table) (dev ino : Nat) : List Slot := items t.hash (ninode + 1) (t.hash.forw (.head (inohash dev ino)))

def Table.named (t : Table) (dev ino : Nat) (x : Slot) : Bool := ino == (t.inode x).number && dev == (t.inode x).dev

def Table.ifind (t : Table) (dev ino : Nat) : Option Slot := (t.chain dev ino).find? (t.named dev ino)

def Table.unhash (t : Table) (x : Slot) : Table :=
  let hash := t.hash.unlink (.item x)
  {t with hash := {hash with
    forw := update hash.forw (.item x) (.item x)
    back := update hash.back (.item x) (.item x)}}

def Table.rehash (t : Table) (x : Slot) (dev ino : Nat) : Table :=
  {t with hash := (t.hash.unlink (.item x)).insertAfter (.head (inohash dev ino)) (.item x)}

def Table.unfree (t : Table) (x : Slot) : Table :=
  let freet := if (t.free.next x).isNone then t.free.prev x else t.freet
  let free := t.free.unlink x
  {t with free := {free with next := update free.next x none},freet}

/-- The first slot of the free list is taken; `ifreet` stays as it is. -/
def Table.unfreeFirst (t : Table) (x : Slot) : Table :=
  let iq := t.free.next x
  let free := ({t.free with head := update t.free.head () iq} : Backed Unit Slot).setPrev iq (.head ())
  {t with free := {free with next := update free.next x none}}

def Table.refree (t : Table) (x : Slot) : Table :=
  let free : Backed Unit Slot := match t.free.head () with
    | some _ => {t.free with toStore := t.free.put t.freet (some x),prev := update t.free.prev x t.freet}
    | none => {t.free with head := update t.free.head () (some x),prev := update t.free.prev x (.head ())}
  {t with free := {free with next := update free.next x none},freet := .link x}

inductive Look where
  | locked (x : Slot)
  | mounted (dev : Nat)
  | noImt
  | incore (x : Slot)
  | full
  | recycle (x : Slot)
  | notFree

def Table.look (t : Table) (mount : List Mount) (dev ino : Nat) : Look :=
  match t.ifind dev ino with
  | some x =>
    if (t.inode x).ilocked then .locked x
    else if (t.inode x).imount then
      match mount.find? (·.inodp == some x) with
      | some mp => .mounted mp.dev
      | none => .noImt
    else .incore x
  | none => match t.free.head () with
    | none => .full
    | some x => if (t.inode x).count ≠ 0 then .notFree else .recycle x

def Table.hold (t : Table) (x : Slot) : Table :=
  let t := if (t.inode x).count = 0 then t.unfree x else t
  let ip := t.inode x
  t.set x {ip with count := ip.count + 1,ilocked := true}

def Table.claim (t : Table) (x : Slot) (dev ino : Nat) : Table :=
  let t := (t.unfreeFirst x).rehash x dev ino
  let ip := (t.inode x).setFlag true
  t.set x {ip with dev,number := ino,count := ip.count + 1}

def Table.forget (t : Table) (x : Slot) : Table :=
  let t := t.unhash x
  t.set x {t.inode x with number := 0}

def Table.retire (t : Table) (x : Slot) : Table :=
  let t := (t.set x ((t.inode x).setFlag false)).refree x
  let ip := t.inode x
  t.set x {ip with count := ip.count - 1}

/-- `*ifreet = ip; ip->i_freeb = ifreet; ifreet = &ip->i_freef;` -/
def Table.initSlot (t : Table) (x : Slot) : Table := {t with
    free := {t.free with toStore := t.free.put t.freet (some x),prev := update t.free.prev x t.freet}
    freet := .link x}

def Table.ihinit (inode : Slot → Inode) : Table :=
  let first : Slot := ⟨0,by decide⟩
  let t : Table := {
    hash := {forw := id,back := id}
    free := {head := fun _ => some first,next := fun _ => none,prev := fun _ => .head ()}
    freet := .link first
    inode}
  let t := ((List.finRange ninode).drop 1).foldl Table.initSlot t
  {t with free := {t.free with toStore := t.free.put t.freet none}}

structure Listed (t : Table) (l : List Slot) : Prop where
  linked : Linked t.free (.head ()) (t.free.head ()) l
  once : l.Nodup
  tail : ∀ x, l.getLast? = some x → t.freet = .link x

/-- The hash chains. A slot that is on none of them is alone on a chain of its own. -/
structure Hashed (t : Table) (lists : Fin inohsz → List Slot) : Prop where
  holds : Lib.Rings.Holds t.hash lists
  alone : ∀ x, (∀ h, x ∉ lists h) → t.hash.forw (.item x) = .item x ∧ t.hash.back (.item x) = .item x
  place : ∀ h, ∀ x ∈ lists h, h = inohash (t.inode x).dev (t.inode x).number
  unique : ∀ h, ∀ x ∈ lists h, ∀ y ∈ lists h, (t.inode x).dev = (t.inode y).dev → (t.inode x).number = (t.inode y).number → x = y

variable {t : Table} {l : List Slot} {x : Slot}

theorem linked_setNext {t : Backed Unit Slot} {p v : Option Slot} (linked : Linked t (.head ()) p l)
    (absent : x ∉ l) : Linked {t with next := update t.next x v} (.head ()) p l :=
  linked.congr (fun y inside => update_of_ne (fun same : y = x => absent (same ▸ inside)) _ _) fun _ _ => rfl

theorem Listed.set (listed : Listed t l) (ip : Inode) : Listed (t.set x ip) l := ⟨listed.linked,listed.once,listed.tail⟩

theorem Listed.unfree (listed : Listed t l) (member : x ∈ l) : Listed (t.unfree x) (l.erase x) := by
  obtain ⟨a,b,rfl⟩ := append_of_mem member
  have fresh : x ∉ a := fun inside => (nodup_append.mp listed.once).2.2 x inside x mem_cons_self rfl
  have absent : x ∉ (a ++ x :: b).erase x := fun inside => (Nodup.not_mem_erase listed.once) inside
  obtain ⟨next,prev⟩ := listed.linked.middle
  have rest := Lib.Threads.unlink_listed listed.linked listed.once member
  refine ⟨linked_setNext rest absent,listed.once.erase x,fun y found => ?_⟩
  have shape : (a ++ x :: b).erase x = a ++ b := by
    rw [erase_append_right _ fresh,erase_cons_head]
  rw [shape] at found
  show (if (t.free.next x).isNone then t.free.prev x else t.freet) = .link y
  cases b with
  | nil =>
    rw [append_nil] at found
    rw [if_pos (by rw [next]; rfl),prev,found]
    rfl
  | cons z b =>
    rw [if_neg (by rw [next]; simp)]
    refine listed.tail y ?_
    rw [← found,getLast?_append,getLast?_append,getLast?_cons_cons]

theorem Listed.unfreeFirst (listed : Listed t (x :: l)) : Listed (t.unfreeFirst x) l := by
  obtain ⟨first,prev,_⟩ := listed.linked
  obtain ⟨absent,single⟩ := nodup_cons.mp listed.once
  have same : (t.unfreeFirst x).free = (t.unfree x).free := by
    simp only [Table.unfreeFirst,Table.unfree,Backed.unlink,prev,Lib.Threads.Store.put]
  have rest : Linked (t.unfreeFirst x).free (.head ()) ((t.unfreeFirst x).free.head ()) l := by
    have erased := (listed.unfree mem_cons_self).linked
    rwa [erase_cons_head,← same] at erased
  refine ⟨rest,single,fun y found => listed.tail y ?_⟩
  obtain ⟨z,m,rfl⟩ := exists_cons_of_ne_nil (ne_nil_of_mem (mem_of_getLast? found))
  rwa [getLast?_cons_cons]

theorem Listed.refree (listed : Listed t l) (absent : x ∉ l) : Listed (t.refree x) (l ++ [x]) := by
  refine ⟨?_,nodup_append.mpr ⟨listed.once,nodup_singleton x,?_⟩,fun y found => ?_⟩
  · have whole := listed.linked
    unfold Table.refree
    rcases eq_nil_or_concat l with rfl | ⟨m,z,rfl⟩
    · have empty : t.free.head () = none := whole
      simp only [empty]
      exact ⟨update_self _ _ _,update_self _ _ _,update_self _ _ _⟩
    have tail := listed.tail z (by simp)
    obtain ⟨y,first⟩ : ∃ y, t.free.head () = some y := by
      cases m with
      | nil => exact ⟨z,whole.1⟩
      | cons w m => exact ⟨w,whole.1⟩
    have other : ∀ y ∈ m.concat z, y ≠ x := fun y inside same => absent (same ▸ inside)
    simp only [first,tail]
    have longer := whole.snoc (x := x) (r := {
      head := t.free.head
      next := update (update t.free.next z (some x)) x none
      prev := update t.free.prev x (.link z)}) listed.once
      (fun y inside => update_of_ne (other y inside) _ _) ?_ ?_ ?_ (update_self _ _ _)
    · rw [if_neg (by simp)] at longer
      exact longer
    · intro y inside last
      refine (update_of_ne (other y inside) _ _).trans (update_of_ne (fun same => last ?_) _ _)
      rw [same]
      simp
    · intro y last
      obtain rfl : z = y := by simpa using last
      exact (update_of_ne (other z (by simp)) _ _).trans (update_self _ _ _)
    · rw [concat_eq_append,Lib.Threads.after_snoc]
      exact update_self _ _ _
  · rintro a inside b single rfl
    exact absent (mem_singleton.mp single ▸ inside)
  · obtain rfl : x = y := by simpa using found
    rfl

variable {lists : Fin inohsz → List Slot} {dev ino : Nat}

section
variable {t' : Table}

def SameName (t t' : Table) (y : Slot) : Prop := (t'.inode y).dev = (t.inode y).dev ∧ (t'.inode y).number = (t.inode y).number

theorem Hashed.chain (hashed : Hashed t lists) : t.chain dev ino = lists (inohash dev ino) := by
  refine hashed.holds.items_eq _ _ (Nat.lt_succ_of_le ?_)
  exact (hashed.holds.nodup _).length_le_card.trans_eq (Fintype.card_fin ninode)

theorem named_iff : t.named dev ino x = true ↔ (t.inode x).dev = dev ∧ (t.inode x).number = ino := by
  simp only [Table.named,Bool.and_eq_true,beq_iff_eq]
  exact ⟨fun ⟨number,device⟩ => ⟨device.symm,number.symm⟩,fun ⟨device,number⟩ => ⟨number.symm,device.symm⟩⟩

section
variable (hashed : Hashed t lists)
include hashed

theorem Hashed.ifind_some : t.ifind dev ino = some x ↔ x ∈ lists (inohash dev ino) ∧ (t.inode x).dev = dev ∧
    (t.inode x).number = ino := by
  unfold Table.ifind
  rw [hashed.chain]
  constructor
  · intro found
    exact ⟨mem_of_find?_eq_some found,named_iff.mp (List.find?_some found)⟩
  rintro ⟨member,name⟩
  cases found : (lists (inohash dev ino)).find? (t.named dev ino) with
  | none => exact absurd (named_iff.mpr name) (by simpa using List.find?_eq_none.mp found x member)
  | some y =>
    obtain ⟨device,number⟩ := named_iff.mp (List.find?_some found)
    have same := hashed.unique _ y (mem_of_find?_eq_some found) x member (device.trans name.1.symm) (number.trans name.2.symm)
    rw [same]

theorem Hashed.ifind_none (missing : t.ifind dev ino = none) {y : Slot} {h : Fin inohsz}
    (member : y ∈ lists h) : ¬((t.inode y).dev = dev ∧ (t.inode y).number = ino) := by
  rintro ⟨rfl,rfl⟩
  have found := hashed.ifind_some.mpr ⟨hashed.place h y member ▸ member,rfl,rfl⟩
  rw [missing] at found
  cases found

theorem Hashed.same (hash : t'.hash = t.hash) (names : ∀ y, SameName t t' y) : Hashed t' lists := by
  refine ⟨hash ▸ hashed.holds,hash ▸ hashed.alone,fun h y member => ?_,fun h y first z second device number => ?_⟩
  · rw [(names y).1,(names y).2]
    exact hashed.place h y member
  rw [(names y).1,(names z).1] at device
  rw [(names y).2,(names z).2] at number
  exact hashed.unique h y first z second device number

theorem Hashed.unlinked (x : Slot) : Lib.Rings.Holds (t.hash.unlink (.item x)) fun h => (lists h).erase x := by
  by_cases linked : ∃ h, x ∈ lists h
  · obtain ⟨h,member⟩ := linked
    have same : (fun h => (lists h).erase x) = update lists h ((lists h).erase x) := by
      funext g
      by_cases here : g = h
      · rw [here,update_self]
      rw [update_of_ne here]
      exact erase_of_not_mem fun there => here (hashed.holds.disjoint g h x there member)
    rw [same]
    exact hashed.holds.unlink member
  have absent : ∀ h, x ∉ lists h := fun h member => linked ⟨h,member⟩
  obtain ⟨forw,back⟩ := hashed.alone x absent
  have same : t.hash.unlink (.item x) = t.hash := by
    simp only [Links.unlink,forw,back]
    have first : update t.hash.forw (.item x) (.item x) = t.hash.forw := by
      nth_rewrite 2 [← forw]
      exact update_eq_self _ _
    have second : update t.hash.back (.item x) (.item x) = t.hash.back := by
      nth_rewrite 2 [← back]
      exact update_eq_self _ _
    rw [first,forw,second]
  rw [same]
  simpa only [erase_of_not_mem (absent _)] using hashed.holds

theorem Hashed.unlinked_alone {y : Slot} (other : y ≠ x) (absent : ∀ h, y ∉ lists h) :
    (t.hash.unlink (.item x)).forw (.item y) = .item y ∧ (t.hash.unlink (.item x)).back (.item y) = .item y := by
  have apart : t.hash.forw (.item x) ≠ .item y ∧ t.hash.back (.item x) ≠ .item y := by
    by_cases linked : ∃ h, x ∈ lists h
    · obtain ⟨h,member⟩ := linked
      obtain ⟨after,before⟩ := hashed.holds.neighbours member
      constructor <;> intro same
      · rcases same ▸ after with head | ⟨z,inside,item⟩
        · cases head
        · exact absent h (Node.item.inj item ▸ inside)
      rcases same ▸ before with head | ⟨z,inside,item⟩
      · cases head
      · exact absent h (Node.item.inj item ▸ inside)
    · obtain ⟨forw,back⟩ := hashed.alone x fun h member => linked ⟨h,member⟩
      rw [forw,back]
      exact ⟨fun same => other (Node.item.inj same).symm,fun same => other (Node.item.inj same).symm⟩
  obtain ⟨forw,back⟩ := hashed.alone y absent
  constructor
  · exact (update_of_ne (Ne.symm apart.2) _ _).trans forw
  refine (update_of_ne ?_ _ _).trans back
  show Node.item y ≠ update t.hash.forw (t.hash.back (.item x)) (t.hash.forw (.item x)) (.item x)
  rw [Lib.Rings.unlink_forw_self]
  exact Ne.symm apart.1

theorem not_mem_erased (h : Fin inohsz) : x ∉ (lists h).erase x := Nodup.not_mem_erase (hashed.holds.nodup h)

theorem Hashed.unhash (hash : t'.hash = (t.unhash x).hash) (names : ∀ y, y ≠ x → SameName t t' y) :
    Hashed t' fun h => (lists h).erase x := by
  have kept : ∀ {h y}, y ∈ (lists h).erase x → y ≠ x ∧ y ∈ lists h :=
    fun member => ⟨fun same => not_mem_erased hashed _ (same ▸ member),mem_of_mem_erase member⟩
  have item : ∀ {h : Fin inohsz} {n}, Lib.Rings.Near (fun h => (lists h).erase x) h n → n ≠ .item x := by
    rintro h n (rfl | ⟨c,inside,rfl⟩) same
    · cases same
    · exact (kept inside).1 (Node.item.inj same)
  refine ⟨⟨fun h => ?_,(hashed.unlinked x).nodup,(hashed.unlinked x).disjoint⟩,fun y absent => ?_,fun h y member => ?_,
    fun h y first z second device number => ?_⟩
  · rw [hash]
    exact (hashed.unlinked x).unchanged (fun n near => update_of_ne (item near) _ _) fun n near => update_of_ne (item near) _ _
  · rw [hash]
    by_cases same : y = x
    · rw [same]
      exact ⟨update_self _ _ _,update_self _ _ _⟩
    have apart : (Node.item y : Node (Fin inohsz) Slot) ≠ .item x := fun equal => same (Node.item.inj equal)
    obtain ⟨forw,back⟩ := hashed.unlinked_alone same fun h member => absent h ((mem_erase_of_ne same).mpr member)
    exact ⟨(update_of_ne apart _ _).trans forw,(update_of_ne apart _ _).trans back⟩
  · obtain ⟨other,inside⟩ := kept member
    rw [(names y other).1,(names y other).2]
    exact hashed.place h y inside
  · obtain ⟨other,inside⟩ := kept first
    obtain ⟨other',inside'⟩ := kept second
    rw [(names y other).1,(names z other').1] at device
    rw [(names y other).2,(names z other').2] at number
    exact hashed.unique h y inside z inside' device number

def rehashed (lists : Fin inohsz → List Slot) (x : Slot) (dev ino : Nat) : Fin inohsz → List Slot :=
  update (fun h => (lists h).erase x) (inohash dev ino) (x :: (lists (inohash dev ino)).erase x)

theorem mem_rehashed {h : Fin inohsz} {y : Slot} :
    y ∈ rehashed lists x dev ino h ↔ y = x ∧ h = inohash dev ino ∨ y ≠ x ∧ y ∈ lists h := by
  unfold rehashed
  by_cases here : h = inohash dev ino
  · subst here
    rw [update_self,mem_cons]
    by_cases same : y = x
    · simp [same]
    · simp [same,mem_erase_of_ne same]
  rw [update_of_ne here]
  by_cases same : y = x
  · subst same
    simp [here,not_mem_erased hashed]
  · simp [same,mem_erase_of_ne same]

theorem Hashed.rehash (missing : t.ifind dev ino = none)
    (hash : t'.hash = (t.rehash x dev ino).hash) (named : (t'.inode x).dev = dev ∧ (t'.inode x).number = ino)
    (names : ∀ y, y ≠ x → SameName t t' y) : Hashed t' (rehashed lists x dev ino) := by
  have fresh : ∀ h, x ∉ (lists h).erase x := not_mem_erased hashed
  have holds : Lib.Rings.Holds t'.hash (rehashed lists x dev ino) := by
    rw [hash]
    exact (hashed.unlinked x).insertAfter fresh
  have other : ∀ {h y}, y ∈ rehashed lists x dev ino h → y ≠ x → y ∈ lists h ∧
    ¬((t'.inode y).dev = dev ∧ (t'.inode y).number = ino) := by
    intro h y member apart
    have inside := ((mem_rehashed hashed).mp member).elim (fun same => absurd same.1 apart) And.right
    refine ⟨inside,?_⟩
    rw [(names y apart).1,(names y apart).2]
    exact hashed.ifind_none missing inside
  refine ⟨holds,fun y absent => ?_,fun h y member => ?_,fun h y first z second device number => ?_⟩
  · have apart : y ≠ x := fun same => absent (inohash dev ino) ((mem_rehashed hashed).mpr (.inl ⟨same,rfl⟩))
    have outside : ∀ h, y ∉ lists h := fun h member => absent h ((mem_rehashed hashed).mpr (.inr ⟨apart,member⟩))
    obtain ⟨forw,back⟩ := hashed.unlinked_alone apart outside
    have item : (Node.item y : Node (Fin inohsz) Slot) ≠ .item x := fun equal => apart (Node.item.inj equal)
    have first : (Node.head (inohash dev ino) : Node (Fin inohsz) Slot) ≠ .item x := fun same => by cases same
    have after : Node.item y ≠ (t.hash.unlink (.item x)).forw (.head (inohash dev ino)) := by
      intro same
      rcases (hashed.unlinked x).forw_head (inohash dev ino) with head | ⟨z,inside,found⟩
      · cases same.trans head
      · exact outside _ (mem_of_mem_erase (Node.item.inj (same.trans found) ▸ inside))
    rw [hash]
    simp only [Table.rehash,Links.insertAfter,update_of_ne item,update_of_ne first,ne_eq,reduceCtorEq,
      not_false_eq_true,update_of_ne,update_of_ne after]
    exact ⟨forw,back⟩
  · by_cases same : y = x
    · rw [same,named.1,named.2]
      exact ((mem_rehashed hashed).mp member).elim And.right fun apart => absurd same apart.1
    rw [(names y same).1,(names y same).2]
    exact hashed.place h y (other member same).1
  · by_cases here : y = x
    · subst here
      by_contra apart
      exact (other second (Ne.symm apart)).2 ⟨device.symm.trans named.1,number.symm.trans named.2⟩
    by_cases there : z = x
    · subst there
      exact absurd ⟨device.trans named.1,number.trans named.2⟩ (other first here).2
    rw [(names y here).1,(names z there).1] at device
    rw [(names y here).2,(names z there).2] at number
    exact hashed.unique h y (other first here).1 z (other second there).1 device number

end

end

structure Cached (t : Table) (lists : Fin inohsz → List Slot) (l : List Slot) : Prop where
  hashed : Hashed t lists
  listed : Listed t l
  free : ∀ x, x ∈ l ↔ (t.inode x).count = 0

theorem set_other {ip : Inode} {y : Slot} (other : y ≠ x) : (t.set x ip).inode y = t.inode y := update_of_ne other _ _

theorem set_self {ip : Inode} : (t.set x ip).inode x = ip := update_self _ _ _

theorem Cached.set (cached : Cached t lists l) {ip : Inode} (dev : ip.dev = (t.inode x).dev)
    (number : ip.number = (t.inode x).number)
    (count : ip.count = 0 ↔ (t.inode x).count = 0) : Cached (t.set x ip) lists l := by
  refine ⟨cached.hashed.same rfl fun y => ?_,cached.listed.set ip,fun y => ?_⟩ <;> by_cases same : y = x
  · rw [same,SameName,set_self]
    exact ⟨dev,number⟩
  · rw [SameName,set_other same]
    exact ⟨rfl,rfl⟩
  · rw [same,set_self,count]
    exact cached.free x
  · rw [set_other same]
    exact cached.free y

theorem Cached.recount {t' : Table} {l' : List Slot} {lists' : Fin inohsz → List Slot} (cached : Cached t lists l)
    (hashed : Hashed t' lists') (listed : Listed t' l') (others : ∀ y, y ≠ x →
    (t'.inode y).count = (t.inode y).count ∧ (y ∈ l' ↔ y ∈ l))
    (here : x ∈ l' ↔ (t'.inode x).count = 0) : Cached t' lists' l' := by
  refine ⟨hashed,listed,fun y => ?_⟩
  by_cases same : y = x
  · rw [same]
    exact here
  rw [(others y same).1,(others y same).2]
  exact cached.free y

theorem claim_inode : (t.claim x dev ino).inode =
    update t.inode x {(t.inode x).setFlag true with dev,number := ino,count := (t.inode x).count + 1} := rfl

theorem forget_inode : (t.forget x).inode = update t.inode x {t.inode x with number := 0} := rfl

theorem refree_inode : (t.refree x).inode = t.inode := rfl

theorem retire_inode : (t.retire x).inode = update t.inode x
    {(t.inode x).setFlag false with count := (t.inode x).count - 1} := by
  simp only [Table.retire,Table.set,refree_inode,update_self,update_idem]
  rfl

theorem Cached.claim (cached : Cached t lists (x :: l)) (missing : t.ifind dev ino = none) :
    Cached (t.claim x dev ino) (rehashed lists x dev ino) l := by
  obtain ⟨absent,single⟩ := nodup_cons.mp cached.listed.once
  have rest := cached.listed.unfreeFirst
  have other : ∀ {y}, y ≠ x → (t.claim x dev ino).inode y = t.inode y := fun apart => by
    rw [claim_inode,update_of_ne apart]
  have here : ((t.claim x dev ino).inode x) =
    {(t.inode x).setFlag true with dev,number := ino,count := (t.inode x).count + 1} := by
    rw [claim_inode,update_self]
  refine cached.recount (x := x) ?_ ⟨rest.linked,rest.once,rest.tail⟩ (fun y apart => ⟨by rw [other apart],?_⟩) ?_
  · refine cached.hashed.rehash missing rfl (by rw [here]; exact ⟨rfl,rfl⟩) fun y apart => ?_
    rw [SameName,other apart]
    exact ⟨rfl,rfl⟩
  · rw [mem_cons]
    exact ⟨.inr,fun inside => inside.resolve_left apart⟩
  · rw [here]
    exact ⟨fun inside => absurd inside absent,fun zero => absurd zero (Nat.succ_ne_zero _)⟩

theorem Cached.forget (cached : Cached t lists l) : Cached (t.forget x) (fun h => (lists h).erase x) l := by
  have other : ∀ {y}, y ≠ x → (t.forget x).inode y = t.inode y := fun apart => by
    rw [forget_inode,update_of_ne apart]
  refine cached.recount (x := x) ?_ ⟨cached.listed.linked,cached.listed.once,cached.listed.tail⟩
    (fun y apart => ⟨by rw [other apart],Iff.rfl⟩) ?_
  · refine cached.hashed.unhash rfl fun y apart => ?_
    rw [SameName,other apart]
    exact ⟨rfl,rfl⟩
  · rw [forget_inode,update_self]
    exact cached.free x

theorem Cached.retire (cached : Cached t lists l) (last : (t.inode x).count = 1) : Cached (t.retire x) lists (l ++ [x]) := by
  have absent : x ∉ l := fun inside => by
    have free := (cached.free x).mp inside
    omega
  have longer := (cached.listed.set (x := x) ((t.inode x).setFlag false)).refree absent
  have other : ∀ {y}, y ≠ x → (t.retire x).inode y = t.inode y := fun apart => by
    rw [retire_inode,update_of_ne apart]
  refine cached.recount (x := x) (cached.hashed.same rfl fun y => ?_) ⟨longer.linked,longer.once,longer.tail⟩
    (fun y apart => ⟨by rw [other apart],?_⟩) ?_
  · by_cases same : y = x
    · rw [same,SameName,retire_inode,update_self]
      exact ⟨rfl,rfl⟩
    rw [SameName,other same]
    exact ⟨rfl,rfl⟩
  · rw [mem_append,mem_singleton]
    exact ⟨fun inside => inside.resolve_right apart,.inl⟩
  · rw [retire_inode,update_self]
    dsimp only
    rw [last]
    simp

theorem Cached.look_recycle {mount : List Mount} (cached : Cached t lists l) (found : t.look mount dev ino = .recycle x) :
    t.ifind dev ino = none ∧ ∃ m, l = x :: m := by
  unfold Table.look at found
  split at found
  · split_ifs at found
    split at found <;> cases found
  rename_i missing
  refine ⟨missing,?_⟩
  split at found
  · cases found
  rename_i y first
  split_ifs at found
  obtain rfl := Look.recycle.inj found
  have whole := cached.listed.linked
  cases l with
  | nil => exact absurd (first.symm.trans whole) (by simp)
  | cons z m => exact ⟨m,by rw [Option.some.inj (first.symm.trans whole.1)]⟩

theorem update_same {α β : Type} [DecidableEq α] {f : α → β} {a : α} {b : β} (same : f a = b) : update f a b = f := by
  rw [← same]
  exact update_eq_self _ _

theorem initSlot_next {y z : Slot} (tail : t.freet = .link z) (apart : y ≠ z) : (t.initSlot x).free.next y = t.free.next y := by
  unfold Table.initSlot
  rw [tail]
  exact update_of_ne apart _ _

theorem Listed.initSlot (listed : Listed t l) (more : l ≠ []) (absent : x ∉ l)
    (last : t.free.next x = none) : Listed (t.initSlot x) (l ++ [x]) := by
  obtain ⟨y,first⟩ : ∃ y, t.free.head () = some y := by
    cases l with
    | nil => exact absurd rfl more
    | cons y l => exact ⟨y,listed.linked.1⟩
  obtain ⟨m,z,rfl⟩ := (eq_nil_or_concat l).resolve_left more
  have apart : x ≠ z := fun same => absent (by rw [same]; simp)
  have stays : (t.free.put t.freet (some x)).next x = none := (initSlot_next (listed.tail z (by simp)) apart).trans last
  have longer := listed.refree absent
  unfold Table.refree at longer
  rw [first] at longer
  dsimp only at longer
  rw [update_same stays] at longer
  exact longer

theorem initSlots_listed {xs : List Slot} : ∀ {l : List Slot} {t : Table}, Listed t l → l ≠ [] → (l ++ xs).Nodup →
    (∀ x ∈ xs, t.free.next x = none) → (∀ z, t.freet = .link z → t.free.next z = none) →
    Listed (xs.foldl Table.initSlot t) (l ++ xs) ∧
      ∀ z, (xs.foldl Table.initSlot t).freet = .link z → (xs.foldl Table.initSlot t).free.next z = none := by
  induction xs with
  | nil =>
    intro l t listed _ _ _ last
    rw [append_nil]
    exact ⟨listed,last⟩
  | cons x xs ih =>
    intro l t listed more once rest last
    have absent : x ∉ l := fun inside => (nodup_append.mp once).2.2 x inside x mem_cons_self rfl
    have apart : ∀ y ∈ x :: xs, ∀ z, t.freet = .link z → y ≠ z := by
      rintro y inside z tail rfl
      obtain ⟨m,w,rfl⟩ := (eq_nil_or_concat l).resolve_left more
      obtain rfl := Cell.link.inj ((listed.tail w (by simp)).symm.trans tail)
      exact (nodup_append.mp once).2.2 w (by simp) w inside rfl
    have kept : ∀ y ∈ x :: xs, (t.initSlot x).free.next y = none := by
      intro y inside
      obtain ⟨m,w,rfl⟩ := (eq_nil_or_concat l).resolve_left more
      have tail := listed.tail w (by simp)
      exact (initSlot_next tail (apart y inside w tail)).trans (rest y inside)
    rw [append_cons] at once ⊢
    refine ih (listed.initSlot more absent (rest x mem_cons_self)) (by simp) once
      (fun y inside => kept y (mem_cons_of_mem x inside)) fun z tail => ?_
    obtain rfl := Cell.link.inj tail
    exact kept x mem_cons_self

theorem ihinit_listed (inode : Slot → Inode) : Listed (Table.ihinit inode) (finRange ninode) := by
  have whole : finRange ninode = [⟨0,by decide⟩] ++ (finRange ninode).drop 1 := by decide
  have once : (finRange ninode).Nodup := nodup_finRange ninode
  rw [whole] at once ⊢
  unfold Table.ihinit
  extract_lets first t r
  have begins : Listed t [first] := ⟨⟨rfl,rfl,rfl⟩,nodup_singleton _,fun x found => by
    obtain rfl := Option.some.inj found
    rfl⟩
  obtain ⟨listed,last⟩ := initSlots_listed begins (by simp) once (fun _ _ => rfl) fun _ _ => rfl
  have same : r.free.put r.freet none = r.free.toStore := by
    obtain ⟨z,end_⟩ : ∃ z, ([first] ++ (finRange ninode).drop 1).getLast? = some z := ⟨_,getLast?_eq_some_getLast (by simp)⟩
    have tail := listed.tail z end_
    rw [show r.freet = _ from tail]
    show (⟨r.free.head,update r.free.next z none⟩ : Lib.Threads.Store Unit Slot) = _
    rw [update_same (last z tail)]
  refine ⟨?_,listed.once,listed.tail⟩
  show Linked {r.free with toStore := r.free.put r.freet none} (.head ()) ((r.free.put r.freet none).head ()) _
  rw [same]
  exact listed.linked

theorem ihinit_cached {inode : Slot → Inode} (unused : ∀ x, (inode x).count = 0) :
    Cached (Table.ihinit inode) (fun _ => []) (finRange ninode) := by
  have same : ∀ (xs : List Slot) (t : Table), (xs.foldl Table.initSlot t).hash = t.hash ∧
    (xs.foldl Table.initSlot t).inode = t.inode := by
    intro xs
    induction xs with
    | nil => exact fun _ => ⟨rfl,rfl⟩
    | cons x xs ih => exact fun t => ih (t.initSlot x)
  have hash : (Table.ihinit inode).hash = ⟨id,id⟩ := (same _ _).1
  have inodes : (Table.ihinit inode).inode = inode := (same _ _).2
  refine ⟨⟨⟨fun h => ?_,fun _ => nodup_nil,fun _ _ _ inside => (nomatch inside)⟩,fun x _ => ?_,
    fun _ _ inside => (nomatch inside),fun _ _ inside => (nomatch inside)⟩,ihinit_listed inode,fun x => ?_⟩
  · rw [hash]
    exact ⟨rfl,rfl⟩
  · rw [hash]
    exact ⟨rfl,rfl⟩
  · rw [inodes]
    exact ⟨fun _ => unused x,fun _ => mem_finRange x⟩

end Retrobsd.InodeCache

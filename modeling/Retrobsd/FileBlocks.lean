import Retrobsd.FileData
import Retrobsd.FreeListChain
import Retrobsd.Lib.Radix

/-! The blocks of a file. The seven addresses of the inode are the roots of radix
trees, whose cells are distinct from each other, from the free blocks and from the
blocks of other files. `bmap` puts cells into a tree without changing what it holds. -/
namespace Retrobsd.FileData
open Finset Multiset
open Function

open FreeList (Volume Accounted)
open Lib.Radix Layout

def Held (v : Volume) (m : Multiset Nat) (l : List Nat) : Prop :=
    ∃ held : List Nat, Accounted v held l ∧ (held : Multiset Nat) = m

section
variable {v : Volume} {m : Multiset Nat} {l : List Nat} {b : Nat}

theorem Held.nodup (held : Held v m l) : m.Nodup := by
  obtain ⟨list,accounted,rfl⟩ := held
  exact coe_nodup.mpr (accounted.nodup.sublist (List.sublist_append_right _ _))

theorem Held.range (held : Held v m l) (member : b ∈ m) : b ≠ 0 ∧ b < 2^32 := by
  obtain ⟨list,accounted,rfl⟩ := held
  have inside := accounted.range b (List.mem_append_right l (mem_coe.mp member))
  exact ⟨inside.1,lt_trans inside.2.2 accounted.small⟩

theorem Held.fresh (held : Held v m (b :: l)) : b ≠ 0 ∧ b ∉ m := by
  obtain ⟨list,accounted,rfl⟩ := held
  refine ⟨(accounted.range b (by simp)).1,fun member => ?_⟩
  exact List.disjoint_of_nodup_append accounted.nodup List.mem_cons_self (mem_coe.mp member)

theorem Held.balloc (held : Held v m (b :: l)) (clrbuf : Bool) : ∃ v', balloc v clrbuf = .ok (v',b) ∧ Held v' (b ::ₘ m) l ∧
    v'.disk = if clrbuf then update v.disk b Block.zero else v.disk := by
  obtain ⟨list,accounted,rfl⟩ := held
  obtain ⟨v',done,kept,disk⟩ := FreeList.balloc_head accounted clrbuf
  exact ⟨v',by rw [FileData.balloc,done],⟨b :: list,kept,rfl⟩,disk⟩

theorem Held.balloc_full (held : Held v m []) (clrbuf : Bool) :
    ∃ v', FileData.balloc v clrbuf = .error (.enospc v') ∧ Held v' m [] := by
  obtain ⟨list,accounted,rfl⟩ := held
  obtain ⟨v',done,kept,_⟩ := FreeList.balloc_full accounted clrbuf
  exact ⟨v',by rw [FileData.balloc,done],list,kept,rfl⟩

theorem Held.free (held : Held v (b ::ₘ m) l) (ino : Nat) : ∃ v', free v ino b = .ok v' ∧ Held v' m (b :: l) ∧
    ∀ x ∈ m, v'.disk x = v.disk x := by
  have distinct := nodup_cons.mp held.nodup
  obtain ⟨list,accounted,same⟩ := held
  have member : b ∈ list := by
    rw [← Multiset.mem_coe,same]
    exact Multiset.mem_cons_self b m
  obtain ⟨v',done,kept,disk⟩ := FreeList.free_pushes accounted member ino
  refine ⟨v',by rw [FileData.free,done],⟨list.erase b,kept,?_⟩,fun x present => disk x ?_⟩
  · rw [← Multiset.coe_erase,same,Multiset.erase_cons_head]
  rintro rfl
  exact distinct.1 present

theorem Held.store (held : Held v m l) (member : b ∈ m) (c : Block) : Held {v with disk := update v.disk b c} m l := by
  obtain ⟨list,accounted,rfl⟩ := held
  refine ⟨list,{accounted with chain := accounted.chain.frame fun x present => ?_},rfl⟩
  apply update_of_ne
  rintro rfl
  exact List.disjoint_of_nodup_append accounted.nodup present (mem_coe.mp member)

end

def indirect : Layout Block where
  child := Block.word
  fan := 256
  blank := Block.zero
  child_blank := Block.word_zero
  positive := by decide

/-- The blocks of a tree are as they were, but for a path to one of them. -/
structure Grown (h h' : Nat → Block) (k a n b : Nat) (m : Multiset Nat) : Prop where
  leaf : indirect.leaf h' k a n = b
  used : b ≠ 0
  contents : ∀ n', indirect.contents h' k a n' = indirect.contents h k a n'
  frame : ∀ x ∈ m, h' x = h x

theorem Grown.up {h h' : Nat → Block} {k a n b : Nat} {m : Multiset Nat} (nonzero : a ≠ 0)
    (others : ∀ j, j ≠ indirect.digit k n → j < 256 → (h' a).word j = (h a).word j)
    (child : indirect.leaf h' k ((h' a).word (indirect.digit k n)) n = b) (used : b ≠ 0)
    (contents : ∀ n', indirect.contents h' k ((h' a).word (indirect.digit k n)) n' = indirect.contents h k
    ((h a).word (indirect.digit k n)) n')
    (beside : ∀ x ∈ indirect.siblings h k a (indirect.digit k n), h' x = h x) (frame : ∀ x ∈ m, h' x = h x) :
    Grown h h' (k + 1) a n b m := by
  refine ⟨?_,used,fun n' => ?_,frame⟩
  · rw [← child]
    exact if_neg nonzero
  rw [contents_graft nonzero others beside]
  split_ifs with here
  · have below := contents n'
    rw [← here] at below ⊢
    rw [contents_succ nonzero]
    exact below
  · rfl

theorem fetch_write {k : Nat} (n : Nat) : ∀ {v : Volume} {a : Nat} {m : Multiset Nat} {l : List Nat}, a ≠ 0 →
    Held v (indirect.owned v.disk k a + m) l →
    (∃ v' m', fetch true n k v a = .error (.enospc v') ∧ Held v' m' []) ∨
    ∃ v' b l', fetch true n k v a = .ok (v',some b) ∧ Held v' (indirect.owned v'.disk k a + m) l' ∧
    Grown v.disk v'.disk k a n b m := by
  induction k with
  | zero =>
    intro v a m l nonzero held
    exact .inr ⟨v,a,l,rfl,held,rfl,nonzero,fun _ => rfl,fun _ _ => rfl⟩
  | succ k ih =>
    intro v a m l nonzero held
    have inside := digit_lt indirect k n
    rw [owned_succ_at nonzero inside,regroup] at held
    have bits : n / 256^k % 256 = indirect.digit k n := rfl
    by_cases hole : (v.disk a).word (indirect.digit k n) = 0
    · -- a new indirect block, or the data block itself
      cases l with
      | nil =>
        obtain ⟨v',failed,full⟩ := held.balloc_full true
        refine .inl ⟨v',_,?_,full⟩
        simp only [fetch,bits,hole,if_true,failed]
        rfl
      | cons b l =>
        obtain ⟨fresh,apart⟩ := held.fresh
        obtain ⟨v1,done,held1,disk1⟩ := held.balloc true
        rw [if_pos rfl] at disk1
        have childless : indirect.owned v.disk k (indirect.child (v.disk a) (indirect.digit k n)) = 0 := by
          have zero : indirect.child (v.disk a) (indirect.digit k n) = 0 := hole
          rw [zero,owned_empty]
        rw [childless,zero_add] at held1 apart
        have root : a ≠ b := by
          rintro rfl
          exact apart (by simp)
        have small := (held1.range (mem_cons_self b _)).2
        have held2 := held1.store (b := a) (by simp) ((v.disk a).putWord (indirect.digit k n) b)
        generalize changed : ({v1 with disk := update v1.disk a ((v.disk a).putWord (indirect.digit k n) b)} :
          Volume) = v2 at held2
        have disk2 : v2.disk = update (update v.disk b Block.zero) a ((v.disk a).putWord (indirect.digit k n) b) := by
          rw [← changed]
          dsimp only
          rw [disk1]
        have blank : v2.disk b = indirect.blank := by
          rw [disk2,update_of_ne root.symm,update_self]
          rfl
        have single : indirect.owned v2.disk k b = {b} := owned_blank fresh blank
        have regrouped : Held v2 (indirect.owned v2.disk k b + (a ::ₘ indirect.siblings v.disk k a
          (indirect.digit k n) + m)) l := by
          rw [single,singleton_add]
          exact held2
        have next : fetch true n (k + 1) v a = fetch true n k v2 b := by
          simp only [fetch,bits,hole,if_true,done]
          rw [← changed]
          rfl
        rw [next]
        rcases ih fresh regrouped with failed | ⟨v',b',l',ok,held',grown⟩
        · exact .inl failed
        have kept : ∀ x, x ≠ a → x ∈ a ::ₘ indirect.siblings v.disk k a (indirect.digit k n) + m → v'.disk x = v.disk x := by
          intro x other member
          have away : x ≠ b := by
            rintro rfl
            exact apart member
          rw [grown.frame x member,disk2,update_of_ne other,update_of_ne away]
        have self : v'.disk a = (v.disk a).putWord (indirect.digit k n) b := by
          rw [grown.frame a (by simp),disk2,update_self]
        have distinct := held2.nodup
        rw [nodup_cons,cons_add,nodup_cons] at distinct
        have beside : ∀ x ∈ indirect.siblings v.disk k a (indirect.digit k n), v'.disk x = v.disk x := by
          intro x member
          refine kept x ?_ (by simp [member])
          rintro rfl
          exact distinct.2.1 (by simp [member])
        have frame : ∀ x ∈ m, v'.disk x = v.disk x := by
          intro x member
          refine kept x ?_ (by simp [member])
          rintro rfl
          exact distinct.2.1 (by simp [member])
        have others : ∀ j, j ≠ indirect.digit k n → j < 256 → (v'.disk a).word j = (v.disk a).word j := by
          intro j other bound
          rw [self,Block.word_putWord_other bound other]
        have child : (v'.disk a).word (indirect.digit k n) = b := by
          rw [self,Block.word_putWord inside small]
        refine .inr ⟨v',b',l',ok,?_,Grown.up nonzero others ?_ grown.used (fun n' => ?_) beside frame⟩
        · rw [owned_graft nonzero inside others beside,regroup]
          have below : indirect.child (v'.disk a) (indirect.digit k n) = b := child
          rw [below]
          exact held'
        · rw [child]
          exact grown.leaf
        · rw [child,hole,grown.contents,contents_empty]
          exact contents_blank fresh blank
    · have next : fetch true n (k + 1) v a = fetch true n k v ((v.disk a).word (indirect.digit k n)) := by
        simp only [fetch,bits,hole,if_false]
      rw [next]
      rcases ih hole held with failed | ⟨v',b,l',ok,held',grown⟩
      · exact .inl failed
      have self : v'.disk a = v.disk a := grown.frame a (by simp)
      have beside : ∀ x ∈ indirect.siblings v.disk k a (indirect.digit k n), v'.disk x = v.disk x := fun x member =>
        grown.frame x (by simp [member])
      have others : ∀ j, j ≠ indirect.digit k n → j < 256 → (v'.disk a).word j = (v.disk a).word j := fun j _ _ => by rw [self]
      refine .inr ⟨v',b,l',ok,?_,Grown.up nonzero others ?_ grown.used (fun n' => ?_) beside fun x member => ?_⟩
      · rw [owned_graft nonzero inside others beside,regroup,self]
        exact held'
      · rw [self]
        exact grown.leaf
      · rw [self]
        exact grown.contents n'
      · exact grown.frame x (by simp [member])

theorem fetch_read {k n : Nat} {v : Volume} : ∀ {a : Nat}, a ≠ 0 → fetch false n k v a =
    .ok (v,if indirect.leaf v.disk k a n = 0 then none else some (indirect.leaf v.disk k a n)) := by
  induction k with
  | zero =>
    intro a nonzero
    simp [fetch,leaf,nonzero]
  | succ k ih =>
    intro a nonzero
    have bits : n / 256^k % 256 = indirect.digit k n := rfl
    have down : indirect.leaf v.disk (k + 1) a n = indirect.leaf v.disk k
      ((v.disk a).word (indirect.digit k n)) n := if_neg nonzero
    by_cases hole : (v.disk a).word (indirect.digit k n) = 0
    · rw [down,hole,leaf_empty]
      simp [fetch,bits,hole]
    rw [down,← ih hole]
    simp [fetch,bits,hole]

def level (i : Fin 7) : Nat := i.val - 3

def place (bn : Nat) : Fin 7 × Nat :=
  if bn < 4 then (Fin.ofNat 7 bn,0)
  else if bn < 260 then (4,bn - 4)
  else if bn < 65796 then (5,bn - 260)
  else (6,bn - 65796)

def maxBlocks : Nat := 2^21

def mapBlocks : Nat := 4 + 256 + 256^2 + 256^3

theorem maxBlocks_lt : maxBlocks < mapBlocks := by
  decide

def blocksOf (h : Nat → Block) (addr : Fin 7 → Nat) : Multiset Nat := ∑ i, indirect.owned h (level i) (addr i)

def Sound (f : File) (others : Multiset Nat) (l : List Nat) : Prop :=
    Held f.volume (blocksOf f.volume.disk f.ip.iAddr + others) l

def blockIn (h : Nat → Block) (addr : Fin 7 → Nat) (bn : Nat) : Block :=
  indirect.contents h (level (place bn).1) (addr (place bn).1) (place bn).2

def blockAt (f : File) (bn : Nat) : Block := blockIn f.volume.disk f.ip.iAddr bn

theorem place_cases (bn : Nat) : (bn < 4 ∧ (place bn).1.val = bn ∧ (place bn).2 = 0) ∨
    (4 ≤ bn ∧ bn < 260 ∧ (place bn).1 = 4 ∧ (place bn).2 = bn - 4) ∨
    (260 ≤ bn ∧ bn < 65796 ∧ (place bn).1 = 5 ∧ (place bn).2 = bn - 260) ∨
    (65796 ≤ bn ∧ (place bn).1 = 6 ∧ (place bn).2 = bn - 65796) := by
  unfold place
  split_ifs with first second third
  · refine .inl ⟨first,?_,rfl⟩
    simp only [Fin.ofNat]
    omega
  · exact .inr (.inl ⟨by omega,second,rfl,rfl⟩)
  · exact .inr (.inr (.inl ⟨by omega,third,rfl,rfl⟩))
  · exact .inr (.inr (.inr ⟨by omega,rfl,rfl⟩))

variable {bn : Nat}

theorem place_lt (small : bn < mapBlocks) : (place bn).2 < 256^level (place bn).1 := by
  unfold mapBlocks at small
  rcases place_cases bn with ⟨_,_,rest⟩ | ⟨_,_,slot,rest⟩ | ⟨_,_,slot,rest⟩ | ⟨_,slot,rest⟩
  · rw [rest]
    exact Nat.pow_pos (by decide)
  all_goals
    rw [rest,slot]
    simp only [level,show ((4 : Fin 7) : Nat) = 4 from rfl,show ((5 : Fin 7) : Nat) = 5 from rfl,
      show ((6 : Fin 7) : Nat) = 6 from rfl]
    omega

theorem clean_place (bn : Nat) (clrbuf : Bool) : (clrbuf || decide (4 ≤ bn)) = true ∨ level (place bn).1 = 0 := by
  rcases place_cases bn with ⟨near,slot,_⟩ | ⟨far,_⟩ | ⟨far,_⟩ | ⟨far,_⟩
  · right
    unfold level
    omega
  all_goals
    left
    simp only [Bool.or_eq_true,decide_eq_true_eq]
    omega

theorem place_injective {bn' : Nat} (slot : (place bn').1 = (place bn).1) (rest : (place bn').2 = (place bn).2) : bn' = bn := by
  have values := congrArg Fin.val slot
  rcases place_cases bn with ⟨_,_,_⟩ | ⟨_,_,first,_⟩ | ⟨_,_,first,_⟩ | ⟨_,first,_⟩ <;>
  rcases place_cases bn' with ⟨_,_,_⟩ | ⟨_,_,second,_⟩ | ⟨_,_,second,_⟩ | ⟨_,second,_⟩ <;>
  simp_all <;> omega

theorem indirection_succ (j nb bn : Nat) : indirection (j + 1) nb bn =
    if bn < nb * 256 then some (3 - j,bn) else indirection j (nb * 256) (bn - nb * 256) := rfl

theorem indirection_place (small : bn < mapBlocks) (far : 4 ≤ bn) :
    indirection 3 1 (bn - ndaddr) = some (level (place bn).1,(place bn).2) ∧ 3 + level (place bn).1 = (place bn).1.val := by
  unfold mapBlocks at small
  rcases place_cases bn with ⟨near,_⟩ | ⟨_,_,slot,rest⟩ | ⟨_,_,slot,rest⟩ | ⟨_,slot,rest⟩
  · omega
  · rw [slot,rest]
    refine ⟨?_,rfl⟩
    rw [indirection_succ,if_pos (by unfold ndaddr; omega)]
    rfl
  · rw [slot,rest]
    refine ⟨?_,rfl⟩
    rw [indirection_succ,if_neg (by unfold ndaddr; omega),indirection_succ,if_pos (by unfold ndaddr; omega),
      show bn - ndaddr - 1 * 256 = bn - 260 by unfold ndaddr; omega]
    rfl
  · rw [slot,rest]
    refine ⟨?_,rfl⟩
    rw [indirection_succ,if_neg (by unfold ndaddr; omega),indirection_succ,if_neg (by unfold ndaddr; omega),indirection_succ,
      if_pos (by unfold ndaddr; omega),show bn - ndaddr - 1 * 256 - 1 * 256 * 256 = bn - 65796 by unfold ndaddr; omega]
    rfl

theorem bmap_eq (f : File) (small : bn < maxBlocks) (write clrbuf : Bool) :
    bmap f bn write clrbuf = (fetchAddr f (place bn).1 write (clrbuf || decide (4 ≤ bn))).bind fun r =>
      match r.2 with
      | none => .ok (r.1,none)
      | some nb => (fetch write (place bn).2 (level (place bn).1) r.1.volume nb).bind fun q =>
        .ok ({r.1 with volume := q.1},q.2) := by
  by_cases near : bn < 4
  · have slot : (place bn).1 = Fin.ofNat 7 bn := by simp [place,near]
    have none : level (place bn).1 = 0 := by
      rw [slot]
      simp only [level,Fin.ofNat]
      omega
    rw [bmap,if_pos (show bn < ndaddr from near),none,slot,show decide (4 ≤ bn) = false by simp [near],Bool.or_false]
    cases fetchAddr f (Fin.ofNat 7 bn) write clrbuf with
    | error e => rfl
    | ok r =>
      obtain ⟨f',nb⟩ := r
      cases nb <;> rfl
  obtain ⟨route,index⟩ := indirection_place (small.trans maxBlocks_lt) (by omega)
  have slot : Fin.ofNat 7 (3 + level (place bn).1) = (place bn).1 := by
    apply Fin.ext
    rw [index]
    simp
  rw [bmap,if_neg (show ¬ bn < ndaddr from near),route,show decide (4 ≤ bn) = true by simp; omega,Bool.or_true]
  dsimp only
  rw [slot]
  cases fetchAddr f (place bn).1 write true with
  | error e => rfl
  | ok r =>
    obtain ⟨f',nb⟩ := r
    cases nb <;> rfl

def besides (h : Nat → Block) (addr : Fin 7 → Nat) (i : Fin 7) : Multiset Nat :=
    ∑ j ∈ Finset.univ.erase i, indirect.owned h (level j) (addr j)

section
variable {h h' : Nat → Block} {addr addr' : Fin 7 → Nat} {i : Fin 7}

theorem blocksOf_at (h : Nat → Block) (addr : Fin 7 → Nat) (i : Fin 7) :
    blocksOf h addr = indirect.owned h (level i) (addr i) + besides h addr i :=
  (add_sum_erase _ (fun j => indirect.owned h (level j) (addr j)) (mem_univ i)).symm

theorem mem_besides {j : Fin 7} {b : Nat} (other : j ≠ i) (member : b ∈ indirect.owned h (level j) (addr j)) :
    b ∈ besides h addr i :=
  mem_sum.mpr ⟨j,mem_erase.mpr ⟨other,mem_univ j⟩,member⟩

theorem besides_congr (same : ∀ b ∈ besides h addr i, h' b = h b) (addrs : ∀ j, j ≠ i → addr' j = addr j) :
    besides h' addr' i = besides h addr i := by
  refine sum_congr rfl fun j member => ?_
  have other := (mem_erase.mp member).1
  rw [addrs j other]
  exact owned_congr fun b present => same b (mem_besides other present)

theorem blockIn_besides (same : ∀ b ∈ besides h addr i, h' b = h b) (addrs : ∀ j, j ≠ i → addr' j = addr j)
    (other : (place bn).1 ≠ i) : blockIn h' addr' bn = blockIn h addr bn := by
  unfold blockIn
  rw [addrs _ other]
  exact contents_congr fun b present => same b (mem_besides other present)

end

section
variable {f : File} {others : Multiset Nat} {l : List Nat}

theorem fetchAddr_write (sound : Sound f others l) (i : Fin 7) {clrbuf : Bool} (clean : clrbuf = true ∨ level i = 0) :
    (∃ v' m', fetchAddr f i true clrbuf = .error (.enospc v') ∧ Held v' m' []) ∨
    ∃ f' b l', fetchAddr f i true clrbuf = .ok (f',some b) ∧ Sound f' others l' ∧ b ≠ 0 ∧
    f'.ip = {f.ip with iAddr := update f.ip.iAddr i b} ∧
      (∀ x ∈ besides f.volume.disk f.ip.iAddr i + others, f'.volume.disk x = f.volume.disk x) ∧
      (clrbuf = true ∨ f.ip.iAddr i ≠ 0 → ∀ n, indirect.contents f'.volume.disk (level i) b n =
        indirect.contents f.volume.disk (level i) (f.ip.iAddr i) n) := by
  by_cases empty : f.ip.iAddr i = 0
  · cases l with
    | nil =>
      obtain ⟨v',failed,full⟩ := sound.balloc_full clrbuf
      refine .inl ⟨v',_,?_,full⟩
      simp only [fetchAddr,empty,if_true,failed]
      rfl
    | cons b l =>
      obtain ⟨fresh,apart⟩ := sound.fresh
      obtain ⟨v',done,held,disk⟩ := sound.balloc clrbuf
      have kept : ∀ x, x ≠ b → v'.disk x = f.volume.disk x := by
        intro x other
        rw [disk]
        split_ifs
        · exact update_of_ne other _ _
        · rfl
      have frame : ∀ x ∈ besides f.volume.disk f.ip.iAddr i + others, v'.disk x = f.volume.disk x := by
        intro x member
        apply kept
        rintro rfl
        apply apart
        rw [blocksOf_at _ _ i,add_assoc]
        exact mem_add.mpr (.inr member)
      have single : indirect.owned v'.disk (level i) b = {b} := by
        rcases clean with cleared | direct
        · refine owned_blank fresh ?_
          rw [disk,if_pos cleared,update_self]
          rfl
        · rw [direct]
          exact if_neg fresh
      refine .inr ⟨⟨v',{f.ip with iAddr := update f.ip.iAddr i b}⟩,b,l,?_,?_,fresh,rfl,frame,?_⟩
      · simp only [fetchAddr,empty,if_true,done]
        rfl
      · have beside := @besides_congr f.volume.disk v'.disk f.ip.iAddr (update f.ip.iAddr i b) i
          (fun x member => frame x (mem_add.mpr (.inl member))) fun j other => update_of_ne other _ _
        rw [blocksOf_at _ _ i,empty,owned_empty,zero_add] at held
        unfold Sound
        dsimp only
        rw [blocksOf_at _ _ i,update_self,beside,single,singleton_add,cons_add]
        exact held
      · intro cleared n
        have clear : clrbuf = true := cleared.resolve_right fun used => used empty
        rw [empty,contents_empty]
        refine contents_blank fresh ?_
        dsimp only
        rw [disk,if_pos clear,update_self]
        rfl
  · refine .inr ⟨f,f.ip.iAddr i,l,?_,sound,empty,?_,fun _ _ => rfl,fun _ _ => rfl⟩
    · simp only [fetchAddr,empty,if_false]
    · rw [update_eq_self]

/-- What `bmap` does for a block that is to be written: the file has it then, and what
is in the file is as it was, unless a block that need not be clear is new. -/
structure Mapped (f f' : File) (bn b : Nat) (clrbuf : Bool) : Prop where
  leaf : indirect.leaf f'.volume.disk (level (place bn).1) (f'.ip.iAddr (place bn).1) (place bn).2 = b
  used : b ≠ 0
  number : f'.ip.iNumber = f.ip.iNumber
  size : f'.ip.iSize = f.ip.iSize
  append : f'.ip.append = f.ip.append
  here : clrbuf = true → blockAt f' bn = blockAt f bn
  others : ∀ bn', bn' ≠ bn → blockAt f' bn' = blockAt f bn'

theorem bmap_write (sound : Sound f others l) (small : bn < maxBlocks) (clrbuf : Bool) :
    (∃ v' m', bmap f bn true clrbuf = .error (.enospc v') ∧ Held v' m' []) ∨
    ∃ f' b l', bmap f bn true clrbuf = .ok (f',some b) ∧ Sound f' others l' ∧ Mapped f f' bn b clrbuf := by
  rw [bmap_eq f small]
  rcases fetchAddr_write sound (place bn).1 (clean_place bn clrbuf) with ⟨v',m',failed,full⟩ |
    ⟨f1,a,l1,ok,sound1,used,ip,frame1,cleared⟩
  · exact .inl ⟨v',m',by rw [failed]; rfl,full⟩
  rw [ok]
  have root : f1.ip.iAddr (place bn).1 = a := by rw [ip]; exact update_self _ _ _
  have held := sound1
  unfold Sound at held
  rw [blocksOf_at _ _ (place bn).1,root,add_assoc] at held
  rcases fetch_write (place bn).2 used held with ⟨v',m',failed,full⟩ | ⟨v',b,l',done,held',grown⟩
  · exact .inl ⟨v',m',by simp only [Except.bind,failed],full⟩
  have addrs : ∀ j, j ≠ (place bn).1 → f1.ip.iAddr j = f.ip.iAddr j := by
    intro j other
    rw [ip]
    exact update_of_ne other _ _
  have beside1 : besides f1.volume.disk f1.ip.iAddr (place bn).1 = besides f.volume.disk f.ip.iAddr (place bn).1 :=
    besides_congr (fun x member => frame1 x (mem_add.mpr (.inl member))) addrs
  have beside2 : ∀ x ∈ besides f1.volume.disk f1.ip.iAddr (place bn).1, v'.disk x = f1.volume.disk x := fun x member =>
    grown.frame x (mem_add.mpr (.inl member))
  refine .inr ⟨{f1 with volume := v'},b,l',by simp only [Except.bind,done],?_,?_⟩
  · unfold Sound
    dsimp only
    rw [blocksOf_at _ _ (place bn).1,besides_congr beside2 fun _ _ => rfl,root,add_assoc]
    exact held'
  have same : ∀ bn', (clrbuf || decide (4 ≤ bn)) = true ∨ f.ip.iAddr (place bn).1 ≠ 0 → (place bn').1 = (place bn).1 →
      blockAt {f1 with volume := v'} bn' = blockAt f bn' := by
    intro bn' known slot
    unfold blockAt blockIn
    dsimp only
    rw [slot,root,grown.contents]
    exact cleared known _
  refine ⟨by dsimp only; rw [root]; exact grown.leaf,grown.used,by dsimp only; rw [ip],by dsimp only; rw [ip],
    by dsimp only; rw [ip],fun clear => same bn (.inl (by simp [clear])) rfl,fun bn' other => ?_⟩
  by_cases slot : (place bn').1 = (place bn).1
  · refine same bn' (.inl ?_) slot
    by_contra direct
    simp only [Bool.or_eq_true,decide_eq_true_eq,not_or] at direct
    have values := congrArg Fin.val slot
    rcases place_cases bn with ⟨_,_,first⟩ | ⟨_,_⟩ | ⟨_,_⟩ | ⟨_,_⟩
    · rcases place_cases bn' with ⟨_,_,second⟩ | ⟨_,_,there,_⟩ | ⟨_,_,there,_⟩ | ⟨_,there,_⟩
      · exact other (place_injective slot (second.trans first.symm))
      all_goals
        rw [there] at values
        simp at values
        omega
    all_goals omega
  · have first : blockAt {f1 with volume := v'} bn' = blockAt f1 bn' := blockIn_besides beside2 (fun _ _ => rfl) slot
    rw [first]
    exact blockIn_besides (fun x member => frame1 x (mem_add.mpr (.inl member))) addrs slot

theorem bmap_read (small : bn < maxBlocks) (clrbuf : Bool) :
    ∃ nb, bmap f bn false clrbuf = .ok (f,nb) ∧ readBuffer f nb = blockAt f bn := by
  rw [bmap_eq f small]
  unfold blockAt blockIn contents
  by_cases empty : f.ip.iAddr (place bn).1 = 0
  · refine ⟨none,by simp [fetchAddr,empty,Except.bind],?_⟩
    rw [empty,leaf_empty,if_pos rfl]
    rfl
  simp only [fetchAddr,empty,if_false,Except.bind,fetch_read empty]
  refine ⟨_,rfl,?_⟩
  split_ifs <;> rfl

theorem storeBlock_spec (sound : Sound f others l) {b : Nat} (small : bn < maxBlocks)
    (leaf : indirect.leaf f.volume.disk (level (place bn).1) (f.ip.iAddr (place bn).1) (place bn).2 = b)
    (used : b ≠ 0) (c : Block) :
    Sound (storeBlock f b c) others l ∧
    ∀ bn' < maxBlocks, blockAt (storeBlock f b c) bn' = if bn' = bn then c else blockAt f bn' := by
  have distinct := sound.nodup
  rw [blocksOf_at _ _ (place bn).1,add_assoc,nodup_add] at distinct
  obtain ⟨own,_,apart⟩ := distinct
  have member : b ∈ indirect.owned f.volume.disk (level (place bn).1) (f.ip.iAddr (place bn).1) := by
    rw [← leaf] at used ⊢
    exact leaf_mem used
  have beside : ∀ x ∈ besides f.volume.disk f.ip.iAddr (place bn).1, update f.volume.disk b c x = f.volume.disk x := by
    intro x present
    apply update_of_ne
    rintro rfl
    exact disjoint_left.mp apart member (mem_add.mpr (.inl present))
  obtain ⟨kept,changed⟩ := @store_leaf _ indirect _ _ _ _ b c own leaf used
  constructor
  · have held := sound.store (b := b) (by rw [blocksOf_at _ _ (place bn).1]; simp [member]) c
    have same : blocksOf (update f.volume.disk b c) f.ip.iAddr = blocksOf f.volume.disk f.ip.iAddr := by
      rw [blocksOf_at _ _ (place bn).1,kept,besides_congr beside fun _ _ => rfl,← blocksOf_at]
    rw [← same] at held
    exact held
  intro bn' small'
  by_cases slot : (place bn').1 = (place bn).1
  · have values : blockAt (storeBlock f b c) bn' = if (place bn').2 % 256^level (place bn).1 =
      (place bn).2 % 256^level (place bn).1
        then c else blockAt f bn' := by
      unfold blockAt blockIn
      rw [slot]
      exact changed _
    have first := place_lt (small'.trans maxBlocks_lt)
    rw [slot] at first
    rw [values,Nat.mod_eq_of_lt first,Nat.mod_eq_of_lt (place_lt (small.trans maxBlocks_lt))]
    congr 1
    exact propext ⟨place_injective slot,fun same => by rw [same]⟩
  · have other : bn' ≠ bn := by
      rintro rfl
      exact slot rfl
    rw [if_neg other]
    exact blockIn_besides beside (fun _ _ => rfl) slot

end

end Retrobsd.FileData

import Retrobsd.FileTruncation

/-! `bmap` of `ufs_bmap.c` with its errors: of the device, of a volume without free
blocks, and of block numbers that no file has. What a file maps is what a reader of it
is answered. -/
namespace Retrobsd.BlockMap
open Function (update update_of_ne update_self)

open FreeList (Volume Fault)
open FileData (File Held indirect level place blocksOf besides indirection ndaddr nindir)
open Lib.Radix Layout Nat

/-- What `bmap` returns: a block, -1 for a hole or with `ENOSPC`, and 0 with `EFBIG` or
with the error of an indirect block that cannot be read. -/
inductive Answer where
  | block (nb : Nat)
  | absent
  | nospace
  | efbig
  | unread
deriving DecidableEq

/-- `rablock` is `none` where it is left as it was, and `flagged` tells that `IUPD` and
`ICHG` are set. -/
structure Mapping where
  file : File
  answer : Answer
  rablock : Option Nat
  flagged : Bool

/-- Fetch through the indirect blocks; the last value is `ra`. -/
def follow (write : Bool) (bn : Nat) : Nat → Volume → Nat → Nat → Except Fault (Volume × Answer × Nat)
  | 0,v,nb,ra => .ok (v,.block nb,ra)
  | sh + 1,v,nb,ra =>
    if v.failing nb then .ok (v,.unread,0)
    else
      let bap := v.disk nb
      let i := bn / 256^sh % 256
      let ra := if i < nindir - 1 then bap.word (i + 1) else ra
      if bap.word i = 0 then
        if write then do
          match ← FreeList.balloc v true with
          | (v,none) => return (v,.nospace,0)
          | (v,some nbp) => follow write bn sh {v with disk := update v.disk nb (bap.putWord i nbp)} nbp ra
        else .ok (v,.absent,0)
      else follow write bn sh v (bap.word i) ra

def address (f : File) (i : Fin 7) (write clrbuf : Bool) : Except Fault Mapping :=
  if f.ip.iAddr i = 0 then
    if write then do
      match ← FreeList.balloc f.volume clrbuf with
      | (v,none) => return ⟨{f with volume := v},.nospace,some 0,false⟩
      | (v,some nb) => return ⟨⟨v,{f.ip with iAddr := update f.ip.iAddr i nb}⟩,.block nb,some 0,true⟩
    else .ok ⟨f,.absent,some 0,false⟩
  else .ok ⟨f,.block (f.ip.iAddr i),some 0,false⟩

def bmap (f : File) (bn : Int) (write clrbuf : Bool) : Except Fault Mapping :=
  if bn < 0 then .ok ⟨f,.efbig,none,false⟩
  else if bn < ndaddr then do
    let r ← address f (Fin.ofNat 7 bn.toNat) write clrbuf
    match r.answer with
    | .block _ => return {r with rablock := some (if bn < ndaddr - 1 then r.file.ip.iAddr (Fin.ofNat 7 (bn.toNat + 1)) else 0)}
    | _ => return r
  else match indirection 3 1 (bn.toNat - ndaddr) with
    | none => .ok ⟨f,.efbig,some 0,false⟩
    | some (levels,bn) => do
      let r ← address f (Fin.ofNat 7 (3 + levels)) write true
      match r.answer with
      | .block nb =>
        let (v,answer,ra) ← follow write bn levels r.file.volume nb 0
        return {r with file := {r.file with volume := v},answer,rablock := some ra}
      | _ => return r

def mapped (f : File) (bn : Int) : Option Nat :=
  match bmap f bn false false with
  | .ok {answer := .block nb,..} => some nb
  | _ => none

def healed (v : Volume) : Volume := {v with failing := fun _ => false}

/-- The blocks of the file apart from each other, from those of other files and from
the free ones, on a device that may have errors. -/
def Sound (f : File) (others : Multiset Nat) (l : List Nat) : Prop :=
    Held (healed f.volume) (blocksOf f.volume.disk f.ip.iAddr + others) l

variable {v : Volume} {m : Multiset Nat} {l : List Nat} {b : Nat}

@[simp] theorem healed_fs : (healed v).fs = v.fs := rfl

theorem takeLast_lowers (fuel : Nat) : ∀ v : Volume, ∃ n console given,
    FreeList.takeLast fuel v = ({v with fs := {v.fs with fsNfree := n},console},given) ∧
    FreeList.takeLast fuel (healed v) = (healed {v with fs := {v.fs with fsNfree := n},console},given) := by
  induction fuel with
  | zero => exact fun v => ⟨v.fs.fsNfree,v.console,none,rfl,rfl⟩
  | succ fuel ih =>
    intro v
    by_cases spent : v.fs.fsNfree ≤ 0
    · refine ⟨v.fs.fsNfree,v.console,none,?_,?_⟩ <;> simp only [FreeList.takeLast,healed_fs,spent,if_true]
    by_cases wild : v.fs.fsNfree > FreeList.nicfree
    · refine ⟨v.fs.fsNfree,v.console ++ [.fserr v.fs.fsFsmnt "bad free count"],none,?_,?_⟩ <;>
        simp only [FreeList.takeLast,healed_fs,spent,wild,if_true,if_false] <;> rfl
    by_cases ended : v.fs.fsFree (FreeList.slot (v.fs.fsNfree - 1)) = 0
    · refine ⟨v.fs.fsNfree - 1,v.console,none,?_,?_⟩ <;> simp only [FreeList.takeLast,healed_fs,spent,wild,ended,
        if_true,if_false]
      all_goals rfl
    by_cases bad : FreeList.badblock {v.fs with fsNfree := v.fs.fsNfree - 1}
      (v.fs.fsFree (FreeList.slot (v.fs.fsNfree - 1))) = true
    · obtain ⟨n,console,given,first,second⟩ := ih (FreeList.say {v with fs := {v.fs with fsNfree := v.fs.fsNfree - 1}}
        [.badBlock (v.fs.fsFree (FreeList.slot (v.fs.fsNfree - 1))),.fserr v.fs.fsFsmnt "bad block"])
      refine ⟨n,console,given,?_,?_⟩ <;> simp only [FreeList.takeLast,healed_fs,spent,wild,ended,bad,if_true,if_false]
      · exact first
      · exact second
    · refine ⟨v.fs.fsNfree - 1,v.console,some (v.fs.fsFree (FreeList.slot (v.fs.fsNfree - 1))),?_,?_⟩ <;>
        simp only [FreeList.takeLast,healed_fs,spent,wild,ended,bad,if_false] <;> rfl

theorem exhausted (held : Held (healed v) m l) {w : Volume} (none : w.fs.fsNfree ≤ 0) (total : w.fs.fsTfree = 0)
    (unlocked : w.fs.fsFlock = 0) (isize : w.fs.fsIsize = v.fs.fsIsize) (fsize : w.fs.fsFsize = v.fs.fsFsize) :
    Held (healed w) m [] := by
  obtain ⟨list,accounted,same⟩ := held
  refine ⟨list,⟨.empty none,?_,fun b member => ?_,total,unlocked,?_,fun _ => rfl⟩,same⟩
  · exact accounted.nodup.sublist (List.sublist_append_right l list)
  · have inside := accounted.range b (List.mem_append_right l member)
    exact ⟨inside.1,isize.le.trans inside.2.1,inside.2.2.trans_eq fsize.symm⟩
  · exact fsize.trans_lt accounted.small

theorem balloc_healed (held : Held (healed v) m l) (clrbuf : Bool) :
    (∃ w given, FreeList.balloc v clrbuf = .ok (w,given) ∧ w.failing = v.failing ∧
    FreeList.balloc (healed v) clrbuf = .ok (healed w,given)) ∨
    ∃ w, FreeList.balloc v clrbuf = .ok (w,none) ∧ w.failing = v.failing ∧ w.disk = v.disk ∧ Held (healed w) m [] := by
  have unlocked : v.fs.fsFlock = 0 := by
    obtain ⟨list,accounted,_⟩ := held
    exact accounted.unlocked
  have free : ¬ v.fs.fsFlock ≠ 0 := not_not.mpr unlocked
  have free' : ¬ (healed v).fs.fsFlock ≠ 0 := free
  obtain ⟨n,console,given,first,second⟩ := takeLast_lowers (FreeList.nicfree + 1) v
  rw [FreeList.balloc,FreeList.balloc,if_neg free,if_neg free',first,second]
  cases given with
  | none => exact Or.inl ⟨_,_,rfl,rfl,rfl⟩
  | some bno =>
    dsimp only
    by_cases last : n ≤ 0
    · cases bad : v.failing bno with
      | false =>
        left
        have same : FreeList.refill (healed {v with fs := {v.fs with fsNfree := n},console}) bno =
            healed (FreeList.refill {v with fs := {v.fs with fsNfree := n},console} bno) := by
          simp [FreeList.refill,healed,bad]
        rw [if_pos last,if_pos (show (healed {v with fs := {v.fs with fsNfree := n},console}).fs.fsNfree ≤ 0 from last),
          same,healed_fs]
        split_ifs with spent
        · exact ⟨_,_,rfl,rfl,rfl⟩
        · exact ⟨_,_,rfl,rfl,rfl⟩
      | true =>
        right
        have left : (FreeList.refill {v with fs := {v.fs with fsNfree := n},console} bno).fs.fsNfree ≤ 0 := by
          simp [FreeList.refill,bad,last]
        rw [if_pos last,if_pos left]
        refine ⟨_,rfl,rfl,rfl,exhausted held le_rfl rfl rfl ?_ ?_⟩ <;> simp [FreeList.say,FreeList.refill,bad]
    · left
      rw [if_neg last,if_neg (show ¬ (healed {v with fs := {v.fs with fsNfree := n},console}).fs.fsNfree ≤ 0 from last)]
      exact ⟨_,_,rfl,rfl,rfl⟩

theorem balloc_takes (held : Held (healed v) m (b :: l)) (clrbuf : Bool) :
    ∃ w given, FreeList.balloc v clrbuf = .ok (w,given) ∧ w.failing = v.failing ∧
    ((given = none ∧ w.disk = v.disk ∧ Held (healed w) m []) ∨
        (given = some b ∧ Held (healed w) (b ::ₘ m) l ∧ w.disk = if clrbuf then update v.disk b Block.zero else v.disk)) := by
  rcases balloc_healed held clrbuf with ⟨w,given,done,failing,same⟩ | ⟨w,done,failing,disk,full⟩
  · obtain ⟨list,accounted,rfl⟩ := held
    obtain ⟨t,taken,kept,disk⟩ := FreeList.balloc_head accounted clrbuf
    rw [same,Except.ok.injEq,Prod.mk.injEq] at taken
    obtain ⟨rfl,rfl⟩ := taken
    exact ⟨w,some b,done,failing,Or.inr ⟨rfl,⟨b :: list,kept,rfl⟩,disk⟩⟩
  · exact ⟨w,none,done,failing,Or.inl ⟨rfl,disk,full⟩⟩

theorem balloc_none (held : Held (healed v) m []) (clrbuf : Bool) :
    ∃ w, FreeList.balloc v clrbuf = .ok (w,none) ∧ w.failing = v.failing ∧ w.disk = v.disk ∧ Held (healed w) m [] := by
  rcases balloc_healed held clrbuf with ⟨w,given,done,failing,same⟩ | ⟨w,done,failing,disk,full⟩
  · obtain ⟨list,accounted,rfl⟩ := held
    obtain ⟨t,taken,kept,disk,_⟩ := FreeList.balloc_full accounted clrbuf
    rw [same,Except.ok.injEq,Prod.mk.injEq] at taken
    obtain ⟨rfl,rfl⟩ := taken
    exact ⟨w,done,failing,disk,list,kept,rfl⟩
  · exact ⟨w,done,failing,disk,full⟩

def reach (v : Volume) (k a n : Nat) : Nat := indirect.leaf (indirect.sight v.failing v.disk) k a n

section
variable {a k n : Nat}

theorem reach_hidden (hidden : v.failing a = true) : reach v (k + 1) a n = 0 := leaf_hidden hidden

theorem reach_seen (used : a ≠ 0) (seen : v.failing a = false) :
    reach v (k + 1) a n = reach v k ((v.disk a).word (indirect.digit k n)) n := leaf_seen used seen

theorem reach_mem (used : reach v k a n ≠ 0) : reach v k a n ∈ indirect.owned v.disk k a := by
  have same := sight_leaf used
  unfold reach at used ⊢
  rw [same] at used ⊢
  exact leaf_mem used

theorem follow_read : ∀ {a ra : Nat}, a ≠ 0 → ∃ answer ra', follow false n k v a ra = .ok (v,answer,ra') ∧ answer ≠ .efbig ∧
    ∀ nb, answer = .block nb ↔ reach v k a n = nb ∧ nb ≠ 0 := by
  induction k with
  | zero =>
    intro a ra nonzero
    refine ⟨.block a,ra,rfl,by simp,fun nb => ?_⟩
    rw [Answer.block.injEq]
    constructor
    · rintro rfl
      exact ⟨rfl,nonzero⟩
    · exact fun both => both.1
  | succ k ih =>
    intro a ra nonzero
    cases hidden : v.failing a with
    | true =>
      refine ⟨.unread,0,by simp [follow,hidden],by simp,fun nb => ?_⟩
      rw [reach_hidden hidden]
      simp only [reduceCtorEq,false_iff,not_and,not_not]
      exact fun zero => zero.symm
    | false =>
      have bits : n / 256^k % 256 = indirect.digit k n := rfl
      rw [reach_seen nonzero hidden]
      by_cases hole : (v.disk a).word (indirect.digit k n) = 0
      · refine ⟨.absent,_,by simp only [follow,hidden,bits,hole]; rfl,by simp,fun nb => ?_⟩
        rw [hole,reach,leaf_empty]
        simp only [reduceCtorEq,false_iff,not_and,not_not]
        exact fun zero => zero.symm
      obtain ⟨answer,ra',done,known,spec⟩ := @ih _ (if indirect.digit k n < nindir - 1 then
        (v.disk a).word (indirect.digit k n + 1) else ra) hole
      refine ⟨answer,ra',?_,known,spec⟩
      simp only [follow,hidden,bits,hole,Bool.false_eq_true,if_false]
      exact done

theorem reach_blank (used : a ≠ 0) (blank : v.disk a = indirect.blank) : reach v k a n = if k = 0 then a else 0 := by
  cases k with
  | zero => rfl
  | succ k =>
    rw [if_neg (succ_ne_zero k)]
    cases hidden : v.failing a with
    | true => exact reach_hidden hidden
    | false =>
      have child : (v.disk a).word (indirect.digit k n) = 0 := by
        rw [blank]
        exact indirect.child_blank _
      rw [reach_seen used hidden,child]
      exact leaf_empty

def Placed (answer : Answer) (before after : Nat) (l : List Nat) : Prop :=
  match answer with
  | .block b => b ≠ 0 ∧ after = b ∧ (before = b ∨ before = 0 ∧ b ∈ l)
  | _ => before = 0 ∧ after = 0

variable {answer : Answer}

theorem Placed.fresh {after : Nat} (nonzero : b ≠ 0)
    (placed : Placed answer (if k = 0 then b else 0) after l) : Placed answer 0 after (b :: l) := by
  cases answer with
  | block nb =>
    obtain ⟨used,there,first⟩ := placed
    refine ⟨used,there,Or.inr ⟨rfl,?_⟩⟩
    split_ifs at first with level
    · rcases first with same | ⟨zero,_⟩
      · exact same ▸ List.mem_cons_self
      · exact absurd zero nonzero
    rcases first with same | ⟨_,member⟩
    · exact absurd same.symm used
    · exact List.mem_cons_of_mem b member
  | _ =>
    obtain ⟨before,there⟩ := placed
    exact ⟨rfl,there⟩

def Granted (failing : Nat → Bool) : Answer → Prop
  | .block _ => True
  | .nospace => True
  | .unread => ∃ b, failing b = true
  | _ => False

/-- The blocks that a tree has more than before, each with the first number that it
leads to: none if the block that is asked for was there, and otherwise some of the free
ones, on the way to its number. -/
structure More (before after more : Multiset (Nat × Nat)) (bound : Nat) (answer : Answer) (here : Nat)
    (l l' : List Nat) : Prop where
  grown : after = before + more
  order : ∀ e ∈ more, e.2 ≤ bound
  taken : answer ≠ .nospace → (l : Multiset Nat) = more.map Prod.fst + (l' : Multiset Nat)
  kept : here ≠ 0 → more = 0

theorem More.same {before : Multiset (Nat × Nat)} {bound here : Nat} {l' : List Nat}
    (list : answer = .nospace ∨ l = l') : More before before 0 bound answer here l l' := by
  refine ⟨(add_zero _).symm,by simp,fun other => ?_,fun _ => rfl⟩
  rw [list.resolve_left other,Multiset.map_zero,zero_add]

theorem reach_up {v' : Volume} (nonzero : a ≠ 0) (seen : v.failing a = false) (failing : v'.failing = v.failing)
    (others : ∀ j, j ≠ indirect.digit k n → j < 256 → (v'.disk a).word j = (v.disk a).word j)
    (beside : ∀ x ∈ indirect.siblings v.disk k a (indirect.digit k n), v'.disk x = v.disk x)
    (apart : ∀ n', n' % 256^k ≠ n % 256^k → reach v' k ((v'.disk a).word (indirect.digit k n)) n' =
      reach v k ((v.disk a).word (indirect.digit k n)) n')
    (here : Placed answer (reach v k ((v.disk a).word (indirect.digit k n)) n)
    (reach v' k ((v'.disk a).word (indirect.digit k n)) n) l) :
    (∀ n', n' % 256^(k + 1) ≠ n % 256^(k + 1) → reach v' (k + 1) a n' = reach v (k + 1) a n') ∧
      Placed answer (reach v (k + 1) a n) (reach v' (k + 1) a n) l := by
  have seen' : v'.failing a = false := by rwa [failing]
  constructor
  · intro n' other
    by_cases digits : indirect.digit k n' = indirect.digit k n
    · rw [reach_seen nonzero seen',reach_seen nonzero seen,digits]
      apply apart
      intro same
      exact other ((mod_eq_iff indirect k n' n).mpr ⟨digits,same⟩)
    · rw [reach,reach,failing]
      exact sight_graft others beside digits
  · rw [reach_seen nonzero seen',reach_seen nonzero seen]
    exact here

theorem planted {w : Volume} {i : Nat} {s : Multiset Nat} (held : Held (healed v) (a ::ₘ s) (b :: l))
    (taken : Held (healed w) (b ::ₘ a ::ₘ s) l) (disk : w.disk = update v.disk b Block.zero) (inside : i < 256)
    {h : Nat → Block} (put : h = update w.disk a ((v.disk a).putWord i b)) :
    b ≠ 0 ∧ h b = indirect.blank ∧ Held (healed {w with disk := h}) (indirect.owned h k b + a ::ₘ s) l ∧
      (h a).word i = b ∧ (∀ j, j ≠ i → j < 256 → (h a).word j = (v.disk a).word j) ∧ ∀ x ∈ s, h x = v.disk x := by
  obtain ⟨fresh,apart⟩ := held.fresh
  have root : a ≠ b := by
    rintro rfl
    exact apart (Multiset.mem_cons_self a s)
  have small := (taken.range (Multiset.mem_cons_self b _)).2
  have self : h a = (v.disk a).putWord i b := by
    rw [put,update_self]
  have blank : h b = indirect.blank := by
    rw [put,update_of_ne root.symm,disk,update_self]
    rfl
  refine ⟨fresh,blank,?_,?_,fun j other bound => ?_,fun x member => ?_⟩
  · rw [owned_blank fresh blank,Multiset.singleton_add,put]
    exact taken.store (Multiset.mem_cons_of_mem (Multiset.mem_cons_self a s)) _
  · rw [self,Block.word_putWord inside small]
  · rw [self,Block.word_putWord_other bound other]
  have distinct := Multiset.nodup_cons.mp held.nodup
  have away : x ≠ b := by
    rintro rfl
    exact apart (Multiset.mem_cons_of_mem member)
  have below : x ≠ a := by
    rintro rfl
    exact distinct.1 member
  rw [put,update_of_ne below,disk,update_of_ne away]

abbrev Follows (n k : Nat) (v : Volume) (a ra : Nat) (m : Multiset Nat) (l : List Nat) : Prop :=
  ∃ v' answer ra' l', follow true n k v a ra = .ok (v',answer,ra') ∧ Granted v.failing answer ∧ v'.failing = v.failing ∧
    Held (healed v') (indirect.owned v'.disk k a + m) l' ∧ (∀ x ∈ m, v'.disk x = v.disk x) ∧
    (∀ n', n' % 256^k ≠ n % 256^k → reach v' k a n' = reach v k a n') ∧
    Placed answer (reach v k a n) (reach v' k a n) l ∧
    (reach v k a n = 0 → ∀ b, answer = .block b → v'.disk b = Block.zero) ∧
    ∀ base, ∃ more, More (indirect.numbered v.disk k a base) (indirect.numbered v'.disk k a base) more (base + n % 256^k)
      answer (reach v k a n) l l'

theorem void_hole (hole : (v.disk a).word (indirect.digit k n) = 0) :
    indirect.owned v.disk k (indirect.child (v.disk a) (indirect.digit k n)) = 0 := by
  have zero : indirect.child (v.disk a) (indirect.digit k n) = 0 := hole
  rw [zero,owned_empty]

section
variable {ra : Nat} (nonzero : a ≠ 0) (seen : v.failing a = false)
include nonzero seen

theorem Follows.present (used : (v.disk a).word (indirect.digit k n) ≠ 0)
    (below : Follows n k v ((v.disk a).word (indirect.digit k n))
      (if indirect.digit k n < nindir - 1 then (v.disk a).word (indirect.digit k n + 1) else ra)
      (a ::ₘ indirect.siblings v.disk k a (indirect.digit k n) + m) l) : Follows n (k + 1) v a ra m l := by
  have inside := digit_lt indirect k n
  have bits : n / 256^k % 256 = indirect.digit k n := rfl
  have digits : n % 256^(k + 1) = n % 256^k + 256^k * indirect.digit k n := mod_pow_succ
  rw [Nat.mul_comm] at digits
  obtain ⟨v',answer,ra',l',done,known,failing,held,frame,apart,here,clear,more⟩ := below
  have self : v'.disk a = v.disk a := frame a (by simp)
  have beside : ∀ x ∈ indirect.siblings v.disk k a (indirect.digit k n), v'.disk x = v.disk x := fun x member =>
    frame x (by simp [member])
  have words : ∀ j, j ≠ indirect.digit k n → j < 256 → (v'.disk a).word j = (v.disk a).word j := fun j _ _ => by rw [self]
  obtain ⟨others,placed⟩ := @reach_up _ l _ _ _ answer _ nonzero seen failing words beside (by rwa [self]) (by rwa [self])
  refine ⟨v',answer,ra',l',?_,known,failing,?_,fun x member => frame x (by simp [member]),others,placed,
    fun zero => clear (by rwa [reach_seen nonzero seen] at zero),fun base => ?_⟩
  · simp only [follow,seen,bits,used,Bool.false_eq_true,if_false]
    exact done
  · rw [owned_graft nonzero inside words beside,regroup,self]
    exact held
  obtain ⟨rest,grown,order,given,kept⟩ := more (base + indirect.digit k n * 256^k)
  refine ⟨rest,numbered_graft nonzero inside words beside ?_,fun e member => ?_,given,fun used => kept ?_⟩
  · rw [self]
    exact grown
  · have below := order e member
    omega
  · rwa [reach_seen nonzero seen] at used

variable (hole : (v.disk a).word (indirect.digit k n) = 0) {w : Volume} (failing : w.failing = v.failing)
include hole failing

theorem Follows.full (failed : FreeList.balloc v true = .ok (w,none)) (disk : w.disk = v.disk)
    (spent : Held (healed w) (a ::ₘ (indirect.siblings v.disk k a (indirect.digit k n) + m)) []) :
    Follows n (k + 1) v a ra m l := by
  have bits : n / 256^k % 256 = indirect.digit k n := rfl
  have nothing : reach v (k + 1) a n = 0 := by
    rw [reach_seen nonzero seen,hole]
    exact leaf_empty
  have same : ∀ n', reach w (k + 1) a n' = reach v (k + 1) a n' := fun n' => by rw [reach,reach,failing,disk]
  refine ⟨w,.nospace,0,[],?_,trivial,failing,?_,fun x _ => by rw [disk],fun n' _ => same n',
    ⟨nothing,(same n).trans nothing⟩,by simp,fun base => ⟨0,by rw [disk]; exact .same (Or.inl rfl)⟩⟩
  · simp only [follow,seen,bits,hole,Bool.false_eq_true,if_false,if_true,failed]
    rfl
  · rw [disk,owned_succ_at nonzero (digit_lt indirect k n),void_hole hole,zero_add,Multiset.cons_add]
    exact spent

theorem Follows.planted (done : FreeList.balloc v true = .ok (w,some b)) (disk : w.disk = update v.disk b Block.zero)
    (root : Held (healed v) (a ::ₘ (indirect.siblings v.disk k a (indirect.digit k n) + m)) (b :: l))
    (taken : Held (healed w) (b ::ₘ a ::ₘ (indirect.siblings v.disk k a (indirect.digit k n) + m)) l)
    (ih : ∀ {v : Volume} {a ra : Nat} {m : Multiset Nat} {l : List Nat}, a ≠ 0 →
    Held (healed v) (indirect.owned v.disk k a + m) l →
      Follows n k v a ra m l) : Follows n (k + 1) v a ra m (b :: l) := by
  have inside := digit_lt indirect k n
  have bits : n / 256^k % 256 = indirect.digit k n := rfl
  have digits : n % 256^(k + 1) = n % 256^k + 256^k * indirect.digit k n := mod_pow_succ
  rw [Nat.mul_comm] at digits
  have nothing : reach v (k + 1) a n = 0 := by
    rw [reach_seen nonzero seen,hole]
    exact leaf_empty
  generalize put : update w.disk a ((v.disk a).putWord (indirect.digit k n) b) = h
  obtain ⟨fresh,blank,below,child,words,kept⟩ := BlockMap.planted (k := k) root taken disk inside put.symm
  obtain ⟨v',answer,ra',l',next,known,failing',held',frame,apart,here,clear,more⟩ := @ih {w with disk := h} b
    (if indirect.digit k n < nindir - 1 then (v.disk a).word (indirect.digit k n + 1) else ra) _ l fresh below
  have self : v'.disk a = h a := frame a (Multiset.mem_cons_self _ _)
  have beside : ∀ x ∈ indirect.siblings v.disk k a (indirect.digit k n), v'.disk x = v.disk x := fun x member =>
    (frame x (by simp [member])).trans (kept x (by simp [member]))
  have others : ∀ j, j ≠ indirect.digit k n → j < 256 → (v'.disk a).word j = (v.disk a).word j := fun j other bound => by
    rw [self,words j other bound]
  have void : ∀ n', reach {w with disk := h} k b n' = if k = 0 then b else 0 := fun n' => reach_blank fresh blank
  have apart' : ∀ n', n' % 256^k ≠ n % 256^k → reach v' k ((v'.disk a).word (indirect.digit k n)) n' =
      reach v k ((v.disk a).word (indirect.digit k n)) n' := by
    intro n' other
    have level : k ≠ 0 := by
      rintro rfl
      exact other (by rw [Nat.pow_zero,mod_one,mod_one])
    rw [self,child,apart n' other,void,hole,reach,leaf_empty,if_neg level]
  have here' : Placed answer (reach v k ((v.disk a).word (indirect.digit k n)) n)
      (reach v' k ((v'.disk a).word (indirect.digit k n)) n) (b :: l) := by
    rw [void] at here
    rw [self,child,hole,show reach v k 0 n = 0 from leaf_empty]
    exact here.fresh fresh
  obtain ⟨others',placed⟩ := reach_up nonzero seen (failing'.trans failing) others beside apart' here'
  have first : indirect.child (v'.disk a) (indirect.digit k n) = b := by rw [self]; exact child
  refine ⟨v',answer,ra',l',?_,failing ▸ known,failing'.trans failing,?_,fun x member => ?_,others',placed,
    fun _ c found => ?_,fun base => ?_⟩
  · simp only [follow,seen,bits,hole,Bool.false_eq_true,if_false,if_true,done]
    rw [← put] at next
    exact next
  · rw [owned_graft nonzero inside others beside,regroup,Multiset.cons_add,first]
    exact held'
  · exact (frame x (by simp [member])).trans (kept x (by simp [member]))
  · cases k with
    | zero =>
      simp only [follow,Except.ok.injEq,Prod.mk.injEq] at next
      obtain ⟨rfl,rfl,_⟩ := next
      cases found
      exact blank
    | succ k => exact clear (void n) c found
  obtain ⟨rest,grown,order,given,_⟩ := more (base + indirect.digit k n * 256^k)
  have single : indirect.numbered h k b (base + indirect.digit k n * 256^k) = {(b,base + indirect.digit k n * 256^k)} :=
    numbered_blank fresh blank
  refine ⟨(b,base + indirect.digit k n * 256^k) ::ₘ rest,?_,fun e member => ?_,fun other => ?_,fun used => ?_⟩
  · refine numbered_graft nonzero inside others beside ?_
    have before : indirect.child (v.disk a) (indirect.digit k n) = 0 := hole
    rw [first,before,numbered_empty,zero_add]
    rw [single,Multiset.singleton_add] at grown
    exact grown
  · rw [digits]
    rcases Multiset.mem_cons.mp member with rfl | later
    · dsimp only
      omega
    have below := order e later
    omega
  · rw [Multiset.map_cons,Multiset.cons_add,← given other,Multiset.cons_coe]
  · exact absurd nothing used

end

/-- A writer is answered a block that is reached from then on. It may find no free
block on its way, and then a chain of empty indirect blocks is what it leaves. -/
theorem follow_write (n : Nat) : ∀ {v : Volume} {a ra : Nat} {m : Multiset Nat} {l : List Nat}, a ≠ 0 →
    Held (healed v) (indirect.owned v.disk k a + m) l →
    Follows n k v a ra m l := by
  induction k with
  | zero =>
    intro v a ra m l nonzero held
    exact ⟨v,.block a,ra,l,rfl,trivial,rfl,held,fun _ _ => rfl,fun _ _ => rfl,⟨nonzero,rfl,Or.inl rfl⟩,
      fun zero => absurd zero nonzero,fun base => ⟨0,.same (Or.inr rfl)⟩⟩
  | succ k ih =>
    intro v a ra m l nonzero held
    cases hidden : v.failing a with
    | true =>
      exact ⟨v,.unread,0,l,by simp [follow,hidden],⟨a,hidden⟩,rfl,held,fun _ _ => rfl,fun _ _ => rfl,
        ⟨reach_hidden hidden,reach_hidden hidden⟩,by simp,fun base => ⟨0,.same (Or.inr rfl)⟩⟩
    | false =>
      have root := held
      rw [owned_succ_at nonzero (digit_lt indirect k n),regroup] at root
      by_cases hole : (v.disk a).word (indirect.digit k n) = 0
      · rw [void_hole hole,zero_add,Multiset.cons_add] at root
        cases l with
        | nil =>
          obtain ⟨w,failed,failing,disk,spent⟩ := balloc_none root true
          exact .full nonzero hidden hole failing failed disk spent
        | cons b l =>
          obtain ⟨w,given,done,failing,⟨rfl,disk,spent⟩ | ⟨rfl,taken,disk⟩⟩ := balloc_takes root true
          · exact .full nonzero hidden hole failing done disk spent
          rw [if_pos rfl] at disk
          exact .planted nonzero hidden hole failing done disk root taken ih
      · exact .present nonzero hidden hole (ih hole root)

end

def reached (f : File) (bn : Nat) : Nat := reach f.volume (level (place bn).1) (f.ip.iAddr (place bn).1) (place bn).2

def ahead (f : File) (bn ra : Nat) : Nat :=
  if bn < ndaddr then if bn < ndaddr - 1 then f.ip.iAddr (Fin.ofNat 7 (bn + 1)) else 0 else ra

section
variable {f : File} {others : Multiset Nat} {bn : Nat}

theorem indirection_none (far : FileData.mapBlocks ≤ bn) : indirection 3 1 (bn - ndaddr) = none := by
  unfold FileData.mapBlocks at far
  rw [FileData.indirection_succ,if_neg (by unfold ndaddr; omega),FileData.indirection_succ,if_neg (by unfold ndaddr; omega),
    FileData.indirection_succ,if_neg (by unfold ndaddr; omega)]
  rfl

theorem bmap_eq (f : File) (small : bn < FileData.mapBlocks) (write clrbuf : Bool) :
    bmap f bn write clrbuf = (address f (place bn).1 write (clrbuf || decide (4 ≤ bn))).bind fun r =>
      match r.answer with
      | .block nb => (follow write (place bn).2 (level (place bn).1) r.file.volume nb 0).bind fun q =>
          .ok {r with file := {r.file with volume := q.1},answer := q.2.1,rablock := some (ahead r.file bn q.2.2)}
      | _ => .ok r := by
  have positive : ¬ (bn : Int) < 0 := by omega
  by_cases near : bn < 4
  · have slot : (place bn).1 = Fin.ofNat 7 bn := by simp [place,near]
    have none : level (place bn).1 = 0 := by
      rw [slot]
      simp only [level,Fin.ofNat]
      omega
    have first : (bn : Int) < (ndaddr : Nat) := by unfold ndaddr; omega
    rw [bmap,if_neg positive,if_pos first,none,slot,show decide (4 ≤ bn) = false by simp [near],Bool.or_false,Int.toNat_natCast]
    cases address f (Fin.ofNat 7 bn) write clrbuf with
    | error e => rfl
    | ok r =>
      obtain ⟨f',answer,ra,flagged⟩ := r
      cases answer with
      | block nb =>
        have below : ((bn : Int) < (ndaddr : Nat) - 1) = (bn < ndaddr - 1) := by
          unfold ndaddr
          exact propext (by omega)
        simp only [bind,Except.bind,pure,Except.pure,follow,ahead,if_pos (show bn < ndaddr from near),below]
      | _ => rfl
  · obtain ⟨route,index⟩ := FileData.indirection_place small (by omega)
    have slot : Fin.ofNat 7 (3 + level (place bn).1) = (place bn).1 := by
      apply Fin.ext
      rw [index]
      simp
    have far : ¬ (bn : Int) < (ndaddr : Nat) := by unfold ndaddr; omega
    rw [bmap,if_neg positive,if_neg far,Int.toNat_natCast,route,show decide (4 ≤ bn) = true by simp; omega,Bool.or_true]
    dsimp only
    rw [slot]
    cases address f (place bn).1 write true with
    | error e => rfl
    | ok r =>
      obtain ⟨f',answer,ra,flagged⟩ := r
      cases answer with
      | block nb => simp only [bind,Except.bind,pure,Except.pure,ahead,if_neg (show ¬ bn < ndaddr from near)]
      | _ => rfl

theorem bmap_outside (n : Int) (outside : ¬ (0 ≤ n ∧ n < FileData.mapBlocks)) (write clrbuf : Bool) :
    ∃ r, bmap f n write clrbuf = .ok r ∧ r.file = f ∧ r.answer = .efbig := by
  by_cases negative : n < 0
  · exact ⟨_,if_pos negative,rfl,rfl⟩
  have far : FileData.mapBlocks ≤ n.toNat := by omega
  have beyond : ¬ n < (ndaddr : Nat) := by
    unfold FileData.mapBlocks at far
    unfold ndaddr
    omega
  refine ⟨⟨f,.efbig,some 0,false⟩,?_,rfl,rfl⟩
  rw [bmap,if_neg negative,if_neg beyond,indirection_none far]

theorem bmap_read (small : bn < FileData.mapBlocks) (clrbuf : Bool) : ∃ r, bmap f bn false clrbuf = .ok r ∧ r.file = f ∧
    r.answer ≠ .efbig ∧ ∀ nb, r.answer = .block nb ↔ reached f bn = nb ∧ nb ≠ 0 := by
  rw [bmap_eq f small]
  unfold reached
  by_cases empty : f.ip.iAddr (place bn).1 = 0
  · refine ⟨⟨f,.absent,some 0,false⟩,by simp [address,empty,Except.bind],rfl,by simp,fun nb => ?_⟩
    rw [empty,reach,leaf_empty]
    simp only [reduceCtorEq,false_iff,not_and,not_not]
    exact fun zero => zero.symm
  · obtain ⟨answer,ra,done,known,spec⟩ := @follow_read f.volume (level (place bn).1) (place bn).2 _ 0 empty
    refine ⟨⟨f,answer,some (ahead f bn ra),false⟩,?_,rfl,known,spec⟩
    simp only [address,empty,if_false,Except.bind,done]

theorem mapped_iff (n : Int) (nb : Nat) :
    mapped f n = some nb ↔ 0 ≤ n ∧ n < FileData.mapBlocks ∧ reached f n.toNat = nb ∧ nb ≠ 0 := by
  by_cases inside : 0 ≤ n ∧ n < FileData.mapBlocks
  · obtain ⟨number,rfl⟩ := Int.eq_ofNat_of_zero_le inside.1
    obtain ⟨⟨f',answer,ra,flagged⟩,done,_,_,spec⟩ := @bmap_read f number (by omega) false
    rw [mapped,done]
    dsimp only at spec
    cases answer with
    | block b =>
      have this := spec nb
      rw [Answer.block.injEq] at this
      rw [Option.some.injEq,this]
      exact ⟨fun both => ⟨inside.1,inside.2,both⟩,fun all => all.2.2⟩
    | _ =>
      have this := spec nb
      simp only [reduceCtorEq,false_iff] at this ⊢
      exact fun all => this all.2.2
  · obtain ⟨r,done,_,outside⟩ := bmap_outside (f := f) n inside false false
    obtain ⟨f',answer,ra,flagged⟩ := r
    subst outside
    rw [mapped,done]
    simp only [reduceCtorEq,false_iff]
    exact fun all => inside ⟨all.1,all.2.1⟩

theorem address_write (sound : Sound f others l) (i : Fin 7) {clrbuf : Bool} (clean : clrbuf = true ∨ level i = 0) :
    ∃ r l', address f i true clrbuf = .ok r ∧ Sound r.file others l' ∧ r.file.volume.failing = f.volume.failing ∧
      (∀ x ∈ besides f.volume.disk f.ip.iAddr i + others, r.file.volume.disk x = f.volume.disk x) ∧
      (∀ j, j ≠ i → r.file.ip.iAddr j = f.ip.iAddr j) ∧ r.file.ip = {f.ip with iAddr := r.file.ip.iAddr} ∧
      ((r.answer = .nospace ∧ f.ip.iAddr i = 0 ∧ r.file.ip.iAddr i = 0) ∨ ∃ b, r.answer = .block b ∧ b ≠ 0 ∧
      r.file.ip.iAddr i = b ∧
          ((f.ip.iAddr i = b ∧ l' = l ∧ r.file = f) ∨
          (f.ip.iAddr i = 0 ∧ l = b :: l' ∧ (clrbuf = true → r.file.volume.disk b = Block.zero) ∧
              (∀ n, reach r.file.volume (level i) b n = if level i = 0 then b else 0) ∧
              ∀ base, indirect.numbered r.file.volume.disk (level i) b base = {(b,base)}))) := by
  by_cases empty : f.ip.iAddr i = 0
  · have full : ∀ w : Volume, FreeList.balloc f.volume clrbuf = .ok (w,none) → w.failing = f.volume.failing →
        w.disk = f.volume.disk → Held (healed w) (blocksOf f.volume.disk f.ip.iAddr + others) [] →
        address f i true clrbuf = .ok ⟨{f with volume := w},.nospace,some 0,false⟩ ∧ Sound {f with volume := w} others [] := by
      intro w failed failing disk spent
      refine ⟨?_,?_⟩
      · simp only [address,empty,if_true,failed]
        rfl
      unfold Sound
      dsimp only
      rw [disk]
      exact spent
    cases l with
    | nil =>
      obtain ⟨w,failed,failing,disk,spent⟩ := balloc_none sound clrbuf
      obtain ⟨done,sound'⟩ := full w failed failing disk spent
      exact ⟨_,[],done,sound',failing,fun x _ => by dsimp only; rw [disk],fun _ _ => rfl,rfl,Or.inl ⟨rfl,empty,empty⟩⟩
    | cons b l =>
      obtain ⟨w,given,done,failing,⟨rfl,disk,spent⟩ | ⟨rfl,taken,disk⟩⟩ := balloc_takes sound clrbuf
      · obtain ⟨failed,sound'⟩ := full w done failing disk spent
        exact ⟨_,[],failed,sound',failing,fun x _ => by dsimp only; rw [disk],fun _ _ => rfl,rfl,Or.inl ⟨rfl,empty,empty⟩⟩
      obtain ⟨fresh,apart⟩ := sound.fresh
      have frame : ∀ x ∈ besides f.volume.disk f.ip.iAddr i + others, w.disk x = f.volume.disk x := by
        intro x member
        have other : x ≠ b := by
          rintro rfl
          apply apart
          rw [FileData.blocksOf_at _ _ i,add_assoc]
          exact Multiset.mem_add.mpr (Or.inr member)
        rw [disk]
        split_ifs
        · exact update_of_ne other _ _
        · rfl
      have cleared : clrbuf = true → w.disk b = indirect.blank := fun clear => by
        rw [disk,if_pos clear,update_self]
        rfl
      have single : indirect.owned w.disk (level i) b = {b} ∧ (∀ n, reach w (level i) b n = if level i = 0 then b else 0) ∧
          ∀ base, indirect.numbered w.disk (level i) b base = {(b,base)} := by
        rcases clean with clear | direct
        · have blank := cleared clear
          exact ⟨owned_blank fresh blank,fun n => reach_blank fresh blank,fun base => numbered_blank fresh blank⟩
        rw [direct]
        exact ⟨if_neg fresh,fun n => rfl,fun base => if_neg fresh⟩
      have beside := @FileData.besides_congr f.volume.disk w.disk f.ip.iAddr (update f.ip.iAddr i b) i
        (fun x member => frame x (Multiset.mem_add.mpr (Or.inl member))) fun j other => update_of_ne other _ _
      refine ⟨⟨⟨w,{f.ip with iAddr := update f.ip.iAddr i b}⟩,.block b,some 0,true⟩,l,?_,?_,failing,frame,
        fun j other => update_of_ne other _ _,rfl,Or.inr ⟨b,rfl,fresh,update_self _ _ _,Or.inr ⟨empty,rfl,cleared,single.2⟩⟩⟩
      · simp only [address,empty,if_true,done]
        rfl
      rw [FileData.blocksOf_at _ _ i,empty,owned_empty,zero_add] at taken
      unfold Sound
      dsimp only
      rw [FileData.blocksOf_at _ _ i,update_self,beside,single.1,Multiset.singleton_add,Multiset.cons_add]
      exact taken
  · refine ⟨⟨f,.block (f.ip.iAddr i),some 0,false⟩,l,?_,sound,rfl,fun _ _ => rfl,fun _ _ => rfl,rfl,
      Or.inr ⟨_,rfl,empty,rfl,Or.inl ⟨rfl,rfl,rfl⟩⟩⟩
    simp only [address,empty,if_false]

theorem reached_besides {f' : File} {i : Fin 7} (failing : f'.volume.failing = f.volume.failing)
    (same : ∀ b ∈ besides f.volume.disk f.ip.iAddr i, f'.volume.disk b = f.volume.disk b)
    (addrs : ∀ j, j ≠ i → f'.ip.iAddr j = f.ip.iAddr j) (other : (place bn).1 ≠ i) : reached f' bn = reached f bn := by
  unfold reached reach
  rw [addrs _ other,failing]
  exact sight_congr fun b present => same b (FileData.mem_besides other present)

theorem numberedBlocks_graft {h h' : Nat → Block} {addr addr' : Fin 7 → Nat} {i : Fin 7} {more : Multiset (Nat × Nat)}
    (same : ∀ b ∈ besides h addr i, h' b = h b) (addrs : ∀ j, j ≠ i → addr' j = addr j)
    (below : indirect.numbered h' (level i) (addr' i) (FileData.firstBlock i) =
      indirect.numbered h (level i) (addr i) (FileData.firstBlock i) + more) :
    FileData.numberedBlocks h' addr' = FileData.numberedBlocks h addr + more := by
  have rest : ∑ j ∈ Finset.univ.erase i, indirect.numbered h' (level j) (addr' j) (FileData.firstBlock j) =
      ∑ j ∈ Finset.univ.erase i, indirect.numbered h (level j) (addr j) (FileData.firstBlock j) := by
    refine Finset.sum_congr rfl fun j member => ?_
    have other := (Finset.mem_erase.mp member).1
    rw [addrs j other]
    exact numbered_congr fun b present => same b (FileData.mem_besides other present)
  unfold FileData.numberedBlocks
  rw [← Finset.add_sum_erase _ _ (Finset.mem_univ i),← Finset.add_sum_erase Finset.univ
    (fun j => indirect.numbered h (level j) (addr j) (FileData.firstBlock j)) (Finset.mem_univ i),rest,below,add_assoc,add_assoc]
  congr 1
  exact add_comm _ _

/-- What `bmap` does for a write of a block: the file has it then, if one is given. -/
structure Wrote (f : File) (bn : Nat) (clear : Bool) (r : Mapping) (others : Multiset Nat) (l l' : List Nat) : Prop where
  known : Granted f.volume.failing r.answer
  failing : r.file.volume.failing = f.volume.failing
  ip : r.file.ip = {f.ip with iAddr := r.file.ip.iAddr}
  sound : Sound r.file others l'
  others : ∀ bn' < FileData.mapBlocks, bn' ≠ bn → reached r.file bn' = reached f bn'
  here : Placed r.answer (reached f bn) (reached r.file bn) l
  clear : clear = true → reached f bn = 0 → ∀ b, r.answer = .block b → r.file.volume.disk b = Block.zero
  more : ∃ more, More (FileData.numberedBlocks f.volume.disk f.ip.iAddr)
    (FileData.numberedBlocks r.file.volume.disk r.file.ip.iAddr) more bn r.answer (reached f bn) l l'

theorem bmap_write (sound : Sound f others l) (small : bn < FileData.mapBlocks) (clrbuf : Bool) :
    ∃ r l', bmap f bn true clrbuf = .ok r ∧ Wrote f bn (clrbuf || decide (4 ≤ bn)) r others l l' := by
  rw [bmap_eq f small]
  obtain ⟨r,l1,ok,sound1,failing1,frame1,addrs1,ip1,found⟩ := address_write sound (place bn).1 (FileData.clean_place bn clrbuf)
  have beside1 : ∀ x ∈ besides f.volume.disk f.ip.iAddr (place bn).1, r.file.volume.disk x = f.volume.disk x := fun x member =>
    frame1 x (Multiset.mem_add.mpr (Or.inl member))
  obtain ⟨f1,answer,ra,flagged⟩ := r
  rw [ok]
  rcases found with ⟨rfl,before,after⟩ | ⟨a,rfl,used,root,found⟩
  · refine ⟨_,l1,rfl,trivial,failing1,ip1,sound1,fun bn' inside other => ?_,?_,by simp,0,?_⟩
    · by_cases slot : (place bn').1 = (place bn).1
      · rw [reached,reached,slot,before,after,reach,reach,leaf_empty,leaf_empty]
      · exact reached_besides failing1 beside1 addrs1 slot
    · dsimp only at after ⊢
      rw [reached,reached,before,after]
      exact ⟨leaf_empty,leaf_empty⟩
    · dsimp only at after ⊢
      rw [@numberedBlocks_graft _ _ _ _ _ 0 beside1 addrs1
        (by rw [before,after,numbered_empty,numbered_empty,add_zero]),add_zero]
      exact .same (Or.inl rfl)
  dsimp only at sound1 failing1 beside1 addrs1 root found ip1
  have held := sound1
  unfold Sound at held
  rw [FileData.blocksOf_at _ _ (place bn).1,root,add_assoc] at held
  obtain ⟨v',answer,ra',l',done,known,failing2,held',frame2,apart,here,clear,more⟩ :=
    @follow_write _ (place bn).2 _ _ 0 _ _ used held
  have beside2 : ∀ x ∈ besides f1.volume.disk f1.ip.iAddr (place bn).1, v'.disk x = f1.volume.disk x := fun x member =>
    frame2 x (Multiset.mem_add.mpr (Or.inl member))
  have number : FileData.firstBlock (place bn).1 + (place bn).2 % 256^level (place bn).1 = bn := by
    rw [mod_eq_of_lt (FileData.place_lt small),FileData.firstBlock_place]
  obtain ⟨rest,more⟩ := more (FileData.firstBlock (place bn).1)
  rw [number] at more
  refine ⟨⟨{f1 with volume := v'},answer,some (ahead f1 bn ra'),flagged⟩,l',?_,failing1 ▸ known,failing2.trans failing1,ip1,?_,
    fun bn' inside other => ?_,?_,fun clean hole b given => ?_,?_⟩
  · simp only [Except.bind,done]
  · unfold Sound
    dsimp only
    rw [FileData.blocksOf_at _ _ (place bn).1,FileData.besides_congr beside2 fun _ _ => rfl,root,add_assoc]
    exact held'
  · by_cases slot : (place bn').1 = (place bn).1
    · have first := FileData.place_lt inside
      rw [slot] at first
      have differ : (place bn').2 % 256^level (place bn).1 ≠ (place bn).2 % 256^level (place bn).1 := by
        rw [mod_eq_of_lt first,mod_eq_of_lt (FileData.place_lt small)]
        exact fun same => other (FileData.place_injective slot same)
      rw [reached,reached,slot,root,apart _ differ]
      rcases found with ⟨kept,_,rfl⟩ | ⟨empty,_,_,void,_⟩
      · rw [kept]
      rw [void,empty,reach,leaf_empty,if_neg]
      intro direct
      rw [direct,Nat.pow_zero,mod_one,mod_one] at differ
      exact differ rfl
    · have first : reached {f1 with volume := v'} bn' = reached f1 bn' := reached_besides failing2 beside2 (fun _ _ => rfl) slot
      rw [first]
      exact reached_besides failing1 beside1 addrs1 slot
  · rw [reached,reached,root]
    rcases found with ⟨kept,rfl,rfl⟩ | ⟨empty,rfl,_,void,_⟩
    · rw [kept]
      exact here
    rw [void] at here
    rw [empty,show reach f.volume (level (place bn).1) 0 (place bn).2 = 0 from leaf_empty]
    exact here.fresh used
  · rcases found with ⟨kept,_,rfl⟩ | ⟨empty,_,blank,void,_⟩
    · refine clear ?_ b given
      rw [reached,root] at hole
      exact hole
    rw [void] at clear
    by_cases direct : level (place bn).1 = 0
    · rw [direct] at done
      simp only [follow,Except.ok.injEq,Prod.mk.injEq] at done
      obtain ⟨rfl,rfl,_⟩ := done
      cases given
      exact blank clean
    · exact clear (if_neg direct) b given
  · rcases found with ⟨kept,rfl,rfl⟩ | ⟨empty,rfl,_,void,single⟩
    · refine ⟨rest,?_,more.order,more.taken,?_⟩
      · exact numberedBlocks_graft beside2 (fun _ _ => rfl) (by rw [root]; exact more.grown)
      rw [reached,root]
      exact more.kept
    refine ⟨(a,FileData.firstBlock (place bn).1) ::ₘ rest,?_,fun e member => ?_,fun other => ?_,fun there => ?_⟩
    · have grown := more.grown
      rw [single,Multiset.singleton_add] at grown
      refine numberedBlocks_graft (fun x member => ?_) addrs1 ?_
      · dsimp only
        rw [beside2 x ?_,beside1 x member]
        rwa [FileData.besides_congr beside1 addrs1]
      rw [empty,numbered_empty,zero_add]
      dsimp only
      rw [root]
      exact grown
    · rcases Multiset.mem_cons.mp member with rfl | later
      · dsimp only
        omega
      · exact more.order e later
    · rw [Multiset.map_cons,Multiset.cons_add,← more.taken other,Multiset.cons_coe]
    · rw [reached,empty] at there
      exact absurd leaf_empty there

theorem reached_mem (used : reached f bn ≠ 0) :
    reached f bn ∈ indirect.owned f.volume.disk (level (place bn).1) (f.ip.iAddr (place bn).1) := reach_mem used

theorem reached_inUse (used : reached f bn ≠ 0) : reached f bn ∈ blocksOf f.volume.disk f.ip.iAddr := by
  rw [FileData.blocksOf_at _ _ (place bn).1]
  exact Multiset.mem_add.mpr (Or.inl (reached_mem used))

theorem reached_injective (sound : Sound f others l) {bn' : Nat} (small : bn < FileData.mapBlocks)
    (small' : bn' < FileData.mapBlocks) (used : reached f bn ≠ 0) (same : reached f bn' = reached f bn) : bn' = bn := by
  have distinct := Multiset.nodup_of_le (Multiset.le_add_right _ _) (Held.nodup sound)
  rw [FileData.blocksOf_at _ _ (place bn).1,Multiset.nodup_add] at distinct
  obtain ⟨own,_,apart⟩ := distinct
  have used' : reached f bn' ≠ 0 := by rwa [same]
  have slot : (place bn').1 = (place bn).1 := by
    by_contra other
    have there := FileData.mem_besides other (reached_mem used')
    rw [same] at there
    exact Multiset.disjoint_left.mp apart (reached_mem used) there
  have first : reached f bn = indirect.leaf f.volume.disk (level (place bn).1) (f.ip.iAddr (place bn).1)
    (place bn).2 := sight_leaf used
  have second : reached f bn' = indirect.leaf f.volume.disk (level (place bn).1) (f.ip.iAddr (place bn).1) (place bn').2 := by
    rw [← slot]
    exact sight_leaf used'
  rw [first] at used
  have rest := leaf_injective own used (second.symm.trans (same.trans first))
  have inside := FileData.place_lt small'
  rw [slot] at inside
  change (place bn').2 % 256^level (place bn).1 = (place bn).2 % 256^level (place bn).1 at rest
  rw [mod_eq_of_lt inside,mod_eq_of_lt (FileData.place_lt small)] at rest
  exact FileData.place_injective slot rest

theorem mapped_none (n : Int) (void : 0 ≤ n → n < FileData.mapBlocks → reached f n.toNat = 0) : mapped f n = none := by
  refine Option.eq_none_iff_forall_ne_some.mpr fun b found => ?_
  obtain ⟨low,high,there,used⟩ := (mapped_iff n b).mp found
  exact used (there.symm.trans (void low high))

theorem mapped_injective (sound : Sound f others l) (n n' : Int) (b : Nat) (first : mapped f n = some b)
    (second : mapped f n' = some b) : n' = n := by
  obtain ⟨low,high,there,used⟩ := (mapped_iff n b).mp first
  obtain ⟨low',high',there',_⟩ := (mapped_iff n' b).mp second
  rw [← there] at used
  have numbers := @reached_injective _ _ _ n.toNat sound n'.toNat (by omega) (by omega) used (there'.trans there.symm)
  omega

theorem read_answers (f : File) (n : Int) (clrbuf : Bool) : ∃ r, bmap f n false clrbuf = .ok r ∧ r.file = f ∧
    (r.answer = .efbig ↔ ¬ (0 ≤ n ∧ n < FileData.mapBlocks)) ∧ ∀ b, r.answer = .block b ↔ mapped f n = some b := by
  by_cases inside : 0 ≤ n ∧ n < FileData.mapBlocks
  · obtain ⟨number,rfl⟩ := Int.eq_ofNat_of_zero_le inside.1
    obtain ⟨r,done,same,known,spec⟩ := @bmap_read f number (by omega) clrbuf
    refine ⟨r,done,same,⟨fun big => absurd big known,fun outside => absurd inside outside⟩,fun b => ?_⟩
    rw [spec,mapped_iff]
    exact ⟨fun both => ⟨inside.1,inside.2,both⟩,fun all => all.2.2⟩
  obtain ⟨r,done,same,big⟩ := bmap_outside (f := f) n inside false clrbuf
  refine ⟨r,done,same,⟨fun _ => inside,fun _ => big⟩,fun b => ?_⟩
  rw [big,mapped_iff]
  simp only [reduceCtorEq,false_iff]
  exact fun all => inside ⟨all.1,all.2.1⟩

theorem Sound.apart (sound : Sound f others l) (free : b ∈ l) : b ∉ blocksOf f.volume.disk f.ip.iAddr := by
  intro used
  obtain ⟨list,accounted,same⟩ := sound
  refine List.disjoint_of_nodup_append accounted.nodup free ?_
  rw [← Multiset.mem_coe,same]
  exact Multiset.mem_add.mpr (Or.inl used)

/-- What a write does to the map: its block has a place then, and every other block the
place that it had. -/
structure Entered (f : File) (r : Mapping) (n : Int) (l l' : List Nat) : Prop where
  others : ∀ n', n' ≠ n → mapped r.file n' = mapped f n'
  here : match r.answer with
    | .block b => mapped r.file n = some b ∧ (mapped f n = some b ∨ mapped f n = none ∧ b ∈ l ∧ b ∉ l')
    | _ => mapped f n = none ∧ mapped r.file n = none

theorem write_inside (sound : Sound f others l) (small : bn < FileData.mapBlocks) (clrbuf : Bool) :
    ∃ r l', bmap f bn true clrbuf = .ok r ∧ r.answer ≠ .efbig ∧ Sound r.file others l' ∧ Entered f r bn l l' := by
  obtain ⟨r,l',done,wrote⟩ := bmap_write sound small clrbuf
  obtain ⟨known,_,_,sound',others',placed,_,_⟩ := wrote
  have known : r.answer ≠ .efbig := fun big => by simp [big,Granted] at known
  have inMap : ∀ (g : File) b, reached g bn = b → b ≠ 0 → mapped g (bn : Int) = some b := fun g b there used =>
    (mapped_iff _ b).mpr ⟨by omega,by omega,there,used⟩
  have hole : ∀ g : File, reached g bn = 0 → mapped g (bn : Int) = none := fun g zero =>
    mapped_none _ fun _ _ => zero
  refine ⟨r,l',done,known,sound',fun n other => Option.ext fun b => ?_,?_⟩
  · rw [mapped_iff,mapped_iff]
    by_cases bounds : 0 ≤ n ∧ n < FileData.mapBlocks
    · rw [others' n.toNat (by omega) (by omega)]
    · exact ⟨fun all => absurd ⟨all.1,all.2.1⟩ bounds,fun all => absurd ⟨all.1,all.2.1⟩ bounds⟩
  cases answer : r.answer with
  | block b =>
    rw [answer] at placed
    obtain ⟨used,there,before⟩ := placed
    refine ⟨inMap r.file b there used,?_⟩
    rcases before with kept | ⟨zero,free⟩
    · exact Or.inl (inMap f b kept used)
    refine Or.inr ⟨hole f zero,free,fun member => sound'.apart member ?_⟩
    rw [← there] at used ⊢
    exact reached_inUse used
  | _ =>
    rw [answer] at placed
    exact ⟨hole f placed.1,hole r.file placed.2⟩

/-- A file is read through a map of its block numbers without repetition. A write gives its block a place in the
map, and when no block is free, or the device fails, every place is what it was and the free blocks stay apart
from the tree. -/
theorem bmap_maps (f : File) (others : Multiset Nat) (l : List Nat) (sound : Sound f others l) :
    (∀ n clrbuf, ∃ r, bmap f n false clrbuf = .ok r ∧ r.file = f ∧
      (r.answer = .efbig ↔ ¬ (0 ≤ n ∧ n < FileData.mapBlocks)) ∧ ∀ b, r.answer = .block b ↔ mapped f n = some b) ∧
    (∀ n n' b, mapped f n = some b → mapped f n' = some b → n' = n) ∧
    ∀ n clrbuf, ∃ r l', bmap f n true clrbuf = .ok r ∧ (r.answer = .efbig ↔ ¬ (0 ≤ n ∧ n < FileData.mapBlocks)) ∧
      Sound r.file others l' ∧ (∀ b ∈ l', b ∉ blocksOf r.file.volume.disk r.file.ip.iAddr) ∧ Entered f r n l l' := by
  refine ⟨read_answers f,mapped_injective sound,fun n clrbuf => ?_⟩
  by_cases inside : 0 ≤ n ∧ n < FileData.mapBlocks
  · obtain ⟨bn,rfl⟩ := Int.eq_ofNat_of_zero_le inside.1
    obtain ⟨r,l',done,known,sound',entered⟩ := @write_inside _ _ _ bn sound (by omega) clrbuf
    exact ⟨r,l',done,⟨fun big => absurd big known,fun outside => absurd inside outside⟩,sound',fun b => sound'.apart,entered⟩
  obtain ⟨r,done,same,big⟩ := bmap_outside (f := f) n inside true clrbuf
  have void : mapped f n = none := mapped_none n fun low high => absurd ⟨low,high⟩ inside
  refine ⟨r,l,done,⟨fun _ => inside,fun _ => big⟩,by rwa [same],fun b => by rw [same]; exact sound.apart,
    fun n' _ => by rw [same],?_⟩
  rw [big,same]
  exact ⟨void,void⟩

def damagedFile : File where
  volume := {FreeList.smallVolume with failing := fun b => b = 7}
  ip := ⟨3,1024,fun i => if i = 0 then 4 else if i = 4 then 5 else 0,false⟩

theorem damagedFile_sound : Sound damagedFile 0 [7,6] := by
  have accounted := FreeList.smallVolume_accounted
  have direct : indirect.owned damagedFile.volume.disk (level 0) (damagedFile.ip.iAddr 0) = {4} := rfl
  have single : indirect.owned damagedFile.volume.disk (level 4) (damagedFile.ip.iAddr 4) = {5} := owned_blank (by decide) rfl
  have tree : blocksOf damagedFile.volume.disk damagedFile.ip.iAddr = {4,5} := by
    have empty : ∀ i : Fin 7, i ≠ 0 → i ≠ 4 → indirect.owned damagedFile.volume.disk (level i) (damagedFile.ip.iAddr i) = 0 := by
      intro i first second
      have none : damagedFile.ip.iAddr i = 0 := by simp [damagedFile,first,second]
      rw [none,owned_empty]
    unfold blocksOf
    rw [Fin.sum_univ_seven,direct,single,empty 1 (by decide) (by decide),empty 2 (by decide) (by decide),
      empty 3 (by decide) (by decide),empty 5 (by decide) (by decide),empty 6 (by decide) (by decide)]
    rfl
  refine ⟨[4,5],⟨accounted.chain,by decide,?_,rfl,rfl,by decide,fun _ => rfl⟩,by rw [tree]; rfl⟩
  intro b member
  fin_cases member <;> decide

theorem bmap_maps_damagedFile : mapped damagedFile 0 = some 4 ∧ ∀ n clrbuf, ∃ r l', bmap damagedFile n true clrbuf = .ok r ∧
    Sound r.file 0 l' ∧ Entered damagedFile r n [7,6] l' := by
  refine ⟨by decide +kernel,fun n clrbuf => ?_⟩
  obtain ⟨r,l',done,_,sound,_,entered⟩ := (bmap_maps damagedFile 0 [7,6] damagedFile_sound).2.2 n clrbuf
  exact ⟨r,l',done,sound,entered⟩

end

end Retrobsd.BlockMap

import Retrobsd.Lib.Run
import Retrobsd.FreeList

/-! The free list as one list of block numbers in the order in which `balloc`
hands them out: the addresses of the super block from the last to the second,
then the block of the first address and what its contents remember. -/
namespace Retrobsd.FreeList
open List
open Function
open Lib.Run

def stack (free : Slots) : Nat → List Nat
  | 0 => []
  | k + 1 => free (slot (k + 1 : Nat)) :: stack free k

inductive Chain (disk : Nat → Block) : Int → Slots → List Nat → Prop where
  | empty {n : Int} {free : Slots} (none : n ≤ 0) : Chain disk n free []
  | last {free : Slots} (k : Nat) (inside : k < 200) (stop : free 0 = 0) : Chain disk (k + 1 : Nat) free (stack free k)
  | link {free : Slots} {l : List Nat} (k : Nat) (inside : k < 200) (next : free 0 ≠ 0)
      (more : 1 ≤ dfNfree (disk (free 0)))
      (rest : Chain disk (dfNfree (disk (free 0))) (dfFree (disk (free 0))) l) :
      Chain disk (k + 1 : Nat) free (stack free k ++ free 0 :: l)

inductive Tail (disk : Nat → Block) : Nat → List Nat → Prop where
  | stop : Tail disk 0 []
  | link {first : Nat} {l : List Nat} (next : first ≠ 0) (more : 1 ≤ dfNfree (disk first))
      (rest : Chain disk (dfNfree (disk first)) (dfFree (disk first)) l) : Tail disk first (first :: l)

theorem Chain.of_tail {disk : Nat → Block} {free : Slots} {k : Nat} {t : List Nat} (inside : k < 200)
    (tail : Tail disk (free 0) t) : Chain disk (k + 1 : Nat) free (stack free k ++ t) := by
  generalize first : free 0 = a at tail
  cases tail with
  | stop =>
    rw [append_nil]
    exact .last k inside first
  | link next more rest =>
    subst first
    exact .link k inside next more rest

theorem Chain.tail {disk : Nat → Block} {n : Int} {free : Slots} {l : List Nat} (chain : Chain disk n free l) :
    (n ≤ 0 ∧ l = []) ∨ ∃ k t, n = (k + 1 : Nat) ∧ k < 200 ∧ l = stack free k ++ t ∧ Tail disk (free 0) t := by
  cases chain with
  | empty none => exact Or.inl ⟨none,rfl⟩
  | last k inside stop => exact Or.inr ⟨k,[],rfl,inside,by simp,by rw [stop]; exact .stop⟩
  | link k inside next more rest => exact Or.inr ⟨k,_,rfl,inside,rfl,.link next more rest⟩

theorem Chain.frame {disk disk' : Nat → Block} {n : Int} {free : Slots} {l : List Nat} (chain : Chain disk n free l)
    (same : ∀ b ∈ l, disk' b = disk b) : Chain disk' n free l := by
  induction chain with
  | empty none => exact .empty none
  | last k inside stop => exact .last k inside stop
  | @link free l k inside next more rest ih =>
    have here : disk' (free 0) = disk (free 0) := same _ (by simp)
    refine .link k inside next (by rw [here]; exact more) ?_
    rw [here]
    exact ih (fun b member => same b (by simp [member]))

theorem slot_ne {i j : Nat} (low : i < 200) (high : j < 200) (other : i ≠ j) : slot (i : Nat) ≠ slot (j : Nat) := by
  intro same
  have values := congrArg Fin.val same
  simp only [slot,Int.toNat_natCast,Fin.val_ofNat] at values
  omega

theorem slot_zero : slot 0 = 0 := rfl

theorem stack_update {free : Slots} {j b : Nat} (high : j < 200) :
    ∀ {k : Nat}, k < j → stack (update free (slot (j : Nat)) b) k = stack free k
  | 0,_ => rfl
  | k + 1,below => by
    have other := slot_ne (show k + 1 < 200 by omega) high (Nat.ne_of_lt below)
    simp only [stack,update_of_ne other,stack_update high (show k < j by omega)]

theorem stack_push {free : Slots} {k b : Nat} (inside : k + 1 < 200) :
    stack (update free (slot (k + 1 : Nat)) b) (k + 1) = b :: stack free k := by
  simp only [stack,update_self,stack_update inside (Nat.lt_succ_self k)]

theorem mem_stack {free : Slots} {j : Nat} : ∀ {k : Nat}, 0 < j → j ≤ k → free (slot (j : Nat)) ∈ stack free k
  | 0,low,high => by omega
  | k + 1,low,high => by
    rcases Nat.lt_or_eq_of_le high with below | rfl
    · exact mem_cons_of_mem _ (mem_stack low (Nat.le_of_lt_succ below))
    · exact mem_cons_self

theorem dfNfree_putFblk (b : Block) {n : Int} (free : Slots) (low : -2^31 ≤ n) (high : n < 2^31) :
    dfNfree (putFblk b n free) = n := by
  rw [dfNfree,putFblk,Block.word_writeWords (by decide) (by simp) (unsigned_lt n),signed_unsigned low high]

theorem dfFree_putFblk (b : Block) (n : Int) {free : Slots} (small : ∀ i, free i < 2^32) : dfFree (putFblk b n free) = free := by
  funext i
  have bound := i.isLt
  refine Block.word_writeWords (by omega) ?_ (small i)
  simp [bound]

/-- The list, the blocks that are handed out, and the count of the super block. -/
structure Accounted (v : Volume) (held l : List Nat) : Prop where
  chain : Chain v.disk v.fs.fsNfree v.fs.fsFree l
  nodup : (l ++ held).Nodup
  range : ∀ b ∈ l ++ held, b ≠ 0 ∧ v.fs.fsIsize ≤ b ∧ b < v.fs.fsFsize
  total : v.fs.fsTfree = l.length
  unlocked : v.fs.fsFlock = 0
  small : v.fs.fsFsize < 2^32
  healthy : ∀ b, v.failing b = false

variable {v : Volume} {held l : List Nat}

theorem Accounted.good (accounted : Accounted v held l) {b : Nat} (member : b ∈ l ++ held) :
    b ≠ 0 ∧ badblock v.fs b = false := by
  have inside := accounted.range b member
  refine ⟨inside.1,?_⟩
  simp only [badblock,decide_eq_false_iff_not]
  omega

theorem Accounted.length_lt (accounted : Accounted v held l) : l.length < 2^32 := by
  have distinct : l.Nodup := accounted.nodup.sublist (sublist_append_left _ _)
  have inside : l ⊆ List.range v.fs.fsFsize := fun b member =>
    mem_range.mpr (accounted.range b (mem_append_left _ member)).2.2
  have bound := (distinct.subperm inside).length_le
  rw [length_range] at bound
  exact lt_of_le_of_lt bound accounted.small

theorem takeLast_empty {fuel : Nat} (exhausted : v.fs.fsNfree ≤ 0) : takeLast (fuel + 1) v = (v,none) := by
  simp [takeLast,exhausted]

theorem takeLast_array {fuel k : Nat} (count : v.fs.fsNfree = (k + 1 : Nat)) (inside : k < 200) : takeLast (fuel + 1) v =
      if v.fs.fsFree (slot (k : Nat)) = 0 then ({v with fs := {v.fs with fsNfree := (k : Nat)}},none)
      else if badblock v.fs (v.fs.fsFree (slot (k : Nat))) then
        takeLast fuel (say {v with fs := {v.fs with fsNfree := (k : Nat)}}
          [.badBlock (v.fs.fsFree (slot (k : Nat))),.fserr v.fs.fsFsmnt "bad block"])
      else ({v with fs := {v.fs with fsNfree := (k : Nat)}},some (v.fs.fsFree (slot (k : Nat)))) := by
  have positive : ¬ ((k + 1 : Nat) : Int) ≤ 0 := by omega
  have bound : ¬ ((k + 1 : Nat) : Int) > (nicfree : Nat) := by simp only [nicfree]; omega
  have less : ((k + 1 : Nat) : Int) - 1 = (k : Nat) := by omega
  simp only [takeLast,count,positive,bound,less,if_false]
  rfl

theorem balloc_full (accounted : Accounted v held []) (clrbuf : Bool) :
    ∃ t, balloc v clrbuf = .ok (t,none) ∧ Accounted t held [] ∧ t.disk = v.disk ∧ t.fs.fsFree = v.fs.fsFree := by
  have failed : ∃ n console, balloc v clrbuf = .ok (nospace {v with fs := {v.fs with fsNfree := n},console}) := by
    rcases accounted.chain.tail with ⟨exhausted,_⟩ | ⟨k,t,count,inside,parts,tail⟩
    · refine ⟨v.fs.fsNfree,v.console,?_⟩
      rw [balloc,if_neg (not_not.mpr accounted.unlocked),takeLast_empty exhausted]
    obtain ⟨stacked,rfl⟩ := append_eq_nil_iff.mp parts.symm
    have only : k = 0 := by
      cases k with
      | zero => rfl
      | succ k => simp [stack] at stacked
    subst only
    have stop : v.fs.fsFree (slot (0 : Nat)) = 0 := by
      generalize first : v.fs.fsFree 0 = a at tail
      cases tail
      exact first
    refine ⟨(0 : Nat),v.console,?_⟩
    rw [balloc,if_neg (not_not.mpr accounted.unlocked),takeLast_array count inside,if_pos stop]
  obtain ⟨n,console,done⟩ := failed
  refine ⟨_,done,⟨.empty le_rfl,accounted.nodup,accounted.range,rfl,accounted.unlocked,accounted.small,accounted.healthy⟩,
    rfl,rfl⟩

theorem lowered {n : Nat} (small : n + 1 < 2^32) : (n + 1 + 2^32 - 1) % 2^32 = n := by
  omega

theorem handOut_accounted {b : Nat} (accounted : Accounted v held (b :: l)) {n : Int} {free : Slots} {fmod time : Nat}
    {superblock : Fs} (chain : Chain v.disk n free l) (clrbuf : Bool) :
    Accounted (handOut {v with
      fs := {v.fs with fsNfree := n,fsFree := free,fsFlock := 0,fsFmod := fmod,fsTime := time}
      superblock := superblock} b clrbuf).1 (b :: held) l := by
  have order : (b :: l ++ held).Perm (l ++ b :: held) := perm_middle.symm
  have distinct : b ∉ l := fun member => (nodup_cons.mp accounted.nodup).1 (by simp [member])
  have total := accounted.total
  have fewer := accounted.length_lt
  rw [length_cons] at total fewer
  have kept : Chain (if clrbuf then update v.disk b Block.zero else v.disk) n free l := by
    refine chain.frame fun x member => ?_
    have other : x ≠ b := fun same => distinct (same ▸ member)
    split_ifs
    · rw [update_of_ne other]
    · rfl
  rw [handOut]
  refine ⟨kept,order.nodup_iff.mp accounted.nodup,fun x member => accounted.range x (order.mem_iff.mpr member),?_,rfl,
    accounted.small,accounted.healthy⟩
  simp only [total]
  exact lowered fewer

theorem balloc_head {b : Nat} (accounted : Accounted v held (b :: l)) (clrbuf : Bool) :
    ∃ t, balloc v clrbuf = .ok (t,some b) ∧ Accounted t (b :: held) l ∧
    t.disk = (if clrbuf then update v.disk b Block.zero else v.disk) := by
  obtain ⟨nonzero,good⟩ := accounted.good (mem_append_left held (mem_cons_self : b ∈ b :: l))
  have handed : ∀ (n : Int) (free : Slots) (fmod time : Nat) (superblock : Fs), Chain v.disk n free l →
    balloc v clrbuf = .ok (handOut {v with
        fs := {v.fs with fsNfree := n,fsFree := free,fsFlock := 0,fsFmod := fmod,fsTime := time}
        superblock := superblock} b clrbuf) →
      ∃ t, balloc v clrbuf = .ok (t,some b) ∧ Accounted t (b :: held) l ∧
      t.disk = (if clrbuf then update v.disk b Block.zero else v.disk) :=
    fun _ _ _ _ _ chain done => ⟨_,done,handOut_accounted accounted chain clrbuf,rfl⟩
  rcases accounted.chain.tail with ⟨_,none⟩ | ⟨k,t,count,inside,parts,tail⟩
  · cases none
  cases k with
  | succ k =>
    -- a second or later address of the array
    simp only [stack,cons_append,List.cons.injEq] at parts
    obtain ⟨head,rfl⟩ := parts
    have chain : Chain v.disk (k + 1 : Nat) v.fs.fsFree (stack v.fs.fsFree k ++ t) := .of_tail (by omega) tail
    have left : ¬ ((k + 1 : Nat) : Int) ≤ 0 := by omega
    refine handed _ _ v.fs.fsFmod v.fs.fsTime v.superblock chain ?_
    rw [balloc,if_neg (not_not.mpr accounted.unlocked),takeLast_array count inside,← head,if_neg nonzero,good]
    simp [accounted.unlocked]
  | zero =>
    -- the link block itself
    generalize first : v.fs.fsFree 0 = a at tail
    cases tail with
    | stop => simp [stack] at parts
    | @link _ rest next more chain =>
      simp only [stack,nil_append,List.cons.injEq] at parts
      obtain ⟨rfl,rfl⟩ := parts
      have head : v.fs.fsFree (slot (0 : Nat)) = b := first
      have some_left : ¬ dfNfree (v.disk b) ≤ 0 := by omega
      refine handed _ _ 0 v.time (refill {v with fs := {v.fs with fsNfree := (0 : Nat)}} b).superblock chain ?_
      rw [balloc,if_neg (not_not.mpr accounted.unlocked),takeLast_array count inside,head,if_neg nonzero,good]
      simp [refill,accounted.healthy,some_left]

theorem startArray_tail (accounted : Accounted v held l) :
    ∃ k t, (startArray v.fs).fsNfree = (k + 1 : Nat) ∧ k < 200 ∧ l = stack (startArray v.fs).fsFree k ++ t ∧
      Tail v.disk ((startArray v.fs).fsFree 0) t := by
  rcases accounted.chain.tail with ⟨exhausted,rfl⟩ | ⟨k,t,count,inside,parts,tail⟩
  · refine ⟨0,[],?_,by decide,rfl,?_⟩
    · simp [startArray,exhausted]
    · simpa [startArray,exhausted] using Tail.stop
  have some_left : ¬ v.fs.fsNfree ≤ 0 := by omega
  have same : startArray v.fs = v.fs := if_neg some_left
  rw [same]
  exact ⟨k,t,count,inside,parts,tail⟩

theorem full_array_small {disk : Nat → Block} {free : Slots} {t : List Nat} (tail : Tail disk (free 0) t)
    (small : ∀ b ∈ stack free 199 ++ t, b < 2^32) (i : Fin 200) : free i < 2^32 := by
  have place : slot (i.val : Nat) = i := by
    apply Fin.ext
    simp [slot]
  rcases Nat.eq_zero_or_pos i.val with first | later
  · have same : i = 0 := Fin.ext first
    rw [same]
    generalize head : free 0 = a at tail
    cases tail with
    | stop => decide
    | link next more rest => exact small _ (by simp)
  · have stacked := @mem_stack free i.val 199 later (by omega)
    rw [place] at stacked
    exact small _ (mem_append_left _ stacked)

theorem startArray_frame (fs : Fs) : (startArray fs).fsIsize = fs.fsIsize ∧ (startArray fs).fsFsize = fs.fsFsize ∧
    (startArray fs).fsTfree = fs.fsTfree ∧ (startArray fs).fsFlock = fs.fsFlock := by
  unfold startArray
  split_ifs <;> exact ⟨rfl,rfl,rfl,rfl⟩

theorem pushed_accounted {b : Nat} (accounted : Accounted v held l) (member : b ∈ held) {t : Volume}
    (chain : Chain t.disk t.fs.fsNfree t.fs.fsFree (b :: l)) (isize : t.fs.fsIsize = v.fs.fsIsize)
    (fsize : t.fs.fsFsize = v.fs.fsFsize) (total : t.fs.fsTfree = (v.fs.fsTfree + 1) % 2^32)
    (unlocked : t.fs.fsFlock = 0) (failing : t.failing = v.failing) : Accounted t (held.erase b) (b :: l) := by
  have order : (l ++ held).Perm (b :: l ++ held.erase b) := ((perm_cons_erase member).append_left l).trans perm_middle
  have distinct := order.nodup_iff.mp accounted.nodup
  have inside : ∀ x ∈ b :: l ++ held.erase b, x ≠ 0 ∧ t.fs.fsIsize ≤ x ∧ x < t.fs.fsFsize := by
    intro x present
    rw [isize,fsize]
    exact accounted.range x (order.mem_iff.mpr present)
  have fits : (b :: l).length < 2^32 := by
    have subset : b :: l ⊆ List.range v.fs.fsFsize := fun x present =>
      mem_range.mpr (accounted.range x (order.mem_iff.mpr (mem_append_left _ present))).2.2
    have bound := ((distinct.sublist (sublist_append_left _ _)).subperm subset).length_le
    rw [length_range] at bound
    exact lt_of_le_of_lt bound accounted.small
  refine ⟨chain,distinct,inside,?_,unlocked,by rw [fsize]; exact accounted.small,by rw [failing]; exact accounted.healthy⟩
  rw [total,accounted.total]
  exact Nat.mod_eq_of_lt fits

theorem free_pushes {b : Nat} (accounted : Accounted v held l) (member : b ∈ held) (ino : Nat) :
    ∃ t, free v ino b = .ok t ∧ Accounted t (held.erase b) (b :: l) ∧ ∀ x, x ≠ b → t.disk x = v.disk x := by
  obtain ⟨nonzero,good⟩ := accounted.good (mem_append_right l member)
  have distinct : b ∉ l := fun present => disjoint_of_nodup_append accounted.nodup present member
  obtain ⟨k,t,count,inside,parts,tail⟩ := startArray_tail accounted
  obtain ⟨isize,fsize,total,flock⟩ := startArray_frame v.fs
  rw [free,good,if_neg Bool.false_ne_true,if_neg (not_not.mpr accounted.unlocked)]
  by_cases room : k + 1 < 200
  · have stays : ¬ ((k + 1 : Nat) : Int) ≥ (nicfree : Nat) := by simp only [nicfree]; omega
    have first : (0 : Fin 200) ≠ slot (k + 1 : Nat) := @slot_ne 0 (k + 1) (by decide) room (by omega)
    have chain : Chain v.disk (k + 1 + 1 : Nat) (update (startArray v.fs).fsFree (slot (k + 1 : Nat)) b) (b :: l) := by
      rw [parts,← cons_append,← stack_push room]
      refine .of_tail room ?_
      rw [update_of_ne first]
      exact tail
    simp only [spill,count,stays,if_false]
    exact ⟨_,rfl,pushed_accounted accounted member chain isize fsize (by simp only [total])
      (flock.trans accounted.unlocked) rfl,fun x other => rfl⟩
  have last : k = 199 := by omega
  subst last
  have spills : ((199 + 1 : Nat) : Int) ≥ (nicfree : Nat) := by decide
  have whole : Chain v.disk (199 + 1 : Nat) (startArray v.fs).fsFree l := by
    rw [parts]
    exact .of_tail inside tail
  have words := full_array_small tail (fun x present =>
    lt_trans (accounted.range x (mem_append_left _ (parts ▸ present))).2.2 accounted.small)
  have kept : Chain (update v.disk b (putFblk (v.disk b) (199 + 1 : Nat) (startArray v.fs).fsFree)) (199 + 1 : Nat)
    (startArray v.fs).fsFree l :=
    whole.frame fun x present => update_of_ne (fun same : x = b => distinct (same ▸ present)) _ _
  have chain : Chain (update v.disk b (putFblk (v.disk b) (199 + 1 : Nat) (startArray v.fs).fsFree))
      (0 + 1 : Nat) (update (startArray v.fs).fsFree (slot 0) b) (b :: l) := by
    refine @Chain.of_tail _ _ 0 (b :: l) (by decide) ?_
    rw [slot_zero,update_self]
    refine .link nonzero ?_ ?_
    · rw [update_self,dfNfree_putFblk _ _ (by decide) (by decide)]
      decide
    rw [update_self,dfNfree_putFblk _ _ (by decide) (by decide),dfFree_putFblk _ _ words]
    exact kept
  simp only [spill,count,spills,if_true]
  exact ⟨_,rfl,pushed_accounted accounted member chain isize fsize (by simp only [total]) rfl rfl,fun x other =>
    update_of_ne other _ _⟩

inductive Op where
  | balloc (clrbuf : Bool)
  | free (ino bno : Nat)
  | store (bno : Nat) (content : Block)

structure Mounted where
  volume : Volume
  held : List Nat

def step (s : Mounted) : Op → Except Fault Mounted
  | .balloc clrbuf => do
    let (v,found) ← balloc s.volume clrbuf
    return ⟨v,found.toList ++ s.held⟩
  | .free ino bno => do
    let v ← free s.volume ino bno
    return ⟨v,s.held.erase bno⟩
  | .store bno content =>
    .ok {s with volume := {s.volume with disk := update s.volume.disk bno content}}

def Owned (s : Mounted) : Op → Prop
  | .balloc _ => True
  | .free _ bno => bno ∈ s.held
  | .store bno _ => bno ∈ s.held

instance (s : Mounted) : ∀ op, Decidable (Owned s op)
  | .balloc _ => .isTrue trivial
  | .free _ bno | .store bno _ => inferInstanceAs (Decidable (bno ∈ s.held))

theorem step_accounted (all : List Nat) (s : Mounted) (op : Op)
    (inv : ∃ l, Accounted s.volume s.held l ∧ (l ++ s.held).Perm all) (owned : Owned s op) :
    ∃ t, step s op = .ok t ∧ ∃ l, Accounted t.volume t.held l ∧ (l ++ t.held).Perm all := by
  obtain ⟨l,accounted,same⟩ := inv
  cases op with
  | balloc clrbuf =>
    cases l with
    | nil =>
      obtain ⟨v,done,kept,_⟩ := balloc_full accounted clrbuf
      exact ⟨⟨v,s.held⟩,by simp only [step,done,bind,Except.bind]; rfl,[],kept,same⟩
    | cons b l =>
      obtain ⟨v,done,kept,_⟩ := balloc_head accounted clrbuf
      exact ⟨⟨v,b :: s.held⟩,by simp only [step,done,bind,Except.bind]; rfl,l,kept,perm_middle.trans same⟩
  | free ino bno =>
    obtain ⟨v,done,kept,_⟩ := free_pushes accounted owned ino
    refine ⟨⟨v,s.held.erase bno⟩,by simp only [step,done,bind,Except.bind]; rfl,bno :: l,kept,?_⟩
    exact (((perm_cons_erase owned).append_left l).trans perm_middle).symm.trans same
  | store bno content =>
    have distinct : bno ∉ l := fun present => disjoint_of_nodup_append accounted.nodup present owned
    refine ⟨_,rfl,l,{accounted with chain := accounted.chain.frame fun x present => ?_},same⟩
    exact update_of_ne (fun equal : x = bno => distinct (equal ▸ present)) _ _

theorem balloc_free (accounted : Accounted v held l) {bno : Nat} (member : bno ∈ held) (ino : Nat) (clrbuf : Bool) :
    ∃ freed back, free v ino bno = .ok freed ∧ balloc freed clrbuf = .ok (back,some bno) ∧
      Chain back.disk back.fs.fsNfree back.fs.fsFree l ∧ back.fs.fsTfree = v.fs.fsTfree := by
  obtain ⟨freed,pushed,middle,_⟩ := free_pushes accounted member ino
  obtain ⟨back,popped,final,_⟩ := balloc_head middle clrbuf
  exact ⟨freed,back,pushed,popped,final.chain,final.total.trans accounted.total.symm⟩

/-- Every run from a well-formed list keeps the accounts: the list and the blocks handed out share the volume's
blocks without overlap, the count of the super block is right, and freeing a block and allocating again gives
block and list back. -/
theorem blocks_accounted (s : Mounted) (l : List Nat) (wellFormed : Accounted s.volume s.held l) (ops : List Op)
    (owned : Along step Owned s ops) :
    ∃ t m, run step s ops = .ok t ∧ Accounted t.volume t.held m ∧ (m ++ t.held).Perm (l ++ s.held) ∧
      ∀ bno ∈ t.held, ∀ ino clrbuf, ∃ freed back, free t.volume ino bno = .ok freed ∧
        balloc freed clrbuf = .ok (back,some bno) ∧ Chain back.disk back.fs.fsNfree back.fs.fsFree m ∧
          back.fs.fsTfree = t.volume.fs.fsTfree := by
  obtain ⟨t,ended,m,accounted,same⟩ := run_total (step_accounted (l ++ s.held)) ops s ⟨l,wellFormed,List.Perm.refl _⟩ owned
  exact ⟨t,m,ended,accounted,same,fun bno member ino clrbuf => balloc_free accounted member ino clrbuf⟩

def smallVolume : Volume where
  fs := ⟨3,10,1,fun i => if i = 0 then 7 else 0,0,0,0,2,"/",0⟩
  disk := fun b => if b = 7 then putFblk Block.zero 2 (fun i => if i = 1 then 6 else 0) else Block.zero
  superblock := ⟨3,10,1,fun i => if i = 0 then 7 else 0,0,0,0,2,"/",0⟩
  failing := fun _ => false
  time := 0
  console := []

theorem smallVolume_accounted : Accounted smallVolume [] [7,6] := by
  have remembered : Chain smallVolume.disk (1 + 1 : Nat) (fun i => if i = 1 then 6 else 0) [6] := .last 1 (by decide) rfl
  have tail : Tail smallVolume.disk 7 [7,6] := by
    have words : ∀ i : Fin 200, (if i = 1 then 6 else 0) < 2^32 := fun i => by split_ifs <;> decide
    have content : smallVolume.disk 7 = putFblk Block.zero 2 (fun i => if i = 1 then 6 else 0) := rfl
    refine .link (by decide) ?_ ?_
    · rw [content,dfNfree_putFblk _ _ (by decide) (by decide)]
      decide
    rw [content,dfNfree_putFblk _ _ (by decide) (by decide),dfFree_putFblk _ _ words]
    exact remembered
  refine ⟨@Chain.of_tail _ _ 0 [7,6] (by decide) tail,by decide,?_,rfl,rfl,by decide,fun _ => rfl⟩
  intro b member
  fin_cases member <;> decide

/-- The link block is allocated, written by its file and freed again. -/
theorem blocks_accounted_smallVolume :
    ∃ t m, run step ⟨smallVolume,[]⟩ [.balloc true,.store 7 Block.zero,.balloc false,.free 2 7] = .ok t ∧
      Accounted t.volume t.held m ∧ (m ++ t.held).Perm [7,6] := by
  obtain ⟨t,m,ended,accounted,same,_⟩ := blocks_accounted ⟨smallVolume,[]⟩ [7,6] smallVolume_accounted
    [.balloc true,.store 7 Block.zero,.balloc false,.free 2 7] (by decide +kernel)
  exact ⟨t,m,ended,accounted,same⟩

end Retrobsd.FreeList

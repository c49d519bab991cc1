import Retrobsd.FreeListChain
import Retrobsd.Fsutil

/-! The free list and the inodes of an image, as the operations of fsutil leave them. -/
namespace Retrobsd.Fsutil
open List
open Function
open FreeList (Slots slot stack Chain Tail dfNfree dfFree stack_push stack_update slot_ne)

def low (image : Nat → Block) (b : Nat) : Block := if b < 2^22 then image b else Block.zero

theorem place_small {b : Nat} (small : b < 2^22) : place b = b := by
  rw [place,bsdfsBsize]
  omega

theorem readBlock_small {fs : Fs} {b : Nat} (inside : fs.isize ≤ b) (small : b < 2^22) : readBlock fs b = .ok (fs.image b) := by
  rw [readBlock,if_neg (Nat.not_lt.mpr inside),place_small small]

/-- The free list of a file system, with distinct blocks past the inodes. -/
structure Listed (fs : Fs) (l : List Nat) : Prop where
  chain : Chain (low fs.image) fs.nfree fs.free l
  range : ∀ b ∈ l, fs.isize ≤ b ∧ b < fs.fsize
  nodup : l.Nodup
  slots : ∀ i, fs.free i < 2^32
  sizes : 1 ≤ fs.isize ∧ fs.fsize < 2^32
  begun : 1 ≤ fs.nfree
  total : fs.tfree = l.length

section
variable {fs t : Fs} {l : List Nat} {b : Nat}

theorem small_of_more {image : Nat → Block} (more : 1 ≤ dfNfree (low image b)) : b < 2^22 := by
  by_contra large
  rw [low,if_neg large,dfNfree,Block.word_zero] at more
  exact absurd more (by decide)

theorem dfNfree_freeBlock {stale : Block} {n : Nat} {free : Slots} (small : n < 2^31) :
    dfNfree (freeBlock stale n free) = n := by
  rw [dfNfree,freeBlock,Block.word_writeWords (by decide) (if_pos rfl) (by omega),signed]
  rw [if_pos (by omega)]
  omega

theorem dfFree_freeBlock {stale : Block} {n : Nat} {free : Slots} (small : ∀ i, free i < 2^32) :
    dfFree (freeBlock stale n free) = free := by
  funext i
  have bound := i.isLt
  refine Block.word_writeWords (by omega) ?_ (small i)
  rw [if_neg (by omega),dif_pos (by omega)]
  rfl

theorem signed_word {w : Nat} (small : w < 2^32) (more : 1 ≤ signed w) : signed w = w := by
  rw [signed] at more ⊢
  split at more
  next inside => rw [if_pos inside,Nat.mod_eq_of_lt small]
  next => omega

theorem length_lt {n : Nat} (nodup : l.Nodup) (range : ∀ b ∈ l, b < n) : l.length ≤ n := by
  have bound := (nodup.subperm fun b member => mem_range.mpr (range b member)).length_le
  rwa [length_range] at bound

theorem Listed.parts (listed : Listed fs l) : ∃ k rest, fs.nfree = k + 1 ∧ k < 200 ∧ l = stack fs.free k ++ rest ∧
    Tail (low fs.image) (fs.free 0) rest := by
  rcases listed.chain.tail with ⟨none,_⟩ | ⟨k,rest,count,inside,parts,tail⟩
  · have begun := listed.begun
    omega
  · exact ⟨k,rest,by omega,inside,parts,tail⟩

theorem length_stack (free : Slots) (k : Nat) : (stack free k).length = k := by
  induction k with
  | zero => rfl
  | succ k ih => rw [stack,length_cons,ih]

structure Kept (fs t : Fs) : Prop where
  image : ∀ b, b < fs.isize → t.image b = fs.image b
  sizes : t.isize = fs.isize ∧ t.fsize = fs.fsize ∧ t.swapsz = fs.swapsz
  writable : t.writable = fs.writable
  inodes : t.ninode = fs.ninode ∧ t.inode = fs.inode ∧ t.tinode = fs.tinode
  rest : t.flock = fs.flock ∧ t.fmod = fs.fmod ∧ t.ilock = fs.ilock ∧ t.ronly = fs.ronly ∧ t.utime = fs.utime ∧
    t.fsmnt = fs.fsmnt

theorem Listed.free (listed : Listed fs l) (stale : Block) (writable : fs.writable = true) (fresh : b ∉ l)
    (inside : fs.isize ≤ b ∧ b < fs.fsize) (fits : 199 ≤ l.length → b < 2^22) :
    ∃ t, blockFree fs stale b = .ok t ∧ Listed t (b :: l) ∧ Kept fs t ∧ ∀ x, x ≠ b → t.image x = fs.image x := by
  obtain ⟨k,rest,count,bound,parts,tail⟩ := listed.parts
  have nonzero : b ≠ 0 := by
    have := listed.sizes.1
    omega
  have range : ∀ x ∈ b :: l, fs.isize ≤ x ∧ x < fs.fsize := fun x member => by
    rcases mem_cons.mp member with rfl | member
    · exact inside
    · exact listed.range x member
  have word : ∀ (free : Slots) (j : Fin 200), (∀ i, free i < 2^32) → ∀ i, update free j b i < 2^32 := fun free j small i => by
      rw [update_apply]
      split
      · have := listed.sizes.2
        omega
      · exact small i
  have nodup : (b :: l).Nodup := nodup_cons.mpr ⟨fresh,listed.nodup⟩
  have total : (if b ≠ 0 then (fs.tfree + 1) % 2^32 else fs.tfree) = (b :: l).length := by
    have := length_lt nodup fun x member => (range x member).2
    have := listed.sizes.2
    rw [if_pos nonzero,listed.total,length_cons,Nat.mod_eq_of_lt]
    rw [length_cons] at *
    omega
  rw [blockFree]
  by_cases room : k + 1 < 200
  · have stays : ¬nicfree ≤ fs.nfree := by
      rw [nicfree]
      omega
    rw [if_neg stays]
    refine ⟨_,rfl,⟨?_,range,nodup,word _ _ listed.slots,listed.sizes,by simp,total⟩,
      ⟨fun _ _ => rfl,⟨rfl,rfl,rfl⟩,rfl,⟨rfl,rfl,rfl⟩,rfl,rfl,rfl,rfl,rfl,rfl⟩,fun _ _ => rfl⟩
    have other : (0 : Fin 200) ≠ slot ((k + 1 : Nat) : Int) := @slot_ne 0 (k + 1) (by decide) room (by omega)
    dsimp only
    rw [count,parts,← cons_append,← stack_push room]
    refine .of_tail room ?_
    rw [update_of_ne other]
    exact tail
  have last : k = 199 := by omega
  subst last
  have small : b < 2^22 := fits (by
    rw [parts,length_append]
    have whole : (stack fs.free 199).length = 199 := length_stack _ _
    omega)
  have full : nicfree ≤ fs.nfree := by
    rw [nicfree]
    omega
  have written : writeBlock fs b (freeBlock stale fs.nfree fs.free) =
      .ok {fs with image := update fs.image b (freeBlock stale fs.nfree fs.free),modified := true} := by
    rw [writeBlock,if_neg (not_or.mpr ⟨by rw [writable]; decide,Nat.not_lt.mpr inside.1⟩),place_small small]
  rw [if_pos full,written]
  have here : low (update fs.image b (freeBlock stale fs.nfree fs.free)) b = freeBlock stale fs.nfree fs.free := by
    rw [low,if_pos small,update_self]
  have kept : Chain (low (update fs.image b (freeBlock stale fs.nfree fs.free))) fs.nfree fs.free l :=
    listed.chain.frame fun x member => by
      have other : x ≠ b := fun same => fresh (same ▸ member)
      rw [low,low,update_of_ne other]
  have number : dfNfree (freeBlock stale fs.nfree fs.free) = fs.nfree := dfNfree_freeBlock (by omega)
  have linked : Tail (low (update fs.image b (freeBlock stale fs.nfree fs.free))) b (b :: l) := by
    refine .link nonzero ?_ ?_
    · rw [here,number]
      have := listed.begun
      omega
    · rw [here,number,dfFree_freeBlock listed.slots]
      exact kept
  have chain : Chain (low (update fs.image b (freeBlock stale fs.nfree fs.free))) ((0 + 1 : Nat) : Int)
      (update fs.free (slot ((0 : Nat) : Int)) b) (b :: l) := by
    refine Chain.of_tail (by decide) ?_
    rw [show update fs.free (slot ((0 : Nat) : Int)) b 0 = b from update_self ..]
    exact linked
  refine ⟨_,rfl,⟨chain,range,nodup,word _ _ listed.slots,listed.sizes,by simp,total⟩,
    ⟨fun x under => update_of_ne (by omega) _ _,⟨rfl,rfl,rfl⟩,rfl,⟨rfl,rfl,rfl⟩,rfl,rfl,rfl,rfl,rfl,rfl⟩,
    fun x other => update_of_ne other _ _⟩

theorem slot_nat : slot ((0 : Nat) : Int) = 0 := rfl

theorem Listed.alloc (listed : Listed fs (b :: l)) :
    ∃ t, blockAlloc fs = .ok (t,b) ∧ Listed t l ∧ t.image = fs.image ∧ Kept fs t := by
  obtain ⟨k,rest,count,bound,parts,tail⟩ := listed.parts
  have some : fs.nfree ≠ 0 := by omega
  have fits : ¬nicfree < fs.nfree := by
    rw [nicfree]
    omega
  have inside := listed.range b mem_cons_self
  have nonzero : b ≠ 0 := by
    have := listed.sizes.1
    omega
  have range : ∀ x ∈ l, fs.isize ≤ x ∧ x < fs.fsize := fun x member => listed.range x (mem_cons_of_mem _ member)
  have nodup := (nodup_cons.mp listed.nodup).2
  have total : (fs.tfree + 2^32 - 1) % 2^32 = l.length := by
    have := length_lt nodup fun x member => (range x member).2
    have := listed.sizes.2
    rw [listed.total,length_cons]
    omega
  have cleared : ∀ (j : Fin 200) i, update fs.free j 0 i < 2^32 := fun j i => by
    rw [update_apply]
    split
    · decide
    · exact listed.slots i
  rw [blockAlloc,allocTurns,if_neg some,if_neg fits]
  have less : ((fs.nfree : Int) - 1) = (k : Nat) := by omega
  cases k with
  | succ k =>
    rw [stack,cons_append] at parts
    obtain ⟨head,parts⟩ := cons.inj parts
    have left : fs.nfree - 1 ≠ 0 := by omega
    have next : fs.nfree - 1 = k + 1 := by omega
    have other : (0 : Fin 200) ≠ slot ((k + 1 : Nat) : Int) := @slot_ne 0 (k + 1) (by decide) bound (by omega)
    rw [if_neg left,next,← head]
    refine ⟨_,if_neg nonzero,⟨?_,range,nodup,cleared _,listed.sizes,Nat.succ_pos k,total⟩,rfl,
      ⟨fun _ _ => rfl,⟨rfl,rfl,rfl⟩,rfl,⟨rfl,rfl,rfl⟩,rfl,rfl,rfl,rfl,rfl,rfl⟩⟩
    dsimp only
    rw [parts,← @stack_update fs.free (k + 1) 0 bound k (Nat.lt_succ_self k)]
    refine .of_tail (by omega) ?_
    rw [update_of_ne other]
    exact tail
  | zero =>
    have parts : b :: l = rest := parts
    subst parts
    have done : fs.nfree - 1 = 0 := by omega
    rw [done,if_pos rfl,slot_nat]
    generalize first : fs.free 0 = head at tail
    cases tail with
    | link next more more' =>
      have small := small_of_more more
      rw [low,if_pos small] at more more'
      rw [readBlock_small (by exact inside.1) small]
      refine ⟨_,if_neg nonzero,⟨?_,range,nodup,fun i => Block.word_lt _ _,listed.sizes,?_,total⟩,rfl,
        ⟨fun _ _ => rfl,⟨rfl,rfl,rfl⟩,rfl,⟨rfl,rfl,rfl⟩,rfl,rfl,rfl,rfl,rfl,rfl⟩⟩
      · have number : dfNfree (fs.image b) = (fs.image b).word 0 := signed_word (Block.word_lt _ _) more
        rw [number] at more'
        exact more'
      · have number : dfNfree (fs.image b) = (fs.image b).word 0 := signed_word (Block.word_lt _ _) more
        rw [number] at more
        exact Int.ofNat_le.mp more

theorem Listed.exhausted (listed : Listed fs []) : blockAlloc fs = .error .zero := by
  obtain ⟨k,rest,count,bound,parts,tail⟩ := listed.parts
  obtain ⟨stacked,none⟩ := append_eq_nil_iff.mp parts.symm
  have only : k = 0 := by
    rw [← length_stack fs.free k,stacked]
    rfl
  subst only none
  have some : fs.nfree ≠ 0 := by omega
  have fits : ¬nicfree < fs.nfree := by
    rw [nicfree]
    omega
  have done : fs.nfree - 1 = 0 := by omega
  have stop : fs.free 0 = 0 := by
    generalize fs.free 0 = head at tail
    cases tail
    rfl
  rw [blockAlloc,allocTurns,if_neg some,if_neg fits,done,if_pos rfl,slot_nat,stop,readBlock,if_pos]
  · rfl
  · exact listed.sizes.1

theorem Kept.refl (fs : Fs) : Kept fs fs := ⟨fun _ _ => rfl,⟨rfl,rfl,rfl⟩,rfl,⟨rfl,rfl,rfl⟩,rfl,rfl,rfl,rfl,rfl,rfl⟩

theorem Kept.trans {u : Fs} (first : Kept fs t) (second : Kept t u) : Kept fs u := by
  obtain ⟨image,⟨isize,fsize,swapsz⟩,writable,⟨ninode,inode,tinode⟩,flock,fmod,ilock,ronly,utime,fsmnt⟩ := second
  refine ⟨fun b under => (image b (first.sizes.1 ▸ under)).trans (first.image b under),
    ⟨isize.trans first.sizes.1,fsize.trans first.sizes.2.1,swapsz.trans first.sizes.2.2⟩,writable.trans first.writable,
    ⟨ninode.trans first.inodes.1,inode.trans first.inodes.2.1,tinode.trans first.inodes.2.2⟩,?_⟩
  obtain ⟨flock',fmod',ilock',ronly',utime',fsmnt'⟩ := first.rest
  exact ⟨flock.trans flock',fmod.trans fmod',ilock.trans ilock',ronly.trans ronly',utime.trans utime',fsmnt.trans fsmnt'⟩

theorem freeAll_listed (stale : Block) : ∀ (k n : Nat) {fs : Fs}, Listed fs (range' n (fs.fsize - n)) → fs.writable = true →
    fs.isize + k ≤ n → n ≤ fs.fsize → fs.fsize < 2^22 + 200 →
    ∃ t, freeAll stale fs ((range k).map fun j => n - 1 - j) = .ok t ∧ Listed t (range' (n - k) (fs.fsize - (n - k))) ∧ Kept fs t
  | 0,n,fs,listed,_,_,_,_ => ⟨fs,rfl,listed,Kept.refl fs⟩
  | k + 1,n,fs,listed,writable,inside,high,small => by
    rw [range_succ_eq_map,map_cons,map_map]
    have fresh : n - 1 ∉ range' n (fs.fsize - n) := by
      rw [mem_range'_1]
      omega
    obtain ⟨t,freed,list,kept,_⟩ := listed.free stale writable fresh ⟨by omega,by omega⟩ fun many => by
      rw [length_range'] at many
      omega
    have more : range' (n - 1) (fs.fsize - (n - 1)) = (n - 1) :: range' n (fs.fsize - n) := by
      rw [show fs.fsize - (n - 1) = fs.fsize - n + 1 by omega,range'_succ,show n - 1 + 1 = n by omega]
    rw [← more,← kept.sizes.2.1] at list
    obtain ⟨u,done,rest,still⟩ := freeAll_listed stale k (n - 1) list (kept.writable.trans writable)
      (by rw [kept.sizes.1]; omega) (by rw [kept.sizes.2.1]; omega) (by rw [kept.sizes.2.1]; exact small)
    rw [kept.sizes.2.1] at rest
    refine ⟨u,?_,?_,kept.trans still⟩
    · have order : ((fun j => n - 1 - j) ∘ Nat.succ) = fun j => n - 1 - 1 - j := by
        funext j
        exact (Nat.sub_sub _ _ _).symm ▸ congrArg (n - 1 - ·) (Nat.add_comm j 1)
      rw [freeAll,Nat.sub_zero,freed,order]
      exact done
    · rw [show n - (k + 1) = n - 1 - k by omega]
      exact rest

end
section
variable {fs t : Fs} {inode : Inode} {now n : Nat}

theorem inodePlace_small (small : n < 2^22 - 16) : inodePlace n = ((n + 15) / 16,(n + 15) % 16 * 16) := by
  rw [inodePlace,inodesPerBlock,bsdfsBsize,Nat.mod_eq_of_lt (by omega)]
  refine Prod.ext ?_ ?_ <;> dsimp only <;> omega

theorem inodes_small (begun : 1 ≤ fs.isize) (small : fs.isize ≤ 2^18 - 1) : inodes fs = 16 * (fs.isize - 1) := by
  rw [inodes,inodesPerBlock]
  omega

def inodeAt (b : Block) (o n : Nat) : Inode :=
  let w k := b.word (o + k)
  ⟨n,false,w 0 % 2^16,w 0 / 2^16,w 1,w 2,w 3,fun i => w (4 + i),w 12,w 13,w 14,w 15⟩

theorem inodeGet_at (begun : 1 ≤ fs.isize) (small : fs.isize ≤ 2^18 - 1) : inodeGet fs n =
    if n = 0 ∨ 16 * (fs.isize - 1) < n then .error .zero
    else .ok (inodeAt (fs.image ((n + 15) / 16)) ((n + 15) % 16 * 16) n) := by
  have count := inodes_small begun small
  rw [inodeGet,count]
  split
  next => rfl
  next =>
    rw [inodePlace_small (by omega)]
    rfl

theorem inodeGet_congr (begun : 1 ≤ fs.isize) (small : fs.isize ≤ 2^18 - 1) (size : t.isize = fs.isize)
    (same : ∀ b, 1 ≤ b → b < fs.isize → t.image b = fs.image b) : inodeGet t n = inodeGet fs n := by
  rw [inodeGet_at (size ▸ begun) (size ▸ small),inodeGet_at begun small,size]
  split
  next => rfl
  next => rw [same _ (by omega) (by omega)]

def stored (inode : Inode) (now : Nat) : Inode :=
  ⟨inode.number,false,inode.mode % 2^16,inode.nlink % 2^16,inode.uid % 2^32,inode.gid % 2^32,inode.size % 2^32,
    fun i => inode.addr i % 2^32,inode.flags % 2^32,now % 2^32,inode.mtime % 2^32,inode.ctime % 2^32⟩

def withInode (inode : Inode) (now o j : Nat) : Option Nat :=
  if o ≤ j ∧ j < o + 16 then some (inodeWords inode now (j - o)) else none

theorem withInode_word {b : Block} {o k : Nat} (inside : o + 16 ≤ 256) (one : k < 16) :
    (b.writeWords (withInode inode now o)).word (o + k) = inodeWords inode now k % 2^32 := by
  refine Block.word_stored (by omega) ?_
  rw [withInode,if_pos ⟨Nat.le_add_right o k,Nat.add_lt_add_left one o⟩,Nat.add_sub_cancel_left]

theorem withInode_other {b : Block} {o o' k : Nat} (inside : o' + k < 256) (apart : o' + k < o ∨ o + 16 ≤ o' + k) :
    (b.writeWords (withInode inode now o)).word (o' + k) = b.word (o' + k) := by
  refine Block.word_writeWords_other inside ?_
  rw [withInode,if_neg (by omega)]

theorem inodeAt_saved {b : Block} {o : Nat} (inside : o + 16 ≤ 256) (mode : inode.mode < 2^16) :
    inodeAt (b.writeWords (withInode inode now o)) o inode.number = stored inode now := by
  have words : ∀ k < 16, (b.writeWords (withInode inode now o)).word (o + k) = inodeWords inode now k % 2^32 :=
    fun k one => withInode_word inside one
  have address : ∀ i : Fin 7, inodeWords inode now (4 + i) = inode.addr i := fun i => by
    have bound := i.isLt
    rw [inodeWords,if_neg (by omega),if_neg (by omega),if_neg (by omega),if_neg (by omega),dif_pos (by omega)]
    exact congrArg inode.addr (Fin.ext (Nat.add_sub_cancel_left 4 i))
  rw [inodeAt,stored]
  dsimp only
  rw [words 0 (by decide),words 1 (by decide),words 2 (by decide),words 3 (by decide),words 12 (by decide),
    words 13 (by decide),words 14 (by decide),words 15 (by decide)]
  have first : inodeWords inode now 0 = inode.mode + 2^16 * inode.nlink := rfl
  refine Inode.mk.injEq .. |>.mpr ⟨rfl,rfl,?_,?_,rfl,rfl,rfl,?_,rfl,rfl,rfl,rfl⟩
  · rw [first]
    omega
  · rw [first]
    omega
  · funext i
    rw [words _ (by omega),address i]

theorem inodeAt_other {b : Block} {o o' : Nat} (inside : o' + 16 ≤ 256) (apart : o' + 16 ≤ o ∨ o + 16 ≤ o') :
    inodeAt (b.writeWords (withInode inode now o)) o' n = inodeAt b o' n := by
  have words : ∀ k < 16, (b.writeWords (withInode inode now o)).word (o' + k) = b.word (o' + k) :=
    fun k one => withInode_other (by omega) (by omega)
  rw [inodeAt,inodeAt]
  dsimp only
  rw [words 0 (by decide),words 1 (by decide),words 2 (by decide),words 3 (by decide),words 12 (by decide),
    words 13 (by decide),words 14 (by decide),words 15 (by decide)]
  have address : (fun i : Fin 7 => (b.writeWords (withInode inode now o)).word (o' + (4 + i))) = fun i :
    Fin 7 => b.word (o' + (4 + i)) :=
    funext fun i => words _ (by omega)
  rw [address]

theorem inodeSave_get (begun : 1 ≤ fs.isize) (small : fs.isize ≤ 2^18 - 1) (mode : inode.mode < 2^16)
    (saved : inodeSave fs inode now true = .ok t) :
    t = {fs with image := t.image} ∧ (∀ b, b = 0 ∨ fs.isize ≤ b → t.image b = fs.image b) ∧
      ∀ n, inodeGet t n = if n = inode.number then .ok (stored inode now) else inodeGet fs n := by
  have count := inodes_small begun small
  rw [inodeSave] at saved
  split at saved
  next => cases saved
  next =>
    rw [if_neg (fun both => absurd both.1 (by decide))] at saved
    split at saved
    next => cases saved
    next inside =>
      have place : inodePlace inode.number = ((inode.number + 15) / 16,(inode.number + 15) % 16 * 16) :=
        inodePlace_small (by omega)
      rw [place] at saved
      cases saved
      refine ⟨rfl,fun b outside => update_of_ne (by omega) _ _,fun n => ?_⟩
      rw [inodeGet_at (by exact begun) (by exact small),inodeGet_at begun small]
      by_cases same : n = inode.number
      · rw [if_pos same,same,if_neg (by rw [← count]; exact inside)]
        dsimp only
        rw [update_self]
        exact congrArg Except.ok (inodeAt_saved (by omega) mode)
      rw [if_neg same]
      split
      next => rfl
      next =>
        dsimp only
        rw [update_apply]
        split
        next block =>
          rw [block]
          exact congrArg Except.ok
            (@inodeAt_other inode now _ _ ((inode.number + 15) % 16 * 16) ((n + 15) % 16 * 16) (by omega) (by omega))
        next => rfl

end
end Retrobsd.Fsutil

import Retrobsd.FsutilChecks

/-! The later phases of the check, and all of it: what was counted in phase 1 agrees with the entries and the free list. -/
namespace Retrobsd.Fsutil
open List
open Function
open FreeList (Slots slot stack Chain dfNfree)

variable {now t data : Nat} {fs : Fs} {c : Check}

def visited (n : Nat) : InodeState := if n = 1 ∨ n = rootInode ∨ n = lostfoundInode then .fstate else .ustate

theorem Fresh.reads (fresh : Fresh now data fs) :
    readBlock fs data = .ok lostFoundBlock ∧ readBlock fs (data + 1) = .ok (rootBlock 0) := by
  have area := fresh.area
  have small := fresh.small
  rw [readBlock_small (by omega) (by omega),readBlock_small (by omega) (by omega),fresh.lost,fresh.root]
  exact ⟨rfl,rfl⟩

theorem visited_eq : update (update (scanned data fs).stateMap rootInode .fstate) lostfoundInode .fstate = visited := by
  funext n
  rw [scanned,visited]
  simp only [update_apply]
  by_cases lost : n = lostfoundInode
  · simp [lost]
  by_cases root : n = rootInode
  · simp [root]
  · simp [lost,root]

theorem phase2_fresh (fresh : Fresh now data fs) : ∃ c, phase2 t (scanned data fs) = some c ∧
    ∃ link, Walk (scanned data fs) link visited c ∧ link rootInode = 0 ∧ link lostfoundInode = 0 := by
  have begun := fresh.begun
  have area := fresh.area
  have room := fresh.room
  have volume := fresh.listed.sizes.2
  have count := inodes_small (show 1 ≤ fs.isize by omega) fresh.small
  have many : lostfoundInode ≤ inodes fs := by
    rw [count,lostfoundInode]
    omega
  obtain ⟨deeper,deep⟩ : ∃ m, inodes fs = m + 1 := ⟨inodes fs - 1,by omega⟩
  have start : Walk (scanned data fs) (scanned data fs).linkCount (scanned data fs).stateMap (scanned data fs) := ⟨rfl,.inl rfl⟩
  let entered := less (less (less (scanned data fs).linkCount rootInode) rootInode) lostfoundInode
  have lost : ∀ c, Walk (scanned data fs) entered (update (scanned data fs).stateMap rootInode .fstate) c →
      Walk (scanned data fs) (less (less entered lostfoundInode) rootInode) visited (scanPass2 (deeper + 1) c lostfoundInode) ∧
        (scanPass2 (deeper + 1) c lostfoundInode).filesize = c.filesize := fun c walk => by
    refine walk.directory (n := lostfoundInode) (b := data) deeper
      (by exact fresh.get (by decide) (count ▸ many)) (by omega) (by omega)
      (by exact fresh.outrange (by omega) (by omega)) fun c walk size => ?_
    rw [visited_eq] at walk
    exact lost_entries walk size (by omega) fresh.reads.1 many rfl rfl
  have root := start.directory (n := rootInode) (b := data + 1) (deeper + 1)
    (by exact fresh.get (by decide) (Nat.le_trans (by decide) (count ▸ many))) (by omega) (by omega)
    (by exact fresh.outrange (by omega) (by omega)) fun c walk size =>
      root_entries walk size (by omega) fresh.reads.2 many rfl rfl lost
  refine ⟨_,?_,_,root.1,by rfl,by rfl⟩
  rw [← deep]
  rfl

section
variable {free n : Nat}

def marked (c : Check) (l : List Nat) : Check := {c with freeMap := fun x => c.freeMap x || l.contains x}

theorem marked_nil : marked c [] = c := by
  simp [marked]

theorem marked_append (l m : List Nat) : marked (marked c l) m = marked c (l ++ m) := by
  simp [marked,Bool.or_assoc]

theorem pass5_fresh {b : Nat} (inside : outrange c.fs b = false) (fresh : c.freeMap b = false) :
    pass5 c b free = (marked c [b],free + 1,keepon) := by
  have map : update c.freeMap b true = fun x => c.freeMap x || [b].contains x := by
    funext x
    rw [update_apply]
    by_cases same : x = b
    · simp [same]
    · simp [same]
  rw [pass5,if_neg (by rw [inside]; decide),if_neg (by rw [fresh]; decide),map]
  rfl

structure Unmarked (c : Check) (l : List Nat) : Prop where
  inside : ∀ b ∈ l, outrange c.fs b = false
  fresh : ∀ b ∈ l, c.freeMap b = false
  nodup : l.Nodup

theorem Unmarked.head {b : Nat} {l : List Nat} (unmarked : Unmarked c (b :: l)) (free : Nat) :
    pass5 c b free = (marked c [b],free + 1,keepon) ∧ Unmarked (marked c [b]) l := by
  have nodup := nodup_cons.mp unmarked.nodup
  refine ⟨pass5_fresh (unmarked.inside b mem_cons_self) (unmarked.fresh b mem_cons_self),
    fun x member => unmarked.inside x (mem_cons_of_mem b member),fun x member => ?_,nodup.2⟩
  have other : x ≠ b := fun same => nodup.1 (same ▸ member)
  have before := unmarked.fresh x (mem_cons_of_mem b member)
  simp only [marked,before,Bool.false_or]
  simpa using other

theorem freeArray_fresh : ∀ (l m : List Nat) (free : Nat) {c : Check}, Unmarked c (l ++ m) →
    freeArray c free l = (marked c l,free + l.length,true) ∧ Unmarked (marked c l) m
  | [],m,free,c,unmarked => by
    rw [marked_nil]
    exact ⟨rfl,unmarked⟩
  | b :: l,m,free,c,unmarked => by
    obtain ⟨first,rest⟩ := unmarked.head free
    obtain ⟨done,left⟩ := freeArray_fresh l m (free + 1) rest
    rw [marked_append] at done left
    refine ⟨?_,left⟩
    rw [freeArray,first]
    dsimp only
    rw [if_neg (by decide),done,length_cons,Nat.add_assoc,Nat.add_comm 1]
    rfl

theorem stack_map (free : Slots) : ∀ k : Nat, ((range k).map fun j => free (slot ((k - j : Nat) : Int))) = stack free k
  | 0 => rfl
  | k + 1 => by
    rw [range_succ_eq_map,map_cons,map_map,stack,← stack_map free k]
    refine congrArg₂ cons rfl (map_congr_left fun j _ => ?_)
    exact congrArg (fun i : Nat => free (slot (i : Int))) (Nat.succ_sub_succ k j)

theorem freeTurns_fresh {image : Nat → Block} {count : Int} {list : Slots} {l : List Nat}
    (chain : Chain (low image) count list l) :
    ∀ {c : Check} {turns nfree free : Nat}, c.fs.image = image → 1 ≤ c.fs.isize → (nfree : Int) = count →
    1 ≤ nfree → Unmarked c l →
      l.length < turns → freeTurns turns c free nfree list = (marked c l,free + l.length) := by
  induction chain with
  | empty none =>
    intro c turns nfree free _ _ same some
    omega
  | @last list k inside stop =>
    intro c turns nfree free _ _ same some unmarked enough
    obtain _ | more := turns
    · omega
    have number : nfree = k + 1 := by omega
    rw [← append_nil (stack list k)] at unmarked
    rw [freeTurns,if_neg (by rw [nicfree]; omega),number,Nat.add_sub_cancel,stack_map,(freeArray_fresh _ _ free unmarked).1]
    dsimp only
    rw [if_neg (by decide),if_pos stop]
  | @link list l k inside next more rest ih =>
    intro c turns nfree free here begun same some unmarked enough
    obtain _ | turns := turns
    · omega
    have number : nfree = k + 1 := by omega
    obtain ⟨array,left⟩ := freeArray_fresh _ _ free unmarked
    obtain ⟨head,after⟩ := left.head (free + (stack list k).length)
    have small := small_of_more more
    have inside' : c.fs.isize ≤ list 0 := by
      have range := unmarked.inside (list 0) (mem_append_right _ mem_cons_self)
      rw [outrange,Bool.or_eq_false_iff,decide_eq_false_iff_not] at range
      exact Nat.not_lt.mp range.1
    have data : readBlock c.fs (list 0) = .ok (low image (list 0)) := by
      rw [readBlock_small inside' small,low,if_pos small,here]
    have word : ((low image (list 0)).word 0 : Int) = dfNfree (low image (list 0)) := (signed_word (Block.word_lt _ _) more).symm
    rw [length_append,length_cons] at enough
    have done := @ih (marked (marked c (stack list k)) [list 0]) turns _
      (free + (stack list k).length + 1) here begun word (by omega) after (by omega)
    rw [freeTurns,if_neg (by rw [nicfree]; omega),number,Nat.add_sub_cancel,stack_map,array]
    dsimp only
    rw [if_neg (by decide),if_neg next,head]
    dsimp only
    rw [if_neg (by decide),show readBlock (marked (marked c (stack list k)) [list 0]).fs (list 0) = _ from data]
    refine done.trans ?_
    rw [marked_append,marked_append,singleton_append,length_append,length_cons]
    exact congrArg (Prod.mk _) (by omega)

end
section
variable {link : Nat → Int} {stale : Block}

theorem Walk.idle {n : Nat} (walk : Walk (scanned data fs) link visited c) (directory : n = rootInode ∨ n = lostfoundInode)
    (linked : link n = 0) : (if c.stateMap n = .dstate then phase3 t (inodes fs + 1) c n else c) = c ∧ phase4 t c n = c := by
  have known : c.stateMap = visited := by rw [walk.same]
  have counts : c.linkCount = link := by rw [walk.same]
  have bad : c.badLinks = [1] := by
    rw [walk.same]
    rfl
  have file : visited n = .fstate := by
    rw [visited,if_pos (.inr directory)]
  have other : n ∉ [1] := by
    rw [rootInode,lostfoundInode] at directory
    rw [mem_singleton]
    omega
  refine ⟨by rw [known,file,if_neg (by decide)],?_⟩
  rw [phase4,known,file,counts,bad]
  dsimp only
  rw [if_neg (not_not.mpr linked),if_neg other]

theorem Walk.freeInodes (fresh : Fresh now data fs) (walk : Walk (scanned data fs) link visited c) :
    checkFreeInodeList c = c := by
  have known : c.stateMap = visited := by rw [walk.same]
  have image : c.fs = fs := by
    rw [walk.same]
    rfl
  have none : ((range fs.ninode).map fun i => if h : i < 32 then fs.inode ⟨i,h⟩ else 0).findIdx?
      (fun inum => visited inum ≠ .ustate) = none := by
    refine findIdx?_eq_none_iff.mpr fun n member => ?_
    obtain ⟨i,below,rfl⟩ := mem_map.mp member
    have below := mem_range.mp below
    have inside : i < 32 := below.trans_le fresh.spare.few
    obtain ⟨inode,found,unused⟩ := fresh.spare.unused ⟨i,inside⟩ below
    rw [dif_pos inside]
    generalize fs.inode ⟨i,inside⟩ = n at found
    rw [fresh.table] at found
    split at found
    next => cases found
    next =>
      cases found
      have first : n ≠ 1 := by
        rintro rfl
        exact absurd unused (show modeFreg ≠ 0 by decide)
      have root : n ≠ rootInode := by
        rintro rfl
        exact absurd unused (show (modeFdir + 0o777) ≠ 0 by decide)
      have lost : n ≠ lostfoundInode := by
        rintro rfl
        exact absurd unused (show (modeFdir + 0o777) ≠ 0 by decide)
      rw [visited,if_neg (not_or.mpr ⟨first,not_or.mpr ⟨root,lost⟩⟩)]
      decide
  rw [checkFreeInodeList,known,image,none]

theorem checkFreeList_fresh (fresh : Fresh now data fs) (here : c.fs = fs) (map : c.freeMap = (scanned data fs).blockMap) :
    checkFreeList c = (marked c (range' (data + 2) (fs.fsize - (data + 2))),fs.fsize - (data + 2)) := by
  have area := fresh.area
  have room := fresh.room
  have listed := fresh.listed
  obtain ⟨k,_,nfree,_⟩ := listed.parts
  have unmarked : Unmarked c (range' (data + 2) (fs.fsize - (data + 2))) := by
    refine ⟨fun b member => ?_,fun b member => ?_,listed.nodup⟩
    · rw [mem_range'_1] at member
      rw [here]
      exact fresh.outrange (by omega) (by omega)
    rw [mem_range'_1] at member
    rw [map,scanned]
    dsimp only
    rw [update_of_ne (by omega),update_of_ne (by omega)]
  have enough : (range' (data + 2) (fs.fsize - (data + 2))).length < fs.fsize + dupListSize + 1 := by
    rw [length_range']
    omega
  rw [checkFreeList,here,if_neg (by omega),
    freeTurns_fresh listed.chain (congrArg Fs.image here) (by rw [here]; exact listed.sizes.1) rfl listed.begun unmarked enough,
    length_range',Nat.zero_add]

theorem phase5_sound {u : Check} {free : Nat} (inodes : checkFreeInodeList c = c)
    (list : checkFreeList {c with badBlocks := 0,dupBlocks := 0,freeMap := c.blockMap} = (u,free)) (bad : u.badBlocks = 0)
    (dup : u.dupBlocks = 0) (sound : u.corrupted = false)
    (total : (u.used + free) % 2^32 = (u.fs.fsize + 2^32 - u.fs.isize) % 2^32) : phase5 stale c = u := by
  simp only [phase5,inodes,list,bad,dup,sound,total,ne_eq,not_true_eq_false,and_false,if_false,Bool.false_eq_true]

theorem Walk.phase5 (stale : Block) (fresh : Fresh now data fs) (walk : Walk (scanned data fs) link visited c) :
    (phase5 stale c).fs = fs ∧ (phase5 stale c).reports = [] ∧ (phase5 stale c).bufDirty = false := by
  have area := fresh.area
  have room := fresh.room
  have volume := fresh.listed.sizes.2
  have image : c.fs = fs := by
    rw [walk.same]
    rfl
  have blocks : c.blockMap = (scanned data fs).blockMap := by rw [walk.same]
  have used : c.used = 2 := by
    rw [walk.same]
    rfl
  have sound : c.corrupted = false := by
    rw [walk.same]
    rfl
  have silent : c.reports = [] := by
    rw [walk.same]
    rfl
  have clean : c.bufDirty = false := by rw [walk.same]
  have total : (c.used + (fs.fsize - (data + 2))) % 2^32 = (c.fs.fsize + 2^32 - c.fs.isize) % 2^32 := by
    rw [used,image]
    omega
  have list := checkFreeList_fresh (c := {c with badBlocks := 0,dupBlocks := 0,freeMap := c.blockMap}) fresh image blocks
  rw [phase5_sound (walk.freeInodes fresh) list rfl rfl sound total]
  exact ⟨image,silent,clean⟩

theorem fsCheck_fresh (fresh : Fresh now data fs) : fsCheck t stale fs = ([],true) := by
  have area := fresh.area
  have room := fresh.room
  obtain ⟨c,gone,link,walk,root,lost⟩ := phase2_fresh (t := t) fresh
  have clean : c.bufDirty = false := by rw [walk.same]
  have flushed : c.flushBuf = c := by
    rw [Check.flushBuf,clean,Bool.false_and,if_neg (by decide),← clean]
  obtain ⟨image,silent,clean'⟩ := walk.phase5 stale fresh
  have flushed' : (phase5 stale c).flushBuf = phase5 stale c := by
    rw [Check.flushBuf,clean',Bool.false_and,if_neg (by decide),← clean']
  have connected : (range (lostfoundInode + 1)).drop rootInode = [rootInode,lostfoundInode] := rfl
  have around : [rootInode,lostfoundInode].foldl (fun c inum =>
    if c.stateMap inum = .dstate then phase3 t (inodes fs + 1) c inum else c) c = c := by
    rw [foldl_cons,(walk.idle (.inl rfl) root).1,foldl_cons,(walk.idle (.inr rfl) lost).1,foldl_nil]
  have counted : [rootInode,lostfoundInode].foldl (phase4 t) c = c := by
    rw [foldl_cons,(walk.idle (t := t) (.inl rfl) root).2,foldl_cons,(walk.idle (t := t) (.inr rfl) lost).2,foldl_nil]
  have none : ¬(scanned data fs).dupList ≠ [] := not_not.mpr rfl
  rw [fsCheck,if_neg (by omega),lastAllocated_fresh fresh,phase1_fold fresh]
  dsimp only
  rw [if_neg none,gone]
  dsimp only
  rw [connected,around,counted,flushed,flushed',image,fresh.clean,silent]
  rfl

end
end Retrobsd.Fsutil

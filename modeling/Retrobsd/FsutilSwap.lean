import Retrobsd.FsutilConsistency

/-! The swap file: what is written to map its blocks is never outside the data area, so that the count of free inodes is
one more than there are. -/
namespace Retrobsd.Fsutil
open Function Option

/-- A file system in which the blocks of some indirect blocks are at known depths above the data. -/
structure Indexed (fs : Fs) (l : List Nat) (table : Nat → Inode) (depth : Nat → Option Nat) : Prop where
  built : Built fs l table
  low : fs.fsize ≤ 2^22
  inside : ∀ b k, depth b = some k → fs.isize ≤ b ∧ b < fs.fsize ∧ b ∉ l
  below : ∀ b k i, depth b = some (k + 1) → i < 256 → (fs.image b).word i = 0 ∨ depth ((fs.image b).word i) = some k

structure Counted (fs t : Fs) : Prop where
  sizes : Sizes fs t
  tinode : t.tinode = fs.tinode

variable {fs t : Fs} {l : List Nat} {table : Nat → Inode} {depth : Nat → Option Nat}

section
variable {u : Fs} {b k : Nat}

theorem Counted.refl (fs : Fs) : Counted fs fs := ⟨Sizes.refl fs,rfl⟩

theorem Counted.trans (first : Counted fs t) (second : Counted t u) : Counted fs u :=
  ⟨first.sizes.trans second.sizes,second.tinode.trans first.tinode⟩

theorem Indexed.write {data : Block} (indexed : Indexed fs l table depth) (known : depth b = some k)
    (fits : ∀ j i, k = j + 1 → i < 256 → data.word i = 0 ∨ depth (data.word i) = some j) (wrote : writeBlock fs b data = .ok t) :
    Indexed t l table depth ∧ Counted fs t := by
  obtain ⟨inside,below,used⟩ := indexed.inside b k known
  have low := indexed.low
  obtain ⟨written,built⟩ := indexed.built.write used inside (by omega) data
  have same := Except.ok.inj (wrote.symm.trans written)
  subst same
  refine ⟨⟨built,low,indexed.inside,fun x j i known' bound => ?_⟩,Sizes.images _ _,rfl⟩
  dsimp only
  by_cases here : x = b
  · subst here
    rw [update_self]
    exact fits j i (some.inj (known.symm.trans known')) bound
  · rw [update_of_ne here]
    exact indexed.below x j i known' bound

theorem Indexed.adopt (indexed : Indexed fs l table depth) (k : Nat) (taken : blockAlloc fs = .ok (t,b))
    (wrote : writeBlock t b Block.zero = .ok u) : ∃ rest, Indexed u rest table (update depth b (some k)) ∧ Counted fs u ∧
      depth b = none ∧ u.image = update fs.image b Block.zero := by
  obtain ⟨rest,head,left,image,sizes,tinode⟩ := indexed.built.alloc taken
  have member : b ∈ l := by
    rw [head]
    exact List.mem_cons_self
  have used : b ∉ rest := (List.nodup_cons.mp (head ▸ indexed.built.listed.nodup)).1
  obtain ⟨inside,below⟩ := indexed.built.listed.range b member
  have low := indexed.low
  obtain ⟨isize,fsize,_⟩ := sizes.sizes
  have fresh : depth b = none := by
    cases known : depth b with
    | none => rfl
    | some k => exact absurd member (indexed.inside b k known).2.2
  obtain ⟨written,built⟩ := left.write used (isize ▸ inside) (by omega) Block.zero
  have same := Except.ok.inj (wrote.symm.trans written)
  subst same
  have other : ∀ {x j}, depth x = some j → x ≠ b := fun {x j} known same => by
    rw [same,fresh] at known
    cases known
  refine ⟨rest,⟨built,fsize ▸ low,fun x j known => ?_,fun x j i known bound => ?_⟩,
    ⟨sizes.trans (Sizes.images _ _),tinode⟩,fresh,?_⟩
  · dsimp only
    rw [isize,fsize]
    by_cases here : x = b
    · subst here
      exact ⟨inside,below,used⟩
    rw [update_of_ne here] at known
    obtain ⟨inside,below,free⟩ := indexed.inside x j known
    exact ⟨inside,below,fun member => free (by rw [head]; exact List.mem_cons_of_mem b member)⟩
  · dsimp only
    by_cases here : x = b
    · subst here
      rw [update_self,Block.word_zero]
      exact .inl rfl
    rw [update_of_ne here] at known ⊢
    rw [image]
    refine (indexed.below x j i known bound).imp_right fun next => ?_
    rw [update_of_ne (other next)]
    exact next
  · rw [← image]

theorem writeBlock_comm {a : Nat} {x y : Block} (apart : place a ≠ place b) (first : writeBlock fs a x = .ok t)
    (second : writeBlock t b y = .ok u) : ∃ v, writeBlock fs b y = .ok v ∧ writeBlock v a x = .ok u := by
  rw [writeBlock] at first second
  split at first
  next => cases first
  next free =>
    cases first
    split at second
    next => cases second
    next free' =>
      cases second
      refine ⟨_,if_neg free',?_⟩
      rw [writeBlock,if_neg (by exact free)]
      dsimp only
      rw [update_comm apart.symm]

theorem mapSwapIndirect_cases {addr bn level indir : Nat} (mapped : mapSwapIndirect addr bn (level + 1) fs indir = .ok t) :
    ∃ block i, i < 256 ∧ readBlock fs indir = .ok block ∧ ((level = 0 ∧ writeBlock fs indir (block.putWord i addr) = .ok t) ∨
        (level ≠ 0 ∧ block.word i ≠ 0 ∧ mapSwapIndirect addr bn level fs (block.word i) = .ok t) ∨
        (level ≠ 0 ∧ ∃ u newb v w, blockAlloc fs = .ok (u,newb) ∧ writeBlock u indir (block.putWord i newb) = .ok v ∧
          writeBlock v newb Block.zero = .ok w ∧ mapSwapIndirect addr bn level w newb = .ok t)) := by
  unfold mapSwapIndirect at mapped
  extract_lets i join at mapped
  have index : i < 256 := Nat.mod_lt _ (by decide)
  clear_value i
  cases read : readBlock fs indir with
  | error e =>
    rw [read] at mapped
    cases mapped
  | ok block =>
    rw [read] at mapped
    obtain ⟨_,same,mapped⟩ := Lib.Run.except_bind_ok mapped
    cases same
    dsimp only [join] at mapped
    refine ⟨block,i,index,rfl,?_⟩
    by_cases bottom : level = 0
    · rw [if_pos bottom] at mapped
      cases wrote : writeBlock fs indir (block.putWord i addr) with
      | error e =>
        rw [wrote] at mapped
        cases mapped
      | ok u =>
        rw [wrote] at mapped
        cases mapped
        exact .inl ⟨bottom,rfl⟩
    rw [if_neg bottom] at mapped
    by_cases there : block.word i ≠ 0
    · rw [if_pos there] at mapped
      exact .inr (.inl ⟨bottom,there,mapped⟩)
    rw [if_neg there] at mapped
    refine .inr (.inr ⟨bottom,?_⟩)
    cases taken : blockAlloc fs with
    | error e =>
      rw [taken] at mapped
      cases e <;> cases mapped
    | ok found =>
      obtain ⟨u,newb⟩ := found
      rw [taken] at mapped
      obtain ⟨_,same,mapped⟩ := Lib.Run.except_bind_ok mapped
      cases same
      dsimp only at mapped
      cases entered : writeBlock u indir (block.putWord i newb) with
      | error e =>
        rw [entered] at mapped
        cases mapped
      | ok v =>
        rw [entered] at mapped
        dsimp only at mapped
        cases cleared : writeBlock v newb Block.zero with
        | error e =>
          rw [cleared] at mapped
          cases mapped
        | ok w =>
          rw [cleared] at mapped
          exact ⟨u,newb,v,w,rfl,entered,cleared,mapped⟩

theorem mapSwapIndirect_indexed {addr bn : Nat} :
    ∀ (level : Nat) {fs t : Fs} {l : List Nat} {depth : Nat → Option Nat} {indir : Nat},
    Indexed fs l table depth → depth indir = some level → mapSwapIndirect addr bn (level + 1) fs indir = .ok t →
    ∃ rest deeper, Indexed t rest table deeper ∧ Counted fs t ∧ ∀ b k, depth b = some k → deeper b = some k
  | level,fs,t,l,depth,indir,indexed,known,mapped => by
    have low := indexed.low
    obtain ⟨inside,bound,used⟩ := indexed.inside indir _ known
    obtain ⟨block,i,index,read,mapped⟩ := mapSwapIndirect_cases mapped
    have data : fs.image indir = block := by
      rw [readBlock_small inside (by omega)] at read
      exact Except.ok.inj read
    cases level with
    | zero =>
      obtain ⟨_,written⟩ := mapped.resolve_right fun others => others.elim (fun other => other.1 rfl) (fun other => other.1 rfl)
      obtain ⟨after,counted⟩ := indexed.write known (fun j i none _ => absurd none (Nat.succ_ne_zero j).symm) written
      exact ⟨l,depth,after,counted,fun _ _ same => same⟩
    | succ level =>
      rcases mapped with ⟨bottom,_⟩ | ⟨_,there,mapped⟩ | ⟨_,u,newb,v,w,taken,entered,cleared,mapped⟩
      · cases bottom
      · have next := (indexed.below indir level i known index).resolve_left (data ▸ there)
        rw [data] at next
        exact mapSwapIndirect_indexed level indexed next mapped
      obtain ⟨_,head,_⟩ := indexed.built.alloc taken
      have member : newb ∈ l := by
        rw [head]
        exact List.mem_cons_self
      have range := indexed.built.listed.range newb member
      have apart : place indir ≠ place newb := by
        rw [place_small (by omega),place_small (by omega)]
        rintro rfl
        exact used member
      obtain ⟨v',cleared,entered⟩ := writeBlock_comm apart entered cleared
      obtain ⟨rest,adopted,counted,fresh,image⟩ := indexed.adopt level taken cleared
      have other : indir ≠ newb := by
        rintro rfl
        exact used member
      have known' : update depth newb (some level) indir = some (level + 1) := by
        rw [update_of_ne other]
        exact known
      have fits : ∀ j k, level + 1 = j + 1 → k < 256 → (block.putWord i newb).word k = 0 ∨
          update depth newb (some level) ((block.putWord i newb).word k) = some j := fun j k same bound => by
        cases same
        by_cases here : k = i
        · subst here
          rw [Block.word_putWord bound (by omega),update_self]
          exact .inr rfl
        rw [Block.word_putWord_other bound here,← data]
        refine (indexed.below indir level k known bound).imp_right fun next => ?_
        rw [update_of_ne]
        · exact next
        intro same
        rw [same,fresh] at next
        cases next
      obtain ⟨after,counted'⟩ := adopted.write known' fits entered
      obtain ⟨left,deeper,done,counted'',grown⟩ := mapSwapIndirect_indexed level after (update_self ..) mapped
      refine ⟨left,deeper,done,(counted.trans counted').trans counted'',fun b k before => grown b k ?_⟩
      rw [update_of_ne]
      · exact before
      rintro rfl
      rw [fresh] at before
      cases before

theorem newIndirect_cases (made : newIndirect fs = .ok (t,b)) :
    ∃ u, blockAlloc fs = .ok (u,b) ∧ writeBlock u b Block.zero = .ok t := by
  unfold newIndirect at made
  extract_lets join at made
  cases taken : blockAlloc fs with
  | error e =>
    rw [taken] at made
    cases e <;> cases made
  | ok found =>
    obtain ⟨u,bno⟩ := found
    rw [taken] at made
    obtain ⟨_,same,made⟩ := Lib.Run.except_bind_ok made
    cases same
    dsimp only [join] at made
    cases cleared : writeBlock u bno Block.zero with
    | error e =>
      rw [cleared] at made
      cases made
    | ok v =>
      rw [cleared] at made
      cases made
      exact ⟨u,rfl,cleared⟩

end
variable {now : Nat}

section
variable {inode inode' : Inode}

def Rising (depth : Nat → Option Nat) (inode : Inode) : Prop := ∀ k, k < 3 →
  inode.addr (Fin.ofNat 7 (4 + k)) = 0 ∨ depth (inode.addr (Fin.ofNat 7 (4 + k))) = some k

theorem levels_bound {lbn level bn : Nat} (found : levels lbn = some (level,bn)) : ∃ k, level = k + 1 ∧ k < 3 := by
  unfold levels at found
  extract_lets n at found
  clear_value n
  split at found
  next => exact ⟨0,(congrArg Prod.fst (some.inj found)).symm,by decide⟩
  next =>
    split at found
    next => exact ⟨1,(congrArg Prod.fst (some.inj found)).symm,by decide⟩
    next =>
      split at found
      next => exact ⟨2,(congrArg Prod.fst (some.inj found)).symm,by decide⟩
      next => cases found

def Same (inode inode' : Inode) : Prop := inode' = {inode with addr := inode'.addr}

theorem mapBlockSwap_indexed {lbn : Nat} (indexed : Indexed fs l table depth) (rising : Rising depth inode)
    (mapped : mapBlockSwap fs inode lbn = .ok (t,inode')) : ∃ rest deeper, Indexed t rest table deeper ∧ Counted fs t ∧
      Rising deeper inode' ∧ Same inode inode' := by
  unfold mapBlockSwap at mapped
  extract_lets addr at mapped
  split at mapped
  next direct =>
    cases mapped
    refine ⟨l,depth,indexed,Counted.refl fs,fun k small => ?_,rfl⟩
    have apart : Fin.ofNat 7 (4 + k) ≠ ⟨lbn,by omega⟩ := fun same => by
      have value := congrArg Fin.val same
      rw [Fin.val_ofNat] at value
      dsimp only at value
      omega
    dsimp only
    rw [update_of_ne apart]
    exact rising k small
  next =>
    cases found : levels lbn with
    | none =>
      rw [found] at mapped
      cases mapped
    | some pair =>
      obtain ⟨level,bn⟩ := pair
      obtain ⟨k,rfl,small⟩ := levels_bound found
      rw [found] at mapped
      dsimp only at mapped
      have place : Fin.ofNat 7 (naddr - 4 + (k + 1)) = Fin.ofNat 7 (4 + k) := congrArg (Fin.ofNat 7) (by rw [naddr]; omega)
      rw [place] at mapped
      have apart : ∀ j, j < 3 → j ≠ k → Fin.ofNat 7 (4 + j) ≠ Fin.ofNat 7 (4 + k) := fun j below other same => by
        have value := congrArg Fin.val same
        rw [Fin.val_ofNat,Fin.val_ofNat] at value
        omega
      split at mapped
      next none =>
        obtain ⟨⟨u,indir⟩,made,mapped⟩ := Lib.Run.except_bind_ok mapped
        obtain ⟨⟨_,_⟩,same,mapped⟩ := Lib.Run.except_bind_ok mapped
        cases same
        dsimp only at mapped
        obtain ⟨v,entered,mapped⟩ := Lib.Run.except_bind_ok mapped
        cases mapped
        obtain ⟨w,taken,cleared⟩ := newIndirect_cases made
        obtain ⟨rest,adopted,counted,fresh,_⟩ := indexed.adopt k taken cleared
        rw [update_self] at entered
        obtain ⟨left,deeper,done,counted',grown⟩ := mapSwapIndirect_indexed k adopted (update_self ..) entered
        refine ⟨left,deeper,done,counted.trans counted',fun j below => ?_,rfl⟩
        dsimp only
        by_cases here : j = k
        · subst here
          rw [update_self]
          exact .inr (grown indir j (update_self ..))
        rw [update_of_ne (apart j below here)]
        refine (rising j below).imp_right fun known => grown _ j ?_
        rw [update_of_ne]
        · exact known
        intro same
        rw [same,fresh] at known
        cases known
      next there =>
        obtain ⟨⟨_,_⟩,same,mapped⟩ := Lib.Run.except_bind_ok mapped
        cases same
        dsimp only at mapped
        obtain ⟨v,entered,mapped⟩ := Lib.Run.except_bind_ok mapped
        cases mapped
        obtain ⟨left,deeper,done,counted,grown⟩ :=
          mapSwapIndirect_indexed k indexed ((rising k small).resolve_left there) entered
        exact ⟨left,deeper,done,counted,fun j below => (rising j below).imp_right fun known => grown _ j known,rfl⟩

theorem mapSwap_indexed : ∀ (lbns : List Nat) {fs t : Fs} {l : List Nat} {depth : Nat → Option Nat} {inode inode' : Inode},
    Indexed fs l table depth → Rising depth inode → mapSwap fs inode lbns = .ok (t,inode') →
    ∃ rest deeper, Indexed t rest table deeper ∧ Counted fs t ∧ Same inode inode'
  | [],fs,t,l,depth,inode,inode',indexed,_,mapped => by
    cases mapped
    exact ⟨l,depth,indexed,Counted.refl fs,rfl⟩
  | lbn :: lbns,fs,t,l,depth,inode,inode',indexed,rising,mapped => by
    rw [mapSwap] at mapped
    obtain ⟨⟨u,entered⟩,first,mapped⟩ := Lib.Run.except_bind_ok mapped
    obtain ⟨_,_,after,counted,risen,same⟩ := mapBlockSwap_indexed indexed rising first
    obtain ⟨rest,deeper,done,counted',same'⟩ := mapSwap_indexed lbns after risen mapped
    exact ⟨rest,deeper,done,counted.trans counted',by rw [Same,same',same]⟩

theorem createSwapFile_counted {fsize swapsz data : Nat} {full : Fs} (rooted : Rooted now fsize swapsz data fs)
    (low : fsize ≤ 2^22)
    (swapped : createSwapFile now fs = .ok full) : ∃ rest inode, inode.mode = modeFreg + 0o400 ∧ Counted fs full ∧
      Built full rest (update (newTable now data) swapInode (stored inode now)) := by
  rw [createSwapFile] at swapped
  obtain ⟨⟨t,inode⟩,mapped,saved⟩ := Lib.Run.except_bind_ok swapped
  dsimp only at saved
  have indexed : Indexed fs (List.range' (data + 2) (fsize - (data + 2))) (newTable now data) fun _ => none :=
    ⟨rooted.built,rooted.sizes.2.1 ▸ low,fun _ _ none => absurd none (some_ne_none _).symm,
      fun _ _ _ none => absurd none (some_ne_none _).symm⟩
  obtain ⟨rest,_,after,counted,same⟩ := mapSwap_indexed _ indexed (fun k small => .inl rfl) mapped
  have mode : inode.mode = modeFreg + 0o400 := by rw [same]
  have number : inode.number = swapInode := by rw [same]
  have dirty : inode.dirty = true := by rw [same]
  have forced : inodeSave t inode now true = .ok full := by
    rw [← saved,inodeSave,inodeSave,if_neg (fun both : true = false ∧ _ => absurd both.1 (by decide)),
      if_neg (fun both : false = false ∧ inode.dirty = false => absurd both.2 (by rw [dirty]; decide))]
  obtain ⟨built,only,_⟩ := after.built.save (by rw [mode]; decide) forced
  rw [number] at built
  refine ⟨rest,inode,mode,counted.trans ?_,built⟩
  rw [only]
  exact ⟨Sizes.images _ _,rfl⟩

theorem swap_miscounts {fsize swapsz data : Nat} {full made : Fs} (rooted : Rooted now fsize swapsz data fs) (low : fsize ≤ 2^22)
    (swap : swapsz < 2^22) (swapped : createSwapFile now fs = .ok full) (finished : finish now full = .ok made) :
    ¬ConsistentImage made.image := by
  obtain ⟨rest,inode,mode,⟨sizes,tinode⟩,built⟩ := createSwapFile_counted rooted low swapped
  obtain ⟨flock,fmod,ilock,ronly,_,fsmnt⟩ := rooted.rest
  obtain ⟨flock',fmod',ilock',ronly',_,fsmnt'⟩ := sizes.rest
  have small := rooted.built.small
  have begun := rooted.begun
  have count : full.tinode = 16 * (fs.isize - 1) - 3 := tinode.trans rooted.tinode
  have swapsz' : full.swapsz = swapsz := sizes.sizes.2.2.trans rooted.sizes.2.2
  obtain ⟨opened,built',_,_,_,only⟩ := finish_opened built ⟨sizes.list.1.trans rooted.spare.1,sizes.list.2.trans rooted.spare.2⟩
    (by omega) (by omega) ⟨flock'.trans flock,fmod'.trans fmod,ilock'.trans ilock,ronly'.trans ronly⟩
    (fsmnt'.trans fsmnt) finished
  rintro ⟨_,opened',consistent⟩
  cases Except.ok.inj (opened.symm.trans opened')
  have isize : made.isize = fs.isize := (congrArg Fs.isize only).trans sizes.sizes.1
  have tinode' : made.tinode = 16 * (fs.isize - 1) - 3 := (congrArg Fs.tinode only).trans count
  have size : inodes (reopened made true) = 16 * ((reopened made true).isize - 1) := inodes_small built'.begun built'.small
  have whole : (reopened made true).isize = fs.isize := isize
  have first : swapInode = 4 := rfl
  have free : freeInodes (reopened made true) = inodes (reopened made true) - 4 :=
    freeInodes_past (update (newTable now data) swapInode (stored inode now)) 4 (by omega) (fun n some inside =>
    by rw [built'.inodes,if_neg (by omega)]) (fun n some inside => ?_) fun n high => ?_
  · have total : made.tinode = inodes (reopened made true) - 4 := consistent.inodes.trans free
    omega
  · by_cases last : n = swapInode
    · rw [last,update_self]
      exact show inode.mode % 2^16 ≠ 0 by rw [mode]; decide
    rw [update_of_ne last]
    exact newTable_used now data some (by omega)
  · rw [update_of_ne (by omega),newTable_unused now data (by omega)]
    rfl

end
section
variable {kbytes swapKbytes : Nat} {image : Nat → Block} {stale : Block} {made : Fs}

/-- An image of blocks that 32 bits can address is consistent when there is no swap file. With one it is not. -/
theorem fsCreate_consistent (created : fsCreate now image stale kbytes swapKbytes = .ok made) :
    (swapBlocks swapKbytes = 0 ∧ kbytes % 2^32 < 2^22 + 200 → ConsistentImage made.image) ∧
      (kbytes % 2^32 ≤ 2^22 → (ConsistentImage made.image ↔ swapBlocks swapKbytes = 0)) := by
  obtain ⟨begun,first,freed,one,lost,root,full,zero,freeing,inode1,found,made',swapped,finished⟩ := fsCreate_stages created
  cases Except.ok.inj (zero.symm.trans (blockFree_zero ..))
  have swap : swapBlocks swapKbytes < 2^22 := by
    rw [swapBlocks]
    omega
  have rooted : kbytes % 2^32 ≤ 2^22 ∨ (swapBlocks swapKbytes = 0 ∧ kbytes % 2^32 < 2^22 + 200) →
      Rooted now (kbytes % 2^32) (swapBlocks swapKbytes) (inodeBlocks (kbytes % 2^32) + swapBlocks swapKbytes) root :=
    fun small => fsCreate_rooted begun small swap freeing inode1 found made'
  have consistent : swapBlocks swapKbytes = 0 ∧ kbytes % 2^32 < 2^22 + 200 → ConsistentImage made.image := fun fits => by
    have whole := rooted (.inr fits)
    rw [fits.1] at whole
    rw [if_pos whole.sizes.2.2] at swapped
    subst swapped
    exact whole.consistent finished
  refine ⟨consistent,fun low => ⟨fun sound => ?_,fun none => consistent ⟨none,by omega⟩⟩⟩
  by_contra some
  have whole := rooted (.inl low)
  rw [if_neg (by rw [whole.sizes.2.2]; exact some)] at swapped
  exact swap_miscounts whole low swap swapped finished sound

theorem fsCreate_consistent_small :
    ∃ made, fsCreate 7 (fun _ => Block.zero) Block.zero 20 0 = .ok made ∧ ConsistentImage made.image := by
  have succeeds : (fsCreate 7 (fun _ => Block.zero) Block.zero 20 0).isOk = true := by decide +kernel
  cases created : fsCreate 7 (fun _ => Block.zero) Block.zero 20 0 with
  | error e =>
    rw [created] at succeeds
    cases succeeds
  | ok made => exact ⟨made,rfl,(fsCreate_consistent created).1 ⟨by decide,by decide⟩⟩

/-- With a swap file of one block the superblock has one inode more than are free. -/
theorem swap_inconsistent : ¬∀ (now kbytes swapKbytes : Nat) (image : Nat → Block) (stale : Block) (made : Fs),
    fsCreate now image stale kbytes swapKbytes = .ok made → ConsistentImage made.image := by
  intro sound
  have differs : ((fsCreate 7 (fun _ => Block.zero) Block.zero 20 1).toOption.any fun made =>
      (fsOpen made.image true).toOption.any fun fs => decide (fs.tinode = 13 ∧ freeInodes fs = 12)) = true := by decide +kernel
  cases created : fsCreate 7 (fun _ => Block.zero) Block.zero 20 1 with
  | error e =>
    rw [created] at differs
    cases differs
  | ok made =>
    obtain ⟨fs,opened,consistent⟩ := sound 7 20 1 _ _ made created
    rw [created] at differs
    have reopened : ((fsOpen made.image true).toOption.any fun fs =>
      decide (fs.tinode = 13 ∧ freeInodes fs = 12)) = true := differs
    rw [opened] at reopened
    have counts := of_decide_eq_true reopened
    have same := consistent.inodes
    omega

end
end Retrobsd.Fsutil

import Retrobsd.BufferAllocation

/-! Ownership of the buffer pool. The buffers in use are exactly those that
somebody holds, and every operation of the cache accounts for the buffers that it
takes and gives back. -/
namespace Retrobsd.BufferCache
open Lib.Rings Finset

variable {n : Nat} {cfg : Config} {s : Cache n} {held : Finset (Fin n)} {i : Fin n}

/-- The busy buffers are the held ones, and the links agree with that. -/
structure Pool (cfg : Config) (held : Finset (Fin n)) (s : Cache n) : Prop where
  linked : ∃ bucket, Linked s bucket
  busy : ∀ i, (s.buf i).flags.bBusy = true ↔ i ∈ held
  quiet : ∀ i, (s.buf i).flags.bAsync = false
  attached : ∀ i, (s.buf i).flags.bDelwri = true → major (s.buf i).bDev < cfg.nrdsk

def Ends {σ α : Type} (result : Except (Fault n) (σ × α)) (post : α → σ → Prop) : Prop :=
  (∃ a t, result = .ok (t,a) ∧ post a t) ∨ ∃ c, result = .error (.sleeping c)

theorem Ends.imp {σ α : Type} {result : Except (Fault n) (σ × α)} {post weaker : α → σ → Prop} (ends : Ends result post)
    (implied : ∀ a t, post a t → weaker a t) : Ends result weaker := by
  rcases ends with ⟨a,t,done,final⟩ | asleep
  · exact .inl ⟨a,t,done,implied a t final⟩
  · exact .inr asleep

section
variable (pool : Pool cfg held s)
include pool

theorem Pool.idle : (s.buf i).flags.bBusy = false ↔ i ∉ held := by
  rw [← pool.busy i]
  simp

theorem Pool.of_frame {t : Cache n} {held' : Finset (Fin n)} (linked : ∃ bucket, Linked t bucket)
    (others : ∀ j, j ≠ i → t.buf j = s.buf j) (same : ∀ j, j ≠ i → (j ∈ held' ↔ j ∈ held))
    (busy : (t.buf i).flags.bBusy = true ↔ i ∈ held') (quiet : (t.buf i).flags.bAsync = false)
    (attached : (t.buf i).flags.bDelwri = true → major (t.buf i).bDev < cfg.nrdsk) : Pool cfg held' t := by
  refine ⟨linked,fun j => ?_,fun j => ?_,fun j => ?_⟩ <;> by_cases here : j = i
  · exact here ▸ busy
  · rw [others j here]
    exact (pool.busy j).trans (same j here).symm
  · exact here ▸ quiet
  · rw [others j here]
    exact pool.quiet j
  · exact here ▸ attached
  · rw [others j here]
    exact pool.attached j

theorem Pool.notavail (idle : (s.buf i).flags.bBusy = false) : Pool cfg (insert i held) (notavail s i) := by
  obtain ⟨bucket,linked⟩ := pool.linked
  refine pool.of_frame (i := i) ⟨bucket,linked.notavail idle⟩ (fun j other => notavail_buf_other s other) ?_ ?_ ?_ ?_
  · intro j other
    simp [other]
  · simp [notavail_buf_self,Buf.mark]
  · rw [notavail_buf_self]
    exact pool.quiet i
  · rw [notavail_buf_self]
    exact pool.attached i

theorem Pool.brelse (member : i ∈ held) : Pool cfg (held.erase i) (brelse s i) := by
  obtain ⟨bucket,linked⟩ := pool.linked
  obtain ⟨after,content,frame,_⟩ := brelse_spec linked ((pool.busy i).mpr member)
  refine pool.of_frame (i := i) ⟨bucket,after⟩ frame.others ?_ ?_ ?_ ?_
  · intro j other
    simp [other]
  · simp [content,Buf.mark,Flags.released]
  · rw [content]
    rfl
  · rw [content]
    exact pool.attached i

theorem Pool.modify {f : Buf → Buf} (busy : (f (s.buf i)).flags.bBusy = (s.buf i).flags.bBusy)
    (plain : (f (s.buf i)).flags.bError = (s.buf i).flags.bError ∧ (f (s.buf i)).flags.bLocked = (s.buf i).flags.bLocked)
    (quiet : (f (s.buf i)).flags.bAsync = (s.buf i).flags.bAsync)
    (attached : (f (s.buf i)).flags.bDelwri = true → major (f (s.buf i)).bDev < cfg.nrdsk) :
    Pool cfg held (s.modify i f) := by
  obtain ⟨bucket,linked⟩ := pool.linked
  refine pool.of_frame (i := i) ⟨bucket,linked.modify i busy ?_⟩ (fun j other => modify_buf_other s f other)
    (fun _ _ => Iff.rfl) ?_ ?_ ?_
  · rw [plain.1,plain.2]
    exact linked.plain i
  · rw [modify_buf_self,busy]
    exact pool.busy i
  · rw [modify_buf_self,quiet]
    exact pool.quiet i
  · rw [modify_buf_self]
    exact attached

theorem Pool.written {t : Cache n} (linked : ∃ bucket, Linked t bucket)
    (attached : major (s.buf i).bDev < cfg.nrdsk) (written : Written cfg s t i) : Pool cfg (held.erase i) t := by
  refine pool.of_frame (i := i) linked written.frame.others ?_ ?_ written.quiet fun _ => ?_
  · intro j other
    simp [other]
  · simp [written.idle]
  have dev : (t.buf i).bDev = (s.buf i).bDev := congrArg Prod.fst written.label
  rw [dev]
  exact attached

end

section
variable (pool : Pool cfg held s) (member : i ∈ held) (attached : major (s.buf i).bDev < cfg.nrdsk)
include pool member attached

theorem Pool.writes {r : Except (Fault n) (Cache n)} (wrote : ∀ {bucket}, Linked s bucket → (s.buf i).flags.bBusy = true →
    major (s.buf i).bDev < cfg.nrdsk → ∃ t, r = .ok t ∧ Linked t bucket ∧ Written cfg s t i) :
    ∃ t, r = .ok t ∧ Pool cfg (held.erase i) t := by
  obtain ⟨bucket,linked⟩ := pool.linked
  obtain ⟨t,done,after,written⟩ := wrote linked ((pool.busy i).mpr member) attached
  exact ⟨t,done,pool.written ⟨bucket,after⟩ attached written⟩

end

theorem Pool.pushed (pool : Pool cfg held s) {t : Cache n} (linked : ∃ bucket, Linked t bucket)
    (pushed : Pushed cfg s t i) : Pool cfg held t := by
  have after := pool.written linked (pool.attached i pushed.delayed) pushed.written
  rwa [erase_eq_of_notMem (pool.idle.mp pushed.idle)] at after

theorem Pool.taken (pool : Pool cfg held s) (idle : (s.buf i).flags.bBusy = false) : Pool cfg (insert i held) (taken s i) := by
  obtain ⟨bucket,linked⟩ := pool.linked
  refine pool.of_frame (i := i) ⟨bucket,linked.taken idle⟩ (fun j other => taken_buf_other s other) ?_ ?_ ?_ ?_
  · intro j other
    simp [other]
  · simp [taken_buf_self,Buf.mark]
  · rw [taken_buf_self]
    rfl
  · intro delayed
    rw [taken_buf_self] at delayed
    cases delayed

def Undisturbed (cfg : Config) (held : Finset (Fin n)) (s t : Cache n) : Prop := Pool cfg held t ∧ ∀ j ∈ held, t.buf j = s.buf j

theorem Undisturbed.pushed {t u : Cache n} (before : Undisturbed cfg held s t) (linked : ∃ bucket, Linked u bucket)
    (pushed : Pushed cfg t u i) : Undisturbed cfg held s u := by
  refine ⟨before.1.pushed linked pushed,fun j member => ?_⟩
  have other : j ≠ i := fun same => before.1.idle.mp pushed.idle (same ▸ member)
  rw [pushed.frame.others j other,before.2 j member]

section
variable (pool : Pool cfg held s)
include pool

theorem Pool.getnewbuf : Ends (getnewbuf cfg s) fun i t => i ∉ held ∧ Pool cfg (insert i held) t ∧
      (t.buf i).flags = {Flags.none with bBusy := true} ∧ ∀ j ∈ held, t.buf j = s.buf j := by
  obtain ⟨bucket,linked⟩ := pool.linked
  rcases @getnewbuf_rule n cfg s bucket (Undisturbed cfg held s) linked ⟨pool,fun _ _ => rfl⟩ (fun s pool => pool.1.attached)
    (fun s t i _ pool after pushed => pool.pushed ⟨bucket,after⟩ pushed) with ⟨t,i,done,_,after,idle,_⟩ | ⟨failed,_⟩
  · have fresh := after.1.idle.mp idle
    refine .inl ⟨i,_,done,fresh,after.1.taken idle,by rw [taken_buf_self]; rfl,fun j member => ?_⟩
    rw [taken_buf_other t (fun same : j = i => fresh (same ▸ member)),after.2 j member]
  · exact .inr ⟨_,failed⟩

theorem Pool.assign (clean : (s.buf i).flags.bDelwri = false) (h : Bucket)
    {label : Buf → Buf} (flags : ∀ b, (label b).flags = b.flags) : Pool cfg held (assign s i h label) := by
  obtain ⟨bucket,linked⟩ := pool.linked
  have same : ((BufferCache.assign s i h label).buf i).flags = (s.buf i).flags := by rw [assign_buf_self,flags]
  refine pool.of_frame (i := i) ⟨_,linked.assign i h flags⟩ (fun j other => assign_buf_other s h label other)
    (fun _ _ => Iff.rfl) ?_ ?_ ?_
  · rw [same]
    exact pool.busy i
  · rw [same]
    exact pool.quiet i
  · rw [same,clean]
    intro delayed
    cases delayed

theorem Pool.getblk (dev : Dev) (blkno : Nat) (known : major dev < cfg.nblkdev) :
    Ends (getblk cfg s dev blkno) fun i t => i ∉ held ∧ Pool cfg (insert i held) t ∧ (t.buf i).bDev = dev ∧
    ∀ j ∈ held, t.buf j = s.buf j := by
  obtain ⟨bucket,linked⟩ := pool.linked
  rcases @getblk_cases n cfg s bucket blkno (Undisturbed cfg held s) linked ⟨pool,fun _ _ => rfl⟩ dev known
    (fun s pool => pool.1.attached) (fun s t i _ pool after pushed => pool.pushed ⟨bucket,after⟩ pushed) with
      ⟨i,found,idle,done⟩ | ⟨i,_,_,failed⟩ | ⟨t,i,_,done,_,after,idle,_⟩ | ⟨_,failed,_⟩
  · have fresh := pool.idle.mp idle
    refine .inl ⟨i,_,done,fresh,pool.notavail idle,?_,fun j member => ?_⟩
    · rw [notavail_buf_self]
      exact ((names_iff s dev blkno i).mp (linked.lookup_some found).2).2.1
    · exact notavail_buf_other s fun same => fresh (same ▸ member)
  · exact .inr ⟨_,failed⟩
  · have fresh := after.1.idle.mp idle
    refine .inl ⟨i,_,done,fresh,?_,?_,fun j member => ?_⟩
    · refine (after.1.taken idle).assign ?_ _ (fun _ => rfl)
      rw [taken_buf_self]
      rfl
    · rw [assignBlock,assign_buf_self]
    · have other : j ≠ i := fun same => fresh (same ▸ member)
      rw [assignBlock,assign_buf_other _ _ _ other,taken_buf_other t other,after.2 j member]
  · exact .inr ⟨_,failed⟩

theorem Pool.geteblk : Ends (geteblk cfg s) fun i t => i ∉ held ∧ Pool cfg (insert i held) t := by
  unfold BufferCache.geteblk
  rcases pool.getnewbuf with ⟨i,t,done,fresh,after,flags,_⟩ | ⟨c,failed⟩
  · refine .inl ⟨i,_,by simp only [done,bind,Except.bind]; rfl,fresh,?_⟩
    refine Pool.assign (after.modify rfl ⟨rfl,rfl⟩ rfl (after.attached i)) ?_ _ (fun _ => rfl)
    rw [modify_buf_self,flags]
    rfl
  · exact .inr ⟨c,by simp only [failed,bind,Except.bind]⟩

theorem Pool.startRead (member : i ∈ held) (attached : major (s.buf i).bDev < cfg.nrdsk) (unread : (s.buf i).flags.bDone = false)
    (async : Bool) : ∃ t, startRead cfg s i async = .ok t ∧ Pool cfg (bif async then held.erase i else held) t ∧
      (t.buf i).flags.bDone = true ∧ (t.buf i).bDev = (s.buf i).bDev ∧ ∀ j, j ≠ i → t.buf j = s.buf j := by
  obtain ⟨bucket,linked⟩ := pool.linked
  have busy := (pool.busy i).mpr member
  obtain ⟨t,done,after,frame,_,content⟩ := startRead_spec linked busy unread attached async
  obtain ⟨still,quiet,read,delayed,_⟩ := Flags.fetched_spec busy (pool.quiet i) async
  have flags : (t.buf i).flags = (s.buf i).flags.fetched async := by rw [content]; rfl
  have dev : (t.buf i).bDev = (s.buf i).bDev := by rw [content]; rfl
  refine ⟨t,done,pool.of_frame ⟨bucket,after⟩ frame.others ?_ ?_ ?_ ?_,by rwa [flags],dev,frame.others⟩
  · intro j other
    cases async <;> simp [other]
  · rw [flags,still]
    cases async <;> simp [member]
  · rwa [flags]
  · rw [flags,delayed,dev]
    exact pool.attached i

theorem Pool.biowait (done : (s.buf i).flags.bDone = true) : ∃ t, biowait s i = .ok t ∧ Pool cfg held t ∧ t.buf = s.buf := by
  obtain ⟨bucket,linked⟩ := pool.linked
  obtain ⟨t,waited,after,bufs,_,_⟩ := biowait_done linked done
  exact ⟨t,waited,⟨⟨bucket,after⟩,by rw [bufs]; exact pool.busy,by rw [bufs]; exact pool.quiet,
    by rw [bufs]; exact pool.attached⟩,bufs⟩

end

theorem present_false (missing : present s i = false) : (s.buf i).flags.bDone = false ∧ (s.buf i).flags.bDelwri = false := by
  simpa [present] using missing

section
variable (pool : Pool cfg held s)
include pool

theorem Pool.bread (dev : Dev) (blkno : Nat) (fits : cfg.nrdsk ≤ cfg.nblkdev) (attached : major dev < cfg.nrdsk) :
    Ends (bread cfg s dev blkno) fun i t => i ∉ held ∧ Pool cfg (insert i held) t ∧ (t.buf i).bDev = dev := by
  unfold BufferCache.bread
  rcases pool.getblk dev blkno (lt_of_lt_of_le attached fits) with ⟨i,t,got,fresh,after,label,_⟩ | ⟨c,failed⟩
  · simp only [got,bind,Except.bind]
    cases ready : present t i with
    | true => exact .inl ⟨i,t,rfl,fresh,after,label⟩
    | false =>
      obtain ⟨u,read,owned,done,dev_same,_⟩ := after.startRead (mem_insert_self _ _) (by rw [label]; exact attached)
        (present_false ready).1 false
      obtain ⟨w,waited,final,bufs⟩ := owned.biowait done
      simp only [Bool.false_eq_true,if_false,read,waited]
      exact .inl ⟨i,w,rfl,fresh,final,by rw [bufs,dev_same,label]⟩
  · exact .inr ⟨c,by simp only [failed,bind,Except.bind]⟩

def Leaves (result : Except (Fault n) (Cache n)) (post : Cache n → Prop) : Prop :=
  (∃ t, result = .ok t ∧ post t) ∨ ∃ c, result = .error (.sleeping c)

theorem Pool.readAhead (dev : Dev) (rablkno : Nat) (fits : cfg.nrdsk ≤ cfg.nblkdev) (attached : major dev < cfg.nrdsk) :
    Leaves (readAhead cfg s dev rablkno) fun t => Pool cfg held t ∧ ∀ j ∈ held, t.buf j = s.buf j := by
  unfold BufferCache.readAhead
  split_ifs with skipped
  · exact .inl ⟨s,rfl,pool,fun _ _ => rfl⟩
  rcases pool.getblk dev rablkno (lt_of_lt_of_le attached fits) with ⟨i,t,got,fresh,after,label,kept⟩ | ⟨c,failed⟩
  · have member : i ∈ insert i held := mem_insert_self _ _
    have back : (insert i held).erase i = held := erase_insert fresh
    have other : ∀ j ∈ held, j ≠ i := fun j present same => fresh (same ▸ present)
    simp only [got,bind,Except.bind]
    cases ready : present t i with
    | true =>
      obtain ⟨bucket,linked⟩ := after.linked
      obtain ⟨_,_,frame,_⟩ := brelse_spec linked ((after.busy i).mpr member)
      refine .inl ⟨_,rfl,back ▸ after.brelse member,fun j present => ?_⟩
      rw [frame.others j (other j present),kept j present]
    | false =>
      obtain ⟨u,read,owned,_,_,untouched⟩ := after.startRead member (by rw [label]; exact attached) (present_false ready).1 true
      refine .inl ⟨u,read,back ▸ owned,fun j present => ?_⟩
      rw [untouched j (other j present),kept j present]
  · exact .inr ⟨c,by simp only [failed,bind,Except.bind]⟩

theorem Pool.breada (dev : Dev) (blkno rablkno : Nat) (fits : cfg.nrdsk ≤ cfg.nblkdev) (attached : major dev < cfg.nrdsk) :
    Ends (breada cfg s dev blkno rablkno) fun i t => i ∉ held ∧ Pool cfg (insert i held) t ∧ (t.buf i).bDev = dev := by
  unfold BufferCache.breada
  split_ifs with cached
  · rcases pool.readAhead dev rablkno fits attached with ⟨t,ahead,after,_⟩ | ⟨c,failed⟩
    · simp only [ahead,bind,Except.bind]
      exact after.bread dev blkno fits attached
    · exact .inr ⟨c,by simp only [failed,bind,Except.bind]⟩
  rcases pool.getblk dev blkno (lt_of_lt_of_le attached fits) with ⟨i,t,got,fresh,after,label,_⟩ | ⟨c,failed⟩
  · have member : i ∈ insert i held := mem_insert_self _ _
    obtain ⟨u,started,owned,done,dev_same⟩ : ∃ u, readFirst cfg t i = .ok u ∧ Pool cfg (insert i held) u ∧
      ((u.buf i).flags.bDone = true ∨ (u.buf i).flags.bDelwri = true) ∧
        (u.buf i).bDev = dev := by
      unfold readFirst
      cases ready : present t i with
      | true => exact ⟨t,rfl,after,by simpa [present] using ready,label⟩
      | false =>
        obtain ⟨u,read,owned,done,same,_⟩ := after.startRead member (by rw [label]; exact attached) (present_false ready).1 false
        exact ⟨u,by simpa using read,owned,.inl done,same.trans label⟩
    simp only [got,bind,Except.bind,started]
    rcases owned.readAhead dev rablkno fits attached with ⟨w,ahead,final,kept⟩ | ⟨c,failed⟩
    · simp only [ahead]
      by_cases finished : (w.buf i).flags.bDone = true
      · obtain ⟨x,waited,last,bufs⟩ := final.biowait finished
        simp only [waited]
        exact .inl ⟨i,x,rfl,fresh,last,by rw [bufs,kept i member,dev_same]⟩
      · exact .inr ⟨.buf i,by simp [BufferCache.biowait,finished]⟩
    · exact .inr ⟨c,by simp only [failed]⟩
  · exact .inr ⟨c,by simp only [failed,bind,Except.bind]⟩

theorem Pool.blkflush (dev : Dev) (blkno : Nat) : Leaves (blkflush cfg s dev blkno) (Pool cfg held) := by
  have loop : ∀ fuel s, Pool cfg held s → Leaves (blkflushLoop cfg dev blkno fuel s) (Pool cfg held) := by
    intro fuel
    induction fuel with
    | zero => exact fun s pool => .inl ⟨s,rfl,pool⟩
    | succ fuel ih =>
      intro s pool
      unfold blkflushLoop
      cases found : unsettled s dev blkno with
      | none => exact .inl ⟨s,rfl,pool⟩
      | some i =>
        by_cases busy : (s.buf i).flags.bBusy = true
        · exact .inr ⟨.buf i,by simp [busy]⟩
        have idle : (s.buf i).flags.bBusy = false := by simpa using busy
        have fresh := pool.idle.mp idle
        have flags := List.find?_some found
        simp only [Bool.and_eq_true,Bool.or_eq_true,busy,Bool.false_eq_true,false_or] at flags
        obtain ⟨t,done,after⟩ := (pool.notavail idle).writes (mem_insert_self _ _)
          (by rw [notavail_buf_self]; exact pool.attached i flags.2) bwrite_written
        rw [erase_insert fresh] at after
        simp only [busy,done,bind,Except.bind]
        exact ih t after
  exact loop (n + 1) s pool

theorem Pool.bflush (dev : Dev) : ∃ t, bflush cfg s dev = .ok t ∧ Pool cfg held t := by
  obtain ⟨bucket,linked⟩ := pool.linked
  obtain ⟨t,done,_,after,_⟩ := @bflush_rule n cfg s bucket (Pool cfg held) linked pool dev (fun s pool => pool.attached)
    (fun s t i _ pool after pushed => pool.pushed ⟨bucket,after⟩ pushed)
  exact ⟨t,done,after⟩

theorem Pool.binval (dev : Dev) : Pool cfg held (binval s dev) := by
  have one : ∀ (l : List (Fin n)) (s : Cache n), Pool cfg held s → Pool cfg held (l.foldl (fun s i =>
      if (s.buf i).bDev = dev then s.setFlags i (fun f => {f with bInval := true}) else s) s) := by
    intro l
    induction l with
    | nil => exact fun s pool => pool
    | cons i l ih =>
      intro s pool
      refine ih _ ?_
      dsimp only
      split_ifs
      · exact pool.modify rfl ⟨rfl,rfl⟩ rfl (pool.attached i)
      · exact pool
  unfold BufferCache.binval
  generalize List.finRange 16 = heads
  induction heads generalizing s with
  | nil => exact pool
  | cons h heads ih => exact ih (one _ s pool)

end

/-- The cache in the middle of `binit`, when the buffers of `ready` are linked. -/
structure Prepared (s : Cache n) (ready : Finset (Fin n)) : Prop where
  free : ∃ queues, Holds s.av queues ∧ queues bqLocked = [] ∧ ∀ i, (∃ q, i ∈ queues q) ↔ i ∈ ready
  hashed : ∃ chains, Holds s.hash chains ∧ ∀ i h, i ∈ chains h ↔ i ∈ ready ∧ .bfreelist bqAge = h
  flags : ∀ i, (s.buf i).flags = Flags.none ∨ (s.buf i).flags = {Flags.none with bInval := true}
  labels : ∀ i ∈ ready, (s.buf i).flags.bInval = true

theorem blank_prepared (media : Nat → Nat → Block) : Prepared (blank media : Cache n) ∅ := by
  refine ⟨⟨fun _ => [],⟨fun _ => ⟨rfl,rfl⟩,by simp,by simp⟩,rfl,by simp⟩,
    ⟨fun _ => [],⟨fun _ => ⟨rfl,rfl⟩,by simp,by simp⟩,by simp⟩,fun _ => .inl rfl,by simp⟩

theorem Prepared.initBuf {ready : Finset (Fin n)} (prepared : Prepared s ready) (fresh : i ∉ ready) :
    Prepared (initBuf s i) (insert i ready) := by
  obtain ⟨queues,holds,unlocked,free⟩ := prepared.free
  obtain ⟨chains,chained,home⟩ := prepared.hashed
  generalize start : (({s.modify i (fun b => {b with bDev := nodev,bBcount := 0}) with
    hash := s.hash.insertAfter (.head (.bfreelist bqAge)) (.item i)} : Cache n).setFlags i
      (fun _ => {Flags.none with bBusy := true,bInval := true})) = u
  have flags : (u.buf i).flags = {Flags.none with bBusy := true,bInval := true} := by
    rw [← start,setFlags_buf_self]
    rfl
  have others : ∀ j, j ≠ i → u.buf j = s.buf j := by
    intro j other
    rw [← start,setFlags_buf_other _ _ other]
    exact modify_buf_other s (fun b => {b with bDev := nodev,bBcount := 0}) other
  have links : u.av = s.av ∧ u.hash = s.hash.insertAfter (.head (.bfreelist bqAge)) (.item i) := by
    rw [← start]
    exact ⟨rfl,rfl⟩
  have unlinked : ∀ q, i ∉ queues q := fun q present => fresh ((free i).mp ⟨q,present⟩)
  obtain ⟨wanted,woken,av,l,whole,order,rings⟩ := brelse_links (s := u) (links.1 ▸ holds) unlinked (by rw [flags]; rfl)
  have target : (freeQueue (u.buf i).flags).1 = bqAge := by rw [flags]; rfl
  rw [target] at order rings
  have result : BufferCache.initBuf s i = BufferCache.brelse u i := by rw [← start]; rfl
  rw [result,whole]
  refine ⟨⟨_,rings,by rw [Function.update_of_ne (by decide),unlocked],?_⟩,
    ⟨Function.update chains (.bfreelist bqAge) (i :: chains (.bfreelist bqAge)),?_,?_⟩,?_,?_⟩
  · intro j
    rw [mem_update_insert order,free j,mem_insert]
  · show Holds u.hash _
    rw [links.2]
    exact chained.insertAfter fun h present => fresh ((home i h).mp present).1
  · intro j h
    by_cases here : h = .bfreelist bqAge
    · subst h
      simp [home]
    rw [Function.update_of_ne here,home,mem_insert]
    constructor
    · exact fun both => ⟨.inr both.1,both.2⟩
    · exact fun both => absurd both.2.symm here
  · intro j
    by_cases same : j = i
    · subst j
      rw [modify_buf_self]
      exact .inr (by simp [Buf.mark,flags,Flags.released,Flags.none])
    · rw [modify_buf_other _ _ same]
      exact (others j same) ▸ prepared.flags j
  · intro j member
    by_cases same : j = i
    · subst j
      rw [modify_buf_self]
      simp [Buf.mark,flags,Flags.released]
    · rw [modify_buf_other _ _ same]
      exact (others j same) ▸ prepared.labels j (mem_of_mem_insert_of_ne member same)

variable (media : Nat → Nat → Block)
include media

theorem binit_prepared : Prepared (binit media : Cache n) Finset.univ := by
  have loop : ∀ (l : List (Fin n)) (s : Cache n) (ready : Finset (Fin n)), Prepared s ready → l.Nodup →
      (∀ i ∈ l, i ∉ ready) → Prepared (l.foldl BufferCache.initBuf s) (ready ∪ l.toFinset) := by
    intro l
    induction l with
    | nil => intro s ready prepared _ _; simpa using prepared
    | cons i l ih =>
      intro s ready prepared distinct fresh
      have next := ih (BufferCache.initBuf s i) (insert i ready) (prepared.initBuf (fresh i (by simp))) distinct.of_cons ?_
      · simpa [union_insert,insert_union] using next
      intro j member
      rw [mem_insert,not_or]
      exact ⟨fun same => (List.nodup_cons.mp distinct).1 (same ▸ member),fresh j (by simp [member])⟩
  have all := loop (List.finRange n) (blank media) ∅ (blank_prepared media) (List.nodup_finRange n) (by simp)
  have whole : (∅ : Finset (Fin n)) ∪ (List.finRange n).toFinset = Finset.univ := by
    ext i
    simp
  rw [whole] at all
  exact all

theorem binit_linked : Linked (binit media : Cache n) (fun _ => .bfreelist bqAge) := by
  obtain ⟨⟨queues,holds,unlocked,free⟩,⟨chains,chained,home⟩,flags,_⟩ := binit_prepared (n := n) media
  refine ⟨⟨queues,holds,unlocked,fun i => ?_⟩,⟨chains,chained,fun i h => by simpa using home i h⟩,fun i => ?_⟩
  · rw [free i]
    rcases flags i with plain | plain <;> simp [plain,Flags.none]
  · rcases flags i with plain | plain <;> simp [plain,Flags.none]

theorem binit_invalid (i : Fin n) : ((binit media : Cache n).buf i).flags = {Flags.none with bInval := true} := by
  have prepared := binit_prepared (n := n) media
  rcases prepared.flags i with plain | plain
  · have inval := prepared.labels i (mem_univ i)
    rw [plain] at inval
    cases inval
  · exact plain

theorem binit_pool : Pool cfg ∅ (binit media : Cache n) := by
  refine ⟨⟨_,binit_linked media⟩,fun i => ?_,fun i => ?_,fun i => ?_⟩ <;> rw [binit_invalid] <;> simp [Flags.none]

end Retrobsd.BufferCache

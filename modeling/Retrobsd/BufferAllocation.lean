import Retrobsd.BufferLinks

/-! Searching the hash chains and taking buffers off the free lists. A search for
a free buffer may write other buffers out first; what holds of the cache through
these writes is carried along by the caller. -/
namespace Retrobsd.BufferCache
open Finset
open Function

variable {n : Nat} {cfg : Config} {s t : Cache n} {bucket : Fin n → Bucket}

theorem Linked.chain_eq (linked : Linked s bucket) (h : Bucket) (i : Fin n) : i ∈ chain s h ↔ bucket i = h := by
  obtain ⟨chains,holds,home⟩ := linked.hashed
  have fits : (chains h).length < n + 1 := by
    have bound := (holds.nodup h).length_le_card
    rw [Fintype.card_fin] at bound
    omega
  rw [chain,holds.items_eq h (n + 1) fits]
  exact home i h

theorem names_iff (s : Cache n) (dev : Dev) (blkno : Nat) (i : Fin n) : names s dev blkno i = true ↔
    (s.buf i).bBlkno = blkno ∧ (s.buf i).bDev = dev ∧ (s.buf i).flags.bInval = false := by
  simp [names,and_assoc]

variable {blkno : Nat} {i : Fin n}

theorem Linked.lookup_some (linked : Linked s bucket) {dev : Dev}
    (found : lookup s dev blkno = some i) : bucket i = bufhash dev blkno ∧ names s dev blkno i = true :=
  ⟨(linked.chain_eq _ i).mp (List.mem_of_find?_eq_some found),List.find?_some found⟩

theorem Linked.lookup_none (linked : Linked s bucket) {dev : Dev} (missed : lookup s dev blkno = none)
    (here : bucket i = bufhash dev blkno) : ¬ names s dev blkno i = true :=
  List.find?_eq_none.mp missed i ((linked.chain_eq _ i).mpr here)

theorem Linked.firstFree_some (linked : Linked s bucket) (found : firstFree s = some i) : (s.buf i).flags.bBusy = false := by
  obtain ⟨queues,holds,unlocked,free⟩ := linked.free
  rw [free i]
  have age := holds.forw_head_eq bqAge
  have lru := holds.forw_head_eq bqLru
  unfold firstFree at found
  cases first : queues bqAge with
  | cons j l =>
    rw [first] at age
    simp only [age] at found
    exact ⟨bqAge,by rw [first]; simp [Option.some.inj found]⟩
  | nil =>
    rw [first] at age
    simp only [age] at found
    cases second : queues bqLru with
    | cons j l =>
      rw [second] at lru
      simp only [lru] at found
      exact ⟨bqLru,by rw [second]; simp [Option.some.inj found]⟩
    | nil =>
      rw [second] at lru
      simp [lru] at found

theorem Linked.firstFree_none (linked : Linked s bucket) (missed : firstFree s = none) (i : Fin n) :
    (s.buf i).flags.bBusy = true := by
  obtain ⟨queues,holds,unlocked,free⟩ := linked.free
  have age := holds.forw_head_eq bqAge
  have lru := holds.forw_head_eq bqLru
  by_contra idle
  obtain ⟨q,member⟩ := (free i).mp (by simpa using idle)
  unfold firstFree at missed
  cases first : queues bqAge with
  | cons j l =>
    rw [first] at age
    simp [age] at missed
  | nil =>
    rw [first] at age
    simp only [age] at missed
    cases second : queues bqLru with
    | cons j l =>
      rw [second] at lru
      simp [lru] at missed
    | nil =>
      fin_cases q
      · exact absurd member (by rw [show ((⟨0,by decide⟩ : Fin 3)) = bqLocked from rfl,unlocked]; simp)
      · exact absurd member (by rw [show ((⟨1,by decide⟩ : Fin 3)) = bqLru from rfl,second]; simp)
      · exact absurd member (by rw [show ((⟨2,by decide⟩ : Fin 3)) = bqAge from rfl,first]; simp)

def taken (s : Cache n) (i : Fin n) : Cache n := (notavail s i).setFlags i (fun _ => {Flags.none with bBusy := true})

theorem taken_buf_self (s : Cache n) (i : Fin n) :
    (taken s i).buf i = (s.buf i).mark (fun _ => {Flags.none with bBusy := true}) := by
  rw [taken,setFlags_buf_self,notavail_buf_self]
  rfl

theorem taken_buf_other (s : Cache n) {j : Fin n} (other : j ≠ i) : (taken s i).buf j = s.buf j := by
  rw [taken,setFlags_buf_other _ _ other,notavail_buf_other s other]

theorem Linked.taken (linked : Linked s bucket) (idle : (s.buf i).flags.bBusy = false) : Linked (taken s i) bucket := by
  refine (linked.notavail idle).setFlags i ?_ ⟨rfl,rfl⟩
  rw [notavail_buf_self]
  rfl

def Flags.flushed (f : Flags) : Flags := ⟨false,true,false,false,false,true,false,false,f.bInval,f.bLocked⟩

structure Pushed (cfg : Config) (s t : Cache n) (i : Fin n) : Prop where
  idle : (s.buf i).flags.bBusy = false
  delayed : (s.buf i).flags.bDelwri = true
  frame : Frame s t i
  media : t.media = stored cfg s i
  buf : t.buf i = ((s.buf i).mark Flags.flushed).sized

theorem Pushed.written (pushed : Pushed cfg s t i) : Written cfg s t i := by
  refine ⟨pushed.frame,?_,?_,?_,?_,?_,?_,.inl ⟨pushed.media,?_⟩⟩ <;> rw [pushed.buf] <;> rfl

theorem push_spec (linked : Linked s bucket) (idle : (s.buf i).flags.bBusy = false)
    (delayed : (s.buf i).flags.bDelwri = true) (attached : major (s.buf i).bDev < cfg.nrdsk) :
    ∃ t, bwrite cfg ((notavail s i).setFlags i (fun f => {f with bAsync := true})) i = .ok t ∧ Linked t bucket ∧
    Pushed cfg s t i := by
  generalize start : (notavail s i).setFlags i (fun f => {f with bAsync := true}) = u
  have prepared : u.buf i = (s.buf i).mark (fun f => {f with bBusy := true,bAsync := true}) := by
    rw [← start,setFlags_buf_self,notavail_buf_self]
    rfl
  have ready : Linked u bucket := by
    rw [← start]
    refine (linked.notavail idle).setFlags i rfl ?_
    exact (linked.notavail idle).plain i
  have frame : Frame s u i := by
    rw [← start]
    exact ⟨fun j other => by rw [setFlags_buf_other _ _ other,notavail_buf_other s other],rfl⟩
  have media : u.media = s.media := by rw [← start]; rfl
  obtain ⟨t,done,after,kept,blocks,content⟩ :=
    @bwrite_spec n cfg u bucket i ready (by rw [prepared]; rfl) (by rw [prepared]; exact attached)
  refine ⟨t,done,after,idle,delayed,frame.trans kept,?_,?_⟩
  · rw [blocks]
    refine stored_congr ?_ ?_ ?_ media frame.dflags <;> rw [prepared] <;> rfl
  rw [content,prepared]
  simp [Buf.mark,Buf.sized,Flags.cleaned,Flags.flushed,delayed]

def pending (s : Cache n) : Nat := (Finset.univ.filter (fun i => (s.buf i).flags.bDelwri = true)).card

theorem pending_le (s : Cache n) : pending s ≤ n := by
  have bound := card_filter_le (Finset.univ : Finset (Fin n)) (fun i => (s.buf i).flags.bDelwri = true)
  simpa [pending] using bound

theorem pending_lt (before : (s.buf i).flags.bDelwri = true) (after : (t.buf i).flags.bDelwri = false)
    (others : ∀ j, j ≠ i → t.buf j = s.buf j) : pending t < pending s := by
  refine Finset.card_lt_card (Finset.ssubset_iff_subset_ne.mpr ⟨?_,?_⟩)
  · intro j member
    simp only [Finset.mem_filter,Finset.mem_univ,true_and] at member ⊢
    by_cases same : j = i
    · rw [same]
      exact before
    · rwa [others j same] at member
  · intro equal
    have member : i ∈ Finset.univ.filter (fun i => (t.buf i).flags.bDelwri = true) := by
      rw [equal]
      simp [before]
    simp [after] at member

theorem newbufTurn_cases (linked : Linked s bucket)
    (attached : ∀ i, (s.buf i).flags.bDelwri = true → major (s.buf i).bDev < cfg.nrdsk) :
    (newbufTurn cfg s = .ok (.empty {s with wanted := true}) ∧ ∀ i, (s.buf i).flags.bBusy = true) ∨
    (∃ t i, newbufTurn cfg s = .ok (.pushed t) ∧ Linked t bucket ∧ Pushed cfg s t i) ∨
    ∃ i, newbufTurn cfg s = .ok (.found (taken s i) i) ∧ (s.buf i).flags.bBusy = false ∧ (s.buf i).flags.bDelwri = false := by
  unfold newbufTurn
  cases found : firstFree s with
  | none => exact .inl ⟨rfl,linked.firstFree_none found⟩
  | some i =>
    have idle := linked.firstFree_some found
    have flag : ((notavail s i).buf i).flags.bDelwri = (s.buf i).flags.bDelwri := by rw [notavail_buf_self]; rfl
    refine .inr ?_
    by_cases delayed : (s.buf i).flags.bDelwri = true
    · obtain ⟨t,done,after,pushed⟩ := push_spec linked idle delayed (attached i delayed)
      refine .inl ⟨t,i,?_,after,pushed⟩
      simp only [flag,delayed,if_true,bawrite,done,bind,Except.bind]
      rfl
    · refine .inr ⟨i,?_,idle,by simpa using delayed⟩
      simp only [flag,delayed]
      rfl

variable {P : Cache n → Prop}

theorem getnewbuf_rule (linked : Linked s bucket) (start : P s)
    (attached : ∀ s, P s → ∀ i, (s.buf i).flags.bDelwri = true → major (s.buf i).bDev < cfg.nrdsk)
    (keeps : ∀ s t i, Linked s bucket → P s → Linked t bucket → Pushed cfg s t i → P t) :
    (∃ t i, getnewbuf cfg s = .ok (taken t i,i) ∧ Linked t bucket ∧ P t ∧ (t.buf i).flags.bBusy = false ∧
    (t.buf i).flags.bDelwri = false) ∨
    (getnewbuf cfg s = .error (.sleeping .bfreelist) ∧ ∃ t, Linked t bucket ∧ P t ∧ ∀ i, (t.buf i).flags.bBusy = true) := by
  have loop : ∀ fuel s, pending s < fuel → Linked s bucket → P s →
      (∃ t i, newbufLoop cfg fuel s = .ok (taken t i,i) ∧ Linked t bucket ∧ P t ∧ (t.buf i).flags.bBusy = false ∧
        (t.buf i).flags.bDelwri = false) ∨
      (newbufLoop cfg fuel s = .error (.sleeping .bfreelist) ∧ ∃ t, Linked t bucket ∧ P t ∧ ∀ i,
      (t.buf i).flags.bBusy = true) := by
    intro fuel
    induction fuel with
    | zero => intro s enough; omega
    | succ fuel ih =>
      intro s enough linked holds
      rcases newbufTurn_cases linked (attached s holds) with ⟨turn,all⟩ | ⟨t,i,turn,after,pushed⟩ | ⟨i,turn,idle,clean⟩
      · refine .inr ⟨?_,s,linked,holds,all⟩
        simp only [newbufLoop,turn,bind,Except.bind]
      · have fewer : pending t < pending s := by
          refine pending_lt pushed.delayed ?_ pushed.frame.others
          rw [pushed.buf,Buf.sized,Buf.mark,Flags.flushed]
        have rest := ih t (by omega) after (keeps s t i linked holds after pushed)
        simp only [newbufLoop,turn,bind,Except.bind]
        exact rest
      · refine .inl ⟨s,i,?_,linked,holds,idle,clean⟩
        simp only [newbufLoop,turn,bind,Except.bind]
  exact loop (n + 1) s (Nat.lt_succ_of_le (pending_le s)) linked start

theorem assign_buf_self (s : Cache n) (i : Fin n) (h : Bucket) (label : Buf → Buf) :
    (assign s i h label).buf i = {label {s.buf i with bBcount := 0} with bError := 0} := by
  simp only [assign,modify_buf_self]

theorem assign_buf_other (s : Cache n) {j : Fin n} (h : Bucket) (label : Buf → Buf) (other : j ≠ i) :
    (assign s i h label).buf j = s.buf j := by
  simp only [assign,modify_buf_other _ _ other]

theorem Linked.assign (linked : Linked s bucket) (i : Fin n) (h : Bucket) {label : Buf → Buf}
    (flags : ∀ b, (label b).flags = b.flags) : Linked (assign s i h label) (update bucket i h) := by
  obtain ⟨queues,holds,unlocked,free⟩ := linked.free
  obtain ⟨chains,chained,home⟩ := linked.hashed
  have member : i ∈ chains (bucket i) := (home i _).mpr rfl
  have once : ∀ g, i ∉ update chains (bucket i) ((chains (bucket i)).erase i) g := by
    intro g present
    by_cases same : g = bucket i
    · subst g
      rw [update_self] at present
      exact ((chained.nodup _).mem_erase_iff.mp present).1 rfl
    · rw [update_of_ne same] at present
      exact same ((home i g).mp present).symm
  have buffers : ∀ j, ((BufferCache.assign s i h label).buf j).flags = (s.buf j).flags := by
    intro j
    by_cases same : j = i
    · subst j
      rw [assign_buf_self,flags]
    · rw [assign_buf_other s h label same]
  refine ⟨⟨queues,holds,unlocked,fun j => by rw [buffers]; exact free j⟩,
    ⟨_,(chained.unlink member).insertAfter once,?_⟩,fun j => by rw [buffers]; exact linked.plain j⟩
  intro j g
  by_cases same : j = i
  · subst j
    rw [update_self]
    by_cases here : g = h
    · subst g
      simp
    rw [update_of_ne here]
    exact ⟨fun present => absurd present (once g),fun equal => absurd equal.symm here⟩
  rw [update_of_ne same]
  have erased : ∀ g, j ∈ update chains (bucket i) ((chains (bucket i)).erase i) g ↔ bucket j = g := by
    intro g
    by_cases there : g = bucket i
    · subst g
      rw [update_self,(chained.nodup _).mem_erase_iff,home]
      exact ⟨fun both => both.2,fun equal => ⟨same,equal⟩⟩
    · rw [update_of_ne there]
      exact home j g
  by_cases here : g = h
  · subst g
    rw [update_self,List.mem_cons,erased]
    simp [same]
  · rw [update_of_ne here]
    exact erased g

theorem assignBlock_buf_self (s : Cache n) (i : Fin n) (dev : Dev) (blkno : Nat) : (assignBlock (taken s i) i dev blkno).buf i =
      {s.buf i with flags := {Flags.none with bBusy := true},bBcount := 0,bDev := dev,bBlkno := blkno,bError := 0} := by
  rw [assignBlock,assign_buf_self,taken_buf_self]
  rfl

theorem assignBlock_buf_other (s : Cache n) {dev : Dev} (j : Fin n) (other : j ≠ i) :
    (assignBlock (taken s i) i dev blkno).buf j = s.buf j := by
  rw [assignBlock,assign_buf_other _ _ _ other,taken_buf_other s other]

/-- The three ways in which `getblk` ends: with the buffer of the block, asleep
because it is busy or no buffer is free, or with a buffer newly labelled. -/
theorem getblk_cases (linked : Linked s bucket) (start : P s) {dev : Dev} (known : major dev < cfg.nblkdev)
    (attached : ∀ s, P s → ∀ i, (s.buf i).flags.bDelwri = true → major (s.buf i).bDev < cfg.nrdsk)
    (keeps : ∀ s t i, Linked s bucket → P s → Linked t bucket → Pushed cfg s t i → P t) :
    (∃ i, lookup s dev blkno = some i ∧ (s.buf i).flags.bBusy = false ∧ getblk cfg s dev blkno = .ok (notavail s i,i)) ∨
    (∃ i, lookup s dev blkno = some i ∧ (s.buf i).flags.bBusy = true ∧ getblk cfg s dev blkno = .error (.sleeping (.buf i))) ∨
    (∃ t i, lookup s dev blkno = none ∧ getblk cfg s dev blkno = .ok (assignBlock (taken t i) i dev blkno,i) ∧
      Linked t bucket ∧ P t ∧ (t.buf i).flags.bBusy = false ∧ (t.buf i).flags.bDelwri = false) ∨
    (lookup s dev blkno = none ∧ getblk cfg s dev blkno = .error (.sleeping .bfreelist) ∧
      ∃ t, Linked t bucket ∧ P t ∧ ∀ i, (t.buf i).flags.bBusy = true) := by
  unfold getblk
  rw [if_neg (not_le.mpr known)]
  cases found : lookup s dev blkno with
  | some i =>
    by_cases busy : (s.buf i).flags.bBusy = true
    · exact .inr (.inl ⟨i,rfl,busy,by simp [busy]⟩)
    · exact .inl ⟨i,rfl,by simpa using busy,by simp [busy]⟩
  | none =>
    refine .inr (.inr ?_)
    rcases getnewbuf_rule linked start attached keeps with ⟨t,i,done,after,holds,idle,clean⟩ | ⟨failed,all⟩
    · refine .inl ⟨t,i,rfl,?_,after,holds,idle,clean⟩
      simp only [done,bind,Except.bind]
      rfl
    · refine .inr ⟨rfl,?_,all⟩
      simp only [failed,bind,Except.bind]

theorem Linked.queue_eq (linked : Linked s bucket) :
    (s.buf i).flags.bBusy = false ↔ i ∈ queue s bqLocked ++ queue s bqLru ++ queue s bqAge := by
  obtain ⟨queues,holds,unlocked,free⟩ := linked.free
  have all : ∀ q, queue s q = queues q := by
    intro q
    have bound := (holds.nodup q).length_le_card
    rw [Fintype.card_fin] at bound
    exact holds.items_eq q (n + 1) (Nat.lt_succ_of_le bound)
  simp only [all,List.mem_append,free]
  constructor
  · rintro ⟨q,member⟩
    fin_cases q
    · exact .inl (.inl member)
    · exact .inl (.inr member)
    · exact .inr member
  · rintro ((member | member) | member)
    · exact ⟨_,member⟩
    · exact ⟨_,member⟩
    · exact ⟨_,member⟩

theorem notavail_setFlags (s : Cache n) (i : Fin n) : notavail (s.setFlags i (fun f => {f with bAsync := true})) i =
    (notavail s i).setFlags i (fun f => {f with bAsync := true}) := by
  simp [notavail,Cache.setFlags,Cache.modify]

theorem bflush_rule (linked : Linked s bucket) (start : P s) (dev : Dev)
    (attached : ∀ s, P s → ∀ i, (s.buf i).flags.bDelwri = true → major (s.buf i).bDev < cfg.nrdsk)
    (keeps : ∀ s t i, Linked s bucket → P s → Linked t bucket → Pushed cfg s t i → P t) :
    ∃ t, bflush cfg s dev = .ok t ∧ Linked t bucket ∧ P t ∧
      ∀ i, (t.buf i).flags.bBusy = false → (t.buf i).bDev = dev → (t.buf i).flags.bDelwri = false := by
  have loop : ∀ fuel s, pending s < fuel → Linked s bucket → P s → ∃ t, bflushLoop cfg dev fuel s = .ok t ∧
    Linked t bucket ∧ P t ∧
        ∀ i, (t.buf i).flags.bBusy = false → (t.buf i).bDev = dev → (t.buf i).flags.bDelwri = false := by
    intro fuel
    induction fuel with
    | zero => intro s enough; omega
    | succ fuel ih =>
      intro s enough linked holds
      unfold bflushLoop
      cases found : delayed s dev with
      | none =>
        refine ⟨s,rfl,linked,holds,fun i idle same => ?_⟩
        have clean := List.find?_eq_none.mp found i (linked.queue_eq.mp idle)
        simpa [same] using clean
      | some i =>
        have idle := linked.queue_eq.mpr (List.mem_of_find?_eq_some found)
        have flags : (s.buf i).flags.bDelwri = true ∧ dev = (s.buf i).bDev := by simpa using List.find?_some found
        obtain ⟨t,done,after,pushed⟩ := push_spec linked idle flags.1 (attached s holds i flags.1)
        have fewer : pending t < pending s := by
          refine pending_lt pushed.delayed ?_ pushed.frame.others
          rw [pushed.buf,Buf.sized,Buf.mark,Flags.flushed]
        simp only [notavail_setFlags,done,bind,Except.bind]
        exact ih t (by omega) after (keeps s t i linked holds after pushed)
  exact loop (n + 1) s (Nat.lt_succ_of_le (pending_le s)) linked start

end Retrobsd.BufferCache

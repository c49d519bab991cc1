import Retrobsd.BufferCache

/-! What the elementary operations on buffers do to the free lists and the hash
chains, and to the buffer that they are given. Everything else stays as it is. -/
namespace Retrobsd.BufferCache
open Function
open Lib.Rings

variable {n : Nat} {cfg : Config}

/-- A buffer that is not busy is on one free list, and no other buffer is; every
buffer is on the hash chain that `bucket` names. Nothing is locked or in error. -/
structure Linked (s : Cache n) (bucket : Fin n → Bucket) : Prop where
  free : ∃ queues, Holds s.av queues ∧ queues bqLocked = [] ∧ ∀ i, (s.buf i).flags.bBusy = false ↔ ∃ q, i ∈ queues q
  hashed : ∃ chains, Holds s.hash chains ∧ ∀ i h, i ∈ chains h ↔ bucket i = h
  plain : ∀ i, (s.buf i).flags.bError = false ∧ (s.buf i).flags.bLocked = false

variable {s t : Cache n} {bucket : Fin n → Bucket}

theorem Linked.congr (linked : Linked s bucket) (av : t.av = s.av) (hash : t.hash = s.hash)
    (busy : ∀ i, (t.buf i).flags.bBusy = (s.buf i).flags.bBusy)
    (plain : ∀ i, (t.buf i).flags.bError = false ∧ (t.buf i).flags.bLocked = false) : Linked t bucket := by
  obtain ⟨queues,holds,unlocked,free⟩ := linked.free
  obtain ⟨chains,chained,home⟩ := linked.hashed
  exact ⟨⟨queues,av ▸ holds,unlocked,fun i => by rw [busy i]; exact free i⟩,⟨chains,hash ▸ chained,home⟩,plain⟩

@[simp] theorem modify_buf_self (s : Cache n) (i : Fin n) (f : Buf → Buf) : (s.modify i f).buf i = f (s.buf i) := by
  simp [Cache.modify]

variable {i : Fin n}

theorem modify_buf_other (s : Cache n) {j : Fin n} (f : Buf → Buf) (other : j ≠ i) : (s.modify i f).buf j = s.buf j := by
  simp [Cache.modify,other]

theorem Linked.modify (linked : Linked s bucket) (i : Fin n) {f : Buf → Buf}
    (busy : (f (s.buf i)).flags.bBusy = (s.buf i).flags.bBusy)
    (plain : (f (s.buf i)).flags.bError = false ∧ (f (s.buf i)).flags.bLocked = false) :
    Linked (s.modify i f) bucket := by
  refine linked.congr rfl rfl ?_ ?_
  · intro j
    by_cases same : j = i
    · subst j
      rw [modify_buf_self,busy]
    · rw [modify_buf_other s f same]
  intro j
  by_cases same : j = i
  · subst j
    rw [modify_buf_self]
    exact plain
  · rw [modify_buf_other s f same]
    exact linked.plain j

def Buf.mark (b : Buf) (f : Flags → Flags) : Buf := {b with flags := f b.flags}

theorem setFlags_buf_self (s : Cache n) (i : Fin n) (f : Flags → Flags) :
    (s.setFlags i f).buf i = (s.buf i).mark f := modify_buf_self _ _ _

theorem setFlags_buf_other (s : Cache n) {j : Fin n} (f : Flags → Flags) (other : j ≠ i) :
    (s.setFlags i f).buf j = s.buf j := modify_buf_other _ _ other

theorem Linked.setFlags (linked : Linked s bucket) (i : Fin n) {f : Flags → Flags}
    (busy : (f (s.buf i).flags).bBusy = (s.buf i).flags.bBusy)
    (plain : (f (s.buf i).flags).bError = false ∧ (f (s.buf i).flags).bLocked = false) :
    Linked (s.setFlags i f) bucket := linked.modify i busy plain

variable {queues : Queue → List (Fin n)}

theorem mem_update_erase {q : Queue} (distinct : ∀ q, (queues q).Nodup)
    (once : ∀ q', i ∈ queues q' → q' = q) (j : Fin n) :
    (∃ q', j ∈ update queues q ((queues q).erase i) q') ↔ j ≠ i ∧ ∃ q', j ∈ queues q' := by
  constructor
  · rintro ⟨q',present⟩
    by_cases same : q' = q
    · subst q'
      rw [update_self,(distinct q).mem_erase_iff] at present
      exact ⟨present.1,q,present.2⟩
    · rw [update_of_ne same] at present
      exact ⟨fun equal => same (once q' (equal ▸ present)),q',present⟩
  rintro ⟨other,q',present⟩
  refine ⟨q',?_⟩
  by_cases same : q' = q
  · subst q'
    rw [update_self,(distinct q).mem_erase_iff]
    exact ⟨other,present⟩
  · rw [update_of_ne same]
    exact present

theorem notavail_buf_self (s : Cache n) (i : Fin n) :
    (notavail s i).buf i = (s.buf i).mark (fun f => {f with bBusy := true}) := by
  simp [notavail,setFlags_buf_self]

theorem notavail_buf_other (s : Cache n) {j : Fin n} (other : j ≠ i) : (notavail s i).buf j = s.buf j := by
  simp [notavail,Cache.setFlags,Cache.modify,other]

theorem Linked.notavail (linked : Linked s bucket) (idle : (s.buf i).flags.bBusy = false) : Linked (notavail s i) bucket := by
  obtain ⟨queues,holds,unlocked,free⟩ := linked.free
  obtain ⟨q,member⟩ := (free i).mp idle
  have once : ∀ q', i ∈ queues q' → q' = q := fun q' present => holds.disjoint q' q i present member
  refine ⟨⟨_,holds.unlink member,?_,?_⟩,linked.hashed,?_⟩
  · by_cases first : bqLocked = q
    · subst first
      rw [unlocked] at member
      cases member
    · rw [update_of_ne first,unlocked]
  · intro j
    rw [mem_update_erase holds.nodup once]
    by_cases same : j = i
    · subst j
      simp [notavail_buf_self,Buf.mark]
    rw [notavail_buf_other s same,free j]
    simp [same]
  · intro j
    by_cases same : j = i
    · subst j
      rw [notavail_buf_self]
      exact linked.plain i
    · rw [notavail_buf_other s same]
      exact linked.plain j

theorem mem_update_insert {q : Queue} {l : List (Fin n)}
    (order : l.Perm (i :: queues q)) (j : Fin n) :
    (∃ q', j ∈ update queues q l q') ↔ j = i ∨ ∃ q', j ∈ queues q' := by
  constructor
  · rintro ⟨q',present⟩
    by_cases same : q' = q
    · subst q'
      rw [update_self,order.mem_iff,List.mem_cons] at present
      exact present.imp_right fun old => ⟨q,old⟩
    · rw [update_of_ne same] at present
      exact Or.inr ⟨q',present⟩
  rintro (rfl | ⟨q',present⟩)
  · exact ⟨q,by rw [update_self,order.mem_iff]; simp⟩
  refine ⟨q',?_⟩
  by_cases same : q' = q
  · subst q'
    rw [update_self,order.mem_iff]
    exact List.mem_cons_of_mem _ present
  · rw [update_of_ne same]
    exact present

theorem freeQueue_ne_locked {f : Flags} (unlocked : f.bLocked = false) : (freeQueue f).1 ≠ bqLocked := by
  unfold freeQueue
  simp only [unlocked]
  split_ifs <;> simp_all [bqLocked,bqAge,bqLru]

theorem brelseWakeup_eq (s : Cache n) (i : Fin n) : ∃ wanted woken, brelseWakeup s i = {s with wanted,woken} := by
  unfold brelseWakeup Cache.wakeup
  by_cases waits : (s.buf i).flags.bWanted = true <;> by_cases any : s.wanted = true <;>
    simp only [waits,any,if_true,if_false,Bool.false_eq_true] <;> exact ⟨_,_,rfl⟩

theorem brelseError_plain {b : Buf} (plain : b.flags.bError = false) : brelseError b = b := by
  simp [brelseError,plain]

def Flags.released (f : Flags) : Flags := {f with bWanted := false,bBusy := false,bAsync := false,bAge := false}

structure Frame (s t : Cache n) (i : Fin n) : Prop where
  others : ∀ j, j ≠ i → t.buf j = s.buf j
  dflags : t.dflags = s.dflags

theorem Frame.trans {u : Cache n} (first : Frame s t i) (second : Frame t u i) : Frame s u i :=
  ⟨fun j other => (second.others j other).trans (first.others j other),second.dflags.trans first.dflags⟩

theorem Frame.modify (s : Cache n) (i : Fin n) (f : Buf → Buf) :
    Frame s (s.modify i f) i := ⟨fun _ other => modify_buf_other s f other,rfl⟩

theorem brelse_links (holds : Holds s.av queues) (fresh : ∀ q, i ∉ queues q)
    (plain : (s.buf i).flags.bError = false) :
    ∃ wanted woken av l, brelse s i = ({s with wanted,woken,av} : Cache n).modify i
        (fun b => b.mark Flags.released) ∧ l.Perm (i :: queues (freeQueue (s.buf i).flags).1) ∧
      Holds av (update queues (freeQueue (s.buf i).flags).1 l) := by
  obtain ⟨wanted,woken,awake⟩ := brelseWakeup_eq s i
  have same : (brelseWakeup s i).modify i brelseError = {s with wanted,woken} := by
    rw [awake,Cache.modify]
    simp [brelseError_plain plain]
  have placed : ∃ av l, putFree ({s with wanted,woken} : Cache n) i =
      {s with wanted,woken,av} ∧ l.Perm (i :: queues (freeQueue (s.buf i).flags).1) ∧
      Holds av (update queues (freeQueue (s.buf i).flags).1 l) := by
    unfold putFree
    rcases choice : freeQueue (s.buf i).flags with ⟨q,front⟩
    cases front with
    | true => exact ⟨_,_,rfl,List.Perm.refl _,holds.insertHead fresh⟩
    | false => exact ⟨_,_,rfl,List.perm_append_singleton _ _,holds.insertBefore fresh⟩
  obtain ⟨av,l,put,order,rings⟩ := placed
  refine ⟨wanted,woken,av,l,?_,order,rings⟩
  simp only [brelse,same,put]
  rfl

section
variable (linked : Linked s bucket)
include linked

theorem brelse_spec (busy : (s.buf i).flags.bBusy = true) :
    Linked (brelse s i) bucket ∧ (brelse s i).buf i = (s.buf i).mark Flags.released ∧ Frame s (brelse s i) i ∧
    (brelse s i).media = s.media := by
  obtain ⟨queues,holds,unlocked,free⟩ := linked.free
  have fresh : ∀ q, i ∉ queues q := by
    intro q present
    have idle := (free i).mpr ⟨q,present⟩
    rw [busy] at idle
    cases idle
  have away := freeQueue_ne_locked (linked.plain i).2
  obtain ⟨wanted,woken,av,l,whole,order,rings⟩ := brelse_links holds fresh (linked.plain i).1
  rw [whole]
  refine ⟨⟨⟨_,rings,?_,?_⟩,linked.hashed,?_⟩,modify_buf_self _ _ _,⟨fun j other => modify_buf_other _ _ other,rfl⟩,rfl⟩
  · rw [update_of_ne (Ne.symm away),unlocked]
  · intro j
    rw [mem_update_insert order]
    by_cases same : j = i
    · subst j
      simp [Buf.mark,Flags.released]
    rw [modify_buf_other _ _ same]
    simpa [same] using free j
  · intro j
    by_cases same : j = i
    · subst j
      rw [modify_buf_self]
      exact linked.plain i
    · rw [modify_buf_other _ _ same]
      exact linked.plain j

def Flags.completed (f : Flags) : Flags :=
  if f.bAsync then {f with bDone := true}.released else {f with bDone := true,bWanted := false}

theorem biodone_spec (busy : (s.buf i).flags.bBusy = true) (running : (s.buf i).flags.bDone = false) :
    ∃ t, biodone s i = .ok t ∧ Linked t bucket ∧ t.buf i = (s.buf i).mark Flags.completed ∧ Frame s t i ∧ t.media = s.media := by
  have done : Linked (s.setFlags i (fun f => {f with bDone := true})) bucket := linked.setFlags i rfl (linked.plain i)
  generalize start : s.setFlags i (fun f => {f with bDone := true}) = u at done
  have marked : u.buf i = (s.buf i).mark (fun f => {f with bDone := true}) := by rw [← start,setFlags_buf_self]
  have frame : Frame s u i := start ▸ Frame.modify s i _
  have media : u.media = s.media := by rw [← start]; rfl
  unfold biodone
  rw [if_neg (by simp [running]),start]
  by_cases async : (s.buf i).flags.bAsync = true
  · obtain ⟨after,content,kept,same⟩ := brelse_spec done (i := i) (by rw [marked]; exact busy)
    refine ⟨_,if_pos (by rw [marked]; exact async),after,?_,frame.trans kept,same.trans media⟩
    rw [content,marked]
    simp [Buf.mark,Flags.completed,async]
  have after : Linked (u.setFlags i (fun f => {f with bWanted := false})) bucket := done.setFlags i rfl (done.plain i)
  refine ⟨_,if_neg (by rw [marked]; exact async),after.congr rfl rfl (fun _ => rfl) after.plain,?_,
    frame.trans ⟨fun j other => setFlags_buf_other u (fun f => {f with bWanted := false}) other,rfl⟩,media⟩
  show (u.setFlags i (fun f => {f with bWanted := false})).buf i = _
  rw [setFlags_buf_self,marked]
  simp [Buf.mark,Flags.completed,async]

def onDisk (s : Cache n) (dev : Dev) (blkno : Nat) : Block := s.media (major dev) (offset s dev blkno)

def stored (cfg : Config) (s : Cache n) (i : Fin n) : Nat → Nat → Block :=
  let b := s.buf i
  if cfg.readonly (major b.bDev) then s.media
  else update s.media (major b.bDev) (update (s.media (major b.bDev)) (offset s b.bDev b.bBlkno) b.data)

theorem rdstrategy_read (busy : (s.buf i).flags.bBusy = true)
    (running : (s.buf i).flags.bDone = false) (reading : (s.buf i).flags.bRead = true)
    (attached : major (s.buf i).bDev < cfg.nrdsk) :
    ∃ t, rdstrategy cfg s i = .ok t ∧ Linked t bucket ∧ Frame s t i ∧ t.media = s.media ∧
      t.buf i = {(s.buf i).mark Flags.completed with data := onDisk s (s.buf i).bDev (s.buf i).bBlkno} := by
  have moved : Linked (s.modify i (fun b => {b with data := s.media (major (s.buf i).bDev) (offset s b.bDev b.bBlkno)}))
      bucket := linked.modify i rfl (linked.plain i)
  obtain ⟨t,ended,after,content,frame,media⟩ := biodone_spec moved (i := i) (by rw [modify_buf_self]; exact busy)
    (by rw [modify_buf_self]; exact running)
  refine ⟨t,?_,after,(Frame.modify s i _).trans frame,media,?_⟩
  · rw [rdstrategy]
    simp only [ge_iff_le,not_le.mpr attached,if_false,reading,if_true]
    exact ended
  · rw [content,modify_buf_self]
    rfl

theorem rdstrategy_write (busy : (s.buf i).flags.bBusy = true)
    (running : (s.buf i).flags.bDone = false) (writing : (s.buf i).flags.bRead = false)
    (attached : major (s.buf i).bDev < cfg.nrdsk) :
    ∃ t, rdstrategy cfg s i = .ok t ∧ Linked t bucket ∧ Frame s t i ∧ t.media = stored cfg s i ∧
    t.buf i = (s.buf i).mark Flags.completed := by
  have moved : Linked {s with media := stored cfg s i} bucket := linked.congr rfl rfl (fun _ => rfl) linked.plain
  obtain ⟨t,ended,after,content,frame,media⟩ := biodone_spec moved busy running
  refine ⟨t,?_,after,⟨frame.others,frame.dflags⟩,media,content⟩
  rw [rdstrategy]
  simp only [ge_iff_le,not_le.mpr attached,if_false,writing,Bool.false_eq_true]
  simp only [stored] at ended
  split_ifs at ended ⊢ <;> exact ended

theorem biowait_done (done : (s.buf i).flags.bDone = true) :
    ∃ t, biowait s i = .ok t ∧ Linked t bucket ∧ t.buf = s.buf ∧ t.dflags = s.dflags ∧ t.media = s.media := by
  unfold biowait
  rw [if_pos done]
  split_ifs
  · exact ⟨_,rfl,linked.congr rfl rfl (fun _ => rfl) linked.plain,rfl,rfl,rfl⟩
  · exact ⟨_,rfl,linked,rfl,rfl,rfl⟩

def Flags.cleaned (f : Flags) : Flags := ⟨false,true,false,false,false,f.bAsync && f.bDelwri,false,false,f.bInval,f.bLocked⟩

def Buf.sized (b : Buf) : Buf := {b with bBcount := devBsize}

theorem bwrite_spec (busy : (s.buf i).flags.bBusy = true) (attached : major (s.buf i).bDev < cfg.nrdsk) :
    ∃ t, bwrite cfg s i = .ok t ∧ Linked t bucket ∧ Frame s t i ∧ t.media = stored cfg s i ∧
    t.buf i = ((s.buf i).mark Flags.cleaned).sized := by
  generalize start : s.modify i (fun b => {b with
    flags := {b.flags with bRead := false,bDone := false,bError := false,bDelwri := false}
    bBcount := devBsize}) = u
  have ready : Linked u bucket := start ▸ linked.modify i rfl ⟨rfl,(linked.plain i).2⟩
  have prepared : u.buf i = ((s.buf i).mark (fun f =>
      {f with bRead := false,bDone := false,bError := false,bDelwri := false})).sized := by
    rw [← start,modify_buf_self]
    rfl
  have frame : Frame s u i := start ▸ Frame.modify s i _
  have same : stored cfg u i = stored cfg s i := by
    simp only [stored,prepared]
    rw [← start]
    rfl
  obtain ⟨t,moved,after,kept,media,content⟩ := @rdstrategy_write n cfg u bucket i ready (by rw [prepared]; exact busy)
    (by rw [prepared]; rfl) (by rw [prepared]; rfl) (by rw [prepared]; exact attached)
  rw [prepared] at content
  rw [same] at media
  unfold bwrite
  simp only [start,moved,bind,Except.bind]
  by_cases async : (s.buf i).flags.bAsync = true
  · simp only [async,Bool.not_true,Bool.false_eq_true,if_false]
    by_cases delayed : (s.buf i).flags.bDelwri = true
    · rw [if_pos delayed]
      refine ⟨_,rfl,after.setFlags i rfl (after.plain i),(frame.trans kept).trans (Frame.modify t i _),media,?_⟩
      rw [setFlags_buf_self,content]
      simp [Buf.mark,Buf.sized,Flags.completed,Flags.cleaned,Flags.released,async,delayed]
    rw [if_neg delayed]
    refine ⟨t,rfl,after,frame.trans kept,media,?_⟩
    rw [content]
    simp only [Bool.not_eq_true] at delayed
    simp [Buf.mark,Buf.sized,Flags.completed,Flags.cleaned,Flags.released,async,delayed]
  simp only [async,Bool.not_false,if_true]
  have done : (t.buf i).flags.bDone = true := by
    rw [content]
    simp [Buf.mark,Buf.sized,Flags.completed,async]
  obtain ⟨w,waited,settled,bufs,flags,blocks⟩ := biowait_done after done
  have still : (w.buf i).flags.bBusy = true := by
    rw [bufs,content]
    simp [Buf.mark,Buf.sized,Flags.completed,async,busy]
  obtain ⟨final,freed,rest,disks⟩ := brelse_spec settled still
  refine ⟨brelse w i,?_,final,?_,disks.trans (blocks.trans media),?_⟩
  · simp only [waited]
    rfl
  · refine (frame.trans kept).trans ⟨fun j other => ?_,rest.dflags.trans flags⟩
    rw [rest.others j other,bufs]
  · rw [freed,bufs,content]
    simp only [Bool.not_eq_true] at async
    simp [Buf.mark,Buf.sized,Flags.completed,Flags.cleaned,Flags.released,async]

end

theorem stored_congr (dev : (t.buf i).bDev = (s.buf i).bDev) (blkno : (t.buf i).bBlkno = (s.buf i).bBlkno)
    (data : (t.buf i).data = (s.buf i).data) (media : t.media = s.media) (dflags : t.dflags = s.dflags) :
    stored cfg t i = stored cfg s i := by
  simp only [stored,offset,dev,blkno,data,media,dflags]

abbrev Label := Dev × Nat

def Buf.label (b : Buf) : Label := (b.bDev,b.bBlkno)

/-- The effect of a write: the buffer is free, and the block is on disk unless the
write is delayed. -/
structure Written (cfg : Config) (s t : Cache n) (i : Fin n) : Prop where
  frame : Frame s t i
  label : (t.buf i).label = (s.buf i).label
  inval : (t.buf i).flags.bInval = (s.buf i).flags.bInval
  data : (t.buf i).data = (s.buf i).data
  idle : (t.buf i).flags.bBusy = false
  quiet : (t.buf i).flags.bAsync = false
  done : (t.buf i).flags.bDone = true
  disk : (t.media = stored cfg s i ∧ (t.buf i).flags.bDelwri = false) ∨ (t.media = s.media ∧ (t.buf i).flags.bDelwri = true)

theorem bwrite_written (linked : Linked s bucket) (busy : (s.buf i).flags.bBusy = true)
    (attached : major (s.buf i).bDev < cfg.nrdsk) : ∃ t, bwrite cfg s i = .ok t ∧ Linked t bucket ∧ Written cfg s t i := by
  obtain ⟨t,done,after,frame,media,content⟩ := bwrite_spec linked busy attached
  refine ⟨t,done,after,frame,?_,?_,?_,?_,?_,?_,Or.inl ⟨media,?_⟩⟩ <;> rw [content] <;> rfl

theorem bawrite_written (linked : Linked s bucket) (busy : (s.buf i).flags.bBusy = true)
    (attached : major (s.buf i).bDev < cfg.nrdsk) : ∃ t, bawrite cfg s i = .ok t ∧ Linked t bucket ∧ Written cfg s t i := by
  generalize start : s.setFlags i (fun f => {f with bAsync := true}) = u
  have content : u.buf i = (s.buf i).mark (fun f => {f with bAsync := true}) := by rw [← start,setFlags_buf_self]
  have first : Frame s u i := start ▸ Frame.modify s i _
  have ready : Linked u bucket := start ▸ linked.setFlags i rfl (linked.plain i)
  obtain ⟨t,done,after,second,media,result⟩ := @bwrite_spec n cfg u bucket i ready (by rw [content]; exact busy)
    (by rw [content]; exact attached)
  have same : stored cfg u i = stored cfg s i := by
    refine stored_congr ?_ ?_ ?_ (by rw [← start]; rfl) first.dflags <;> rw [content] <;> rfl
  rw [content] at result
  refine ⟨t,by rw [bawrite,start,done],after,first.trans second,?_,?_,?_,?_,?_,?_,Or.inl ⟨media.trans same,?_⟩⟩ <;>
    rw [result] <;> rfl

theorem bdwrite_written (linked : Linked s bucket) (busy : (s.buf i).flags.bBusy = true)
    (attached : major (s.buf i).bDev < cfg.nrdsk) : ∃ t, bdwrite cfg s i = .ok t ∧ Linked t bucket ∧ Written cfg s t i := by
  unfold bdwrite
  split_ifs
  · exact bawrite_written linked busy attached
  generalize start : s.setFlags i (fun f => {f with bDelwri := true,bDone := true}) = u
  have marked : u.buf i = (s.buf i).mark (fun f => {f with bDelwri := true,bDone := true}) := by
    rw [← start,setFlags_buf_self]
  have first : Frame s u i := start ▸ Frame.modify s i _
  have ready : Linked u bucket := start ▸ linked.setFlags i rfl (linked.plain i)
  obtain ⟨after,content,second,media⟩ := @brelse_spec n u bucket i ready (by rw [marked]; exact busy)
  rw [marked] at content
  refine ⟨_,rfl,after,first.trans second,?_,?_,?_,?_,?_,?_,Or.inr ⟨?_,?_⟩⟩ <;> try rw [content]
  · rfl
  · rfl
  · rfl
  · rfl
  · rfl
  · rfl
  · rw [media,← start]
    rfl
  · rfl

def Flags.fetched (async : Bool) (f : Flags) : Flags := Flags.completed {f with bRead := true,bAsync := f.bAsync || async}

theorem Flags.fetched_spec {f : Flags} (busy : f.bBusy = true) (quiet : f.bAsync = false) (async : Bool) :
    (f.fetched async).bBusy = !async ∧ (f.fetched async).bAsync = false ∧ (f.fetched async).bDone = true ∧
      (f.fetched async).bDelwri = f.bDelwri ∧ (f.fetched async).bInval = f.bInval := by
  cases async <;> simp [fetched,completed,released,busy,quiet]

theorem startRead_spec (linked : Linked s bucket) (busy : (s.buf i).flags.bBusy = true)
    (unread : (s.buf i).flags.bDone = false) (attached : major (s.buf i).bDev < cfg.nrdsk) (async : Bool) :
    ∃ t, startRead cfg s i async = .ok t ∧ Linked t bucket ∧ Frame s t i ∧ t.media = s.media ∧
      t.buf i = {((s.buf i).mark (Flags.fetched async)).sized with data := onDisk s (s.buf i).bDev (s.buf i).bBlkno} := by
  generalize start : s.modify i (fun b => {b with
    flags := {b.flags with bRead := true,bAsync := b.flags.bAsync || async},bBcount := devBsize}) = u
  have ready : Linked u bucket := start ▸ linked.modify i rfl (linked.plain i)
  have prepared : u.buf i = ((s.buf i).mark (fun f => {f with bRead := true,bAsync := f.bAsync || async})).sized := by
    rw [← start,modify_buf_self]
    rfl
  have frame : Frame s u i := start ▸ Frame.modify s i _
  have media : u.media = s.media := by rw [← start]; rfl
  obtain ⟨t,done,after,kept,disks,content⟩ := @rdstrategy_read n cfg u bucket i ready
    (by rw [prepared]; exact busy) (by rw [prepared]; exact unread) (by rw [prepared]; rfl) (by rw [prepared]; exact attached)
  refine ⟨t,by rw [startRead,start,done],after,frame.trans kept,disks.trans media,?_⟩
  rw [content,prepared]
  simp only [onDisk,offset,media,frame.dflags]
  rfl

end Retrobsd.BufferCache

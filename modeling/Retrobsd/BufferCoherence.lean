import Retrobsd.BufferIdentity
import Retrobsd.Lib.Run

/-! The buffer cache seen by a single thread of control. The cache stands for one
array of blocks, which the buffers with valid data and the disks hold together: a
delayed write keeps the only current copy of its block. -/
namespace Retrobsd.BufferCache
open Finset
open Function

variable {n : Nat} {cfg : Config} {s t : Cache n} {bucket : Fin n → Bucket} {i : Fin n}

def place (s : Cache n) (p : Label) : Nat × Nat := (major p.1,offset s p.1 p.2)

theorem place_congr (same : t.dflags = s.dflags) (p : Label) : place t p = place s p := by
  simp only [place,offset,same]

def blockAt (s : Cache n) (p : Label) : Block := s.media (place s p).1 (place s p).2

/-- Blocks of attached disks, which have four partitions, that can be written and
none of which overlap. -/
structure Usable (cfg : Config) (s : Cache n) (used : Set Label) : Prop where
  attached : ∀ p ∈ used, major p.1 < cfg.nrdsk
  partition : ∀ p ∈ used, minor p.1 ≤ 4
  writable : ∀ p ∈ used, cfg.readonly (major p.1) = false
  apart : Set.InjOn (place s) used

theorem Usable.congr {used : Set Label} (usable : Usable cfg s used) (same : t.dflags = s.dflags) : Usable cfg t used := by
  refine ⟨usable.attached,usable.partition,usable.writable,fun p here q there equal => ?_⟩
  rw [place_congr same,place_congr same] at equal
  exact usable.apart here there equal

variable {p : Label} {dev : Dev} {blkno : Nat}

theorem blockAt_stored {used : Set Label} (usable : Usable cfg s used) (here : (s.buf i).label ∈ used)
    (media : t.media = stored cfg s i) (dflags : t.dflags = s.dflags) (inside : p ∈ used) :
    blockAt t p = if p = (s.buf i).label then (s.buf i).data else blockAt s p := by
  have writes : cfg.readonly (major (s.buf i).bDev) = false := usable.writable _ here
  have target : stored cfg s i = update s.media (place s (s.buf i).label).1
      (update (s.media (place s (s.buf i).label).1) (place s (s.buf i).label).2 (s.buf i).data) := by
    simp only [stored,writes]
    rfl
  simp only [blockAt,place_congr dflags,media,target]
  by_cases same : p = (s.buf i).label
  · rw [if_pos same,same,update_self,update_self]
  rw [if_neg same]
  have apart : place s p ≠ place s (s.buf i).label := fun equal => same (usable.apart inside here equal)
  by_cases disk : (place s p).1 = (place s (s.buf i).label).1
  · rw [disk,update_self,update_of_ne]
    exact fun equal => apart (Prod.ext disk equal)
  · rw [update_of_ne disk]

def Buf.current (b : Buf) : Prop := b.flags.bDone = true ∨ b.flags.bDelwri = true

/-- The contents of the used blocks, spread over the buffers and the disks. Held
buffers that were modified have no claim on them yet. -/
structure Coherent (cfg : Config) (used : Set Label) (written : Label → Block) (held modified : Finset (Fin n))
    (bucket : Fin n → Bucket) (s : Cache n) : Prop extends Identified used held bucket s where
  usable : Usable cfg s used
  kept : modified ⊆ held
  data : ∀ i, (s.buf i).flags.bInval = false → i ∉ modified → (s.buf i).current → (s.buf i).data = written (s.buf i).label
  backed : ∀ p ∈ used, blockAt s p = written p ∨ ∃ i, (s.buf i).flags.bDelwri = true ∧ (s.buf i).label = p

variable {used : Set Label} {written written' : Label → Block} {held held' modified modified' : Finset (Fin n)}

section
variable (coherent : Coherent cfg used written held modified bucket s)
include coherent

theorem Coherent.attached (i : Fin n) (delayed : (s.buf i).flags.bDelwri = true) : major (s.buf i).bDev < cfg.nrdsk :=
  coherent.usable.attached _ (coherent.inside i (coherent.valid i delayed).1)

theorem Coherent.attached_held (member : i ∈ held) : major (s.buf i).bDev < cfg.nrdsk :=
  coherent.usable.attached _ (coherent.inside i (coherent.proper i member))

theorem Coherent.replace {bucket' : Fin n → Bucket}
    (identified : Identified used held' bucket' t) (frame : Frame s t i) (kept : modified' ⊆ held')
    (elsewhere : ∀ j, j ≠ i → (j ∈ modified' ↔ j ∈ modified))
    (data : (t.buf i).flags.bInval = false → i ∉ modified' → (t.buf i).current → (t.buf i).data = written' (t.buf i).label)
    (others : ∀ j, j ≠ i → (s.buf j).flags.bInval = false → written' (s.buf j).label = written (s.buf j).label)
    (backed : ∀ p ∈ used, blockAt s p = written p ∨ ((s.buf i).flags.bDelwri = true ∧ (s.buf i).label = p) →
      blockAt t p = written' p ∨ ((t.buf i).flags.bDelwri = true ∧ (t.buf i).label = p)) :
    Coherent cfg used written' held' modified' bucket' t := by
  refine ⟨identified,coherent.usable.congr frame.dflags,kept,fun j => ?_,fun p member => ?_⟩
  · by_cases here : j = i
    · exact here ▸ data
    rw [frame.others j here,elsewhere j here]
    intro still whole now
    rw [others j here still]
    exact coherent.data j still whole now
  have moved : blockAt t p = written' p ∨ ((t.buf i).flags.bDelwri = true ∧ (t.buf i).label = p) →
      blockAt t p = written' p ∨ ∃ j, (t.buf j).flags.bDelwri = true ∧ (t.buf j).label = p :=
    Or.imp_right fun delayed => ⟨i,delayed⟩
  rcases coherent.backed p member with disk | ⟨j,delayed,label⟩
  · exact moved (backed p member (.inl disk))
  by_cases here : j = i
  · subst here
    exact moved (backed p member (.inr ⟨delayed,label⟩))
  · exact .inr ⟨j,by rw [frame.others j here]; exact ⟨delayed,label⟩⟩

theorem Coherent.notavail (idle : (s.buf i).flags.bBusy = false) (valid : (s.buf i).flags.bInval = false) :
    Coherent cfg used written (insert i held) modified bucket (notavail s i) := by
  refine coherent.replace (coherent.toIdentified.notavail idle valid) ⟨fun j other => notavail_buf_other s other,rfl⟩
    (coherent.kept.trans (subset_insert i held)) (fun _ _ => Iff.rfl) ?_ (fun _ _ _ => rfl) ?_ <;>
    rw [notavail_buf_self]
  · exact coherent.data i
  · exact fun p member before => before

theorem Coherent.brelse (member : i ∈ held) (clean : i ∉ modified) :
    Coherent cfg used written (held.erase i) modified bucket (brelse s i) := by
  obtain ⟨_,content,frame,media⟩ := brelse_spec coherent.linked ((coherent.busy i).mpr member)
  refine coherent.replace (coherent.toIdentified.brelse member) frame (subset_erase.mpr ⟨coherent.kept,clean⟩)
    (fun _ _ => Iff.rfl) ?_ (fun _ _ _ => rfl) ?_ <;> rw [content]
  · exact coherent.data i
  intro p _ before
  rw [blockAt,place_congr frame.dflags,media]
  exact before

theorem Coherent.afterWrite (linked : Linked t bucket) (valid : (s.buf i).flags.bInval = false) (effect : Written cfg s t i) :
    Coherent cfg used (update written (s.buf i).label (s.buf i).data) (held.erase i) (modified.erase i) bucket t := by
  refine coherent.replace (coherent.toIdentified.written linked valid effect) effect.frame
    (erase_subset_erase i coherent.kept) (fun j other => by simp [other]) ?_ ?_ ?_
  · intro _ _ _
    rw [effect.data,effect.label,update_self]
  · intro j other there
    rw [update_of_ne]
    exact fun equal => other (coherent.unique j i there valid equal)
  intro p member before
  by_cases same : p = (s.buf i).label
  · subst same
    rcases effect.disk with ⟨media,_⟩ | ⟨_,delayed⟩
    · left
      rw [blockAt_stored coherent.usable member media effect.frame.dflags member,if_pos rfl,update_self]
    · exact .inr ⟨delayed,effect.label⟩
  left
  have disk := before.resolve_right fun delayed => same delayed.2.symm
  rw [update_of_ne same,← disk]
  rcases effect.disk with ⟨media,_⟩ | ⟨media,_⟩
  · rw [blockAt_stored coherent.usable (coherent.inside i valid) media effect.frame.dflags member,if_neg same]
  rw [blockAt,place_congr effect.frame.dflags,media]
  rfl

theorem Coherent.pushed (linked : Linked t bucket) (pushed : Pushed cfg s t i) :
    Coherent cfg used written held modified bucket t := by
  have valid := (coherent.valid i pushed.delayed).1
  have free := coherent.free pushed.idle
  have whole : i ∉ modified := fun member => free (coherent.kept member)
  have current := coherent.data i valid whole (.inr pushed.delayed)
  have after := coherent.afterWrite linked valid pushed.written
  rwa [current,update_eq_self,erase_eq_of_notMem free,erase_eq_of_notMem whole] at after

end

section
variable (coherent : Coherent cfg used written held modified bucket s) (member : i ∈ held)
include coherent member

theorem Coherent.writes {r : Except (Fault n) (Cache n)} (wrote : Linked s bucket → (s.buf i).flags.bBusy = true →
    major (s.buf i).bDev < cfg.nrdsk → ∃ t, r = .ok t ∧ Linked t bucket ∧ Written cfg s t i) : ∃ t, r = .ok t ∧
      Coherent cfg used (update written (s.buf i).label (s.buf i).data) (held.erase i) (modified.erase i) bucket t := by
  obtain ⟨t,done,linked,effect⟩ := wrote coherent.linked ((coherent.busy i).mpr member) (coherent.attached_held member)
  exact ⟨t,done,coherent.afterWrite linked (coherent.proper i member) effect⟩

end

theorem Coherent.modify (coherent : Coherent cfg used written held modified bucket s) (member : i ∈ held) (data : Block) :
    Coherent cfg used written held (insert i modified) bucket (s.modify i (fun b => {b with data})) := by
  have linked := coherent.linked.modify i (f := fun b => {b with data}) rfl (coherent.linked.plain i)
  have identified : Identified used held bucket (s.modify i (fun b => {b with data})) := by
    refine coherent.toIdentified.update linked (fun j other => modify_buf_other s _ other) ?_ ?_ (fun _ _ => Iff.rfl) ?_ ?_
      (fun _ => coherent.proper i member) ?_ <;> rw [modify_buf_self]
    · rfl
    · exact coherent.busy i
    · exact coherent.quiet i
    · exact coherent.valid i
  refine coherent.replace identified (Frame.modify s i _) (insert_subset member coherent.kept)
    (fun j other => by simp [other]) ?_ (fun _ _ _ => rfl) ?_
  · exact fun _ clean => absurd (mem_insert_self i modified) clean
  rw [modify_buf_self]
  exact fun p _ before => before

theorem Coherent.read (coherent : Coherent cfg used written held modified bucket s)
    (identified : Identified used held' bucket t) (frame : Frame s t i) (kept : modified ⊆ held')
    (valid : (s.buf i).flags.bInval = false) (missing : (s.buf i).flags.bDelwri = false) (media : t.media = s.media)
    (label : (t.buf i).label = (s.buf i).label) (data : (t.buf i).data = onDisk s (s.buf i).bDev (s.buf i).bBlkno) :
    Coherent cfg used written held' modified bucket t := by
  refine coherent.replace identified frame kept (fun _ _ => Iff.rfl) ?_ (fun _ _ _ => rfl) ?_
  · intro _ _ _
    rw [data,label]
    rcases coherent.backed _ (coherent.inside i valid) with disk | ⟨j,delayed,same⟩
    · exact disk
    have here := coherent.unique j i (coherent.valid j delayed).1 valid same
    rw [here,missing] at delayed
    cases delayed
  · intro p _ before
    left
    rw [blockAt,place_congr frame.dflags,media]
    exact before.resolve_right fun delayed => by simp [missing] at delayed

/-- Buffers that are written out keep their labels, and held ones are left alone. -/
structure Unmoved (held : Finset (Fin n)) (s t : Cache n) : Prop where
  label : ∀ j, (t.buf j).label = (s.buf j).label
  inval : ∀ j, (t.buf j).flags.bInval = (s.buf j).flags.bInval
  held : ∀ j ∈ held, t.buf j = s.buf j

theorem Unmoved.refl (held : Finset (Fin n)) (s : Cache n) : Unmoved held s s := ⟨fun _ => rfl,fun _ => rfl,fun _ _ => rfl⟩

theorem Unmoved.pushed {u : Cache n} (before : Unmoved held s t) (pushed : Pushed cfg t u i)
    (free : i ∉ held) : Unmoved held s u := by
  refine ⟨fun j => ?_,fun j => ?_,fun j member => ?_⟩
  · by_cases same : j = i
    · rw [same,pushed.buf]
      exact before.label i
    · rw [pushed.frame.others j same,before.label j]
  · by_cases same : j = i
    · rw [same,pushed.buf]
      exact before.inval i
    · rw [pushed.frame.others j same,before.inval j]
  · rw [pushed.frame.others j (fun same => free (same ▸ member)),before.held j member]

def Searching (cfg : Config) (used : Set Label) (written : Label → Block) (held modified : Finset (Fin n))
    (bucket : Fin n → Bucket) (s t : Cache n) : Prop :=
  Coherent cfg used written held modified bucket t ∧ Unmoved held s t

theorem Coherent.assignBlock (coherent : Coherent cfg used written held modified bucket s)
    (inside : (dev,blkno) ∈ used) (idle : (s.buf i).flags.bBusy = false) (clean : (s.buf i).flags.bDelwri = false)
    (missed : ∀ j, (s.buf j).flags.bInval = false → (s.buf j).label ≠ (dev,blkno)) :
    Coherent cfg used written (insert i held) modified (update bucket i (bufhash dev blkno))
    (assignBlock (taken s i) i dev blkno) := by
  refine coherent.replace (coherent.toIdentified.assignBlock inside idle missed) ⟨assignBlock_buf_other s,rfl⟩
    (coherent.kept.trans (subset_insert i held)) (fun _ _ => Iff.rfl) ?_ (fun _ _ _ => rfl) ?_ <;>
    rw [assignBlock_buf_self]
  · rintro _ _ (done | delayed)
    · cases done
    · cases delayed
  · intro p _ before
    left
    exact before.resolve_right fun delayed => by simp [clean] at delayed

def Obtains (result : Except (Fault n) (Cache n × Fin n)) (stuck : Prop) (post : Cache n → Fin n → Prop) : Prop :=
  (∃ t i, result = .ok (t,i) ∧ post t i) ∨ (∃ c, result = .error (.sleeping c)) ∧ stuck

/-- The thread waits for itself: it holds the block, or all but `spare` buffers. -/
def Stuck (held : Finset (Fin n)) (s : Cache n) (p : Label) (spare : Nat) : Prop :=
    (∃ i ∈ held, (s.buf i).label = p) ∨ n ≤ held.card + spare

structure Obtained (cfg : Config) (used : Set Label) (written : Label → Block) (held modified : Finset (Fin n))
    (s : Cache n) (p : Label) (t : Cache n) (i : Fin n) : Prop where
  fresh : i ∉ held
  label : (t.buf i).label = p
  coherent : ∃ bucket, Coherent cfg used written (insert i held) modified bucket t
  others : ∀ j ∈ held, t.buf j = s.buf j

theorem all_held (all : ∀ i, i ∈ held) : n ≤ held.card := by
  rw [eq_univ_of_forall all,card_univ,Fintype.card_fin]

section
variable (coherent : Coherent cfg used written held modified bucket s)
include coherent

theorem Coherent.getblk (fits : cfg.nrdsk ≤ cfg.nblkdev) (inside : (dev,blkno) ∈ used) :
    Obtains (getblk cfg s dev blkno) (Stuck held s (dev,blkno) 0) (Obtained cfg used written held modified s (dev,blkno)) := by
  have known : major dev < cfg.nblkdev := lt_of_lt_of_le (coherent.usable.attached _ inside) fits
  have keeps : ∀ t u j, Linked t bucket → Searching cfg used written held modified bucket s t → Linked u bucket →
      Pushed cfg t u j → Searching cfg used written held modified bucket s u := fun t u j _ before linked pushed =>
    ⟨before.1.pushed linked pushed,before.2.pushed pushed (before.1.free pushed.idle)⟩
  rcases getblk_cases coherent.linked ⟨coherent,Unmoved.refl held s⟩ known (fun t before => before.1.attached) keeps with
    ⟨i,found,idle,done⟩ | ⟨i,found,busy,failed⟩ | ⟨t,i,missed,done,linked,after,idle,clean⟩ | ⟨_,failed,t,_,after,all⟩
  · obtain ⟨label,valid⟩ := coherent.lookup_some found
    refine .inl ⟨_,i,done,coherent.free idle,?_,⟨bucket,coherent.notavail idle valid⟩,fun j member => ?_⟩
    · rw [notavail_buf_self]
      exact label
    · exact notavail_buf_other s fun same => coherent.free idle (same ▸ member)
  · exact .inr ⟨⟨_,failed⟩,.inl ⟨i,(coherent.busy i).mp busy,(coherent.lookup_some found).1⟩⟩
  · have absent : ∀ j, (t.buf j).flags.bInval = false → (t.buf j).label ≠ (dev,blkno) := by
      intro j valid
      rw [after.2.inval j] at valid
      rw [after.2.label j]
      exact coherent.lookup_none missed j valid
    refine .inl ⟨_,i,done,after.1.free idle,?_,⟨_,after.1.assignBlock inside idle clean absent⟩,fun j member => ?_⟩
    · rw [assignBlock_buf_self]
      rfl
    have other : j ≠ i := fun same => after.1.free idle (same ▸ member)
    rw [assignBlock_buf_other t j other,after.2.held j member]
  · exact .inr ⟨⟨_,failed⟩,.inr (all_held fun i => (after.1.busy i).mp (all i))⟩

theorem Coherent.biowait (done : (s.buf i).flags.bDone = true) :
    ∃ t, biowait s i = .ok t ∧ Coherent cfg used written held modified bucket t ∧ t.buf = s.buf := by
  obtain ⟨t,waited,identified,bufs,dflags,media⟩ := coherent.toIdentified.biowait done
  refine ⟨t,waited,⟨identified,coherent.usable.congr dflags,coherent.kept,bufs ▸ coherent.data,fun p member => ?_⟩,bufs⟩
  rw [blockAt,place_congr dflags,media,bufs]
  exact coherent.backed p member

theorem Coherent.startRead (member : i ∈ held) (missing : present s i = false) (async : Bool)
    (whole : modified ⊆ bif async then held.erase i else held) : ∃ t, startRead cfg s i async = .ok t ∧
      Coherent cfg used written (bif async then held.erase i else held) modified bucket t ∧
      (t.buf i).flags.bDone = true ∧ (t.buf i).label = (s.buf i).label ∧ ∀ j, j ≠ i → t.buf j = s.buf j := by
  obtain ⟨unread,clean⟩ := present_false missing
  obtain ⟨t,read,identified,frame,media,done,label,_,data⟩ :=
    coherent.toIdentified.startRead member (coherent.attached_held member) unread async
  exact ⟨t,read,coherent.read identified frame whole (coherent.proper i member) clean media label data,done,label,frame.others⟩

end

structure Fetched (cfg : Config) (used : Set Label) (written : Label → Block) (held modified : Finset (Fin n))
    (s : Cache n) (p : Label) (t : Cache n) (i : Fin n) : Prop extends Obtained cfg used written held modified s p t i where
  done : (t.buf i).flags.bDone = true
  data : (t.buf i).data = written p

theorem Obtained.fetched (obtained : Obtained cfg used written held modified s p t i)
    (kept : modified ⊆ held) (done : (t.buf i).flags.bDone = true) : Fetched cfg used written held modified s p t i := by
  obtain ⟨bucket,coherent⟩ := obtained.coherent
  have valid := coherent.proper i (mem_insert_self i held)
  refine ⟨obtained,done,?_⟩
  rw [← obtained.label]
  exact coherent.data i valid (fun member => obtained.fresh (kept member)) (.inl done)

theorem Obtained.readFirst (obtained : Obtained cfg used written held modified s p t i) (kept : modified ⊆ held) :
    ∃ u, readFirst cfg t i = .ok u ∧ Fetched cfg used written held modified s p u i := by
  obtain ⟨bucket,coherent⟩ := obtained.coherent
  unfold BufferCache.readFirst
  cases ready : present t i with
  | true =>
    refine ⟨t,rfl,obtained.fetched kept ?_⟩
    rcases (by simpa [present] using ready : (t.buf i).flags.bDone = true ∨ (t.buf i).flags.bDelwri = true) with done | delayed
    · exact done
    · exact (coherent.valid i delayed).2
  | false =>
    obtain ⟨u,read,after,done,label,others⟩ := coherent.startRead (mem_insert_self i held) ready false coherent.kept
    have again : Obtained cfg used written held modified s p u i := by
      refine ⟨obtained.fresh,label.trans obtained.label,⟨bucket,after⟩,fun j member => ?_⟩
      rw [others j (fun same => obtained.fresh (same ▸ member)),obtained.others j member]
    exact ⟨u,by simpa using read,again.fetched kept done⟩

theorem Fetched.biowait (fetched : Fetched cfg used written held modified s p t i) :
    ∃ u, biowait t i = .ok u ∧ Fetched cfg used written held modified s p u i := by
  obtain ⟨bucket,coherent⟩ := fetched.coherent
  obtain ⟨u,waited,after,bufs⟩ := coherent.biowait fetched.done
  exact ⟨u,waited,⟨⟨fetched.fresh,by rw [bufs]; exact fetched.label,⟨bucket,after⟩,by rw [bufs]; exact fetched.others⟩,
    by rw [bufs]; exact fetched.done,by rw [bufs]; exact fetched.data⟩⟩

section
variable (coherent : Coherent cfg used written held modified bucket s)
include coherent

theorem Coherent.bread (fits : cfg.nrdsk ≤ cfg.nblkdev) (inside : (dev,blkno) ∈ used) :
    Obtains (bread cfg s dev blkno) (Stuck held s (dev,blkno) 0) (Fetched cfg used written held modified s (dev,blkno)) := by
  unfold BufferCache.bread
  rcases coherent.getblk fits inside with ⟨t,i,got,obtained⟩ | ⟨⟨c,failed⟩,stuck⟩
  · obtain ⟨u,read,fetched⟩ := obtained.readFirst coherent.kept
    simp only [got,bind,Except.bind]
    cases ready : present t i with
    | true =>
      simp only [BufferCache.readFirst,ready,if_true] at read
      cases read
      exact .inl ⟨t,i,rfl,fetched⟩
    | false =>
      obtain ⟨w,waited,final⟩ := fetched.biowait
      simp only [BufferCache.readFirst,ready,Bool.false_eq_true,if_false] at read
      simp only [Bool.false_eq_true,if_false,read,waited]
      exact .inl ⟨w,i,rfl,final⟩
  · exact .inr ⟨⟨c,by simp only [failed,bind,Except.bind]⟩,stuck⟩

theorem Coherent.readAhead (fits : cfg.nrdsk ≤ cfg.nblkdev) {rablkno : Nat} (inside : rablkno ≠ 0 → (dev,rablkno) ∈ used) :
    (∃ t bucket', readAhead cfg s dev rablkno = .ok t ∧ Coherent cfg used written held modified bucket' t ∧
    ∀ j ∈ held, t.buf j = s.buf j) ∨
    (∃ c, readAhead cfg s dev rablkno = .error (.sleeping c)) ∧ n ≤ held.card := by
  unfold BufferCache.readAhead
  split_ifs with skipped
  · exact .inl ⟨s,bucket,rfl,coherent,fun _ _ => rfl⟩
  obtain ⟨nonzero,missed⟩ := not_or.mp skipped
  rcases coherent.getblk fits (inside nonzero) with ⟨t,i,got,obtained⟩ | ⟨⟨c,failed⟩,stuck⟩
  · obtain ⟨bucket',owned⟩ := obtained.coherent
    have member : i ∈ insert i held := mem_insert_self _ _
    have back : (insert i held).erase i = held := erase_insert obtained.fresh
    have clean : i ∉ modified := fun touched => obtained.fresh (coherent.kept touched)
    have other : ∀ j ∈ held, j ≠ i := fun j present same => obtained.fresh (same ▸ present)
    simp only [got,bind,Except.bind]
    cases ready : present t i with
    | true =>
      obtain ⟨_,_,frame,_⟩ := brelse_spec owned.linked ((owned.busy i).mpr member)
      refine .inl ⟨_,bucket',rfl,back ▸ owned.brelse member clean,fun j present => ?_⟩
      rw [frame.others j (other j present),obtained.others j present]
    | false =>
      obtain ⟨u,read,after,_,_,untouched⟩ := owned.startRead member ready true (subset_erase.mpr ⟨owned.kept,clean⟩)
      refine .inl ⟨u,bucket',read,back ▸ after,fun j present => ?_⟩
      rw [untouched j (other j present),obtained.others j present]
  · refine .inr ⟨⟨c,by simp only [failed,bind,Except.bind]⟩,stuck.resolve_left ?_⟩
    rintro ⟨i,member,label⟩
    exact coherent.lookup_none (by simpa [incore] using missed) i (coherent.proper i member) label

theorem Coherent.breada (fits : cfg.nrdsk ≤ cfg.nblkdev)
    {rablkno : Nat} (inside : (dev,blkno) ∈ used) (ahead : rablkno ≠ 0 → (dev,rablkno) ∈ used) :
    Obtains (breada cfg s dev blkno rablkno) (Stuck held s (dev,blkno) 1)
      (Fetched cfg used written held modified s (dev,blkno)) := by
  unfold BufferCache.breada
  split_ifs with cached
  · rcases coherent.readAhead fits ahead with ⟨t,bucket',done,after,others⟩ | ⟨⟨c,failed⟩,full⟩
    · simp only [done,bind,Except.bind]
      rcases after.bread fits inside with ⟨u,i,read,fetched⟩ | ⟨⟨c,failed⟩,stuck⟩
      · refine .inl ⟨u,i,read,⟨⟨fetched.fresh,fetched.label,fetched.coherent,fun j member => ?_⟩,fetched.done,fetched.data⟩⟩
        rw [fetched.others j member,others j member]
      refine .inr ⟨⟨c,failed⟩,?_⟩
      rcases stuck with ⟨i,member,label⟩ | full
      · exact .inl ⟨i,member,others i member ▸ label⟩
      · exact .inr (by omega)
    · exact .inr ⟨⟨c,by simp only [failed,bind,Except.bind]⟩,.inr (by omega)⟩
  rcases coherent.getblk fits inside with ⟨t,i,got,obtained⟩ | ⟨⟨c,failed⟩,stuck⟩
  · obtain ⟨u,read,fetched⟩ := obtained.readFirst coherent.kept
    obtain ⟨_,owned⟩ := fetched.coherent
    simp only [got,bind,Except.bind,read]
    rcases owned.readAhead fits ahead with ⟨w,bucket',done,after,others⟩ | ⟨⟨c,failed⟩,full⟩
    · have same : w.buf i = u.buf i := others i (mem_insert_self i held)
      have still : Fetched cfg used written held modified s (dev,blkno) w i := by
        refine ⟨⟨fetched.fresh,same ▸ fetched.label,⟨bucket',after⟩,fun j member => ?_⟩,same ▸ fetched.done,same ▸ fetched.data⟩
        rw [others j (mem_insert_of_mem member),fetched.others j member]
      obtain ⟨x,waited,final⟩ := still.biowait
      simp only [done,waited]
      exact .inl ⟨x,i,rfl,final⟩
    · refine .inr ⟨⟨c,by simp only [failed]⟩,.inr ?_⟩
      rwa [card_insert_of_notMem fetched.fresh] at full
  · refine .inr ⟨⟨c,by simp only [failed,bind,Except.bind]⟩,stuck.imp_right fun full => by omega⟩

theorem Coherent.bflush (dev : Dev) :
    ∃ t, bflush cfg s dev = .ok t ∧ Coherent cfg used written held modified bucket t ∧ (∀ j ∈ held, t.buf j = s.buf j) ∧
      ∀ i, i ∉ held → (t.buf i).bDev = dev → (t.buf i).flags.bDelwri = false := by
  obtain ⟨t,done,_,after,clean⟩ := @bflush_rule n cfg s bucket (Searching cfg used written held modified bucket s)
    coherent.linked ⟨coherent,Unmoved.refl held s⟩ dev (fun t before => before.1.attached)
    (fun t u j _ before linked pushed => ⟨before.1.pushed linked pushed,before.2.pushed pushed (before.1.free pushed.idle)⟩)
  refine ⟨t,done,after.1,after.2.held,fun i free => clean i ?_⟩
  simpa using fun busy => free ((after.1.busy i).mp busy)

theorem Coherent.blkflush (dev : Dev) (blkno : Nat) :
    Leaves (blkflush cfg s dev blkno) (Coherent cfg used written held modified bucket) := by
  have loop : ∀ fuel s, Coherent cfg used written held modified bucket s →
      Leaves (blkflushLoop cfg dev blkno fuel s) (Coherent cfg used written held modified bucket) := by
    intro fuel
    induction fuel with
    | zero => exact fun s coherent => .inl ⟨s,rfl,coherent⟩
    | succ fuel ih =>
      intro s coherent
      unfold blkflushLoop
      cases found : unsettled s dev blkno with
      | none => exact .inl ⟨s,rfl,coherent⟩
      | some i =>
        by_cases busy : (s.buf i).flags.bBusy = true
        · exact .inr ⟨.buf i,by simp [busy]⟩
        have idle : (s.buf i).flags.bBusy = false := by simpa using busy
        have free := coherent.free idle
        have whole : i ∉ modified := fun member => free (coherent.kept member)
        have flags := List.find?_some found
        simp only [Bool.and_eq_true,Bool.or_eq_true,busy,Bool.false_eq_true,false_or] at flags
        have valid := (coherent.valid i flags.2).1
        have content := notavail_buf_self s i
        obtain ⟨t,done,after⟩ := (coherent.notavail idle valid).writes (mem_insert_self _ _) bwrite_written
        have same : ((BufferCache.notavail s i).buf i).data = written ((BufferCache.notavail s i).buf i).label := by
          rw [content]
          exact coherent.data i valid whole (.inr flags.2)
        rw [same,update_eq_self,erase_insert free,erase_eq_of_notMem whole] at after
        simp only [busy,done,bind,Except.bind]
        exact ih t after
  exact loop (n + 1) s coherent

end

end Retrobsd.BufferCache

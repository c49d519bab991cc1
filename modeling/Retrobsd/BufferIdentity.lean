import Retrobsd.BufferOwnership

/-! The identity of buffers: a buffer that is not invalid is the only one of its
block, and it is on the hash chain where the block is searched for. -/
namespace Retrobsd.BufferCache

variable {n : Nat} {cfg : Config} {s t : Cache n} {bucket bucket' : Fin n → Bucket} {i : Fin n}

/-- The buffers of `held` are busy, and all that are not invalid stand for different
blocks of `used`. -/
structure Identified (used : Set Label) (held : Finset (Fin n)) (bucket : Fin n → Bucket) (s : Cache n) : Prop where
  linked : Linked s bucket
  busy : ∀ i, (s.buf i).flags.bBusy = true ↔ i ∈ held
  quiet : ∀ i, (s.buf i).flags.bAsync = false
  proper : ∀ i ∈ held, (s.buf i).flags.bInval = false
  home : ∀ i, (s.buf i).flags.bInval = false → bucket i = bufhash (s.buf i).bDev (s.buf i).bBlkno
  inside : ∀ i, (s.buf i).flags.bInval = false → (s.buf i).label ∈ used
  valid : ∀ i, (s.buf i).flags.bDelwri = true → (s.buf i).flags.bInval = false ∧ (s.buf i).flags.bDone = true
  unique : ∀ i j, (s.buf i).flags.bInval = false → (s.buf j).flags.bInval = false → (s.buf i).label = (s.buf j).label → i = j

variable {used : Set Label} {held held' : Finset (Fin n)}

section
variable (identified : Identified used held bucket s)
include identified

theorem Identified.free (idle : (s.buf i).flags.bBusy = false) : i ∉ held := by
  intro member
  have busy := (identified.busy i).mpr member
  rw [idle] at busy
  cases busy

theorem Identified.lookup_none {dev : Dev} {blkno : Nat}
    (missed : lookup s dev blkno = none) (j : Fin n) (valid : (s.buf j).flags.bInval = false) :
    (s.buf j).label ≠ (dev,blkno) := by
  intro same
  have dev_eq : (s.buf j).bDev = dev := congrArg Prod.fst same
  have blk_eq : (s.buf j).bBlkno = blkno := congrArg Prod.snd same
  refine identified.linked.lookup_none missed ?_ ((names_iff s dev blkno j).mpr ⟨blk_eq,dev_eq,valid⟩)
  rw [identified.home j valid,dev_eq,blk_eq]

theorem Identified.lookup_some {dev : Dev} {blkno : Nat}
    (found : lookup s dev blkno = some i) : (s.buf i).label = (dev,blkno) ∧ (s.buf i).flags.bInval = false := by
  have here := (names_iff s dev blkno i).mp (identified.linked.lookup_some found).2
  exact ⟨Prod.ext here.2.1 here.1,here.2.2⟩

theorem Identified.replace (linked : Linked t bucket') (others : ∀ j, j ≠ i → t.buf j = s.buf j)
    (elsewhere : ∀ j, j ≠ i → bucket' j = bucket j ∧ (j ∈ held' ↔ j ∈ held))
    (busy : (t.buf i).flags.bBusy = true ↔ i ∈ held') (quiet : (t.buf i).flags.bAsync = false)
    (proper : i ∈ held' → (t.buf i).flags.bInval = false)
    (known : (t.buf i).flags.bInval = false → bucket' i = bufhash (t.buf i).bDev (t.buf i).bBlkno ∧ (t.buf i).label ∈ used)
    (valid : (t.buf i).flags.bDelwri = true → (t.buf i).flags.bInval = false ∧ (t.buf i).flags.bDone = true)
    (alone : (t.buf i).flags.bInval = false → ∀ j, j ≠ i → (s.buf j).flags.bInval = false → (s.buf j).label ≠ (t.buf i).label) :
    Identified used held' bucket' t := by
  refine ⟨linked,fun j => ?_,fun j => ?_,fun j => ?_,fun j => ?_,fun j => ?_,fun j => ?_,fun j k => ?_⟩
  · by_cases here : j = i
    · exact here ▸ busy
    rw [others j here,(elsewhere j here).2]
    exact identified.busy j
  · by_cases here : j = i
    · exact here ▸ quiet
    rw [others j here]
    exact identified.quiet j
  · by_cases here : j = i
    · exact here ▸ proper
    rw [others j here,(elsewhere j here).2]
    exact identified.proper j
  · by_cases here : j = i
    · exact fun still => here ▸ (known (here ▸ still)).1
    rw [others j here,(elsewhere j here).1]
    exact identified.home j
  · by_cases here : j = i
    · exact fun still => here ▸ (known (here ▸ still)).2
    rw [others j here]
    exact identified.inside j
  · by_cases here : j = i
    · exact here ▸ valid
    rw [others j here]
    exact identified.valid j
  · by_cases first : j = i
    · subst first
      by_cases second : k = j
      · exact fun _ _ _ => second.symm
      rw [others k second]
      exact fun here there equal => absurd equal.symm (alone here k second there)
    by_cases second : k = i
    · subst second
      rw [others j first]
      exact fun here there equal => absurd equal (alone there j first here)
    · rw [others j first,others k second]
      exact identified.unique j k

theorem Identified.update (linked : Linked t bucket) (others : ∀ j, j ≠ i → t.buf j = s.buf j)
    (label : (t.buf i).label = (s.buf i).label)
    (inval : (t.buf i).flags.bInval = (s.buf i).flags.bInval) (elsewhere : ∀ j, j ≠ i → (j ∈ held' ↔ j ∈ held))
    (busy : (t.buf i).flags.bBusy = true ↔ i ∈ held') (quiet : (t.buf i).flags.bAsync = false)
    (proper : i ∈ held' → (s.buf i).flags.bInval = false)
    (valid : (t.buf i).flags.bDelwri = true → (s.buf i).flags.bInval = false ∧ (t.buf i).flags.bDone = true) :
    Identified used held' bucket t := by
  refine identified.replace linked others (fun j other => ⟨rfl,elsewhere j other⟩) busy quiet ?_ ?_ ?_ ?_
  · exact fun member => inval.trans (proper member)
  · intro still
    rw [inval] at still
    have dev : (t.buf i).bDev = (s.buf i).bDev := congrArg Prod.fst label
    have blkno : (t.buf i).bBlkno = (s.buf i).bBlkno := congrArg Prod.snd label
    exact ⟨by rw [dev,blkno]; exact identified.home i still,by rw [label]; exact identified.inside i still⟩
  · exact fun delayed => ⟨inval.trans (valid delayed).1,(valid delayed).2⟩
  · intro still j other there equal
    exact other (identified.unique j i there (inval ▸ still) (equal.trans label))

theorem Identified.notavail (idle : (s.buf i).flags.bBusy = false)
    (valid : (s.buf i).flags.bInval = false) : Identified used (insert i held) bucket (notavail s i) := by
  refine identified.update (identified.linked.notavail idle) (fun j other => notavail_buf_other s other) ?_ ?_
    (fun j other => by simp [other]) ?_ ?_ (fun _ => valid) ?_ <;> rw [notavail_buf_self]
  · rfl
  · rfl
  · simp [Buf.mark]
  · exact identified.quiet i
  · exact identified.valid i

theorem Identified.freed (linked : Linked t bucket) (frame : Frame s t i)
    (label : (t.buf i).label = (s.buf i).label) (inval : (t.buf i).flags.bInval = (s.buf i).flags.bInval)
    (idle : (t.buf i).flags.bBusy = false) (quiet : (t.buf i).flags.bAsync = false)
    (valid : (t.buf i).flags.bDelwri = true → (s.buf i).flags.bInval = false ∧ (t.buf i).flags.bDone = true) :
    Identified used (held.erase i) bucket t := by
  refine identified.update linked frame.others label inval (fun j other => by simp [other]) ?_ quiet
    (fun member => absurd member (Finset.notMem_erase i held)) valid
  rw [idle]
  exact iff_of_false (by decide) (Finset.notMem_erase i held)

theorem Identified.brelse (member : i ∈ held) : Identified used (held.erase i) bucket (brelse s i) := by
  obtain ⟨after,content,frame,_⟩ := brelse_spec identified.linked ((identified.busy i).mpr member)
  refine identified.freed after frame ?_ ?_ ?_ ?_ ?_ <;> rw [content]
  · rfl
  · rfl
  · rfl
  · rfl
  · exact identified.valid i

theorem Identified.written (linked : Linked t bucket)
    (valid : (s.buf i).flags.bInval = false) (written : Written cfg s t i) : Identified used (held.erase i) bucket t :=
  identified.freed linked written.frame written.label written.inval written.idle written.quiet fun _ => ⟨valid,written.done⟩

theorem Identified.pushed (linked : Linked t bucket) (pushed : Pushed cfg s t i) : Identified used held bucket t := by
  have after := identified.written linked (identified.valid i pushed.delayed).1 pushed.written
  rwa [Finset.erase_eq_of_notMem (identified.free pushed.idle)] at after

theorem Identified.assignBlock {dev : Dev} {blkno : Nat} (inside : (dev,blkno) ∈ used) (idle : (s.buf i).flags.bBusy = false)
    (missed : ∀ j, (s.buf j).flags.bInval = false → (s.buf j).label ≠ (dev,blkno)) :
    Identified used (insert i held) (Function.update bucket i (bufhash dev blkno)) (assignBlock (taken s i) i dev blkno) := by
  refine identified.replace ((identified.linked.taken idle).assign i _ fun _ => rfl) (assignBlock_buf_other s) ?_ ?_ ?_ ?_ ?_
    ?_ ?_ <;> try rw [assignBlock_buf_self]
  · exact fun j other => ⟨Function.update_of_ne other _ _,by simp [other]⟩
  · simp
  · rfl
  · exact fun _ => rfl
  · exact fun _ => ⟨Function.update_self _ _ _,inside⟩
  · exact fun delayed => absurd delayed (by simp [Flags.none])
  · exact fun _ j _ valid => missed j valid

theorem Identified.startRead (member : i ∈ held) (attached : major (s.buf i).bDev < cfg.nrdsk)
    (unread : (s.buf i).flags.bDone = false)
    (async : Bool) : ∃ t, startRead cfg s i async = .ok t ∧ Identified used (bif async then held.erase i else held) bucket t ∧
      Frame s t i ∧ t.media = s.media ∧ (t.buf i).flags.bDone = true ∧ (t.buf i).label = (s.buf i).label ∧
      (t.buf i).flags.bInval = (s.buf i).flags.bInval ∧ (t.buf i).data = onDisk s (s.buf i).bDev (s.buf i).bBlkno := by
  have busy := (identified.busy i).mpr member
  obtain ⟨t,done,after,frame,media,content⟩ := startRead_spec identified.linked busy unread attached async
  obtain ⟨still,quiet,read,_,inval⟩ := Flags.fetched_spec busy (identified.quiet i) async
  have flags : (t.buf i).flags = (s.buf i).flags.fetched async := by rw [content]; rfl
  have label : (t.buf i).label = (s.buf i).label := by rw [content]; rfl
  refine ⟨t,done,?_,frame,media,by rwa [flags],label,by rw [flags,inval],by rw [content]⟩
  refine identified.update after frame.others label (by rw [flags,inval]) ?_ ?_ (by rwa [flags]) (fun _ =>
    identified.proper i member)
    (fun _ => ⟨identified.proper i member,by rwa [flags]⟩)
  · intro j other
    cases async <;> simp [other]
  · rw [flags,still]
    cases async <;> simp [member]

theorem Identified.biowait (done : (s.buf i).flags.bDone = true) :
    ∃ t, biowait s i = .ok t ∧ Identified used held bucket t ∧ t.buf = s.buf ∧ t.dflags = s.dflags ∧ t.media = s.media := by
  obtain ⟨t,waited,linked,bufs,dflags,media⟩ := biowait_done identified.linked done
  exact ⟨t,waited,⟨linked,bufs ▸ identified.busy,bufs ▸ identified.quiet,bufs ▸ identified.proper,bufs ▸ identified.home,
    bufs ▸ identified.inside,bufs ▸ identified.valid,bufs ▸ identified.unique⟩,bufs,dflags,media⟩

end

end Retrobsd.BufferCache

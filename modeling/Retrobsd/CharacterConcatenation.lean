import Retrobsd.CharacterListRuns

/-! `catq` moves a list behind another one, with a buffer of four blocks between them: what is taken from the front of a
list frees the blocks that the same characters need at the end of the other. -/
namespace Retrobsd.CharacterLists
open Lib.Run List

section
variable {ι : Type} [DecidableEq ι] (pool : Pool)

def catqLoop (source target : ι) : Nat → Kernel ι → Except Fault (Kernel ι)
  | 0,_ => .error .stuck
  | turns + 1,k =>
    if (k.clists source).cCc > 0 then do
      let (k,bbuf) ← qToB pool k source 112
      let (k,_) ← bToQ pool k (fun i => bbuf.getD i 0) bbuf.length target
      catqLoop source target turns k
    else .ok k

def catq (k : Kernel ι) (source target : ι) : Except Fault (Kernel ι) :=
  if (k.clists target).cCc = 0 then .ok ((k.set target (k.clists source)).set source ⟨0,0,0⟩)
  else catqLoop pool source target ((k.clists source).cCc.toNat + 1) k

end

section
variable {ι : Type} {pool : Pool} {q : ι} {k k' : Kernel ι} {lists lists' : Option ι → List Nat} {n : Nat}

theorem releaseWaking_clists {b : Nat} (ok : releaseWaking pool k b = .ok k') : k'.clists = k.clists := by
  obtain ⟨_,released,same⟩ := except_bind_ok ok
  obtain ⟨_,stored,freed⟩ := except_bind_ok released
  rw [storeNext] at stored
  split_ifs at stored
  cases same
  cases freed
  cases stored
  rfl

variable [DecidableEq ι]

theorem Laid.mem_rest (laid : Laid pool k lists) (x : Nat) :
    x ∈ lists none ++ lists (some q) ↔ pool.block x = true ∧ ∀ r, r ≠ q → x ∉ lists (some r) := by
  have cover := laid.parted.cover x
  rw [mem_append,cover]
  constructor
  · intro member
    obtain ⟨i,inside,others⟩ : ∃ i, x ∈ lists i ∧ ∀ r, r ≠ q → some r ≠ i := by
      rcases member with free | listed
      · exact ⟨none,free,nofun⟩
      · exact ⟨some q,listed,fun r other same => other (Option.some.inj same)⟩
    exact ⟨⟨i,inside⟩,fun r other member => others r other (laid.parted.unique member inside)⟩
  · rintro ⟨⟨_ | r,inside⟩,others⟩
    · exact .inl inside
    by_cases same : r = q
    · exact .inr (same ▸ inside)
    · exact absurd inside (others r same)

theorem Frame.blocks (frame : Frame q k lists k' lists') (before : Laid pool k lists) (after : Laid pool k' lists') :
    (lists' none).length + (lists' (some q)).length = (lists none).length + (lists (some q)).length := by
  have once : ∀ {k : Kernel ι} {lists}, Laid pool k lists → (lists none ++ lists (some q)).Nodup := fun laid =>
    (laid.parted.once none).append (laid.parted.once (some q)) (laid.parted.apart none (some q) nofun)
  have same : (lists' none ++ lists' (some q)).Perm (lists none ++ lists (some q)) :=
    (perm_ext_iff_of_nodup (once after) (once before)).mpr fun x => by
      rw [after.mem_rest,before.mem_rest]
      exact and_congr_right fun _ => forall₂_congr fun r other => by rw [frame.sameBlocks r other]
  simpa using same.length_eq

theorem consume_cCl (ok : consume pool k q n = .ok k') : (k'.clists q).cCl = (k.clists q).cCl ∨ (k'.clists q).cCc ≤ 0 := by
  simp only [consume] at ok
  split_ifs at ok with empty border
  · rw [releaseWaking_clists ok,set_self]
    exact .inr empty
  · obtain ⟨next,-,ok⟩ := except_bind_ok ok
    rw [releaseWaking_clists ok,set_self]
    exact .inl rfl
  · cases ok
    rw [set_self]
    exact .inl rfl

theorem qToBLoop_cCl : ∀ (turns : Nat) {k : Kernel ι} {cc : Int} {bytes : List UInt8},
    qToBLoop pool turns k q cc = .ok (k',bytes) → (k'.clists q).cCl = (k.clists q).cCl ∨ (k'.clists q).cCc ≤ 0
  | 0,_,_,_,ok => by cases ok
  | turns + 1,k,cc,bytes,ok => by
    rw [qToBLoop] at ok
    split_ifs at ok with zero
    · cases ok
      exact .inl rfl
    obtain ⟨moved,-,ok⟩ := except_bind_ok ok
    obtain ⟨k₁,used,ok⟩ := except_bind_ok ok
    split_ifs at ok with empty
    · cases ok
      exact .inr empty
    obtain ⟨⟨k₂,rest⟩,more,same⟩ := except_bind_ok ok
    cases same
    rcases qToBLoop_cCl turns more with last | gone
    · exact .inl (last.trans ((consume_cCl used).resolve_right empty))
    · exact .inr gone

theorem qToB_frees (laid : Laid pool k lists) (filled : 0 < (k.clists q).cCc) :
    ∃ k' lists', qToB pool k q 112 = .ok (k',(queue k q).take 112) ∧ Laid pool k' lists' ∧ Frame q k lists k' lists' ∧
      queue k' q = (queue k q).drop 112 ∧ ((queue k q).take 112).length ≤ 28 * (lists' none).length := by
  obtain ⟨k',ok,lists',laid',frame,content⟩ := qToB_spec laid (q := q) 112
  refine ⟨k',lists',ok,laid',frame,content,?_⟩
  obtain ⟨a,s,z,e,fits,later⟩ := (laid.queued q).fits filled
  have count := fits.count
  have low := fits.low
  have endHigh := fits.endHigh
  have size := laid.length_queue q
  have size' := laid'.length_queue q
  have blocks := frame.blocks laid laid'
  rw [content,length_drop] at size'
  rw [length_take]
  by_cases gone : (k'.clists q).cCc ≤ 0
  · obtain ⟨-,none_left⟩ := (laid'.queued q).cleared gone
    rw [none_left,length_nil] at blocks
    omega
  obtain ⟨a',s',z',e',fits',later'⟩ := (laid'.queued q).fits (by omega)
  have count' := fits'.count
  have high' := fits'.high
  have endHigh' := fits'.endHigh
  have aligned := laid.aligned (some q) z (mem_of_getLast? fits.last)
  have aligned' := laid'.aligned (some q) z' (mem_of_getLast? fits'.last)
  rw [qToB,if_neg (by decide),if_neg (by omega)] at ok
  have back := (qToBLoop_cCl _ ok).resolve_right gone
  rw [fits.back,fits'.back] at back
  omega

end

section
variable {ι : Type} [DecidableEq ι] {pool : Pool} {source target : ι} {k : Kernel ι} {lists : Option ι → List Nat}

theorem map_getD_range (bytes : List UInt8) : (List.range bytes.length).map (fun i => bytes.getD i 0) = bytes := by
  apply ext_getElem
  · simp
  intro i _ inside
  simp [inside]

/-- `source` is empty, `target` has its characters behind its own, and the other lists are as before. -/
structure Moved (source target : ι) (k k' : Kernel ι) : Prop where
  cleared : k'.clists source = ⟨0,0,0⟩
  joined : queue k' target = queue k target ++ queue k source
  others : ∀ r, r ≠ source → r ≠ target → queue k' r = queue k r

theorem catqLoop_spec (apart : source ≠ target) :
    ∀ (turns : Nat) {k : Kernel ι} {lists : Option ι → List Nat}, Laid pool k lists →
    0 < (k.clists target).cCc → (k.clists source).cCc < turns →
    ∃ k' lists', catqLoop pool source target turns k = .ok k' ∧ Laid pool k' lists' ∧ Moved source target k k'
  | 0,k,lists,laid,_,few => by
    have := laid.length_queue source
    omega
  | turns + 1,k,lists,laid,filled,few => by
    rw [catqLoop]
    by_cases more : (k.clists source).cCc > 0
    · obtain ⟨k₁,lists₁,taken,laid₁,frame₁,left,free⟩ := qToB_frees laid more
      obtain ⟨k₂,stored,lists₂,laid₂,frame₂,content⟩ := bToQ_spec laid₁ (q := target)
        (fun i => ((queue k source).take 112).getD i 0) ((queue k source).take 112).length
      have counted := laid₁.counted
      rw [Int.toNat_natCast,map_getD_range,take_of_length_le (by unfold room; omega),
        frame₁.queue laid laid₁ apart.symm] at content
      have size := laid.length_queue source
      have size₁ := laid₁.length_queue source
      have size₂ := laid₂.length_queue target
      have before := laid.length_queue target
      rw [left,length_drop] at size₁
      rw [content,length_append] at size₂
      obtain ⟨k₃,lists₃,ok,laid₃,moved⟩ :=
        catqLoop_spec apart turns laid₂ (by omega) (by rw [frame₂.sameClist source apart]; omega)
      refine ⟨k₃,lists₃,?_,laid₃,moved.cleared,?_,fun r other otherwise => ?_⟩
      · simp only [if_pos more,taken,stored,bind,Except.bind]
        exact ok
      · rw [moved.joined,content,frame₂.queue laid₁ laid₂ apart,left,append_assoc,take_append_drop]
      · rw [moved.others r other otherwise,frame₂.queue laid₁ laid₂ otherwise,frame₁.queue laid laid₁ other]
    · rw [if_neg more]
      obtain ⟨cleared,-⟩ := (laid.queued source).cleared (by omega)
      exact ⟨k,lists,rfl,laid,cleared,by rw [queue_cleared cleared,append_nil],fun _ _ _ => rfl⟩

theorem Laid.handed (laid : Laid pool k lists) (apart : source ≠ target) (empty : (k.clists target).cCc = 0) :
    ∃ lists', Laid pool ((k.set target (k.clists source)).set source ⟨0,0,0⟩) lists' ∧
      Moved source target k ((k.set target (k.clists source)).set source ⟨0,0,0⟩) := by
  obtain ⟨cleared,blocks⟩ := (laid.queued target).cleared empty.le
  have swapped : ∀ i, i ≠ some source → i ≠ some target → Equiv.swap (some source) (some target) i = i :=
    fun i => Equiv.swap_apply_of_ne_of_ne
  have at_target : ((k.set target (k.clists source)).set source ⟨0,0,0⟩).clists target = k.clists source := by
    rw [set_other _ apart.symm,set_self]
  refine ⟨fun i => lists (Equiv.swap (some source) (some target) i),⟨⟨fun i => laid.parted.once _,
    fun i j other => laid.parted.apart _ _ ((Equiv.injective _).ne other),fun x => ?_⟩,?_,?_,fun r => ?_⟩,
    set_self _,?_,fun r other otherwise => ?_⟩
  · rw [laid.parted.cover]
    exact ⟨fun ⟨i,member⟩ => ⟨Equiv.swap (some source) (some target) i,by rwa [Equiv.swap_apply_self]⟩,
      fun ⟨i,member⟩ => ⟨_,member⟩⟩
  · rw [swapped none nofun nofun]
    exact laid.spare
  · rw [swapped none nofun nofun]
    exact laid.counted
  · by_cases first : r = source
    · subst first
      rw [Equiv.swap_apply_left]
      exact .inl ⟨set_self _,blocks⟩
    by_cases second : r = target
    · subst second
      rw [Equiv.swap_apply_right,at_target]
      exact laid.queued source
    · rw [swapped _ (by simpa using first) (by simpa using second),set_other _ first,set_other _ second]
      exact laid.queued r
  · rw [queue_cleared cleared,nil_append,queue,addresses,at_target]
    rfl
  · rw [queue,addresses,set_other _ other,set_other _ otherwise]
    rfl

/-- No character is lost, whatever is on `cfreelist`. -/
theorem catq_moves (laid : Laid pool k lists) (apart : source ≠ target) :
    ∃ k' lists', catq pool k source target = .ok k' ∧ Laid pool k' lists' ∧ queue k' source = [] ∧ Moved source target k k' := by
  rw [catq]
  split_ifs with empty
  · obtain ⟨lists',laid',moved⟩ := laid.handed apart empty
    exact ⟨_,lists',rfl,laid',queue_cleared moved.cleared,moved⟩
  have before := laid.length_queue target
  obtain ⟨k',lists',ok,laid',moved⟩ := catqLoop_spec apart ((k.clists source).cCc.toNat + 1) laid (by omega) (by omega)
  exact ⟨k',lists',ok,laid',queue_cleared moved.cleared,moved⟩

def fillingOps : List (Op Bool) := [.bToQ (fun i => UInt8.ofNat i) 56 true,.putc 300 false]

theorem catq_moves_full : ∃ start k k' : Kernel Bool, cinit smallPool (boot (fun _ => 0) (fun _ => 0)) = .ok start ∧
    run (step smallPool) start fillingOps = .ok k ∧ k.cfreelist = 0 ∧ catq smallPool k true false = .ok k' ∧
    queue k' true = [] ∧ queue k' false = queue k false ++ queue k true := by
  obtain ⟨start,booted,-,ready⟩ := @cinit_spec Bool smallPool (fun _ => 0) fun _ => 0
  obtain ⟨k,ended,lists,laid⟩ := run_total step_laid fillingOps start ready (by simp [fillingOps,Along,Legal])
  obtain ⟨k',lists',ok,-,cleared,moved⟩ := @catq_moves Bool _ smallPool true false k lists laid (by decide)
  have nothing_left : ((cinit smallPool (boot (fun _ => 0) fun _ => 0)).bind fun start =>
      (run (step smallPool) start fillingOps).map (·.cfreelist)) = .ok 0 := by decide +kernel
  rw [booted,Except.bind,ended] at nothing_left
  exact ⟨start,k,k',booted,ended,Except.ok.inj nothing_left,ok,cleared,moved.joined⟩

end

end Retrobsd.CharacterLists

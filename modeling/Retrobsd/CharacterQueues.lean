import Retrobsd.CharacterBlocks

/-! What each operation of `tty_subr.c` does to the queue of its list. -/
namespace Retrobsd.CharacterLists
open List
open Function
open Lib.Chains

variable {ι : Type} {pool : Pool} {q : ι} {k : Kernel ι} {lists : Option ι → List Nat}

section
def released (k : Kernel ι) (b : Nat) : Kernel ι :=
  {k with cNext := update k.cNext b k.cfreelist,cfreelist := b,cfreecount := k.cfreecount + 28}

variable {b : Nat}

theorem release_eq (inside : pool.block b = true) : release pool k b = .ok (released k b) := by
  simp [release,storeNext,inside,released,bind,Except.bind]

theorem releaseWaking_eq (inside : pool.block b = true) :
    releaseWaking pool k b = .ok {released k b with cwaiting := false} := by
  simp [releaseWaking,release_eq inside,bind,Except.bind]

theorem Others.released [DecidableEq ι] (others : Others pool q k lists) {bs : List Nat}
    (source : (lists (some q)).Perm (b :: bs)) :
    Others pool q (released k b) (regroup lists q (b :: lists none) bs) := by
  have member : b ∈ lists (some q) := source.mem_iff.mpr mem_cons_self
  have elsewhere : ∀ i, i ≠ some q → b ∉ lists i := by
    intro i other there
    exact other (others.parted.unique there member)
  constructor
  · apply @Partition.move _ _ _ lists _ others.parted (some q) none b (by simp)
    · rw [regroup_self]
      exact source
    · rfl
    rintro (_ | r) ne same
    · exact absurd rfl same
    · exact regroup_other (by rintro rfl; exact ne rfl)
  · exact others.spare.push (elsewhere none (by simp)) (block_pos (others.block member)).ne'
  · simp only [CharacterLists.released,regroup_none,length_cons,others.counted]
    push_cast
    ring
  · intro r other
    rw [regroup_other other]
    apply (others.queued r other).congr
    intro x inside
    apply update_of_ne
    rintro rfl
    exact elsewhere (some r) (by simpa using other) inside

def allocated (k : Kernel ι) (next : Nat) : Kernel ι :=
  {k with cNext := update k.cNext k.cfreelist 0,cfreelist := next,cfreecount := k.cfreecount - 28}

variable (others : Others pool q k lists)
include others

theorem allocate_none (empty : lists none = []) : allocate pool k = .ok (k,none) := by
  have spare := others.spare
  rw [empty] at spare
  simp [allocate,chain_nil.mp spare]

theorem allocate_some {free : List Nat} (shape : lists none = b :: free) :
    k.cfreelist = b ∧ allocate pool k = .ok (allocated k (k.cNext b),some b) := by
  have spare := others.spare
  rw [shape] at spare
  obtain ⟨found,real,-⟩ := chain_cons.mp spare
  have inside : pool.block b = true := others.block (shape ▸ mem_cons_self : b ∈ lists none)
  refine ⟨found,?_⟩
  simp [allocate,allocated,found,real,loadNext,storeNext,inside,bind,Except.bind]

theorem Others.allocated [DecidableEq ι] {free : List Nat} (shape : lists none = b :: free) :
    Others pool q (allocated k (k.cNext b)) (regroup lists q free (lists (some q) ++ [b])) := by
  have spare := others.spare
  rw [shape] at spare
  obtain ⟨found,-,later⟩ := chain_cons.mp spare
  have member : b ∈ lists none := shape ▸ mem_cons_self
  have once : b ∉ free := by
    have distinct := others.parted.once none
    rw [shape] at distinct
    exact (nodup_cons.mp distinct).1
  constructor
  · apply @Partition.move _ _ _ lists _ others.parted none (some q) b (by simp)
    · rw [shape]
      rfl
    · rw [regroup_self]
      exact perm_append_singleton b _
    · rintro (_ | r) same ne
      · exact absurd rfl same
      · exact regroup_other (by rintro rfl; exact ne rfl)
  · rw [regroup_none]
    simp only [CharacterLists.allocated,found]
    exact later.frame once
  · have counted := others.counted
    rw [shape,length_cons] at counted
    simp only [CharacterLists.allocated,regroup_none]
    push_cast at counted
    omega
  · intro r other
    rw [regroup_other other]
    apply (others.queued r other).congr
    intro x inside
    simp only [CharacterLists.allocated,found]
    apply update_of_ne
    rintro rfl
    exact absurd (others.parted.unique member inside) (by simp)

theorem Others.storeNext (member : b ∈ lists (some q)) (v : Nat) :
    storeNext pool k b v = .ok {k with cNext := update k.cNext b v} ∧
    Others pool q {k with cNext := update k.cNext b v} lists := by
  have elsewhere : ∀ i, i ≠ some q → b ∉ lists i := by
    intro i other there
    exact other (others.parted.unique there member)
  constructor
  · simp [CharacterLists.storeNext,others.block member]
  exact {
    parted := others.parted
    spare := others.spare.frame (elsewhere none (by simp))
    counted := others.counted
    queued := by
      intro r other
      apply (others.queued r other).congr
      intro x inside
      apply update_of_ne
      rintro rfl
      exact elsewhere (some r) (by simpa using other) inside}

theorem Others.loadNext (member : b ∈ lists (some q)) : loadNext pool k b = .ok (k.cNext b) := by
  simp [CharacterLists.loadNext,others.block member]

theorem load_extent {x : Nat} (member : round x ∈ lists (some q))
    (behind : 4 ≤ x % 32) : load pool k x = .ok (k.cInfo x) := by
  simp [load,Pool.info,others.block member,behind]

end

def Becomes {ι : Type} (pool : Pool) (q : ι) (k : Kernel ι) (lists : Option ι → List Nat) (k' : Kernel ι)
    (content : List UInt8) : Prop :=
  ∃ lists', Laid pool k' lists' ∧ Frame q k lists k' lists' ∧ queue k' q = content

section
variable {a s z e : Nat}

theorem queue_cleared (cleared : k.clists q = ⟨0,0,0⟩) : queue k q = [] := by
  simp [queue,addresses,cleared,chars]

variable {bs rest : List Nat} {n : Nat}

theorem queue_fits (aligned : ∀ b ∈ bs, b % 32 = 0) (fits : Fits k.cNext (k.clists q) bs a s z e) :
    queue k q = (extent bs s e).map k.cInfo := by
  rw [queue,addresses_fits aligned fits]

theorem consume_all [DecidableEq ι] (laid : Laid pool k lists) (fits : Fits k.cNext (k.clists q) (lists (some q)) a s z e)
    (moved : 0 < n) (inside : s + n ≤ 32) (later : 4 < e) (all : (k.clists q).cCc = n) :
    ∃ k', consume pool k q n = .ok k' ∧ k'.cInfo = k.cInfo ∧ Becomes pool q k lists k' [] := by
  obtain ⟨rest,shape,-⟩ := fits.head
  have single : rest = [] := by
    have count := fits.count
    rw [shape,length_cons] at count
    cases rest with
    | nil => rfl
    | cons c rest => simp only [length_cons] at count; push_cast at count; omega
  rw [single] at shape
  have member : a ∈ lists (some q) := by simp [shape]
  have here := (laid.others q).block member
  have found : round (a + s + n - 1) = a := by
    rw [show a + s + n - 1 = a + (s + n - 1) by omega]
    exact round_block (block_aligned here) (by omega)
  have start : consume pool k q n = .ok {released (k.set q ⟨0,0,0⟩) a with cwaiting := false} := by
    simp only [consume,all,sub_self,le_refl,if_true,fits.front,found]
    exact releaseWaking_eq here
  have source : (lists (some q)).Perm [a] := by rw [shape]
  have others := ((laid.others q).set ⟨0,0,0⟩).released source
  refine ⟨_,start,rfl,regroup lists q (a :: lists none) [],?_,?_,?_⟩
  · apply Others.laid
    · exact {others with}
    · exact .inl ⟨by simp [released],regroup_self⟩
  · apply frame_regroup
    · intro r other
      exact set_other _ other
    · rfl
  · apply queue_cleared
    simp [released]

theorem Fits.advance {next : Nat → Nat} {p : Clist} {c v : Nat} (fits : Fits next p (a :: c :: rest) a s z e)
    (once : (a :: c :: rest).Nodup) :
    Fits (update next a v) {p with cCf := next a + 4,cCc := p.cCc - (32 - s)} (c :: rest) c 4 z e := by
  obtain ⟨-,-,later⟩ := chain_cons.mp fits.linked
  have found : next a = c := (chain_cons.mp later).1
  have count := fits.count
  have := fits.high
  have := fits.endLow
  simp only [length_cons] at count
  push_cast at count
  constructor
  · rw [found] at later
    exact later.frame (nodup_cons.mp once).1
  · simpa using fits.last
  · rw [found]
  · exact fits.back
  · exact le_refl 4
  · omega
  · exact fits.endLow
  · exact fits.endHigh
  · simp only [length_cons]
    push_cast
    omega
  · change 0 ≤ p.cCc - (32 - (s : Int))
    omega

theorem release_first [DecidableEq ι] (laid : Laid pool k lists) {c : Nat}
    (shape : lists (some q) = a :: c :: rest) (fits : Fits k.cNext (k.clists q) (a :: c :: rest) a s z e)
    (later : 4 < e) :
    ∃ k', releaseWaking pool (k.set q {k.clists q with
        cCc := (k.clists q).cCc - (32 - s),cCf := k.cNext a + 4}) a = .ok k' ∧
      k'.clists q = {k.clists q with cCc := (k.clists q).cCc - (32 - s),cCf := k.cNext a + 4} ∧
      k'.cInfo = k.cInfo ∧ Becomes pool q k lists k' ((queue k q).drop (32 - s)) := by
  have once := laid.parted.once (some q)
  rw [shape] at once
  have aligned := laid.aligned (some q)
  rw [shape] at aligned
  have here : pool.block a = true := (laid.others q).block (shape ▸ mem_cons_self : a ∈ lists (some q))
  have after := @Fits.advance a s z e _ _ _ _ k.cfreelist fits once
  have source : (lists (some q)).Perm (a :: c :: rest) := by rw [shape]
  have others := ((laid.others q).set {k.clists q with
    cCc := (k.clists q).cCc - (32 - s),cCf := k.cNext a + 4}).released source
  have high := fits.high
  have queued : queue k q = (extent (a :: c :: rest) s e).map k.cInfo := queue_fits aligned fits
  refine ⟨_,releaseWaking_eq here,by simp [released],rfl,regroup lists q (a :: lists none) (c :: rest),?_,?_,?_⟩
  · apply Others.laid
    · exact {others with}
    rw [regroup_self]
    refine .inr ⟨c,4,z,e,by simpa [released] using after,later,?_⟩
    have count := after.count
    simp only [released,set_self,length_cons] at count ⊢
    push_cast at count
    omega
  · apply frame_regroup
    · intro r other
      exact set_other _ other
    · rfl
  · have tail : ∀ b ∈ c :: rest, b % 32 = 0 := fun b member => aligned b (mem_cons_of_mem _ member)
    rw [queued,← map_drop,extent_drop (by omega),show s + (32 - s) = 32 by omega,extent_next]
    exact queue_fits tail (by simpa [released] using after)

theorem Fits.within {next : Nat → Nat} {p : Clist} (fits : Fits next p bs a s z e) (inside : s + n < 32) (enough : n ≤ p.cCc) :
    Fits next {p with cCf := p.cCf + n,cCc := p.cCc - n} bs a (s + n) z e := by
  have count := fits.count
  constructor
  · exact fits.linked
  · exact fits.last
  · simp only [fits.front]
    omega
  · exact fits.back
  · have := fits.low
    omega
  · exact inside
  · exact fits.endLow
  · exact fits.endHigh
  · push_cast
    omega
  · change 0 ≤ p.cCc - (n : Int)
    omega

theorem take_within [DecidableEq ι] (laid : Laid pool k lists)
    (fits : Fits k.cNext (k.clists q) (lists (some q)) a s z e) (later : 4 < e) (inside : s + n < 32)
    (enough : n < (k.clists q).cCc) :
    Becomes pool q k lists (k.set q {k.clists q with cCf := (k.clists q).cCf + n,cCc := (k.clists q).cCc - n})
    ((queue k q).drop n) := by
  have after := fits.within inside enough.le
  obtain ⟨rest,shape,-⟩ := fits.head
  have aligned := laid.aligned (some q)
  refine ⟨lists,?_,(Frame.refl q k lists).set _,?_⟩
  · apply ((laid.others q).set _).laid
    refine .inr ⟨a,s + n,z,e,by simpa using after,later,?_⟩
    simp only [set_self]
    omega
  have queued := queue_fits aligned fits
  have dropped : (extent (lists (some q)) s e).drop n = extent (lists (some q)) (s + n) e := by
    rw [shape]
    exact extent_drop inside.le
  rw [queued,← map_drop,dropped]
  exact queue_fits aligned (by simpa using after)

theorem consume_spec [DecidableEq ι] (laid : Laid pool k lists)
    (fits : Fits k.cNext (k.clists q) (lists (some q)) a s z e) (later : 4 < e) (moved : 0 < n)
    (inside : s + n ≤ 32) (enough : n ≤ (k.clists q).cCc) :
    ∃ k', consume pool k q n = .ok k' ∧ k'.cInfo = k.cInfo ∧ Becomes pool q k lists k' ((queue k q).drop n) := by
  have size := laid.length_queue q
  rcases Int.lt_or_eq_of_le enough with more | all
  · have stays : ¬ (k.clists q).cCc - (n : Int) ≤ 0 := by omega
    obtain ⟨rest,shape,-⟩ := fits.head
    have aligned := laid.aligned (some q) a (by simp [shape])
    rcases Nat.lt_or_eq_of_le inside with within | full
    · have becomes := take_within laid fits later within more
      have partly : ¬ ((k.clists q).cCf + n) % 32 = 0 := by
        rw [fits.front]
        omega
      refine ⟨_,?_,?_,becomes⟩
      · simp [consume,stays,partly]
      · rfl
    have count := fits.count
    rw [shape,length_cons] at count
    push_cast at count
    cases rest with
    | nil =>
      have := fits.endHigh
      simp only [length_nil] at count
      omega
    | cons c rest =>
      have whole : ((k.clists q).cCf + n) % 32 = 0 := by
        rw [fits.front]
        omega
      have used : (k.clists q).cCf + n - 32 = a := by
        rw [fits.front]
        omega
      obtain ⟨k',ok,-,info,becomes⟩ := release_first laid shape (shape ▸ fits) later
      refine ⟨k',?_,info,?_⟩
      · have loaded : loadNext pool k a = .ok (k.cNext a) := (laid.others q).loadNext (by simp [shape])
        have left : (32 : Int) - s = n := by omega
        rw [left] at ok
        simp only [consume,stays,whole,used,if_false,if_true,loaded,bind,Except.bind]
        exact ok
      · rwa [show 32 - s = n by omega] at becomes
  · obtain ⟨k',ok,info,becomes⟩ := consume_all laid fits moved inside later all.symm
    refine ⟨k',ok,info,?_⟩
    rwa [drop_eq_nil_of_le (by omega)]

theorem Laid.cleared [DecidableEq ι] (laid : Laid pool k lists) (empty : (k.clists q).cCc ≤ 0) :
    queue k q = [] ∧ Becomes pool q k lists (k.set q ⟨0,0,0⟩) [] ∧ k.set q ⟨0,0,0⟩ = k := by
  obtain ⟨cleared,blocks⟩ := (laid.queued q).cleared empty
  have same : k.set q ⟨0,0,0⟩ = k := by
    rw [← cleared]
    simp [Kernel.set]
  refine ⟨queue_cleared cleared,⟨lists,?_,?_,?_⟩,same⟩
  · rw [same]
    exact laid
  · rw [same]
    exact Frame.refl q k lists
  · rw [same]
    exact queue_cleared cleared

theorem copyOut_eq (others : Others pool q k lists) :
    ∀ {n x : Nat},(∀ y ∈ List.range' x n, round y ∈ lists (some q) ∧ 4 ≤ y % 32) →
    copyOut pool k x n = .ok ((List.range' x n).map k.cInfo)
  | 0,_,_ => rfl
  | n + 1,x,inside => by
    have here := inside x (by simp)
    have later := @copyOut_eq others n (x + 1) (fun y member => inside y (by
      rw [mem_range'_1] at member ⊢
      omega))
    simp [copyOut,load_extent others here.1 here.2,later,bind,Except.bind,range'_succ]

theorem Fits.take_front (laid : Laid pool k lists) (fits : Fits k.cNext (k.clists q) (lists (some q)) a s z e)
    (inside : s + n ≤ 32) (enough : n ≤ (k.clists q).cCc) :
    (addresses k q).take n = List.range' (k.clists q).cCf n := by
  obtain ⟨rest,shape,-⟩ := fits.head
  have count := fits.count
  rw [addresses_fits (laid.aligned _) fits,fits.front]
  rw [shape] at count ⊢
  apply extent_take inside
  rintro rfl
  simp only [length_singleton] at count
  omega

theorem copyOut_front (laid : Laid pool k lists) (fits : Fits k.cNext (k.clists q) (lists (some q)) a s z e)
    (inside : s + n ≤ 32) (enough : n ≤ (k.clists q).cCc) :
    copyOut pool k (k.clists q).cCf n = .ok ((queue k q).take n) := by
  have front := fits.take_front laid inside enough
  rw [copyOut_eq (laid.others q),queue,← map_take,front]
  intro y member
  rw [← front] at member
  exact laid.mem_addresses (mem_of_mem_take member)

def contiguous : List Nat → Nat
  | [] => 0
  | [_] => 1
  | a :: b :: l => if b = a + 1 then contiguous (b :: l) + 1 else 1

theorem contiguous_range' : ∀ (n x : Nat) (l : List Nat), l.head? ≠ some (x + n + 1) →
    contiguous (List.range' x (n + 1) ++ l) = n + 1
  | 0,x,[],_ => by simp [contiguous]
  | 0,x,y :: l,gap => by
    have other : ¬ y = x + 1 := fun same => gap (by simp [same])
    simp [contiguous,other]
  | n + 1,x,l,gap => by
    have ih := contiguous_range' n (x + 1) l (by rwa [show x + 1 + n + 1 = x + (n + 1) + 1 by ring])
    rw [range'_succ] at ih
    rw [range'_succ,range'_succ,cons_append,cons_append,contiguous]
    simpa using ih

theorem contiguous_extent {b : Nat} (aligned : ∀ x ∈ b :: bs, x % 32 = 0) (high : s < 32) (later : 4 < e)
    (order : bs = [] → s < e) :
    contiguous (extent (b :: bs) s e) = if bs = [] then e - s else 32 - s := by
  cases bs with
  | nil =>
    have := order rfl
    obtain ⟨n,size⟩ : ∃ n, e - s = n + 1 := ⟨e - s - 1,by omega⟩
    simp only [extent,if_true,size]
    simpa using contiguous_range' n (b + s) [] (by simp)
  | cons c bs =>
    obtain ⟨n,size⟩ : ∃ n, 32 - s = n + 1 := ⟨31 - s,by omega⟩
    have here := aligned b (by simp)
    have there := aligned c (by simp)
    simp only [extent,size,reduceCtorEq,if_false]
    apply contiguous_range'
    intro found
    have : c + 4 = b + s + n + 1 := by
      obtain ⟨m,width⟩ : ∃ m, e - 4 = m + 1 := ⟨e - 5,by omega⟩
      cases bs with
      | nil => simpa [extent,width,range'_succ] using found
      | cons d bs => simpa [extent,range'_succ] using found
    omega

theorem scan_eq (others : Others pool q k lists) (flag : BitVec 32) : ∀ {n x : Nat},
    (∀ y ∈ List.range' x n, round y ∈ lists (some q) ∧ 4 ≤ y % 32) →
    scan pool k flag x n = .ok (((List.range' x n).map k.cInfo).takeWhile fun c => !flagged c flag).length
  | 0,_,_ => rfl
  | n + 1,x,inside => by
    have here := inside x (by simp)
    have later := @scan_eq others flag n (x + 1) (fun y member => inside y (by
      rw [mem_range'_1] at member ⊢
      omega))
    rw [scan,load_extent others here.1 here.2]
    by_cases stop : flagged (k.cInfo x) flag = true
    · simp [stop,bind,Except.bind,range'_succ]
    · simp [stop,later,bind,Except.bind,range'_succ]

theorem Fits.contiguous (laid : Laid pool k lists) (fits : Fits k.cNext (k.clists q) (lists (some q)) a s z e)
    (later : 4 < e) (filled : 0 < (k.clists q).cCc) :
    (contiguous (addresses k q) : Int) = min (32 - (s : Int)) (k.clists q).cCc ∧
      (round ((k.clists q).cCf + 28) : Int) - (k.clists q).cCf = 32 - s := by
  obtain ⟨rest,shape,-⟩ := fits.head
  have aligned := laid.aligned (some q)
  have count := fits.count
  have high := fits.high
  have low := fits.low
  have top := fits.endHigh
  constructor
  · rw [addresses_fits aligned fits]
    rw [shape] at aligned count ⊢
    rw [contiguous_extent aligned high later]
    · by_cases single : rest = []
      · simp only [single,length_singleton,if_true] at count ⊢
        omega
      have := length_pos_of_ne_nil single
      simp only [single,length_cons,if_false] at count ⊢
      push_cast at count
      omega
    · rintro rfl
      simp only [length_singleton] at count
      omega
  · have here := aligned a (by simp [shape])
    rw [fits.front,round]
    omega

theorem Fits.stop (laid : Laid pool k lists) (fits : Fits k.cNext (k.clists q) (lists (some q)) a s z e) (later : 4 < e)
    (shape : lists (some q) = a :: rest) :
    round (k.clists q).cCf = a ∧
      (if a = round ((k.clists q).cCl - 1) then (k.clists q).cCl else a + 32) = if rest = [] then a + e else a + 32 := by
  have aligned := laid.aligned (some q)
  have last := fits.last
  have once := laid.parted.once (some q)
  have high := fits.high
  have top := fits.endHigh
  have tailAligned := aligned z (mem_of_getLast? fits.last)
  have final : round ((k.clists q).cCl - 1) = z := by
    rw [fits.back,show z + e - 1 = z + (e - 1) by omega]
    exact round_block tailAligned (by omega)
  rw [shape] at last once aligned
  constructor
  · rw [fits.front]
    exact round_block (aligned a (by simp)) high
  rw [final,fits.back]
  cases rest with
  | nil =>
    obtain rfl : a = z := by simpa using last
    simp
  | cons c rest =>
    have member : z ∈ c :: rest := mem_of_getLast? (by simpa using last)
    have other : ¬ a = z := by
      rintro rfl
      exact (nodup_cons.mp once).1 member
    simp [other]

def Flushed (pool : Pool) (q : ι) (k : Kernel ι) (lists : Option ι → List Nat) (k' : Kernel ι) (content : List UInt8) : Prop :=
  Becomes pool q k lists k' content ∧ 0 < (k'.clists q).cCc ∨ content = [] ∧ (k'.clists q).cCc ≤ 0 ∧
      ∃ lists', Others pool q k' lists' ∧ lists' (some q) = [] ∧ Frame q k lists k' lists'

theorem Flushed.trans {k' k'' : Kernel ι} {lists' : Option ι → List Nat} {content : List UInt8}
    (frame : Frame q k lists k' lists') (second : Flushed pool q k' lists' k'' content) :
    Flushed pool q k lists k'' content := by
  rcases second with ⟨⟨lists'',laid,frame',same⟩,filled⟩ | ⟨nothing,empty,lists'',others,blocks,frame'⟩
  · exact .inl ⟨⟨lists'',laid,frame.trans frame',same⟩,filled⟩
  · exact .inr ⟨nothing,empty,lists'',others,blocks,frame.trans frame'⟩

end

section
variable [DecidableEq ι]

theorem getc_spec (laid : Laid pool k lists) :
    ∃ k', getc pool k q = .ok (k',((queue k q).head?.map fun c => (c.toNat : Int)).getD (-1)) ∧
      Becomes pool q k lists k' (queue k q).tail := by
  by_cases empty : (k.clists q).cCc ≤ 0
  · obtain ⟨nothing,becomes,-⟩ := laid.cleared empty
    exact ⟨k.set q ⟨0,0,0⟩,by simp [getc,empty,nothing],by simpa [nothing] using becomes⟩
  obtain ⟨a,s,z,e,fits,later⟩ := (laid.queued q).fits (by omega)
  have high := fits.high
  obtain ⟨k',ok,-,becomes⟩ := consume_spec laid fits later one_pos high (by omega)
  have first := copyOut_front laid fits high (show ((1 : Nat) : Int) ≤ _ by omega)
  have size := laid.length_queue q
  obtain ⟨c,rest,shape⟩ : ∃ c rest, queue k q = c :: rest := by
    apply exists_cons_of_length_pos
    omega
  rw [shape] at first
  have loaded : load pool k (k.clists q).cCf = .ok c := by
    cases found : load pool k (k.clists q).cCf with
    | error fault => simp [copyOut,found,bind,Except.bind] at first
    | ok value => simpa [copyOut,found,bind,Except.bind] using first
  refine ⟨k',by simp [getc,empty,loaded,ok,shape,bind,Except.bind],?_⟩
  rwa [← drop_one]

theorem qToBLoop_spec : ∀ (turns : Nat) {k : Kernel ι} {lists : Option ι → List Nat} {cc : Int}, Laid pool k lists →
    0 ≤ cc → cc < turns → 0 < (k.clists q).cCc →
    ∃ k', qToBLoop pool turns k q cc = .ok (k',(queue k q).take cc.toNat) ∧ Becomes pool q k lists k' ((queue k q).drop cc.toNat)
  | 0,_,_,_,_,nonneg,few,_ => by simp only [Nat.cast_zero] at few; omega
  | turns + 1,k,lists,cc,laid,nonneg,few,filled => by
    rcases Int.lt_or_eq_of_le nonneg with positive | finished
    · obtain ⟨a,s,z,e,fits,later⟩ := (laid.queued q).fits filled
      have aligned : a % 32 = 0 := by
        obtain ⟨rest,shape,-⟩ := fits.head
        exact laid.aligned (some q) a (by simp [shape])
      have high := fits.high
      have offset : ((k.clists q).cCf % 32 : Nat) = s := by
        rw [fits.front]
        omega
      obtain ⟨n,chunk⟩ : ∃ n : Nat, min (min (32 - (s : Int)) cc) (k.clists q).cCc = n :=
        ⟨(min (min (32 - (s : Int)) cc) (k.clists q).cCc).toNat,by omega⟩
      have moved : 0 < n := by omega
      have inside : s + n ≤ 32 := by omega
      have enough : (n : Int) ≤ (k.clists q).cCc := by omega
      obtain ⟨k',ok,info,becomes⟩ := consume_spec laid fits later moved inside enough
      have copied := copyOut_front laid fits inside enough
      have size := laid.length_queue q
      obtain ⟨lists',laid',frame,content⟩ := becomes
      have size' := laid'.length_queue q
      rw [content,length_drop] at size'
      have nonzero : ¬ cc = 0 := by omega
      by_cases done : (k'.clists q).cCc ≤ 0
      · refine ⟨k',?_,lists',laid',frame,?_⟩
        · rw [qToBLoop,if_neg nonzero]
          simp only [offset,chunk,Int.toNat_natCast,copied,ok,bind,Except.bind,done,if_true]
          rw [take_of_length_le (by omega),take_of_length_le (by omega)]
        · rw [content,drop_eq_nil_of_le (by omega),drop_eq_nil_of_le (by omega)]
      obtain ⟨k'',ok',becomes'⟩ := @qToBLoop_spec turns k' lists' (cc - n) laid' (by omega) (by omega) (by omega)
      obtain ⟨lists'',laid'',frame',content'⟩ := becomes'
      have split : cc.toNat = n + (cc - n).toNat := by omega
      refine ⟨k'',?_,lists'',laid'',frame.trans frame',?_⟩
      · rw [qToBLoop,if_neg nonzero]
        simp only [offset,chunk,Int.toNat_natCast,copied,ok,bind,Except.bind,done,if_false,ok',content]
        rw [split,take_add]
      · rw [content',content,drop_drop,split]
    · subst finished
      refine ⟨k,by simp [qToBLoop],lists,laid,Frame.refl q k lists,by simp⟩

theorem qToB_spec (laid : Laid pool k lists) (cc : Int) : ∃ k', qToB pool k q cc = .ok (k',(queue k q).take cc.toNat) ∧
      Becomes pool q k lists k' ((queue k q).drop cc.toNat) := by
  by_cases none : cc ≤ 0
  · have zero : cc.toNat = 0 := by omega
    exact ⟨k,by simp [qToB,none,zero],lists,laid,Frame.refl q k lists,by simp [zero]⟩
  by_cases empty : (k.clists q).cCc ≤ 0
  · obtain ⟨nothing,becomes,-⟩ := laid.cleared empty
    exact ⟨k.set q ⟨0,0,0⟩,by simp [qToB,none,empty,nothing],by simpa [nothing] using becomes⟩
  obtain ⟨k',ok,becomes⟩ := @qToBLoop_spec ι pool q _ (cc.toNat + 1) k lists cc laid (by omega) (by push_cast; omega) (by omega)
  exact ⟨k',by rw [qToB,if_neg none,if_neg empty,ok],becomes⟩

def unflagged (k : Kernel ι) (q : ι) (flag : BitVec 32) : Nat :=
  (((queue k q).take (contiguous (addresses k q))).takeWhile fun c => !flagged c flag).length

theorem ndqb_spec (laid : Laid pool k lists) (flag : BitVec 32) : ndqb pool k q flag = .ok (unflagged k q flag : Int) := by
  by_cases empty : (k.clists q).cCc ≤ 0
  · obtain ⟨nothing,-,-⟩ := laid.cleared empty
    obtain ⟨zero,-⟩ := (laid.queued q).cleared empty
    simp [ndqb,unflagged,nothing,zero]
  obtain ⟨a,s,z,e,fits,later⟩ := (laid.queued q).fits (by omega)
  obtain ⟨size,width⟩ := fits.contiguous laid later (by omega)
  have high := fits.high
  have inside : s + contiguous (addresses k q) ≤ 32 := by omega
  have front := fits.take_front laid inside (by omega)
  have taken : (queue k q).take (contiguous (addresses k q)) =
    (List.range' (k.clists q).cCf (contiguous (addresses k q))).map k.cInfo := by
    rw [queue,← map_take,front]
  simp only [ndqb,if_neg empty,width,← size]
  by_cases plain : flag = 0
  · have all : ∀ l : List UInt8, (l.takeWhile fun c => !flagged c 0) = l := by
      intro l
      apply takeWhile_eq_self_iff.mpr
      intro c _
      simp [flagged]
    have length : (queue k q).length = (addresses k q).length := by rw [queue,length_map]
    have bound := laid.length_addresses q
    rw [if_pos plain,unflagged,plain]
    rw [all,length_take]
    congr 2
    omega
  · rw [if_neg plain,Int.toNat_natCast,scan_eq (laid.others q) flag,unflagged,taken]
    · rfl
    intro y member
    rw [← front] at member
    exact laid.mem_addresses (mem_of_mem_take member)

theorem flushed_last (laid : Laid pool k lists) {a : Nat} {p : Clist} (shape : lists (some q) = [a]) (empty : p.cCc ≤ 0) :
    ∃ k', releaseWaking pool (k.set q p) a = .ok k' ∧ k'.clists q = p ∧ Flushed pool q k lists k' [] := by
  have here := (laid.others q).block (shape ▸ mem_cons_self : a ∈ lists (some q))
  have source : (lists (some q)).Perm [a] := by rw [shape]
  have others := ((laid.others q).set p).released source
  refine ⟨_,releaseWaking_eq here,by simp [released],.inr ⟨rfl,by simpa [released] using empty,_,{others with},regroup_self,?_⟩⟩
  apply frame_regroup
  · intro r other
    exact set_other _ other
  · rfl

theorem ndflushLoop_spec : ∀ (turns : Nat) {k : Kernel ι} {lists : Option ι → List Nat} {cc : Int},
    Laid pool k lists → 0 < (k.clists q).cCc → (k.clists q).cCc < turns →
    ∃ k', ndflushLoop pool turns k q cc = .ok k' ∧ Flushed pool q k lists k' ((queue k q).drop cc.toNat)
  | 0,_,_,_,_,filled,few => by simp only [Nat.cast_zero] at few; omega
  | turns + 1,k,lists,cc,laid,filled,few => by
    by_cases positive : cc > 0
    swap
    · have zero : cc.toNat = 0 := by omega
      refine ⟨k,by simp [ndflushLoop,positive],.inl ⟨⟨lists,laid,Frame.refl q k lists,by simp [zero]⟩,filled⟩⟩
    obtain ⟨a,s,z,e,fits,later⟩ := (laid.queued q).fits filled
    obtain ⟨rest,shape,-⟩ := fits.head
    obtain ⟨first,stop⟩ := fits.stop laid later shape
    have count := fits.count
    have high := fits.high
    have top := fits.endHigh
    have size := laid.length_queue q
    have enter : cc > 0 ∧ (k.clists q).cCc ≠ 0 := ⟨positive,by omega⟩
    have loaded : loadNext pool k a = .ok (k.cNext a) := (laid.others q).loadNext (by simp [shape])
    rw [shape,length_cons] at count
    push_cast at count
    -- Whatever is left of the first block, fewer characters than that leave it in place.
    have partly : cc < 32 - s → cc < (k.clists q).cCc → Flushed pool q k lists (k.set q {k.clists q with
        cCc := (k.clists q).cCc - cc, cCf := (k.clists q).cCf + cc.toNat}) ((queue k q).drop cc.toNat) := by
      intro inside enough
      have becomes := take_within laid fits later (n := cc.toNat) (by omega) (by omega)
      rw [show ((cc.toNat : Nat) : Int) = cc by omega] at becomes
      exact .inl ⟨becomes,by simp only [set_self]; omega⟩
    cases rest with
    | nil =>
      simp only [length_nil] at count
      have width : ((a + e : Nat) : Int) - (k.clists q).cCf = (k.clists q).cCc := by
        rw [fits.front]
        push_cast
        omega
      by_cases all : cc ≥ (k.clists q).cCc
      · obtain ⟨k',ok,same,flushed⟩ := flushed_last laid (p := {k.clists q with
          cCc := (k.clists q).cCc - (k.clists q).cCc, cCf := k.cNext a + 4}) shape (by simp)
        refine ⟨k',?_,?_⟩
        · obtain _ | more := turns
          · omega
          have finished : ndflushLoop pool (more + 1) k' q (cc - (k.clists q).cCc) = .ok k' := by
            simp [ndflushLoop,same]
          rw [ndflushLoop]
          simp only [enter,first,stop,if_true,width,all,loaded,bind,Except.bind,ok,finished,ne_eq,not_false_eq_true,and_self]
        · rw [drop_eq_nil_of_le (by omega)]
          exact flushed
      · refine ⟨_,?_,partly (by omega) (by omega)⟩
        rw [ndflushLoop]
        simp only [enter,first,stop,if_true,width,if_neg all,ne_eq,not_false_eq_true,and_self,set_self]
        rw [if_neg (by omega)]
    | cons c rest =>
      have width : ((a + 32 : Nat) : Int) - (k.clists q).cCf = 32 - s := by
        rw [fits.front]
        push_cast
        omega
      simp only [length_cons] at count
      push_cast at count
      by_cases all : cc ≥ 32 - s
      · obtain ⟨k',ok,same,-,lists',laid',frame,content⟩ := release_first laid shape (shape ▸ fits) later
        have left := laid'.length_queue q
        rw [content,length_drop] at left
        obtain ⟨k'',ok',flushed⟩ := @ndflushLoop_spec turns k' lists' (cc - (32 - s)) laid' (by omega) (by omega)
        refine ⟨k'',?_,?_⟩
        · rw [ndflushLoop]
          simp only [enter,first,stop,if_true,width,all,loaded,bind,Except.bind,ok,ok',ne_eq,not_false_eq_true,
            and_self,reduceCtorEq,if_false]
        · rw [content,drop_drop,show 32 - s + (cc - (32 - (s : Int))).toNat = cc.toNat by omega] at flushed
          exact Flushed.trans frame flushed
      · refine ⟨_,?_,partly (by omega) (by omega)⟩
        rw [ndflushLoop]
        simp only [enter,first,stop,if_true,width,if_neg all,ne_eq,not_false_eq_true,and_self,set_self,reduceCtorEq,if_false]
        rw [if_neg (by omega)]

theorem ndflush_spec (laid : Laid pool k lists) (cc : Int) :
    ∃ k', ndflush pool k q cc = .ok k' ∧ Becomes pool q k lists k' ((queue k q).drop cc.toNat) := by
  by_cases empty : (k.clists q).cCc ≤ 0
  · obtain ⟨nothing,-,-⟩ := laid.cleared empty
    exact ⟨k,by simp [ndflush,empty],lists,laid,Frame.refl q k lists,by simp [nothing]⟩
  obtain ⟨k',ok,flushed⟩ := @ndflushLoop_spec ι pool q _ ((k.clists q).cCc.toNat + 1) k lists cc laid (by omega)
    (by push_cast; omega)
  rcases flushed with ⟨becomes,filled⟩ | ⟨nothing,none,lists',others,blocks,frame⟩
  · refine ⟨k',?_,becomes⟩
    simp only [ndflush,if_neg empty,ok,bind,Except.bind]
    rw [if_neg (by omega)]
  refine ⟨k'.set q ⟨0,0,0⟩,by simp [ndflush,empty,ok,none,bind,Except.bind],lists',?_,frame.set _,?_⟩
  · apply (others.set _).laid
    exact .inl ⟨set_self _,blocks⟩
  rw [nothing]
  exact queue_cleared (set_self _)

end

end Retrobsd.CharacterLists

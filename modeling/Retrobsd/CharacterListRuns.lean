import Retrobsd.CharacterAppends
import Retrobsd.Lib.Run

/-! Runs of operations on any number of character lists that share the pool which
`cinit` has set up. -/
namespace Retrobsd.CharacterLists
open Lib.Chains Lib.Run List

section
variable {ι : Type} {pool : Pool}

structure Filling (pool : Pool) (k : Kernel ι) (cp : Nat) (l : List Nat) : Prop where
  linked : Chain k.cNext 0 k.cfreelist l
  counted : k.cfreecount = 28 * l.length
  once : l.Nodup
  below : ∀ b, b ∈ l ↔ pool.block b = true ∧ b < cp

theorem Filling.release {k : Kernel ι} {cp : Nat} {l : List Nat} (filling : Filling pool k cp l) (aligned : cp % 32 = 0)
    (low : pool.cfree ≤ cp) (high : cp + 32 ≤ pool.cfree + 32 * pool.nclist) :
    release pool k cp = .ok (released k cp) ∧ Filling pool (released k cp) (cp + 32) (cp :: l) := by
  have inside : pool.block cp = true := by simp [Pool.block,aligned,low,high]
  have absent : cp ∉ l := fun member => absurd ((filling.below cp).mp member).2 (lt_irrefl cp)
  refine ⟨release_eq inside,?_,?_,?_,?_⟩
  · exact filling.linked.push absent (block_pos inside).ne'
  · simp only [released,filling.counted,length_cons]
    push_cast
    ring
  · exact nodup_cons.mpr ⟨absent,filling.once⟩
  intro b
  rw [mem_cons,filling.below]
  constructor
  · rintro (rfl | ⟨found,before⟩)
    · exact ⟨inside,by omega⟩
    · exact ⟨found,by omega⟩
  rintro ⟨found,before⟩
  have := block_aligned found
  rcases Nat.lt_or_ge b cp with less | more
  · exact .inr ⟨found,less⟩
  · exact .inl (by omega)

theorem cinitLoop_spec : ∀ (turns : Nat) {k : Kernel ι} {cp : Nat} {l : List Nat}, Filling pool k cp l → cp % 32 = 0 →
    pool.cfree ≤ cp → pool.cfree + 32 * pool.nclist < cp + 32 * turns + 32 →
    ∃ k' cp' l', cinitLoop pool turns k cp = .ok k' ∧ Filling pool k' cp' l' ∧
    pool.cfree + 32 * pool.nclist < cp' + 32 ∧ k'.clists = k.clists
  | 0,k,cp,l,filling,_,_,enough => by
    refine ⟨k,cp,l,?_,filling,by omega,rfl⟩
    rw [cinitLoop,if_neg (by omega)]
  | turns + 1,k,cp,l,filling,aligned,low,enough => by
    by_cases high : cp + 32 ≤ pool.cfree + 32 * pool.nclist
    · obtain ⟨ok,next⟩ := filling.release aligned low high
      obtain ⟨k',cp',l',ok',filled,done,same⟩ := cinitLoop_spec turns next (by omega) (by omega) (by omega)
      refine ⟨k',cp',l',?_,filled,done,same⟩
      rw [cinitLoop,if_pos high,ok]
      exact ok'
    · refine ⟨k,cp,l,?_,filling,by omega,rfl⟩
      rw [cinitLoop,if_neg high]

theorem cinit_spec (next : Nat → Nat) (info : Nat → UInt8) :
    ∃ k : Kernel ι, cinit pool (boot next info) = .ok k ∧ (∀ q, k.clists q = ⟨0,0,0⟩) ∧ ∃ lists, Laid pool k lists := by
  have start : Filling pool (boot next info : Kernel ι) (round (pool.cfree + 31)) [] := by
    refine ⟨chain_nil.mpr rfl,rfl,nodup_nil,?_⟩
    intro b
    constructor
    · exact nofun
    rintro ⟨found,below⟩
    simp only [Pool.block,Bool.and_eq_true,beq_iff_eq,decide_eq_true_eq,round] at found below
    omega
  obtain ⟨k,cp,l,ok,filled,done,same⟩ := cinitLoop_spec pool.nclist start (by unfold round; omega)
    (by unfold round; omega) (by unfold round; omega)
  have cleared : ∀ q, k.clists q = ⟨0,0,0⟩ := fun q => by rw [same]; rfl
  have cover : ∀ b, pool.block b = true ↔ b ∈ l := by
    intro b
    rw [filled.below]
    constructor
    · intro found
      refine ⟨found,?_⟩
      simp only [Pool.block,Bool.and_eq_true,beq_iff_eq,decide_eq_true_eq] at found
      omega
    · exact And.left
  refine ⟨k,ok,cleared,fun i => i.elim l fun _ => [],⟨?_,?_,?_⟩,filled.linked,filled.counted,?_⟩
  · rintro (_ | q)
    · exact filled.once
    · exact nodup_nil
  · rintro (_ | q) (_ | r) other
    · exact absurd rfl other
    · exact disjoint_nil_right _
    · exact disjoint_nil_left _
    · exact disjoint_nil_left _
  · intro b
    rw [cover]
    constructor
    · exact fun member => ⟨none,member⟩
    rintro ⟨(_ | q),member⟩
    · exact member
    · cases member
  · exact fun q => .inl ⟨cleared q,rfl⟩

/-- Every block of the pool is on `cfreelist` or on one list, once, and
`cfreecount` counts the characters that the free ones take. -/
def Partitioned (pool : Pool) (k : Kernel ι) : Prop :=
    ∃ lists : Option ι → List Nat, Partition (fun b => pool.block b = true) lists ∧
    Chain k.cNext 0 k.cfreelist (lists none) ∧ k.cfreecount = 28 * (lists none).length ∧
    ∀ q, Chain k.cNext 0 (round (k.clists q).cCf) (lists (some q))

theorem Laid.partitioned {k : Kernel ι} {lists : Option ι → List Nat} (laid : Laid pool k lists) : Partitioned pool k := by
  refine ⟨lists,laid.parted,laid.spare,laid.counted,?_⟩
  intro q
  rcases laid.queued q with ⟨cleared,blocks⟩ | ⟨a,s,z,e,fits,-,-⟩
  · rw [cleared,blocks]
    exact chain_nil.mpr rfl
  obtain ⟨rest,shape,-⟩ := fits.head
  have aligned := laid.aligned (some q) a (by simp [shape])
  rw [fits.front,round_block aligned fits.high]
  exact fits.linked

end

inductive Op (ι : Type) where
  | getc (q : ι)
  | qToB (q : ι) (cc : Int)
  | ndqb (q : ι) (flag : BitVec 32)
  | ndflush (q : ι) (cc : Int)
  | putc (c : Int) (q : ι)
  | bToQ (cp : Nat → UInt8) (cc : Int) (q : ι)
  | nextc (q : ι) (cp : Nat)
  | unputc (q : ι)

inductive Result where
  | value (n : Int)
  | bytes (cs : List UInt8)
  | pointer (p : Nat)
  | done
deriving DecidableEq

def Op.list {ι : Type} : Op ι → ι
  | getc q => q
  | qToB q _ => q
  | ndqb q _ => q
  | ndflush q _ => q
  | putc _ q => q
  | bToQ _ _ q => q
  | nextc q _ => q
  | unputc q => q

section
variable {ι : Type} [DecidableEq ι]

def perform (pool : Pool) (k : Kernel ι) : Op ι → Except Fault (Kernel ι × Result)
  | .getc q => (getc pool k q).map fun (k,c) => (k,.value c)
  | .qToB q cc => (qToB pool k q cc).map fun (k,cs) => (k,.bytes cs)
  | .ndqb q flag => (ndqb pool k q flag).map fun n => (k,.value n)
  | .ndflush q cc => (ndflush pool k q cc).map fun k => (k,.done)
  | .putc c q => (putc pool k c q).map fun (k,n) => (k,.value n)
  | .bToQ cp cc q => (bToQ pool k cp cc q).map fun (k,n) => (k,.value n)
  | .nextc q cp => (nextc pool k q cp).map fun p => (k,.pointer p)
  | .unputc q => (unputc pool k q).map fun (k,c) => (k,.value c)

def step (pool : Pool) (k : Kernel ι) (op : Op ι) : Except Fault (Kernel ι) := (perform pool k op).map Prod.fst

def Legal (k : Kernel ι) : Op ι → Prop
  | .nextc q cp => cp ∈ addresses k q
  | _ => True

/-- The operation on a queue of bytes: what it returns and what it leaves. The
places of the bytes matter to `ndqb` and `nextc` only, and the space that is left
in the pool to `putc` and `b_to_q`. -/
def Op.onQueue (queue : List UInt8) (places : List Nat) (room : Nat) : Op ι → Result × List UInt8
  | getc _ => (.value ((queue.head?.map fun c => (c.toNat : Int)).getD (-1)),queue.tail)
  | qToB _ cc => (.bytes (queue.take cc.toNat),queue.drop cc.toNat)
  | ndqb _ flag => (.value ((queue.take (contiguous places)).takeWhile fun c => !flagged c flag).length,queue)
  | ndflush _ cc => (.done,queue.drop cc.toNat)
  | putc c _ => if room = 0 then (.value (-1),queue) else (.value 0,queue ++ [UInt8.ofNat (c % 256).toNat])
  | bToQ cp cc _ => (.value (cc.toNat - room : Nat),queue ++ ((List.range cc.toNat).map cp).take room)
  | nextc _ cp => (.pointer (places[places.idxOf cp + 1]?.getD 0),queue)
  | unputc _ => (.value ((queue.getLast?.map charValue).getD (-1)),queue.dropLast)

theorem perform_spec {pool : Pool} {k : Kernel ι} {lists : Option ι → List Nat} (laid : Laid pool k lists) (op : Op ι)
    (legal : Legal k op) :
    ∃ k', perform pool k op = .ok (k',(op.onQueue (queue k op.list) (addresses k op.list) (room k op.list)).1) ∧
      Becomes pool op.list k lists k' (op.onQueue (queue k op.list) (addresses k op.list) (room k op.list)).2 := by
  have same : ∀ q, Becomes pool q k lists k (queue k q) := fun q => ⟨lists,laid,Frame.refl q k lists,rfl⟩
  cases op with
  | getc q =>
    obtain ⟨k',ok,becomes⟩ := getc_spec laid (q := q)
    exact ⟨k',by simp [perform,ok,Except.map,Op.onQueue,Op.list],becomes⟩
  | qToB q cc =>
    obtain ⟨k',ok,becomes⟩ := qToB_spec laid (q := q) cc
    exact ⟨k',by simp [perform,ok,Except.map,Op.onQueue,Op.list],becomes⟩
  | ndqb q flag =>
    exact ⟨k,by simp [perform,ndqb_spec laid flag,unflagged,Except.map,Op.onQueue,Op.list],same q⟩
  | ndflush q cc =>
    obtain ⟨k',ok,becomes⟩ := ndflush_spec laid (q := q) cc
    exact ⟨k',by simp [perform,ok,Except.map,Op.onQueue,Op.list],becomes⟩
  | putc c q =>
    rcases putc_spec laid (q := q) c with ⟨full,ok⟩ | ⟨space,k',ok,becomes⟩
    · exact ⟨k,by simp [perform,ok,Except.map,Op.onQueue,Op.list,full],by simpa [Op.onQueue,Op.list,full] using same q⟩
    exact ⟨k',by simp [perform,ok,Except.map,Op.onQueue,Op.list,space.ne'],by simpa [Op.onQueue,Op.list,space.ne'] using becomes⟩
  | bToQ cp cc q =>
    obtain ⟨k',ok,becomes⟩ := bToQ_spec laid (q := q) cp cc
    exact ⟨k',by simp [perform,ok,Except.map,Op.onQueue,Op.list],becomes⟩
  | nextc q cp =>
    have found : (addresses k q)[(addresses k q).idxOf cp]? = some cp := List.getElem?_idxOf legal
    exact ⟨k,by simp [perform,nextc_spec laid found,Except.map,Op.onQueue,Op.list],same q⟩
  | unputc q =>
    obtain ⟨k',ok,becomes⟩ := unputc_spec laid (q := q)
    exact ⟨k',by simp [perform,ok,Except.map,Op.onQueue,Op.list],becomes⟩

theorem step_laid {pool : Pool} (k : Kernel ι) (op : Op ι) : (∃ lists, Laid pool k lists) → Legal k op →
    ∃ k', step pool k op = .ok k' ∧ ∃ lists, Laid pool k' lists := by
  rintro ⟨lists,laid⟩ allowed
  obtain ⟨k',done,lists',laid',-,-⟩ := perform_spec laid op allowed
  exact ⟨k',by simp [step,done,Except.map],lists',laid'⟩

/-- For every pool that `cinit` sets up and every run of operations on lists that share it, each list is a queue
of bytes: no operation goes astray, each answers as on its queue and leaves the other lists alone, `c_cc` is the
length of the queue and the blocks partition the pool. -/
theorem clists_refined (pool : Pool) (next : Nat → Nat) (info : Nat → UInt8) :
    ∃ start : Kernel ι, cinit pool (boot next info) = .ok start ∧ (∀ q, queue start q = []) ∧
      ∀ ops, Along (step pool) Legal start ops → ∃ k, run (step pool) start ops = .ok k ∧
        Partitioned pool k ∧ (∀ q, (k.clists q).cCc = (queue k q).length) ∧
        ∀ op, Legal k op → ∃ k',perform pool k op =
        .ok (k',(op.onQueue (queue k op.list) (addresses k op.list) (room k op.list)).1) ∧
          queue k' op.list = (op.onQueue (queue k op.list) (addresses k op.list) (room k op.list)).2 ∧
          ∀ r, r ≠ op.list → k'.clists r = k.clists r ∧ addresses k' r = addresses k r ∧ queue k' r = queue k r := by
  obtain ⟨start,ok,cleared,ready⟩ := @cinit_spec ι pool next info
  refine ⟨start,ok,fun q => queue_cleared (cleared q),?_⟩
  intro ops legal
  obtain ⟨k,ended,lists,laid⟩ := run_total step_laid ops start ready legal
  refine ⟨k,ended,laid.partitioned,fun q => (laid.length_queue q).symm,?_⟩
  intro op allowed
  obtain ⟨k',done,lists',laid',frame,content⟩ := perform_spec laid op allowed
  refine ⟨k',done,content,?_⟩
  intro r other
  exact ⟨frame.sameClist r other,frame.addresses laid laid' other,frame.queue laid laid' other⟩

def smallPool : Pool := ⟨71,4,by decide⟩

def someOps : List (Op Bool) :=
    [.bToQ (fun i => UInt8.ofNat i) 56 true,.putc 300 false,.putc 301 true,.getc true,.unputc true,.ndflush true 30]

theorem clists_refined_someOps : ∃ start : Kernel Bool,cinit smallPool (boot (fun _ => 0) (fun _ => 0)) = .ok start ∧
      ∃ k, run (step smallPool) start someOps = .ok k ∧ Partitioned smallPool k := by
  obtain ⟨start,ok,-,runs⟩ := clists_refined (ι := Bool) smallPool (fun _ => 0) (fun _ => 0)
  obtain ⟨k,ended,parted,-⟩ := runs someOps (by simp [someOps,Along,Legal])
  exact ⟨start,ok,k,ended,parted⟩

end

end Retrobsd.CharacterLists

import Retrobsd.BufferIdentity
import Retrobsd.Lib.Run

/-! Processes that share the buffer cache. A process runs until it sleeps in
`getblk`, `getnewbuf` or `biowait`, or until `getnewbuf` has started to write a
buffer out, and any other process may go on then. -/
namespace Retrobsd.BufferCache
open Function
open Lib.Run

variable {n : Nat} {ι : Type} [DecidableEq ι]

/-- What `getblk` was called for: by itself, by `bread`, or for one of the two
blocks of `breada`. -/
inductive Task (n : Nat) where
  | getblk
  | bread
  | first (rablkno : Nat)
  | ahead (blkno : Nat) (bp : Option (Fin n))
deriving DecidableEq

inductive Loop where
  | getblk
  | getnewbuf
deriving DecidableEq

inductive Pc (n : Nat) where
  | idle
  | inside (loop : Loop) (task : Task n) (dev : Dev) (blkno : Nat) (chan : Option (Chan n))
  | biowait (i : Fin n) (chan : Option (Chan n))
deriving DecidableEq

/-- `owner` is the process that has obtained a buffer and not yet released it. -/
structure Processes (ι : Type) (n : Nat) where
  cache : Cache n
  pc : ι → Pc n
  owner : Fin n → Option ι

variable (cfg : Config)

namespace Processes

def goto (m : Processes ι n) (p : ι) (pc : Pc n) : Processes ι n := {m with pc := update m.pc p pc}

def awake (woken : List (Chan n)) : Pc n → Pc n
  | .inside loop task dev blkno (some c) => .inside loop task dev blkno (if c ∈ woken then none else some c)
  | .biowait i (some c) => .biowait i (if c ∈ woken then none else some c)
  | pc => pc

def deliver (m : Processes ι n) : Processes ι n :=
    {m with cache := {m.cache with woken := []},pc := fun p => awake m.cache.woken (m.pc p)}

def enter (m : Processes ι n) (p : ι) (task : Task n) (dev : Dev) (blkno : Nat) : Except (Fault n) (Processes ι n) :=
  if major dev ≥ cfg.nblkdev then .error (.panic "blkdev") else .ok (m.goto p (.inside .getblk task dev blkno none))

def waitFor (m : Processes ι n) (p : ι) (i : Fin n) : Except (Fault n) (Processes ι n) :=
  match BufferCache.biowait m.cache i with
  | .ok s => .ok (({m with cache := s} : Processes ι n).goto p .idle)
  | .error (.sleeping c) => .ok (m.goto p (.biowait i (some c)))
  | .error e => .error e

def last (m : Processes ι n) (p : ι) (dev : Dev) (blkno : Nat) : Option (Fin n) → Except (Fault n) (Processes ι n)
  | none => enter cfg m p .bread dev blkno
  | some i => waitFor m p i

/-- The part of `breada` that starts with the test for a read-ahead block. -/
def aheadOf (m : Processes ι n) (p : ι) (dev : Dev) (blkno rablkno : Nat)
    (bp : Option (Fin n)) : Except (Fault n) (Processes ι n) :=
  if rablkno = 0 ∨ incore m.cache dev rablkno then last cfg m p dev blkno bp
  else enter cfg m p (.ahead blkno bp) dev rablkno

def startAhead (s : Cache n) (i : Fin n) : Except (Fault n) (Cache n) :=
  if present s i then .ok (brelse s i) else startRead cfg s i true

def finish (m : Processes ι n) (p : ι) (dev : Dev) (blkno : Nat) (i : Fin n) : Task n → Except (Fault n) (Processes ι n)
  | .getblk => .ok (({m with owner := update m.owner i (some p)} : Processes ι n).goto p .idle)
  | .bread => do
    let m := {m with owner := update m.owner i (some p)}
    if present m.cache i then return m.goto p .idle
    let s ← startRead cfg m.cache i false
    waitFor {m with cache := s} p i
  | .first rablkno => do
    let s ← readFirst cfg m.cache i
    aheadOf cfg ⟨s,m.pc,update m.owner i (some p)⟩ p dev blkno rablkno (some i)
  | .ahead first bp => do
    let s ← startAhead cfg m.cache i
    last cfg {m with cache := s} p dev first bp

def allocate (m : Processes ι n) (p : ι) (task : Task n) (dev : Dev) (blkno : Nat) : Except (Fault n) (Processes ι n) := do
  match ← newbufTurn cfg m.cache with
  | .empty s => return ({m with cache := s} : Processes ι n).goto p (.inside .getnewbuf task dev blkno (some .bfreelist))
  | .pushed s => return ({m with cache := s} : Processes ι n).goto p (.inside .getnewbuf task dev blkno none)
  | .found s i => finish cfg {m with cache := assignBlock s i dev blkno} p dev blkno i task

def search (m : Processes ι n) (p : ι) (task : Task n) (dev : Dev) (blkno : Nat) : Except (Fault n) (Processes ι n) :=
  match lookup m.cache dev blkno with
  | some i =>
    if (m.cache.buf i).flags.bBusy then
      .ok (({m with cache := m.cache.setFlags i (fun f => {f with bWanted := true})} : Processes ι n).goto p
        (.inside .getblk task dev blkno (some (.buf i))))
    else finish cfg {m with cache := notavail m.cache i} p dev blkno i task
  | none => allocate cfg m p task dev blkno

def gives (m : Processes ι n) (i : Fin n) (result : Except (Fault n) (Cache n)) : Except (Fault n) (Processes ι n) :=
  result.map fun s => {m with cache := s,owner := update m.owner i none}

end Processes

inductive Request (n : Nat) where
  | getblk (dev : Dev) (blkno : Nat)
  | bread (dev : Dev) (blkno : Nat)
  | breada (dev : Dev) (blkno rablkno : Nat)
  | brelse (i : Fin n)
  | bwrite (i : Fin n)
  | bdwrite (i : Fin n)
deriving DecidableEq

inductive Move (ι : Type) (n : Nat) where
  | call (p : ι) (request : Request n)
  | resume (p : ι)

open Processes in
def moveWith (m : Processes ι n) : Move ι n → Except (Fault n) (Processes ι n)
  | .call p (.getblk dev blkno) => enter cfg m p .getblk dev blkno
  | .call p (.bread dev blkno) => enter cfg m p .bread dev blkno
  | .call p (.breada dev blkno rablkno) =>
    if incore m.cache dev blkno then aheadOf cfg m p dev blkno rablkno none else enter cfg m p (.first rablkno) dev blkno
  | .call _ (.brelse i) => m.gives i (.ok (brelse m.cache i))
  | .call _ (.bwrite i) => m.gives i (bwrite cfg m.cache i)
  | .call _ (.bdwrite i) => m.gives i (bdwrite cfg m.cache i)
  | .resume p => match m.pc p with
    | .inside .getblk task dev blkno none => search cfg m p task dev blkno
    | .inside .getnewbuf task dev blkno none => allocate cfg m p task dev blkno
    | .biowait i none => waitFor m p i
    | .inside _ _ _ _ (some c) => .error (.sleeping c)
    | .biowait _ (some c) => .error (.sleeping c)
    | .idle => .ok m

def move (m : Processes ι n) (a : Move ι n) : Except (Fault n) (Processes ι n) := (moveWith cfg m a).map Processes.deliver

def Pc.ready : Pc n → Bool
  | .inside _ _ _ _ none => true
  | .biowait _ none => true
  | _ => false

/-- Requests come from processes that are in no other call, are for attached disks,
and give back only what the process has; only processes that do not sleep go on. -/
def Move.Legal (m : Processes ι n) : Move ι n → Prop
  | .call p (.getblk dev _) | .call p (.bread dev _) | .call p (.breada dev _ _) => m.pc p = .idle ∧ major dev < cfg.nrdsk
  | .call p (.brelse i) | .call p (.bwrite i) | .call p (.bdwrite i) => m.pc p = .idle ∧ m.owner i = some p
  | .resume p => (m.pc p).ready = true

def Pc.searching : Pc n → Option Label
  | .inside .getblk _ dev blkno _ => some (dev,blkno)
  | _ => none

def Pc.allocating : Pc n → Option Label
  | .inside .getnewbuf _ dev blkno _ => some (dev,blkno)
  | _ => none

def Move.Exclusive (m : Processes ι n) : Move ι n → Prop
  | .call _ _ => True
  | .resume p => ∀ l ∈ (m.pc p).searching, lookup m.cache l.1 l.2 = none → ∀ q, (m.pc q).allocating ≠ some l

def Distinct (s : Cache n) : Prop :=
  ∀ h h' i j, i ∈ chain s h → j ∈ chain s h' → (s.buf i).flags.bInval = false → (s.buf j).flags.bInval = false →
    (s.buf i).label = (s.buf j).label → i = j

def processes (media : Nat → Nat → Block) : Processes ι n := ⟨binit media,fun _ => .idle,fun _ => none⟩

variable {cfg} {m : Processes ι n} {p : ι} {s t : Cache n} {i : Fin n}

def Pc.target : Pc n → Option Label
  | .inside _ _ dev blkno _ => some (dev,blkno)
  | _ => none

def Named (s : Cache n) (l : Label) : Prop := ∃ j, (s.buf j).flags.bInval = false ∧ (s.buf j).label = l

theorem named_congr (others : ∀ j, j ≠ i → t.buf j = s.buf j) (label : (t.buf i).label = (s.buf i).label)
    (inval : (t.buf i).flags.bInval = (s.buf i).flags.bInval) {l : Label} (named : Named t l) : Named s l := by
  obtain ⟨j,valid,same⟩ := named
  by_cases here : j = i
  · subst here
    exact ⟨j,inval ▸ valid,label ▸ same⟩
  rw [others j here] at valid same
  exact ⟨j,valid,same⟩

theorem Written.named (written : Written cfg s t i) {l : Label} : Named t l → Named s l :=
  named_congr written.frame.others written.label written.inval

def owned (owner : Fin n → Option ι) : Finset (Fin n) := Finset.univ.filter fun i => (owner i).isSome

omit [DecidableEq ι] in
theorem owned_some (owner : Fin n → Option ι) (i : Fin n) (p : ι) :
    owned (update owner i (some p)) = insert i (owned owner) := by
  ext j
  by_cases same : j = i
  · simp [owned,same]
  · simp [owned,same]

omit [DecidableEq ι] in
theorem owned_none (owner : Fin n → Option ι) (i : Fin n) : owned (update owner i none) = (owned owner).erase i := by
  ext j
  by_cases same : j = i
  · simp [owned,same]
  · simp [owned,same]

omit [DecidableEq ι] in
theorem mem_owned {owner : Fin n → Option ι} (has : owner i = some p) : i ∈ owned owner := by
  simp [owned,has]

def attachedLabels (cfg : Config) : Set Label := {l | major l.1 < cfg.nrdsk}

/-- What holds between the moves, as far as it does not concern `p`, which is running. The process that looks
for a buffer for a block is alone in that, and the block has no buffer yet. -/
structure Running (cfg : Config) (m : Processes ι n) (p : ι) : Prop where
  identified : ∃ bucket, Identified (attachedLabels cfg) (owned m.owner) bucket m.cache
  attached : ∀ q, q ≠ p → ∀ l, (m.pc q).target = some l → l ∈ attachedLabels cfg
  absent : ∀ q, q ≠ p → ∀ l, (m.pc q).allocating = some l → ¬ Named m.cache l
  single : ∀ q r, q ≠ p → r ≠ p → ∀ l, (m.pc q).allocating = some l → (m.pc r).allocating = some l → q = r

structure Processes.Sound (cfg : Config) (m : Processes ι n) : Prop where
  identified : ∃ bucket, Identified (attachedLabels cfg) (owned m.owner) bucket m.cache
  attached : ∀ q l, (m.pc q).target = some l → l ∈ attachedLabels cfg
  absent : ∀ q l, (m.pc q).allocating = some l → ¬ Named m.cache l
  single : ∀ q r l, (m.pc q).allocating = some l → (m.pc r).allocating = some l → q = r

omit [DecidableEq ι] in
theorem Processes.Sound.running (sound : m.Sound cfg) (p : ι) : Running cfg m p :=
  ⟨sound.identified,fun q _ => sound.attached q,fun q _ => sound.absent q,fun q r _ _ => sound.single q r⟩

omit [DecidableEq ι] in
theorem Running.become (running : Running cfg m p) {owner : Fin n → Option ι}
    (identified : ∃ bucket, Identified (attachedLabels cfg) (owned owner) bucket t)
    (named : ∀ q, q ≠ p → ∀ l, (m.pc q).allocating = some l → Named t l → Named m.cache l) :
    Running cfg ⟨t,m.pc,owner⟩ p :=
  ⟨identified,running.attached,fun q other l here now => running.absent q other l here (named q other l here now),running.single⟩

theorem Running.stop (running : Running cfg m p) (pc : Pc n) (attached : ∀ l, pc.target = some l → l ∈ attachedLabels cfg)
    (absent : ∀ l, pc.allocating = some l → ¬ Named m.cache l)
    (single : ∀ q, q ≠ p → ∀ l, pc.allocating = some l → (m.pc q).allocating ≠ some l) : (m.goto p pc).Sound cfg := by
  have self : (m.goto p pc).pc p = pc := update_self _ _ _
  have other : ∀ q, q ≠ p → (m.goto p pc).pc q = m.pc q := fun q other => update_of_ne other _ _
  refine ⟨running.identified,fun q l => ?_,fun q l => ?_,fun q r l => ?_⟩
  · by_cases here : q = p
    · rw [here,self]
      exact attached l
    rw [other q here]
    exact running.attached q here l
  · by_cases here : q = p
    · rw [here,self]
      exact absent l
    rw [other q here]
    exact running.absent q here l
  by_cases first : q = p
  · by_cases second : r = p
    · exact fun _ _ => first.trans second.symm
    rw [first,self,other r second]
    exact fun here there => absurd there (single r second l here)
  by_cases second : r = p
  · rw [second,self,other q first]
    exact fun here there => absurd here (single q first l there)
  rw [other q first,other r second]
  exact running.single q r first second l

theorem Running.rest (running : Running cfg m p) (pc : Pc n) (attached : ∀ l, pc.target = some l → l ∈ attachedLabels cfg)
    (calm : pc.allocating = none) : (m.goto p pc).Sound cfg := by
  refine running.stop pc attached ?_ ?_ <;> simp [calm]

def Goes (cfg : Config) (result : Except (Fault n) (Processes ι n)) : Prop := ∃ m, result = .ok m ∧ m.Sound cfg

section
variable (running : Running cfg m p)
include running

theorem Running.enter (fits : cfg.nrdsk ≤ cfg.nblkdev) (task : Task n) {dev : Dev} (blkno : Nat)
    (attached : major dev < cfg.nrdsk) : Goes cfg (Processes.enter cfg m p task dev blkno) := by
  rw [Processes.enter,if_neg (not_le.mpr (lt_of_lt_of_le attached fits))]
  refine ⟨_,rfl,running.rest _ (fun l same => ?_) rfl⟩
  cases same
  exact attached

theorem Running.waitFor (i : Fin n) : Goes cfg (Processes.waitFor m p i) := by
  obtain ⟨bucket,identified⟩ := running.identified
  unfold Processes.waitFor
  by_cases done : (m.cache.buf i).flags.bDone = true
  · obtain ⟨t,waited,after,bufs,_,_⟩ := identified.biowait done
    rw [waited]
    refine ⟨_,rfl,(running.become ⟨bucket,after⟩ fun _ _ _ _ named => ?_).rest .idle (by simp [Pc.target]) rfl⟩
    rw [Named,bufs] at named
    exact named
  · rw [biowait,if_neg done]
    exact ⟨_,rfl,running.rest _ (by simp [Pc.target]) rfl⟩

theorem Running.last (fits : cfg.nrdsk ≤ cfg.nblkdev) {dev : Dev} (blkno : Nat) (attached : major dev < cfg.nrdsk)
    (bp : Option (Fin n)) : Goes cfg (Processes.last cfg m p dev blkno bp) := by
  cases bp with
  | none => exact running.enter fits .bread blkno attached
  | some i => exact running.waitFor i

theorem Running.aheadOf (fits : cfg.nrdsk ≤ cfg.nblkdev) {dev : Dev} (blkno rablkno : Nat) (attached : major dev < cfg.nrdsk)
    (bp : Option (Fin n)) : Goes cfg (Processes.aheadOf cfg m p dev blkno rablkno bp) := by
  unfold Processes.aheadOf
  split_ifs
  · exact running.last fits blkno attached bp
  · exact running.enter fits _ rablkno attached

end

def taking (m : Processes ι n) (p : ι) (i : Fin n) : Processes ι n := {m with owner := update m.owner i (some p)}

section
variable (fits : cfg.nrdsk ≤ cfg.nblkdev) (running : Running cfg (taking m p i) p)
include fits running

theorem Running.finish (fresh : i ∉ owned m.owner) {dev : Dev} (blkno : Nat) (attached : major dev < cfg.nrdsk)
    (label : (m.cache.buf i).bDev = dev) (task : Task n) : Goes cfg (Processes.finish cfg m p dev blkno i task) := by
  obtain ⟨bucket,identified⟩ := running.identified
  have whole : owned (taking m p i).owner = insert i (owned m.owner) := owned_some m.owner i p
  have member : i ∈ owned (taking m p i).owner := by simp [whole]
  have disk : major (m.cache.buf i).bDev < cfg.nrdsk := by rw [label]; exact attached
  cases task with
  | getblk => exact ⟨_,rfl,running.rest .idle (by simp [Pc.target]) rfl⟩
  | bread =>
    unfold Processes.finish
    cases ready : present m.cache i with
    | true =>
      refine ⟨_,by simp only [ready,if_true]; rfl,running.rest .idle (by simp [Pc.target]) rfl⟩
    | false =>
      obtain ⟨t,read,after,frame,_,_,same,inval,_⟩ := identified.startRead member disk (present_false ready).1 false
      have go := (running.become ⟨bucket,after⟩ fun _ _ _ _ => named_congr frame.others same inval).waitFor i
      have start : startRead cfg m.cache i false = .ok t := read
      simp only [ready,start,bind,Except.bind,Bool.false_eq_true,if_false]
      exact go
  | first rablkno =>
    have read : ∃ t, readFirst cfg m.cache i = .ok t ∧ Running cfg ⟨t,m.pc,update m.owner i (some p)⟩ p := by
      unfold readFirst
      cases ready : present m.cache i with
      | true => exact ⟨m.cache,rfl,running⟩
      | false =>
        obtain ⟨t,read,after,frame,_,_,same,inval,_⟩ := identified.startRead member disk (present_false ready).1 false
        exact ⟨t,read,running.become ⟨bucket,after⟩ fun _ _ _ _ => named_congr frame.others same inval⟩
    obtain ⟨t,start,next⟩ := read
    have go := next.aheadOf fits blkno rablkno attached (some i)
    simpa only [Processes.finish,start,bind,Except.bind] using go
  | ahead first bp =>
    have back : (owned (taking m p i).owner).erase i = owned m.owner := by rw [whole,Finset.erase_insert fresh]
    have release : ∃ t, Processes.startAhead cfg m.cache i = .ok t ∧ Running cfg ⟨t,m.pc,m.owner⟩ p := by
      unfold Processes.startAhead
      cases ready : present m.cache i with
      | true =>
        obtain ⟨_,content,frame,_⟩ := brelse_spec identified.linked ((identified.busy i).mpr member)
        refine ⟨_,if_pos rfl,running.become ⟨bucket,back ▸ identified.brelse member⟩ fun _ _ _ _ => ?_⟩
        exact named_congr frame.others (by rw [content]; rfl) (by rw [content]; rfl)
      | false =>
        obtain ⟨t,read,after,frame,_,_,same,inval,_⟩ := identified.startRead member disk (present_false ready).1 true
        exact ⟨t,read,running.become ⟨bucket,back ▸ after⟩ fun _ _ _ _ => named_congr frame.others same inval⟩
    obtain ⟨t,start,next⟩ := release
    have go := next.last fits first attached bp
    simpa only [Processes.finish,start,bind,Except.bind] using go

end

theorem Running.allocate (running : Running cfg m p) (fits : cfg.nrdsk ≤ cfg.nblkdev) (task : Task n) {dev : Dev} {blkno : Nat}
    (attached : major dev < cfg.nrdsk) (missed : ¬ Named m.cache (dev,blkno))
    (alone : ∀ q, q ≠ p → (m.pc q).allocating ≠ some (dev,blkno)) : Goes cfg (Processes.allocate cfg m p task dev blkno) := by
  obtain ⟨bucket,identified⟩ := running.identified
  have target : ∀ c l, (Pc.inside .getnewbuf task dev blkno c).target = some l → l ∈ attachedLabels cfg := by
    intro c l same
    cases same
    exact attached
  have lone : ∀ c q, q ≠ p → ∀ l, (Pc.inside .getnewbuf task dev blkno c).allocating = some l →
    (m.pc q).allocating ≠ some l := by
    intro c q other l same
    cases same
    exact alone q other
  have delayed : ∀ i, (m.cache.buf i).flags.bDelwri = true → major (m.cache.buf i).bDev < cfg.nrdsk :=
    fun i late => identified.inside i (identified.valid i late).1
  unfold Processes.allocate
  rcases newbufTurn_cases identified.linked delayed with ⟨turn,_⟩ | ⟨t,i,turn,linked,pushed⟩ | ⟨i,turn,idle,_⟩
  · have next : Running cfg ({m with cache := {m.cache with wanted := true}} : Processes ι n) p := by
      refine running.become ⟨bucket,⟨?_,identified.busy,identified.quiet,identified.proper,identified.home,identified.inside,
        identified.valid,identified.unique⟩⟩ fun _ _ _ _ named => named
      exact identified.linked.congr rfl rfl (fun _ => rfl) identified.linked.plain
    simp only [turn,bind,Except.bind]
    refine ⟨_,rfl,next.stop _ (target _) (fun l same => ?_) (lone _)⟩
    cases same
    exact missed
  · have same := pushed.written
    have next := running.become ⟨bucket,identified.pushed linked pushed⟩ fun _ _ _ _ => same.named
    simp only [turn,bind,Except.bind]
    refine ⟨_,rfl,next.stop _ (target _) (fun l equal => ?_) (lone _)⟩
    cases equal
    exact fun named => missed (same.named named)
  simp only [turn,bind,Except.bind]
  have absent : ∀ j, (m.cache.buf j).flags.bInval = false → (m.cache.buf j).label ≠ (dev,blkno) :=
    fun j valid equal => missed ⟨j,valid,equal⟩
  have after := identified.assignBlock attached idle absent
  have fresh := identified.free idle
  have next : Running cfg (taking ⟨assignBlock (taken m.cache i) i dev blkno,m.pc,m.owner⟩ p i) p := by
    refine running.become ⟨_,by rw [owned_some]; exact after⟩ fun q other l allocating named => ?_
    obtain ⟨j,valid,label⟩ := named
    by_cases here : j = i
    · rw [here,assignBlock_buf_self] at label
      have equal : (dev,blkno) = l := label
      exact absurd (equal ▸ allocating) (alone q other)
    · rw [assignBlock_buf_other m.cache j here] at valid label
      exact ⟨j,valid,label⟩
  exact next.finish fits fresh blkno attached (by rw [assignBlock_buf_self]) task

theorem Running.search (running : Running cfg m p) (fits : cfg.nrdsk ≤ cfg.nblkdev) (task : Task n) {dev : Dev} {blkno : Nat}
    (attached : major dev < cfg.nrdsk)
    (alone : lookup m.cache dev blkno = none → ∀ q, q ≠ p → (m.pc q).allocating ≠ some (dev,blkno)) :
    Goes cfg (Processes.search cfg m p task dev blkno) := by
  obtain ⟨bucket,identified⟩ := running.identified
  unfold Processes.search
  cases found : lookup m.cache dev blkno with
  | none =>
    refine running.allocate fits task attached ?_ (alone found)
    rintro ⟨j,valid,same⟩
    exact identified.lookup_none found j valid same
  | some i =>
    obtain ⟨label,valid⟩ := identified.lookup_some found
    by_cases busy : (m.cache.buf i).flags.bBusy = true
    · have marked : Identified (attachedLabels cfg) (owned m.owner) bucket
        (m.cache.setFlags i (fun f => {f with bWanted := true})) := by
        refine identified.update (identified.linked.setFlags i rfl (identified.linked.plain i))
          (fun j other => setFlags_buf_other m.cache _ other) ?_ ?_ (fun _ _ => Iff.rfl) ?_ ?_ (fun _ => valid) ?_ <;>
          rw [setFlags_buf_self]
        · rfl
        · rfl
        · exact identified.busy i
        · exact identified.quiet i
        · exact identified.valid i
      have next := running.become ⟨bucket,marked⟩ fun _ _ _ _ => named_congr
        (fun j other => setFlags_buf_other m.cache _ other) (by rw [setFlags_buf_self]; rfl) (by rw [setFlags_buf_self]; rfl)
      refine ⟨_,if_pos busy,next.rest _ (fun l same => ?_) rfl⟩
      cases same
      exact attached
    · have idle : (m.cache.buf i).flags.bBusy = false := by simpa using busy
      have next : Running cfg (taking ⟨notavail m.cache i,m.pc,m.owner⟩ p i) p := by
        refine running.become ⟨bucket,by rw [owned_some]; exact identified.notavail idle valid⟩ fun _ _ _ _ => ?_
        exact named_congr (fun j other => notavail_buf_other m.cache other) (by rw [notavail_buf_self]; rfl)
          (by rw [notavail_buf_self]; rfl)
      have go := next.finish fits (identified.free idle) blkno attached
        (by rw [notavail_buf_self]; exact congrArg Prod.fst label) task
      simpa only [busy,Bool.false_eq_true,if_false] using go

theorem awake_target (woken : List (Chan n)) (pc : Pc n) : (Processes.awake woken pc).target = pc.target := by
  unfold Processes.awake
  split <;> rfl

theorem awake_allocating (woken : List (Chan n)) (pc : Pc n) : (Processes.awake woken pc).allocating = pc.allocating := by
  unfold Processes.awake
  split
  · rename_i loop _ _ _ _
    cases loop <;> rfl
  · rfl
  · rfl

omit [DecidableEq ι] in
theorem Processes.Sound.deliver (sound : m.Sound cfg) : m.deliver.Sound cfg := by
  obtain ⟨bucket,identified⟩ := sound.identified
  refine ⟨⟨bucket,⟨?_,identified.busy,identified.quiet,identified.proper,identified.home,identified.inside,
    identified.valid,identified.unique⟩⟩,fun q l => ?_,fun q l => ?_,fun q r l => ?_⟩
  · exact identified.linked.congr rfl rfl (fun _ => rfl) identified.linked.plain
  · simp only [Processes.deliver,awake_target]
    exact sound.attached q l
  · simp only [Processes.deliver,awake_allocating]
    exact sound.absent q l
  · simp only [Processes.deliver,awake_allocating]
    exact sound.single q r l

omit [DecidableEq ι] in
theorem Processes.Sound.gives (sound : m.Sound cfg) {bucket : Fin n → Bucket} {result : Except (Fault n) (Cache n)}
    (done : ∃ t, result = .ok t ∧ Identified (attachedLabels cfg) ((owned m.owner).erase i) bucket t ∧
      ∀ l, Named t l → Named m.cache l) : Goes cfg (m.gives i result) := by
  obtain ⟨t,rfl,after,named⟩ := done
  refine ⟨_,rfl,⟨bucket,?_⟩,sound.attached,fun q l here now => sound.absent q l here (named l now),sound.single⟩
  rw [owned_none]
  exact after

theorem moveWith_goes (fits : cfg.nrdsk ≤ cfg.nblkdev) (sound : m.Sound cfg) (a : Move ι n) (legal : a.Legal cfg m)
    (exclusive : a.Exclusive m) : Goes cfg (moveWith cfg m a) := by
  obtain ⟨bucket,identified⟩ := sound.identified
  cases a with
  | call p request =>
    have running := sound.running p
    cases request with
    | getblk dev blkno => exact running.enter fits .getblk blkno legal.2
    | bread dev blkno => exact running.enter fits .bread blkno legal.2
    | breada dev blkno rablkno =>
      simp only [moveWith]
      split_ifs
      · exact running.aheadOf fits blkno rablkno legal.2 none
      · exact running.enter fits _ blkno legal.2
    | brelse i =>
      have member := mem_owned legal.2
      obtain ⟨_,content,frame,_⟩ := brelse_spec identified.linked ((identified.busy i).mpr member)
      refine sound.gives ⟨_,rfl,identified.brelse member,fun l => ?_⟩
      exact named_congr frame.others (by rw [content]; rfl) (by rw [content]; rfl)
    | bwrite i =>
      have member := mem_owned legal.2
      have valid := identified.proper i member
      obtain ⟨t,done,linked,written⟩ := @bwrite_written n cfg _ _ i identified.linked ((identified.busy i).mpr member)
        (identified.inside i valid)
      exact sound.gives ⟨t,done,identified.written linked valid written,fun l => written.named⟩
    | bdwrite i =>
      have member := mem_owned legal.2
      have valid := identified.proper i member
      obtain ⟨t,done,linked,written⟩ := @bdwrite_written n cfg _ _ i identified.linked ((identified.busy i).mpr member)
        (identified.inside i valid)
      exact sound.gives ⟨t,done,identified.written linked valid written,fun l => written.named⟩
  | resume p =>
    have running := sound.running p
    have ready : (m.pc p).ready = true := legal
    have alone : ∀ l ∈ (m.pc p).searching, lookup m.cache l.1 l.2 = none → ∀ q, (m.pc q).allocating ≠ some l := exclusive
    simp only [moveWith]
    cases place : m.pc p with
    | idle =>
      rw [place] at ready
      cases ready
    | biowait i chan =>
      cases chan with
      | some c => rw [place] at ready; cases ready
      | none => exact running.waitFor i
    | inside loop task dev blkno chan =>
      have attached : major dev < cfg.nrdsk := sound.attached p (dev,blkno) (by rw [place]; rfl)
      cases chan with
      | some c => rw [place] at ready; cases ready
      | none =>
        cases loop with
        | getblk => exact running.search fits task attached fun missed q _ => alone (dev,blkno) (by rw [place]; rfl) missed q
        | getnewbuf =>
          have here : (m.pc p).allocating = some (dev,blkno) := by rw [place]; rfl
          exact running.allocate fits task attached (sound.absent p _ here) fun q other there =>
            other (sound.single q p _ there here)

theorem move_goes (fits : cfg.nrdsk ≤ cfg.nblkdev) (m : Processes ι n) (a : Move ι n) (sound : m.Sound cfg)
    (legal : a.Legal cfg m ∧ a.Exclusive m) : Goes cfg (move cfg m a) := by
  obtain ⟨t,done,after⟩ := moveWith_goes fits sound a legal.1 legal.2
  exact ⟨t.deliver,by rw [move,done]; rfl,after.deliver⟩

omit [DecidableEq ι] in
theorem processes_sound (media : Nat → Nat → Block) : (processes media : Processes ι n).Sound cfg := by
  have invalid := binit_invalid (n := n) media
  have linked := binit_linked (n := n) media
  refine ⟨⟨_,linked,fun i => ?_,fun i => ?_,fun i member => ?_,fun i valid => ?_,fun i valid => ?_,fun i delayed => ?_,
    fun i j valid => ?_⟩,?_,?_,?_⟩
  · show ((binit media : Cache n).buf i).flags.bBusy = true ↔ _
    rw [invalid]
    exact iff_of_false (by decide) (by simp [owned,processes])
  · show ((binit media : Cache n).buf i).flags.bAsync = false
    rw [invalid]
    rfl
  · simp [owned,processes] at member
  · simp [processes,invalid] at valid
  · simp [processes,invalid] at valid
  · simp [processes,invalid,Flags.none] at delayed
  · simp [processes,invalid] at valid
  · simp [processes,Pc.target]
  · simp [processes,Pc.allocating]
  · simp [processes,Pc.allocating]

omit [DecidableEq ι] in
theorem Processes.Sound.distinct (sound : m.Sound cfg) : Distinct m.cache := by
  obtain ⟨bucket,identified⟩ := sound.identified
  intro h h' i j _ _ first second same
  exact identified.unique i j first second same

/-- In every interleaving in which no process misses a block while another is about
to give it a buffer, each block has at most one buffer. -/
theorem processes_distinct (fits : cfg.nrdsk ≤ cfg.nblkdev) (media : Nat → Nat → Block) (moves : List (Move ι n))
    (legal : Along (move cfg) (fun m a => a.Legal cfg m ∧ a.Exclusive m) (processes media) moves) :
    ∃ m, run (move cfg) (processes media) moves = .ok m ∧ Distinct m.cache := by
  obtain ⟨m,done,sound⟩ := run_total (fun m a => move_goes fits m a) moves _ (processes_sound media) legal
  exact ⟨m,done,sound.distinct⟩

instance Move.Legal.decidable (cfg : Config) (m : Processes ι n) : ∀ a : Move ι n, Decidable (a.Legal cfg m)
  | .call _ (.getblk _ _) | .call _ (.bread _ _) | .call _ (.breada _ _ _) => inferInstanceAs (Decidable (_ ∧ _ < _))
  | .call _ (.brelse _) | .call _ (.bwrite _) | .call _ (.bdwrite _) => inferInstanceAs (Decidable (_ ∧ _ = _))
  | .resume p => inferInstanceAs (Decidable ((m.pc p).ready = true))

instance Move.Exclusive.decidable [Fintype ι] (m : Processes ι n) : ∀ a : Move ι n, Decidable (a.Exclusive m)
  | .call _ _ => .isTrue trivial
  | .resume p => inferInstanceAs (Decidable
      (∀ l ∈ (m.pc p).searching, lookup m.cache l.1 l.2 = none → ∀ q, (m.pc q).allocating ≠ some l))

def blankDisks : Nat → Nat → Block := fun _ _ => Block.zero

def takingTurns : List (Move (Fin 3) 2) :=
  [.call 0 (.bread 0 1),.resume 0,.call 0 (.getblk 0 2),.resume 0,.call 1 (.breada 0 3 0),.resume 1,.call 0 (.bdwrite 1),
    .resume 1,.resume 1,.call 2 (.bread 0 3),.resume 2,.call 1 (.bwrite 1),.resume 2]

theorem processes_distinct_takingTurns : ∃ m, run (move sdCard) (processes blankDisks) takingTurns = .ok m ∧ Distinct m.cache :=
  processes_distinct (by decide) blankDisks takingTurns (by decide +kernel)

def missTwice : List (Move (Fin 3) 10) :=
  (List.range 10).flatMap (fun k => ([.call 0 (.getblk 0 (k + 1)),.resume 0] : List (Move (Fin 3) 10))) ++
    ([.call 1 (.getblk 0 99),.resume 1,.call 2 (.getblk 0 99),.resume 2,.call 0 (.brelse 9),.call 0 (.brelse 8),
      .resume 1,.resume 2] : List (Move (Fin 3) 10))

def doubled (m : Processes (Fin 3) 10) : Bool :=
  decide (8 ∈ chain m.cache (bufhash 0 99)) && decide
    (9 ∈ chain m.cache (bufhash 0 99)) && names m.cache 0 99 8 && names m.cache 0 99 9

/-- Both have missed the block when they fell asleep, and each gives it a buffer. -/
theorem missTwice_doubled : Along (move sdCard) (fun m a => a.Legal sdCard m) (processes blankDisks) missTwice ∧
      ∃ m, run (move sdCard) (processes blankDisks) missTwice = .ok m ∧ ¬ Distinct m.cache := by
  refine ⟨by decide +kernel,?_⟩
  have checked : returns doubled (run (move sdCard) (processes blankDisks) missTwice) = true := by decide +kernel
  obtain ⟨m,done,found⟩ := of_returns checked
  simp only [doubled,Bool.and_eq_true,decide_eq_true_eq,names_iff] at found
  obtain ⟨⟨⟨first,second⟩,blkno,dev,valid⟩,blkno',dev',valid'⟩ := found
  refine ⟨m,done,fun distinct => ?_⟩
  have same : (m.cache.buf 8).label = (m.cache.buf 9).label := by rw [Buf.label,Buf.label,blkno,blkno',dev,dev']
  exact absurd (distinct _ _ 8 9 first second valid valid' same) (by decide)

end Retrobsd.BufferCache

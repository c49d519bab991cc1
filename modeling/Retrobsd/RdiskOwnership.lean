import Retrobsd.BufferOwnership
import Retrobsd.Lib.Hoare
import Retrobsd.Lib.Run
import Retrobsd.Rdisk

/-! The disk driver gives back every buffer that it takes, as long as the
partition table can be read, and with it so does every run of calls on the cache
and the driver. -/
namespace Retrobsd.Rdisk
open BufferCache Lib.Hoare Lib.Rings Lib.Run

variable {n : Nat} {cfg : Config} {hw : Nat → Response} {held : Finset (Fin n)}

def Owns (cfg : Config) (held : Finset (Fin n)) (k : Kernel n) : Prop := Pool cfg held k.cache

def Sleeps (e : Fault n) : Prop := ∃ c, e = .sleeping c

def Readable (hw : Nat → Response) : Prop := ∀ t, (hw t).mbr ≠ none

theorem onCache_triple {α : Type} {f : Cache n → Except (Fault n) (Cache n × α)} {post : α → Cache n → Prop}
    (ends : ∀ s, Pool cfg held s → Ends (f s) post) :
    Triple Sleeps (Owns cfg held) (onCache f) fun a k => post a k.cache := by
  intro k owns
  rcases ends k.cache owns with ⟨a,s,done,final⟩ | ⟨c,failed⟩
  · exact .inl ⟨a,{k with cache := s},by simp only [onCache,done],final⟩
  · exact .inr ⟨.sleeping c,by simp only [onCache,failed],c,rfl⟩

theorem change_triple {f : Cache n → Cache n} {held' : Finset (Fin n)} (keeps : ∀ s, Pool cfg held s → Pool cfg held' (f s)) :
    Triple Sleeps (Owns cfg held) (change f) fun _ => Owns cfg held' :=
  fun k owns => .inl ⟨(),_,rfl,keeps k.cache owns⟩

theorem respond_triple (readable : Readable hw) :
    Triple (Sleeps (n := n)) (Owns cfg held) (respond hw) fun r k => Owns cfg held k ∧ r.mbr ≠ none :=
  fun k owns => .inl ⟨hw k.tick,_,rfl,owns,readable k.tick⟩

theorem setDflags_triple (root : Nat) (f : Diskflags → Diskflags) :
    Triple Sleeps (Owns cfg held) (setDflags root f) fun _ => Owns cfg held := by
  refine change_triple fun s pool => ⟨?_,pool.busy,pool.quiet,pool.attached⟩
  obtain ⟨bucket,linked⟩ := pool.linked
  exact ⟨bucket,linked.congr rfl rfl (fun _ => rfl) linked.plain⟩

theorem getnewbuf_triple : Triple Sleeps (Owns cfg held) (onCache (getnewbuf cfg)) fun i k =>
    i ∉ held ∧ Owns cfg (insert i held) k := by
  have ends : ∀ s, Pool cfg held s → Ends (getnewbuf cfg s) fun i t => i ∉ held ∧ Pool cfg (insert i held) t :=
    fun s pool => pool.getnewbuf.imp fun i t post => ⟨post.1,post.2.1⟩
  exact onCache_triple ends

def Reads {α : Type} (c : Driver n α) : Prop := ∀ k, ∃ a, c k = .ok (a,k)

theorem Reads.triple {α : Type} {c : Driver n α} (reads : Reads c) {pre : Kernel n → Prop} : Triple Sleeps pre c fun _ => pre :=
  fun k start => (reads k).elim fun a done => .inl ⟨a,k,done,start⟩

theorem release_triple {i : Fin n} (fresh : i ∉ held) :
    Triple Sleeps (Owns cfg (insert i held)) (change (fun s => brelse s i)) fun _ => Owns cfg held :=
  change_triple fun s pool => by
    have back := pool.brelse (Finset.mem_insert_self i held)
    rwa [Finset.erase_insert fresh] at back

theorem mbrOf_reads (i : Fin n) : Reads (mbrOf i) := fun _ => ⟨_,rfl⟩

theorem opens_reads (root : Nat) : Reads (opens (n := n) root) := fun _ => ⟨_,rfl⟩

def Balanced {α : Type} (cfg : Config) (c : Driver n α) : Prop := ∀ held, Triple Sleeps (Owns cfg held) c fun _ => Owns cfg held

def Lent (cfg : Config) (held : Finset (Fin n)) : Option (Fin n) → Kernel n → Prop
  | none => Owns cfg held
  | some i => fun k => i ∉ held ∧ Owns cfg (insert i held) k

section
variable (readable : Readable hw)
include readable

theorem closeDevice_balanced (root : Nat) : Balanced cfg (closeDevice (n := n) cfg hw root) := by
  intro held
  refine .ite (fun _ => .keep) fun _ => ?_
  refine .bind (opens_reads root).triple fun count => ?_
  refine .ite (fun _ => .keep) fun _ => ?_
  refine .bind (setDflags_triple root _) fun _ => ?_
  refine .bind (opens_reads root).triple fun left => ?_
  refine .ite (fun _ => ?_) fun _ => .keep
  exact .bind (respond_triple readable) fun _ => .pure _ fun _ owns => owns.1

theorem rdclose_balanced (dev : Dev) : Balanced cfg (rdclose (n := n) cfg hw dev) := by
  intro held
  refine .ite (fun _ => .keep) fun _ => ?_
  exact .bind (closeDevice_balanced readable _ held) fun _ => .keep

variable [NeZero n]

theorem readMbr_triple (root : Nat) : Triple Sleeps (Owns cfg held) (readMbr cfg hw root) fun found k =>
    Lent cfg held found k ∧ (root < cfg.nrdsk → found ≠ none) := by
  refine .ite (fun high => .pure none fun k owns => ⟨owns,fun low => absurd high (not_le.mpr low)⟩) fun _ => ?_
  refine .bind getnewbuf_triple fun i => ?_
  refine .assume (fun k owns => owns.1) fun fresh => ?_
  refine .bind ((respond_triple readable).weaken (fun k owns => owns.2) fun _ _ post => post) fun r => ?_
  refine .assume (fun k owns => owns.2) fun success => ?_
  cases found : r.mbr with
  | none => exact absurd found success
  | some mbr =>
    refine .bind ((change_triple fun s pool => ?_).weaken (fun k owns => owns.1) fun _ _ post => post) fun _ =>
      .pure (some i) fun k owns => ⟨⟨fresh,owns⟩,by simp⟩
    exact pool.modify rfl ⟨rfl,rfl⟩ rfl (pool.attached i)

theorem initDevice_triple (root : Nat) :
    Triple Sleeps (Owns cfg held) (initDevice cfg hw root) fun _ => Owns cfg held := by
  refine .ite (fun _ => .keep) fun _ => ?_
  refine .bind (respond_triple readable) fun r => ?_
  refine .ite (fun _ => .pure _ fun k owns => owns.1) fun _ => ?_
  refine .bind ((readMbr_triple readable root).weaken (fun k owns => owns.1) fun _ _ post => post.1) fun found => ?_
  cases found with
  | none => exact .keep
  | some i =>
    refine .assume (fun k owns => owns.1) fun fresh => ?_
    refine .bind ((mbrOf_reads i).triple.weaken (fun k owns => owns.2) fun _ _ post => post) fun mbr => ?_
    refine .bind ((respond_triple readable).weaken (fun k owns => owns) fun _ _ post => post.1) fun size => ?_
    refine .bind (setDflags_triple root _) fun _ => ?_
    exact .bind (release_triple fresh) fun _ => .keep

theorem openDevice_balanced (root : Nat) : Balanced cfg (openDevice (n := n) cfg hw root) := by
  intro held
  refine .ite (fun _ => .keep) fun _ => ?_
  refine .bind (opens_reads root).triple fun count => ?_
  have rest : ∀ e, Triple Sleeps (Owns cfg held) (if e ≠ 0 then (return e : Driver n Nat) else do
      setDflags root fun d => {d with opens := (d.opens + 1) % 256}
      return 0) fun _ => Owns cfg held := fun e =>
    .ite (fun _ => .keep) fun _ =>
      .bind (setDflags_triple root _) fun _ => .keep
  refine .ite (fun _ => ?_) fun _ => ?_
  · exact .bind (initDevice_triple readable root) rest
  · exact .bind (.pure 0 fun _ owns => owns) rest

theorem rdopen_balanced (dev : Dev) : Balanced cfg (rdopen (n := n) cfg hw dev) := by
  intro held
  refine .ite (fun _ => .keep) fun _ => ?_
  refine .bind (openDevice_balanced readable _ held) fun e => ?_
  refine .ite (fun _ => .keep) fun _ => ?_
  exact .bind (respond_triple readable) fun _ => .pure _ fun _ owns => owns.1

theorem rdsize_balanced (dev : Dev) : Balanced cfg (rdsize (n := n) cfg hw dev) := by
  intro held
  refine .ite (fun _ => .keep) fun _ => ?_
  refine .ite (fun _ => ?_) fun _ => ?_
  · exact .bind (respond_triple readable) fun _ => .pure _ fun _ owns => owns.1
  refine .bind (rdopen_balanced readable dev held) fun e => ?_
  refine .ite (fun _ => .keep) fun _ => ?_
  have length : Reads (partitionLength (n := n) dev) := fun _ => ⟨_,rfl⟩
  refine .bind length.triple fun blocks => ?_
  exact .bind (rdclose_balanced readable dev held) fun _ => .keep

theorem rdioctl_balanced (dev : Dev) (cmd : Ioctl) : Balanced cfg (rdioctl (n := n) cfg hw dev cmd) := by
  intro held
  cases cmd with
  | rdgetmediasize => exact rdsize_balanced readable dev held
  | rdreinit =>
    have flushed : ∀ s : Cache n, Pool cfg held s → Ends ((bflush cfg s (major dev)).map (·,())) fun _ => Pool cfg held := by
      intro s pool
      obtain ⟨t,done,after⟩ := pool.bflush (major dev)
      exact .inl ⟨(),t,by rw [done]; rfl,after⟩
    refine .bind (onCache_triple flushed) fun _ => ?_
    exact .bind (initDevice_triple readable _) fun _ => .keep

theorem partitionTypeOf_balanced (dev : Dev) : Balanced cfg (partitionTypeOf (n := n) cfg hw dev) := by
  intro held
  refine .ite (fun _ => .keep) fun _ => ?_
  by_cases attached : major dev < cfg.nrdsk
  · refine .bind (rdopen_balanced readable dev held) fun e => ?_
    refine .ite (fun _ => .keep) fun _ => ?_
    refine .bind (readMbr_triple readable _) fun found => ?_
    cases found with
    | none => exact .absurd fun k owns => owns.2 attached rfl
    | some i =>
      refine .assume (fun k owns => owns.1.1) fun fresh => ?_
      refine .bind ((rdclose_balanced readable dev _).weaken (fun k owns => owns.1.2) fun _ _ post => post) fun _ => ?_
      refine .bind (mbrOf_reads i).triple fun mbr => ?_
      exact .bind (release_triple fresh) fun _ => .keep
  · have closed : ∀ k, rdopen (n := n) cfg hw dev k = .ok (enodev,k) := by
      intro k
      rw [rdopen,if_pos (not_lt.mp attached)]
      rfl
    intro k owns
    rw [bind_ok (closed k)]
    exact .inl ⟨0,k,rfl,owns⟩

theorem scanDisk_balanced (type root : Nat) (best : Nat × Dev) : Balanced cfg (scanDisk (n := n) cfg hw type root best) := by
  intro held
  refine .bind (rdopen_balanced readable _ held) fun e => ?_
  refine .ite (fun _ => .keep) fun _ => ?_
  refine .bind ((readMbr_triple readable root).weaken (fun _ owns => owns) fun _ _ post => post.1) fun found => ?_
  cases found with
  | none => exact .bind (rdclose_balanced readable _ held) fun _ => .keep
  | some i =>
    refine .assume (fun k owns => owns.1) fun fresh => ?_
    refine .bind ((mbrOf_reads i).triple.weaken (fun k owns => owns.2) fun _ _ post => post) fun mbr => ?_
    refine .bind (release_triple fresh) fun _ => ?_
    exact .bind (rdclose_balanced readable _ held) fun _ => .keep

theorem scanDisks_balanced (type : Nat) (roots : List Nat) (best : Nat × Dev) :
    Balanced cfg (scanDisks (n := n) cfg hw type roots best) := by
  intro held
  induction roots generalizing best with
  | nil => exact .keep
  | cons root roots ih =>
    refine .bind (scanDisk_balanced readable type root best held) fun result => ?_
    obtain ⟨found,next⟩ := result
    cases found with
    | some dev => exact .keep
    | none => exact ih next

theorem getBootDevice_balanced : Balanced cfg (getBootDevice (n := n) cfg hw) := fun held =>
  .bind (scanDisks_balanced readable _ _ _ held) fun _ => .keep

theorem getSwapDevice_balanced : Balanced cfg (getSwapDevice (n := n) cfg hw) := fun held =>
  .bind (scanDisks_balanced readable _ _ _ held) fun _ => .keep

theorem listSizes_balanced (mbr : Block) (root type : Nat) (js : List Nat) :
    Balanced cfg (listSizes (n := n) cfg hw mbr root type js) := by
  intro held
  induction js with
  | nil => exact .keep
  | cons j js ih =>
    refine .ite (fun _ => ?_) fun _ => ih
    refine .bind (rdsize_balanced readable _ held) fun size => ?_
    exact .bind ih fun _ => .keep

theorem rdiskListPartitions_balanced (type : Nat) (roots : List Nat) :
    Balanced cfg (rdiskListPartitions (n := n) cfg hw type roots) := by
  intro held
  induction roots with
  | nil => exact .keep
  | cons root roots ih =>
    refine .bind (initDevice_triple readable root) fun e => ?_
    refine .ite (fun _ => ih) fun _ => ?_
    refine .bind (rdsize_balanced readable _ held) fun whole => ?_
    refine .bind ((readMbr_triple readable root).weaken (fun _ owns => owns) fun _ _ post => post.1) fun found => ?_
    cases found with
    | none => exact .bind ih fun _ => .keep
    | some i =>
      refine .assume (fun k owns => owns.1) fun fresh => ?_
      refine .bind ((mbrOf_reads i).triple.weaken (fun k owns => owns.2) fun _ _ post => post) fun mbr => ?_
      refine .bind (listSizes_balanced readable mbr root type _ _) fun sizes => ?_
      refine .bind (release_triple fresh) fun _ => ?_
      exact .bind ih fun _ => .keep

end

inductive Call (n : Nat) where
  | getblk (dev : Dev) (blkno : Nat)
  | geteblk
  | bread (dev : Dev) (blkno : Nat)
  | breada (dev : Dev) (blkno rablkno : Nat)
  | brelse (i : Fin n)
  | bwrite (i : Fin n)
  | bawrite (i : Fin n)
  | bdwrite (i : Fin n)
  | blkflush (dev : Dev) (blkno : Nat)
  | bflush (dev : Dev)
  | binval (dev : Dev)
  | rdopen (dev : Dev)
  | rdclose (dev : Dev)
  | rdsize (dev : Dev)
  | rdioctl (dev : Dev) (cmd : Ioctl)
  | partitionType (dev : Dev)
  | getBootDevice
  | getSwapDevice
  | rdiskListPartitions (type : Nat)
deriving DecidableEq

/-- The kernel with the buffers that its callers have obtained and not released. -/
structure Machine (n : Nat) where
  kernel : Kernel n
  held : Finset (Fin n)

namespace Machine

def takes (m : Machine n) (f : Cache n → Except (Fault n) (Cache n × Fin n)) : Except (Fault n) (Machine n) :=
  (onCache f m.kernel).map fun r => ⟨r.2,insert r.1 m.held⟩

def gives (m : Machine n) (i : Fin n) (f : Cache n → Except (Fault n) (Cache n)) : Except (Fault n) (Machine n) :=
  (onCache (fun s => (f s).map (·,())) m.kernel).map fun r => ⟨r.2,m.held.erase i⟩

def keeps {α : Type} (m : Machine n) (c : Driver n α) : Except (Fault n) (Machine n) := (c m.kernel).map fun r => ⟨r.2,m.held⟩

def cached (m : Machine n) (f : Cache n → Except (Fault n) (Cache n)) : Except (Fault n) (Machine n) :=
  m.keeps (onCache fun s => (f s).map (·,()))

end Machine

/-- A buffer in use is on no free list, any other is linked once and on one free
list only, and the buffers in use are those that are held. -/
def Settled (m : Machine n) : Prop := ∃ queues, Holds m.kernel.cache.av queues ∧ ∀ i,
    ((m.kernel.cache.buf i).flags.bBusy = true ∧ (∀ q, i ∉ queues q) ∧ i ∈ m.held) ∨
    ((m.kernel.cache.buf i).flags.bBusy = false ∧ (∃! q, i ∈ queues q) ∧ i ∉ m.held)

def Sound (cfg : Config) (m : Machine n) : Prop := Owns cfg m.held m.kernel

theorem Sound.settled {m : Machine n} (sound : Sound cfg m) : Settled m := by
  obtain ⟨bucket,linked⟩ := sound.linked
  obtain ⟨queues,holds,_,free⟩ := linked.free
  refine ⟨queues,holds,fun i => ?_⟩
  by_cases busy : (m.kernel.cache.buf i).flags.bBusy = true
  · refine .inl ⟨busy,fun q present => ?_,(sound.busy i).mp busy⟩
    have idle := (free i).mpr ⟨q,present⟩
    rw [busy] at idle
    cases idle
  · have idle : (m.kernel.cache.buf i).flags.bBusy = false := by simpa using busy
    obtain ⟨q,present⟩ := (free i).mp idle
    exact .inr ⟨idle,⟨q,present,fun r here => holds.disjoint r q i here present⟩,fun member => busy ((sound.busy i).mpr member)⟩

def Lasts (cfg : Config) (result : Except (Fault n) (Machine n)) : Prop :=
  (∃ m, result = .ok m ∧ Sound cfg m) ∨ ∃ e, result = .error e ∧ Sleeps e

section
variable {m : Machine n}

theorem takes_lasts {f : Cache n → Except (Fault n) (Cache n × Fin n)}
    (ends : Ends (f m.kernel.cache) fun i t => Pool cfg (insert i m.held) t) : Lasts cfg (m.takes f) := by
  rcases ends with ⟨i,t,done,after⟩ | ⟨c,failed⟩
  · exact .inl ⟨⟨{m.kernel with cache := t},insert i m.held⟩,by simp only [Machine.takes,onCache,done]; rfl,after⟩
  · exact .inr ⟨.sleeping c,by simp only [Machine.takes,onCache,failed]; rfl,c,rfl⟩

theorem gives_lasts {i : Fin n} {f : Cache n → Except (Fault n) (Cache n)}
    (done : ∃ t, f m.kernel.cache = .ok t ∧ Pool cfg (m.held.erase i) t) : Lasts cfg (m.gives i f) := by
  obtain ⟨t,ok,after⟩ := done
  refine .inl ⟨⟨{m.kernel with cache := t},m.held.erase i⟩,?_,after⟩
  simp only [Machine.gives,onCache,ok,Except.map]

theorem keeps_lasts (sound : Sound cfg m) {α : Type} {c : Driver n α} (balanced : Balanced cfg c) : Lasts cfg (m.keeps c) := by
  rcases balanced m.held m.kernel sound with ⟨a,k,done,after⟩ | ⟨e,failed,asleep⟩
  · exact .inl ⟨⟨k,m.held⟩,by simp only [Machine.keeps,done]; rfl,after⟩
  · exact .inr ⟨e,by simp only [Machine.keeps,failed]; rfl,asleep⟩

theorem cached_lasts {f : Cache n → Except (Fault n) (Cache n)}
    (leaves : Leaves (f m.kernel.cache) (Pool cfg m.held)) : Lasts cfg (m.cached f) := by
  rcases leaves with ⟨t,done,after⟩ | ⟨c,failed⟩
  · refine .inl ⟨⟨{m.kernel with cache := t},m.held⟩,?_,after⟩
    simp only [Machine.cached,Machine.keeps,onCache,done,Except.map]
  · exact .inr ⟨.sleeping c,by simp only [Machine.cached,Machine.keeps,onCache,failed,Except.map],c,rfl⟩

end

variable [NeZero n]

def step (cfg : Config) (hw : Nat → Response) (m : Machine n) : Call n → Except (Fault n) (Machine n)
  | .getblk dev blkno => m.takes fun s => getblk cfg s dev blkno
  | .geteblk => m.takes (geteblk cfg)
  | .bread dev blkno => m.takes fun s => bread cfg s dev blkno
  | .breada dev blkno rablkno => m.takes fun s => breada cfg s dev blkno rablkno
  | .brelse i => m.gives i fun s => .ok (brelse s i)
  | .bwrite i => m.gives i fun s => bwrite cfg s i
  | .bawrite i => m.gives i fun s => bawrite cfg s i
  | .bdwrite i => m.gives i fun s => bdwrite cfg s i
  | .blkflush dev blkno => m.cached fun s => blkflush cfg s dev blkno
  | .bflush dev => m.cached fun s => bflush cfg s dev
  | .binval dev => m.cached fun s => .ok (binval s dev)
  | .rdopen dev => m.keeps (rdopen cfg hw dev)
  | .rdclose dev => m.keeps (rdclose cfg hw dev)
  | .rdsize dev => m.keeps (rdsize cfg hw dev)
  | .rdioctl dev cmd => m.keeps (rdioctl cfg hw dev cmd)
  | .partitionType dev => m.keeps (partitionTypeOf cfg hw dev)
  | .getBootDevice => m.keeps (getBootDevice cfg hw)
  | .getSwapDevice => m.keeps (getSwapDevice cfg hw)
  | .rdiskListPartitions type => m.keeps (rdiskListPartitions cfg hw type (List.range cfg.nrdsk))

/-- Callers ask for blocks of the disks of the system, write buffers of such blocks,
and give back only what they hold. -/
def Legal (cfg : Config) (m : Machine n) : Call n → Prop
  | .getblk dev _ | .bread dev _ | .breada dev _ _ => major dev < cfg.nrdsk
  | .brelse i => i ∈ m.held
  | .bwrite i | .bawrite i | .bdwrite i => i ∈ m.held ∧ major (m.kernel.cache.buf i).bDev < cfg.nrdsk
  | _ => True

instance Legal.decidable (cfg : Config) (m : Machine n) : ∀ call, Decidable (Legal cfg m call)
  | .getblk _ _ | .bread _ _ | .breada _ _ _ => inferInstanceAs (Decidable (_ < _))
  | .brelse _ => inferInstanceAs (Decidable (_ ∈ _))
  | .bwrite _ | .bawrite _ | .bdwrite _ => inferInstanceAs (Decidable (_ ∧ _))
  | .geteblk | .blkflush _ _ | .bflush _ | .binval _ | .rdopen _ | .rdclose _ | .rdsize _ | .rdioctl _ _ | .partitionType _
  | .getBootDevice | .getSwapDevice | .rdiskListPartitions _ => .isTrue trivial

def boot (media : Nat → Nat → Block) : Machine n := ⟨⟨binit media,0⟩,∅⟩

theorem step_lasts (fits : cfg.nrdsk ≤ cfg.nblkdev) (readable : Readable hw) (m : Machine n) (call : Call n)
    (sound : Sound cfg m) (legal : Legal cfg m call) : Lasts cfg (step cfg hw m call) := by
  have pool : Pool cfg m.held m.kernel.cache := sound
  cases call with
  | getblk dev blkno =>
    refine takes_lasts ?_
    exact (pool.getblk dev blkno (lt_of_lt_of_le legal fits)).imp fun i t post => post.2.1
  | geteblk => exact takes_lasts (pool.geteblk.imp fun i t post => post.2)
  | bread dev blkno => exact takes_lasts ((pool.bread dev blkno fits legal).imp fun i t post => post.2.1)
  | breada dev blkno rablkno =>
    exact takes_lasts ((pool.breada dev blkno rablkno fits legal).imp fun i t post => post.2.1)
  | brelse i => exact gives_lasts ⟨_,rfl,pool.brelse legal⟩
  | bwrite i => exact gives_lasts (pool.writes legal.1 legal.2 bwrite_written)
  | bawrite i => exact gives_lasts (pool.writes legal.1 legal.2 bawrite_written)
  | bdwrite i => exact gives_lasts (pool.writes legal.1 legal.2 bdwrite_written)
  | blkflush dev blkno => exact cached_lasts (pool.blkflush dev blkno)
  | bflush dev => exact cached_lasts (.inl (pool.bflush dev))
  | binval dev => exact cached_lasts (.inl ⟨_,rfl,pool.binval dev⟩)
  | rdopen dev => exact keeps_lasts sound (rdopen_balanced readable dev)
  | rdclose dev => exact keeps_lasts sound (rdclose_balanced readable dev)
  | rdsize dev => exact keeps_lasts sound (rdsize_balanced readable dev)
  | rdioctl dev cmd => exact keeps_lasts sound (rdioctl_balanced readable dev cmd)
  | partitionType dev => exact keeps_lasts sound (partitionTypeOf_balanced readable dev)
  | getBootDevice => exact keeps_lasts sound (getBootDevice_balanced readable)
  | getSwapDevice => exact keeps_lasts sound (getSwapDevice_balanced readable)
  | rdiskListPartitions type => exact keeps_lasts sound (rdiskListPartitions_balanced readable type _)

/-- As long as partition tables can be read, every run of calls from the start of
the system leaves each buffer either held and busy or on one free list. -/
theorem buffers_settled (fits : cfg.nrdsk ≤ cfg.nblkdev) (readable : Readable hw) (media : Nat → Nat → Block)
    (calls : List (Call n)) (legal : Along (step cfg hw) (Legal cfg) (boot media) calls) :
    (∃ m, run (step cfg hw) (boot media) calls = .ok m ∧ Settled m) ∨ ∃ c,
    run (step cfg hw) (boot media) calls = .error (.sleeping c) := by
  have start : Sound cfg (boot media : Machine n) := binit_pool media
  rcases @run_cases _ _ _ (step cfg hw) (Legal cfg) (Sound cfg) (fun _ e => Sleeps e)
    (fun m call => step_lasts fits readable m call) calls _ start legal with ⟨m,done,sound⟩ | ⟨_,_,e,failed,c,rfl⟩
  · exact .inl ⟨m,done,sound.settled⟩
  · exact .inr ⟨c,failed⟩

def ready : Nat → Response := fun _ => ⟨0,some Block.zero,100⟩

def openAndRead : List (Call 10) := [.rdopen 0,.bread 0 3,.bdwrite 8,.breada 0 4 5,.brelse 7,.partitionType 1,.bflush 0]

theorem buffers_settled_openAndRead :
    ∃ m, run (step sdCard ready) (boot fun _ _ => Block.zero) openAndRead = .ok m ∧ Settled m := by
  refine (buffers_settled (by decide) (fun _ => by simp [ready]) _ openAndRead (by decide +kernel)).resolve_right ?_
  rintro ⟨c,failed⟩
  have ended : returns (fun _ => true) (run (step sdCard ready) (boot fun _ _ => Block.zero) openAndRead) = true := by
    decide +kernel
  rw [failed] at ended
  cases ended

def unreadable : Nat → Response := fun _ => ⟨0,none,0⟩

/-- Nobody holds buffer 9, which is busy, and the `AGE` list meets a buffer twice. -/
def leaked (m : Machine 10) : Bool :=
  decide (m.held = ∅) && (m.kernel.cache.buf 9).flags.bBusy && !decide (queue m.kernel.cache bqAge).Nodup

/-- The failed open releases the free buffer 0, whose list then leads back into
itself, and keeps buffer 9. -/
theorem unreadable_unsettled : Along (step sdCard unreadable) (Legal sdCard) (boot fun _ _ =>
    Block.zero : Machine 10) [.rdopen 0] ∧
    ∃ m : Machine 10, run (step sdCard unreadable) (boot fun _ _ => Block.zero) [.rdopen 0] = .ok m ∧ m.held = ∅ ∧
      (m.kernel.cache.buf 9).flags.bBusy = true ∧ (¬ ∃ queues, Holds m.kernel.cache.av queues) ∧ ¬ Settled m := by
  refine ⟨by decide +kernel,?_⟩
  have checked : returns leaked (run (step sdCard unreadable) (boot fun _ _ => Block.zero) [.rdopen 0]) = true := by
    decide +kernel
  obtain ⟨m,done,found⟩ := of_returns checked
  simp only [leaked,Bool.and_eq_true,Bool.not_eq_true',decide_eq_true_eq,decide_eq_false_iff_not] at found
  obtain ⟨⟨held,busy⟩,twice⟩ := found
  have broken : ¬ ∃ queues, Holds m.kernel.cache.av queues := by
    rintro ⟨queues,holds⟩
    have short : (queues bqAge).length < 11 := Nat.lt_succ_of_le (by simpa using (holds.nodup bqAge).length_le_card)
    rw [queue,holds.items_eq bqAge 11 short] at twice
    exact twice (holds.nodup bqAge)
  refine ⟨m,done,held,busy,broken,?_⟩
  rintro ⟨queues,holds,_⟩
  exact broken ⟨queues,holds⟩

end Retrobsd.Rdisk

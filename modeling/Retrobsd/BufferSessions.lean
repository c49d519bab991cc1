import Retrobsd.BufferCoherence

/-! A thread of control that reads, writes and flushes blocks through the buffer
cache. The session records what the thread has written last to each block, and
the cache is transparent if reads and flushes agree with that. -/
namespace Retrobsd.BufferCache
open Lib.Run

variable {n : Nat} {cfg : Config} {used : Set Label}

/-- `held` are the buffers that the thread has, `modified` those among them that it
has changed, and `written` what it has written last to each block. -/
structure Session (n : Nat) where
  cache : Cache n
  held : Finset (Fin n)
  modified : Finset (Fin n)
  written : Label → Block

/-- `overwrite` is `getblk` followed by a change of the whole block, and `change`
any other change to a buffer that the thread holds. -/
inductive Op (n : Nat) where
  | bread (dev : Dev) (blkno : Nat)
  | breada (dev : Dev) (blkno rablkno : Nat)
  | overwrite (dev : Dev) (blkno : Nat) (data : Block)
  | change (i : Fin n) (data : Block)
  | brelse (i : Fin n)
  | bwrite (i : Fin n)
  | bawrite (i : Fin n)
  | bdwrite (i : Fin n)
  | bflush (dev : Dev)
  | blkflush (dev : Dev) (blkno : Nat)

namespace Session

def takes (m : Session n) (result : Except (Fault n) (Cache n × Fin n)) : Except (Fault n) (Session n) :=
  result.map fun r => {m with cache := r.1,held := insert r.2 m.held}

def fills (m : Session n) (i : Fin n) (data : Block) : Session n :=
  {m with cache := m.cache.modify i (fun b => {b with data}),modified := insert i m.modified}

def writes (m : Session n) (i : Fin n) (result : Except (Fault n) (Cache n)) : Except (Fault n) (Session n) :=
  result.map fun s => ⟨s,m.held.erase i,m.modified.erase i,Function.update m.written (m.cache.buf i).label (m.cache.buf i).data⟩

def flushes (m : Session n) (result : Except (Fault n) (Cache n)) : Except (Fault n) (Session n) :=
    result.map fun s => {m with cache := s}

end Session

def perform (cfg : Config) (m : Session n) : Op n → Except (Fault n) (Session n)
  | .bread dev blkno => m.takes (bread cfg m.cache dev blkno)
  | .breada dev blkno rablkno => m.takes (breada cfg m.cache dev blkno rablkno)
  | .overwrite dev blkno data => (getblk cfg m.cache dev blkno).map fun r =>
    ({m with cache := r.1,held := insert r.2 m.held} : Session n).fills r.2 data
  | .change i data => .ok (m.fills i data)
  | .brelse i => .ok {m with cache := brelse m.cache i,held := m.held.erase i}
  | .bwrite i => m.writes i (bwrite cfg m.cache i)
  | .bawrite i => m.writes i (bawrite cfg m.cache i)
  | .bdwrite i => m.writes i (bdwrite cfg m.cache i)
  | .bflush dev => m.flushes (bflush cfg m.cache dev)
  | .blkflush dev blkno => m.flushes (blkflush cfg m.cache dev blkno)

/-- The thread uses the blocks of `used` and the buffers that it holds, and it
releases a modified buffer only by a write. -/
def Allowed (used : Set Label) (m : Session n) : Op n → Prop
  | .bread dev blkno => (dev,blkno) ∈ used
  | .breada dev blkno rablkno => (dev,blkno) ∈ used ∧ (rablkno ≠ 0 → (dev,rablkno) ∈ used)
  | .overwrite dev blkno _ => (dev,blkno) ∈ used
  | .change i _ => i ∈ m.held
  | .brelse i => i ∈ m.held ∧ i ∉ m.modified
  | .bwrite i | .bawrite i | .bdwrite i => i ∈ m.held
  | .bflush _ | .blkflush _ _ => True

/-- A read returns the data written last, or waits for ever because of a buffer
that the thread holds itself or because it holds all but `spare` of them. -/
def Reads (m : Session n) (p : Label) (spare : Nat) (result : Except (Fault n) (Cache n × Fin n)) : Prop :=
  Obtains result (Stuck m.held m.cache p spare) fun t i => i ∉ m.held ∧ (t.buf i).label = p ∧ (t.buf i).data = m.written p

/-- A flush leaves the data written last on disk, except for delayed writes in
buffers that the thread holds. -/
def Flushes (cfg : Config) (used : Set Label) (m : Session n) (dev : Dev) : Prop :=
  ∃ t, bflush cfg m.cache dev = .ok t ∧ ∀ blkno, (dev,blkno) ∈ used →
    (∀ i ∈ m.held, (m.cache.buf i).flags.bDelwri = true → (m.cache.buf i).label ≠ (dev,blkno)) →
    blockAt t (dev,blkno) = m.written (dev,blkno)

def Transparent (cfg : Config) (used : Set Label) (m : Session n) : Op n → Prop
  | .bread dev blkno => Reads m (dev,blkno) 0 (bread cfg m.cache dev blkno)
  | .breada dev blkno rablkno => Reads m (dev,blkno) 1 (breada cfg m.cache dev blkno rablkno)
  | .bflush dev => Flushes cfg used m dev
  | _ => True

def session (media : Nat → Nat → Block) (dflags : Nat → Diskflags) : Session n :=
  let s : Cache n := {binit media with dflags}
  ⟨s,∅,∅,blockAt s⟩

def Session.Sound (cfg : Config) (used : Set Label) (m : Session n) : Prop :=
  ∃ bucket, Coherent cfg used m.written m.held m.modified bucket m.cache

def Session.Lasts (cfg : Config) (used : Set Label) (result : Except (Fault n) (Session n)) : Prop :=
  (∃ t, result = .ok t ∧ t.Sound cfg used) ∨ ∃ e, result = .error e ∧ ∃ c, e = .sleeping c

theorem session_sound (media : Nat → Nat → Block) (dflags : Nat → Diskflags)
    (usable : Usable cfg (session media dflags : Session n).cache used) :
    (session media dflags : Session n).Sound cfg used := by
  have linked := binit_linked (n := n) media
  have flags : ∀ i, ((session media dflags : Session n).cache.buf i).flags = {Flags.none with bInval := true} :=
    binit_invalid media
  refine ⟨_,⟨linked.congr rfl rfl (fun _ => rfl) linked.plain,fun i => ?_,fun i => ?_,fun i member => ?_,fun i valid => ?_,
    fun i valid => ?_,fun i delayed => ?_,fun i j valid => ?_⟩,usable,fun _ member => member,fun i valid => ?_,
    fun p _ => .inl rfl⟩
  · rw [flags]
    exact iff_of_false (by decide) (Finset.notMem_empty i)
  · rw [flags]
    rfl
  · exact absurd member (Finset.notMem_empty i)
  all_goals
    first | rw [flags] at valid; cases valid | rw [flags] at delayed; cases delayed

section
variable {m : Session n}

theorem Session.takes_lasts {stuck : Prop} {p : Label} {result : Except (Fault n) (Cache n × Fin n)}
    (obtains : Obtains result stuck (Obtained cfg used m.written m.held m.modified m.cache p)) :
    Session.Lasts cfg used (m.takes result) := by
  rcases obtains with ⟨t,i,rfl,obtained⟩ | ⟨⟨c,rfl⟩,_⟩
  · exact .inl ⟨_,rfl,obtained.coherent⟩
  · exact .inr ⟨_,rfl,c,rfl⟩

variable {result : Except (Fault n) (Cache n)} {bucket : Fin n → Bucket}

theorem Session.writes_lasts {i : Fin n}
    (done : ∃ t, result = .ok t ∧ Coherent cfg used (Function.update m.written (m.cache.buf i).label (m.cache.buf i).data)
      (m.held.erase i) (m.modified.erase i) bucket t) :
    Session.Lasts cfg used (m.writes i result) := by
  obtain ⟨t,rfl,after⟩ := done
  exact .inl ⟨_,rfl,bucket,after⟩

theorem Session.flushes_lasts
    (leaves : Leaves result (Coherent cfg used m.written m.held m.modified bucket)) :
    Session.Lasts cfg used (m.flushes result) := by
  rcases leaves with ⟨t,rfl,after⟩ | ⟨c,rfl⟩
  · exact .inl ⟨_,rfl,bucket,after⟩
  · exact .inr ⟨_,rfl,c,rfl⟩

end

theorem Obtains.imp {result : Except (Fault n) (Cache n × Fin n)} {stuck : Prop} {post weaker : Cache n → Fin n → Prop}
    (obtains : Obtains result stuck post) (implied : ∀ t i, post t i → weaker t i) : Obtains result stuck weaker := by
  rcases obtains with ⟨t,i,done,final⟩ | asleep
  · exact .inl ⟨t,i,done,implied t i final⟩
  · exact .inr asleep

theorem perform_lasts (fits : cfg.nrdsk ≤ cfg.nblkdev) (m : Session n) (op : Op n) (sound : m.Sound cfg used)
    (allowed : Allowed used m op) :
    Session.Lasts cfg used (perform cfg m op) := by
  obtain ⟨bucket,coherent⟩ := sound
  cases op with
  | bread dev blkno =>
    exact Session.takes_lasts ((coherent.bread fits allowed).imp fun _ _ fetched => fetched.toObtained)
  | breada dev blkno rablkno =>
    exact Session.takes_lasts ((coherent.breada fits allowed.1 allowed.2).imp fun _ _ fetched => fetched.toObtained)
  | overwrite dev blkno data =>
    rcases coherent.getblk fits allowed with ⟨t,i,got,obtained⟩ | ⟨⟨c,failed⟩,_⟩
    · obtain ⟨bucket',owned⟩ := obtained.coherent
      refine .inl ⟨_,by simp only [perform,got,Except.map]; rfl,bucket',?_⟩
      exact owned.modify (Finset.mem_insert_self _ _) data
    · exact .inr ⟨_,by simp only [perform,failed,Except.map],c,rfl⟩
  | change i data => exact .inl ⟨_,rfl,bucket,coherent.modify allowed data⟩
  | brelse i => exact .inl ⟨_,rfl,bucket,coherent.brelse allowed.1 allowed.2⟩
  | bwrite i => exact Session.writes_lasts (coherent.writes allowed bwrite_written)
  | bawrite i => exact Session.writes_lasts (coherent.writes allowed bawrite_written)
  | bdwrite i => exact Session.writes_lasts (coherent.writes allowed bdwrite_written)
  | bflush dev =>
    obtain ⟨t,done,after,_⟩ := coherent.bflush dev
    exact Session.flushes_lasts (.inl ⟨t,done,after⟩)
  | blkflush dev blkno => exact Session.flushes_lasts (coherent.blkflush dev blkno)

theorem Coherent.flushes {m : Session n} {bucket : Fin n → Bucket}
    (coherent : Coherent cfg used m.written m.held m.modified bucket m.cache) (dev : Dev) : Flushes cfg used m dev := by
  obtain ⟨t,done,after,others,clean⟩ := coherent.bflush dev
  refine ⟨t,done,fun blkno inside quiet => ?_⟩
  refine (after.backed _ inside).resolve_right ?_
  rintro ⟨i,delayed,label⟩
  by_cases member : i ∈ m.held
  · rw [others i member] at delayed label
    exact quiet i member delayed label
  rw [clean i member (congrArg Prod.fst label)] at delayed
  cases delayed

theorem perform_transparent (fits : cfg.nrdsk ≤ cfg.nblkdev) (m : Session n) (op : Op n) (sound : m.Sound cfg used)
    (allowed : Allowed used m op) : Transparent cfg used m op := by
  obtain ⟨bucket,coherent⟩ := sound
  have read : ∀ {p : Label} {t : Cache n} {i : Fin n}, Fetched cfg used m.written m.held m.modified m.cache p t i →
      i ∉ m.held ∧ (t.buf i).label = p ∧ (t.buf i).data = m.written p :=
    fun fetched => ⟨fetched.fresh,fetched.label,fetched.data⟩
  cases op with
  | bread dev blkno => exact (coherent.bread fits allowed).imp fun _ _ => read
  | breada dev blkno rablkno => exact (coherent.breada fits allowed.1 allowed.2).imp fun _ _ => read
  | bflush dev => exact coherent.flushes dev
  | _ => trivial

/-- On blocks that do not overlap and can be written, every read of a session
returns what was written last and every flush leaves it on disk, however the
buffers are recycled in between. -/
theorem cache_transparent (fits : cfg.nrdsk ≤ cfg.nblkdev) (media : Nat → Nat → Block) (dflags : Nat → Diskflags)
    (usable : Usable cfg (session media dflags : Session n).cache used) (ops : List (Op n))
    (allowed : Along (perform cfg) (Allowed used) (session media dflags) ops) :
    Along (perform cfg) (Transparent cfg used) (session media dflags) ops ∧
    ((∃ m, run (perform cfg) (session media dflags) ops = .ok m) ∨
        ∃ c, run (perform cfg) (session media dflags) ops = .error (.sleeping c)) := by
  have start := session_sound media dflags usable
  constructor
  · refine Along.of_invariant (perform_transparent fits) ?_ ops _ start allowed
    intro m op t sound now ok
    rcases perform_lasts fits m op sound now with ⟨u,done,after⟩ | ⟨e,failed,_⟩
    · rw [ok] at done
      cases done
      exact after
    · rw [ok] at failed
      cases failed
  · rcases @run_cases _ _ _ (perform cfg) (Allowed used) (Session.Sound cfg used) (fun _ e => ∃ c, e = .sleeping c)
      (fun m op => perform_lasts fits m op) ops _ start allowed with ⟨m,done,_⟩ | ⟨_,_,e,failed,c,rfl⟩
    · exact .inl ⟨m,done⟩
    · exact .inr ⟨c,failed⟩

instance Allowed.decidable (used : Set Label) [DecidablePred (· ∈ used)] (m : Session n) : ∀ op, Decidable (Allowed used m op)
  | .bread _ _ | .overwrite _ _ _ => inferInstanceAs (Decidable (_ ∈ used))
  | .breada _ _ _ | .brelse _ => inferInstanceAs (Decidable (_ ∧ _))
  | .change _ _ | .bwrite _ | .bawrite _ | .bdwrite _ => inferInstanceAs (Decidable (_ ∈ m.held))
  | .bflush _ | .blkflush _ _ => .isTrue trivial

def zeros : Nat → Nat → Block := fun _ _ => Block.zero

def ones : Block := fun _ => 1

def unpartitioned : Nat → Diskflags := fun _ => ⟨0,fun _ => 0,fun _ => 0,100⟩

def partitioned : Nat → Diskflags := fun _ => ⟨0,fun _ => 10,fun _ => 50,100⟩

def wholeCard : Set Label := {p | p.1 = 0}

instance : DecidablePred (· ∈ wholeCard) := fun p => inferInstanceAs (Decidable (p.1 = 0))

def readBack : List (Op 10) :=
  [.overwrite 0 5 ones,.bdwrite 9,.breada 0 6 7,.change 8 ones,.bawrite 8,.bread 0 5,.brelse 9,.blkflush 0 5,.bflush 0]

theorem cache_transparent_readBack :
    Along (perform sdCard) (Transparent sdCard wholeCard) (session zeros unpartitioned) readBack ∧
      ((∃ m, run (perform sdCard) (session zeros unpartitioned) readBack = .ok m) ∨
        ∃ c, run (perform sdCard) (session zeros unpartitioned) readBack = .error (.sleeping c)) := by
  refine cache_transparent (by decide) zeros unpartitioned ⟨?_,?_,?_,?_⟩ readBack (by decide +kernel)
  · rintro ⟨dev,blkno⟩ rfl
    exact (by decide : major 0 < 1)
  · rintro ⟨dev,blkno⟩ rfl
    exact (by decide : minor 0 ≤ 4)
  · exact fun _ _ => rfl
  · rintro ⟨dev,blkno⟩ rfl ⟨dev',blkno'⟩ rfl equal
    simpa [place,offset,minor] using equal

def heldFlush : List (Op 10) := [.overwrite 0 5 ones,.bdwrite 9,.bread 0 5,.bflush 0]

def sameByte (b c : Block) : Bool := decide (b 0 = c 0)

/-- The four ways in which the disk or a read differs from what was written last: a flush passes over a delayed
write that is held; a block of a partition differs from the same block of the whole card before it is written
out, and changes that one then; and a disk for reading only keeps its blocks. -/
theorem cache_opaque : (Along (perform sdCard) (Allowed wholeCard) (session zeros unpartitioned) heldFlush ∧
      ∃ m, run (perform sdCard) (session zeros unpartitioned) heldFlush = .ok m ∧ blockAt m.cache (0,5) ≠ m.written (0,5)) ∧
    (∃ m : Session 10, run (perform sdCard) (session zeros partitioned) [.overwrite 1 5 ones,.bdwrite 9] = .ok m ∧
      place m.cache (0,15) = place m.cache (1,5) ∧
      ∃ t i, bread sdCard m.cache 0 15 = .ok (t,i) ∧ (t.buf i).data ≠ m.written (1,5)) ∧
    (∃ m : Session 10, run (perform sdCard) (session zeros partitioned) [.overwrite 1 5 ones,.bwrite 9] = .ok m ∧
      ∃ t i, bread sdCard m.cache 0 15 = .ok (t,i) ∧ (t.buf i).data ≠ m.written (0,15)) ∧
    (∃ m : Session 10, run (perform {sdCard with readonly := fun _ => true}) (session zeros unpartitioned)
      [.overwrite 0 5 ones,.bwrite 9,.bflush 0] = .ok m ∧ blockAt m.cache (0,5) ≠ m.written (0,5)) := by
  have differ : ∀ {b c : Block}, sameByte b c = false → b ≠ c := by
    intro b c ne same
    simp [sameByte,same] at ne
  have read : ∀ {m : Session 10} {p : Label}, returns (fun r => !sameByte (r.1.buf r.2).data (m.written p))
      (bread sdCard m.cache 0 15) = true → ∃ t i, bread sdCard m.cache 0 15 = .ok (t,i) ∧ (t.buf i).data ≠ m.written p := by
    intro m p passed
    obtain ⟨⟨t,i⟩,done,ne⟩ := of_returns passed
    exact ⟨t,i,done,differ (by simpa using ne)⟩
  refine ⟨⟨by decide +kernel,?_⟩,?_,?_,?_⟩
  · obtain ⟨m,done,ne⟩ := @of_returns _ _ (fun m : Session 10 => !sameByte (blockAt m.cache (0,5)) (m.written (0,5)))
      (run (perform sdCard) (session zeros unpartitioned) heldFlush) (by decide +kernel)
    exact ⟨m,done,differ (by simpa using ne)⟩
  · obtain ⟨m,done,ne⟩ := @of_returns _ _ (fun m : Session 10 => decide (place m.cache (0,15) = place m.cache (1,5)) &&
      returns (fun r => !sameByte (r.1.buf r.2).data (m.written (1,5))) (bread sdCard m.cache 0 15))
      (run (perform sdCard) (session zeros partitioned) [.overwrite 1 5 ones,.bdwrite 9]) (by decide +kernel)
    obtain ⟨overlap,passed⟩ := (Bool.and_eq_true _ _).mp ne
    exact ⟨m,done,by simpa using overlap,read passed⟩
  · obtain ⟨m,done,passed⟩ := @of_returns _ _ (fun m : Session 10 =>
      returns (fun r => !sameByte (r.1.buf r.2).data (m.written (0,15))) (bread sdCard m.cache 0 15))
      (run (perform sdCard) (session zeros partitioned) [.overwrite 1 5 ones,.bwrite 9]) (by decide +kernel)
    exact ⟨m,done,read passed⟩
  · obtain ⟨m,done,ne⟩ := @of_returns _ _ (fun m : Session 10 => !sameByte (blockAt m.cache (0,5)) (m.written (0,5)))
      (run (perform {sdCard with readonly := fun _ => true}) (session zeros unpartitioned)
        [.overwrite 0 5 ones,.bwrite 9,.bflush 0]) (by decide +kernel)
    exact ⟨m,done,differ (by simpa using ne)⟩

end Retrobsd.BufferCache

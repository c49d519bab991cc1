import Retrobsd.TransferStreams

/-! What `swcread` and `swcwrite` of `swap.c` do to the bytes of a temporary device: `uiomove` fills a
part of a block that `getnewbuf` has given, and `swap` always moves whole blocks. -/
namespace Retrobsd.SwapContents
open List BitVec Nat
open Function
open Transfers

abbrev Area := Word → Nat → UInt8

abbrev Buf := Nat → UInt8

def eio : Nat := 5

/-- `delivered` are the bytes that have been stored for the user. The remaining length of a transfer has
`wrapped` if more was taken from it than there was. -/
structure State where
  area : Area
  uio : Uio
  delivered : List (Word × UInt8)
  wrapped : Bool

structure Tables where
  tdstart : Word
  tdsize : Word

def fill (bp : Buf) (boff : Nat) (data : List UInt8) : Buf := fun j => if boff ≤ j then data[j - boff]?.getD (bp j) else bp j

def part (rlen : Word) : Word := if rlen ≥ 1024 then 1024 else rlen

def writeLoop (memory : Word → UInt8) (t : Tables) : Nat → Nat → Nat → Word → Word → Buf → State → Except Panic State
  | 0,_,_,_,_,_,s => .ok s
  | turns + 1,block,boff,rlen,rsize,bp,s =>
    if rlen > 0 ∧ block < t.tdsize.toNat then do
      let uio ← uiomove rsize s.uio
      let bp := fill bp boff ((between s.uio uio).map memory)
      let s := {s with
        area := update s.area (t.tdstart + BitVec.ofNat 32 block) bp
        uio
        wrapped := s.wrapped || decide (rlen < rsize)}
      writeLoop memory t turns (block + 1) 0 (rlen - rsize) (part (rlen - rsize)) bp s
    else .ok s

def readLoop (t : Tables) : Nat → Nat → Nat → Word → Word → State → Except Panic State
  | 0,_,_,_,_,s => .ok s
  | turns + 1,block,boff,rlen,rsize,s =>
    if rlen > 0 ∧ block < t.tdsize.toNat then do
      let bp := s.area (t.tdstart + BitVec.ofNat 32 block)
      let uio ← uiomove rsize s.uio
      let s := {s with
        uio
        delivered := s.delivered ++ (between s.uio uio).mapIdx fun i a => (a,bp (boff + i))
        wrapped := s.wrapped || decide (rlen < rsize)}
      readLoop t turns (block + 1) 0 (rlen - rsize) (part (rlen - rsize)) s
    else .ok s

/-- `uio->uio_iov->iov_len`. Where `readv` or `writev` was called without vectors this is what the array `aiov` holds,
`stale`, which nobody has set. -/
def firstLen (stale : Word) (uio : Uio) : Word := (uio.uioIov.head?.map Iovec.iovLen).getD stale

def block (uio : Uio) : Nat := (uio.uioOffset.sshiftRight 10).toNat

def boff (uio : Uio) : Nat := uio.uioOffset.toNat % 1024

def refused (t : Tables) (uio : Uio) : Bool := decide (t.tdstart = 0) || decide (uio.uioOffset ≥ t.tdsize <<< 10)

def swcwrite (stale : Word) (memory : Word → UInt8) (t : Tables) (bp : Buf) (s : State) : Except Panic (State × Nat) :=
  if refused t s.uio then .ok (s,eio)
  else (writeLoop memory t t.tdsize.toNat (block s.uio) (boff s.uio) (firstLen stale s.uio)
    (1024 - BitVec.ofNat 32 (boff s.uio)) bp s).map
    fun s => (s,0)

def swcread (stale : Word) (t : Tables) (s : State) : Except Panic (State × Nat) :=
  if refused t s.uio then .ok (s,eio)
  else (readLoop t t.tdsize.toNat (block s.uio) (boff s.uio) (firstLen stale s.uio)
    (1024 - BitVec.ofNat 32 (boff s.uio)) s).map fun s => (s,0)

/-- The bytes from `o` on, up to `n` of them, of the blocks of a unit are the first of the stream, all
other bytes of the swap area are as before, and the request has `n` bytes less to go. -/
structure Written (memory : Word → UInt8) (t : Tables) (o n : Nat) (s s' : State) : Prop where
  inside : ∀ i < t.tdsize.toNat, ∀ j < 1024, some (s'.area (t.tdstart + BitVec.ofNat 32 i) j) =
    if o ≤ 1024 * i + j ∧ 1024 * i + j < o + n then s.uio.stream[1024 * i + j - o]?.map memory
    else some (s.area (t.tdstart + BitVec.ofNat 32 i) j)
  outside : ∀ b, (∀ i < t.tdsize.toNat, b ≠ t.tdstart + BitVec.ofNat 32 i) → s'.area b = s.area b
  taken : s'.uio.stream = s.uio.stream.drop n
  unwrapped : s'.wrapped = false

def Area.byte (area : Area) (t : Tables) (p : Nat) : UInt8 := area (t.tdstart + BitVec.ofNat 32 (p / 1024)) (p % 1024)

/-- The user has been given the bytes from `o` on, up to `n` of them, and the swap area is as before. -/
structure Returned (t : Tables) (o n : Nat) (s s' : State) : Prop where
  given : s'.delivered = s.delivered ++ (s.uio.stream.take n).mapIdx fun k a => (a,s.area.byte t (o + k))
  taken : s'.uio.stream = s.uio.stream.drop n
  area : s'.area = s.area

section
variable {memory : Word → UInt8} {t : Tables} {s s' s₁ : State} {turns block : Nat} {rlen rsize : Word} {bp : Buf}

theorem place_inj {i k : Nat} (first : i < t.tdsize.toNat) (second : k < t.tdsize.toNat) :
    t.tdstart + BitVec.ofNat 32 i = t.tdstart + BitVec.ofNat 32 k ↔ i = k := by
  have small := t.tdsize.isLt
  constructor
  · intro same
    have equal := congrArg BitVec.toNat (add_left_cancel same)
    rw [toNat_ofNat,toNat_ofNat,mod_eq_of_lt (by omega),mod_eq_of_lt (by omega)] at equal
    exact equal
  · intro same
    rw [same]

structure Turned (memory : Word → UInt8) (t : Tables) (block boff : Nat) (rlen rsize : Word) (bp : Buf)
    (s s₁ : State) : Prop where
  area : s₁.area = update s.area (t.tdstart + BitVec.ofNat 32 block) (fill bp boff ((s.uio.stream.take rsize.toNat).map memory))
  stream : s₁.uio.stream = s.uio.stream.drop rsize.toNat
  sized : s₁.uio.Sized
  wrapped : s₁.wrapped = (s.wrapped || decide (rlen < rsize))

theorem writeLoop_turn (memory : Word → UInt8) (t : Tables) (turns boff : Nat) (rsize : Word) (bp : Buf)
    (more : rlen > 0 ∧ block < t.tdsize.toNat) (sized : s.uio.Sized) :
    ∃ s₁, Turned memory t block boff rlen rsize bp s s₁ ∧ writeLoop memory t (turns + 1) block boff rlen rsize bp s =
      writeLoop memory t turns (block + 1) 0 (rlen - rsize) (part (rlen - rsize))
        (fill bp boff ((s.uio.stream.take rsize.toNat).map memory)) s₁ := by
  obtain ⟨u,ran,moved,stream,left⟩ := uiomove_stream rsize sized
  rw [writeLoop,if_pos more,ran,← moved]
  exact ⟨_,⟨by rw [← moved],stream,left,rfl⟩,rfl⟩

variable {boff n : Nat}

theorem writeLoop_stop (less : ¬ (rlen > 0 ∧ block < t.tdsize.toNat)) :
    writeLoop memory t turns block boff rlen rsize bp s = .ok s := by
  cases turns with
  | zero => rfl
  | succ turns => rw [writeLoop,if_neg less]

/-- The loop leaves the blocks before it, and those of others, as they are. -/
structure Framed (t : Tables) (block : Nat) (s s' : State) : Prop where
  before : ∀ i < t.tdsize.toNat, i < block → s'.area (t.tdstart + BitVec.ofNat 32 i) = s.area (t.tdstart + BitVec.ofNat 32 i)
  outside : ∀ b, (∀ i < t.tdsize.toNat, b ≠ t.tdstart + BitVec.ofNat 32 i) → s'.area b = s.area b
  wrapped : s.wrapped = true → s'.wrapped = true

theorem Turned.framed (turned : Turned memory t block boff rlen rsize bp s s₁)
    (inside : block < t.tdsize.toNat) : Framed t block s s₁ := by
  refine ⟨fun i small earlier => ?_,fun b apart => ?_,fun wrapped => ?_⟩
  · rw [turned.area,update_of_ne fun same => ?_]
    have equal := (place_inj small inside).mp same
    omega
  · rw [turned.area,update_of_ne (apart block inside)]
  · rw [turned.wrapped,wrapped,Bool.true_or]

theorem writeLoop_framed (memory : Word → UInt8) (t : Tables) (turns block boff : Nat) (rlen rsize : Word) (bp : Buf)
    (sized : s.uio.Sized) :
    ∃ s', writeLoop memory t turns block boff rlen rsize bp s = .ok s' ∧ Framed t block s s' ∧ s'.uio.Sized := by
  induction turns generalizing block boff rlen rsize bp s with
  | zero => exact ⟨s,rfl,⟨fun _ _ _ => rfl,fun _ _ => rfl,id⟩,sized⟩
  | succ turns ih =>
    by_cases more : rlen > 0 ∧ block < t.tdsize.toNat
    · obtain ⟨s₁,turned,looped⟩ := writeLoop_turn memory t turns boff rsize bp more sized
      obtain ⟨s',ran,framed,rest⟩ := @ih s₁ (block + 1) 0 (rlen - rsize) (part (rlen - rsize))
        (fill bp boff ((s.uio.stream.take rsize.toNat).map memory)) turned.sized
      refine ⟨s',looped.trans ran,⟨fun i small earlier => ?_,fun b apart => ?_,fun wrapped => ?_⟩,rest⟩
      · rw [framed.before i small (by omega),(turned.framed more.2).before i small earlier]
      · rw [framed.outside b apart,(turned.framed more.2).outside b apart]
      · exact framed.wrapped ((turned.framed more.2).wrapped wrapped)
    · exact ⟨s,writeLoop_stop more,⟨fun _ _ _ => rfl,fun _ _ => rfl,id⟩,sized⟩

/-- The condition of a transfer of blocks: it goes to the end of the unit, or the first vector has all that is
asked for and is made of blocks. -/
def Whole (r l n : Nat) : Prop := r ≤ l ∧ r ≤ n ∨ 1024 ∣ l ∧ l = n

theorem part_toNat (rlen : Word) : (part rlen).toNat = min 1024 rlen.toNat := by
  unfold part
  split_ifs with full
  · exact (Nat.min_eq_left full).symm
  · exact (Nat.min_eq_right (Nat.le_of_lt (BitVec.lt_def.mp (BitVec.not_le.mp full)))).symm

theorem Turned.written (turned : Turned memory t block 0 rlen rsize bp s s₁) (inside : block < t.tdsize.toNat)
    (full : rsize.toNat = 1024) (data : 1024 ≤ s.uio.stream.length) (enough : 1024 ≤ n) :
    Written memory t (1024 * (block + 1)) (n - 1024) s₁ s' ↔ Written memory t (1024 * block) n s s' := by
  have here : ∀ j < 1024, some (s₁.area (t.tdstart + BitVec.ofNat 32 block) j) = s.uio.stream[j]?.map memory := by
    intro j small
    have there : j < ((s.uio.stream.take rsize.toNat).map memory).length := by
      rw [length_map,length_take,full]
      omega
    rw [turned.area,update_self,fill,if_pos (Nat.zero_le j),Nat.sub_zero,List.getElem?_eq_getElem there,Option.getD_some,
      getElem_map,getElem_take,List.getElem?_eq_getElem (by omega),Option.map_some]
  have apart : ∀ i < t.tdsize.toNat, i ≠ block → s₁.area (t.tdstart + BitVec.ofNat 32 i) =
    s.area (t.tdstart + BitVec.ofNat 32 i) := by
    intro i small other
    rw [turned.area,update_of_ne fun same => other ((place_inj small inside).mp same)]
  have rest : ∀ i < t.tdsize.toNat,
    ∀ j < 1024,(if 1024 * (block + 1) ≤ 1024 * i + j ∧ 1024 * i + j < 1024 * (block + 1) + (n - 1024) then
          s₁.uio.stream[1024 * i + j - 1024 * (block + 1)]?.map memory
        else some (s₁.area (t.tdstart + BitVec.ofNat 32 i) j)) =
      if 1024 * block ≤ 1024 * i + j ∧ 1024 * i + j < 1024 * block + n then s.uio.stream[1024 * i + j - 1024 * block]?.map memory
      else some (s.area (t.tdstart + BitVec.ofNat 32 i) j) := by
    intro i small j less
    by_cases same : i = block
    · subst same
      have index : 1024 * i + j - 1024 * i = j := by omega
      rw [if_neg (by omega),if_pos (by omega),here j less,index]
    by_cases later : 1024 * block ≤ 1024 * i + j ∧ 1024 * i + j < 1024 * block + n
    · have index : 1024 + (1024 * i + j - 1024 * (block + 1)) = 1024 * i + j - 1024 * block := by omega
      rw [if_pos (by omega),if_pos later,turned.stream,List.getElem?_drop,full,index]
    · rw [if_neg (by omega),if_neg later,apart i small same]
  have whole : s₁.uio.stream.drop (n - 1024) = s.uio.stream.drop n := by
    have sum : 1024 + (n - 1024) = n := by omega
    rw [turned.stream,drop_drop,full,sum]
  have others : ∀ b, (∀ i < t.tdsize.toNat, b ≠ t.tdstart + BitVec.ofNat 32 i) → s₁.area b = s.area b :=
    (turned.framed inside).outside
  constructor
  · intro written
    refine ⟨fun i small j less => ?_,fun b out => ?_,?_,written.unwrapped⟩
    · rw [written.inside i small j less,rest i small j less]
    · rw [written.outside b out,others b out]
    · rw [written.taken,whole]
  intro written
  refine ⟨fun i small j less => ?_,fun b out => ?_,?_,written.unwrapped⟩
  · rw [written.inside i small j less,rest i small j less]
  · rw [written.outside b out,others b out]
  · rw [written.taken,whole]

theorem Written.none {o : Nat} (unwrapped : s.wrapped = false) : Written memory t o 0 s s := by
  refine ⟨fun i _ j _ => ?_,fun _ _ => rfl,rfl,unwrapped⟩
  rw [if_neg (by omega)]

theorem writeLoop_whole (sized : s.uio.Sized) (unwrapped : s.wrapped = false) (enough : t.tdsize.toNat - block ≤ turns)
    (whole : Whole (1024 * (t.tdsize.toNat - block)) rlen.toNat s.uio.stream.length) :
    ∃ s', writeLoop memory t turns block 0 rlen (part rlen) bp s = .ok s' ∧
      Written memory t (1024 * block) (min s.uio.stream.length (1024 * (t.tdsize.toNat - block))) s s' := by
  induction turns generalizing block rlen bp s with
  | zero =>
    have none : min s.uio.stream.length (1024 * (t.tdsize.toNat - block)) = 0 := by omega
    rw [none]
    exact ⟨s,rfl,Written.none unwrapped⟩
  | succ turns ih =>
    by_cases more : rlen > 0 ∧ block < t.tdsize.toNat
    · have positive : 0 < rlen.toNat := more.1
      have long : 1024 ≤ rlen.toNat ∧ 1024 ≤ s.uio.stream.length := by
        unfold Whole at whole
        omega
      have full : (part rlen).toNat = 1024 := by
        rw [part_toNat,Nat.min_eq_left long.1]
      have same : part rlen = 1024 := eq_of_toNat_eq full
      obtain ⟨s₁,turned,looped⟩ := writeLoop_turn memory t turns 0 (part rlen) bp more sized
      have left : (rlen - part rlen).toNat = rlen.toNat - 1024 := by
        rw [same]
        bv_omega
      have shorter : s₁.uio.stream.length = s.uio.stream.length - 1024 := by
        rw [turned.stream,length_drop,full]
      have clear : s₁.wrapped = false := by
        rw [turned.wrapped,unwrapped,Bool.false_or,decide_eq_false_iff_not,same]
        exact BitVec.not_lt.mpr (BitVec.le_def.mpr long.1)
      obtain ⟨s',ran,written⟩ := @ih s₁ (block + 1) (rlen - part rlen)
        (fill bp 0 ((s.uio.stream.take (part rlen).toNat).map memory)) turned.sized clear (by omega) (by
          rw [left,shorter]
          unfold Whole at whole ⊢
          omega)
      refine ⟨s',looped.trans ran,(turned.written more.2 full long.2 (by omega)).mp ?_⟩
      have count : min s₁.uio.stream.length (1024 * (t.tdsize.toNat - (block + 1))) =
          min s.uio.stream.length (1024 * (t.tdsize.toNat - block)) - 1024 := by omega
      rw [← count]
      exact written
    · have none : min s.uio.stream.length (1024 * (t.tdsize.toNat - block)) = 0 := by
        have stop : rlen.toNat = 0 ∨ t.tdsize.toNat ≤ block := by
          by_contra going
          exact more ⟨lt_def.mpr (by change 0 < _; omega),by omega⟩
        unfold Whole at whole
        omega
      rw [none]
      exact ⟨s,writeLoop_stop more,Written.none unwrapped⟩

/-- Contents that show every byte of the buffer that has not been moved to it. -/
structure Telling (t : Tables) (block : Nat) (bp : Buf) (s : State) : Prop where
  full : ∀ j, bp j ≠ 0
  empty : ∀ i < t.tdsize.toNat, block ≤ i → ∀ j, s.area (t.tdstart + BitVec.ofNat 32 i) j = 0

theorem fill_full {addrs : List Word} (full : ∀ j, bp j ≠ 0) (j : Nat) : fill bp boff ((addrs.take n).map fun _ => 1) j ≠ 0 := by
  unfold fill
  split_ifs
  · cases found : ((addrs.take n).map fun _ => (1 : UInt8))[j - boff]? with
    | none => exact full j
    | some c =>
      have member := mem_of_getElem? found
      obtain ⟨_,_,rfl⟩ := mem_map.mp member
      exact (by decide : (1 : UInt8) ≠ 0)
  · exact full j

theorem Turned.tells {j : Nat} (turned : Turned (fun _ => 1) t block boff rlen rsize bp s s₁) (inside : block < t.tdsize.toNat)
    (telling : Telling t block bp s) (framed : Framed t (block + 1) s₁ s') {o : Nat} (written : Written (fun _ => 1) t o n s s')
    (small : j < 1024) (out : ¬ (o ≤ 1024 * block + j ∧ 1024 * block + j < o + n)) : False := by
  have kept := written.inside block inside j small
  rw [if_neg out,telling.empty block inside (Nat.le_refl _),framed.before block inside (lt_succ_self _),
    turned.area,update_self] at kept
  exact fill_full telling.full j (Option.some.inj kept)

theorem Telling.next (telling : Telling t block bp s) (turned : Turned (fun _ => 1) t block boff rlen rsize bp s s₁)
    (inside : block < t.tdsize.toNat) :
    Telling t (block + 1) (fill bp boff ((s.uio.stream.take rsize.toNat).map fun _ => 1)) s₁ := by
  refine ⟨fill_full telling.full,fun i small later j => ?_⟩
  have other : i ≠ block := by omega
  rw [turned.area,update_of_ne fun same => other ((place_inj small inside).mp same)]
  exact telling.empty i small (by omega) j

theorem whole_of_written (sized : s.uio.Sized) (enough : t.tdsize.toNat - block ≤ turns) (telling : Telling t block bp s)
    (ran : writeLoop (fun _ => 1) t turns block 0 rlen (part rlen) bp s = .ok s')
    (written : Written (fun _ => 1) t (1024 * block) (min s.uio.stream.length (1024 * (t.tdsize.toNat - block))) s s') :
    Whole (1024 * (t.tdsize.toNat - block)) rlen.toNat s.uio.stream.length := by
  induction turns generalizing block rlen bp s with
  | zero =>
    unfold Whole
    omega
  | succ turns ih =>
    by_cases more : rlen > 0 ∧ block < t.tdsize.toNat
    · have positive : 0 < rlen.toNat := more.1
      obtain ⟨s₁,turned,looped⟩ := writeLoop_turn (fun _ => 1) t turns 0 (part rlen) bp more sized
      rw [looped] at ran
      obtain ⟨s₂,again,framed,_⟩ := writeLoop_framed (fun _ => 1) t turns (block + 1) 0 (rlen - part rlen)
        (part (rlen - part rlen)) (fill bp 0 ((s.uio.stream.take (part rlen).toNat).map fun _ => 1)) turned.sized
      obtain rfl : s₂ = s' := Except.ok.inj (again.symm.trans ran)
      have size := part_toNat rlen
      have shorter : s₁.uio.stream.length = s.uio.stream.length - (part rlen).toNat := by
        rw [turned.stream,length_drop]
      have left : (rlen - part rlen).toNat = rlen.toNat - (part rlen).toNat := by bv_omega
      by_cases long : 1024 ≤ rlen.toNat ∧ 1024 ≤ s.uio.stream.length
      · have full : (part rlen).toNat = 1024 := by omega
        have count : min s₁.uio.stream.length (1024 * (t.tdsize.toNat - (block + 1))) =
            min s.uio.stream.length (1024 * (t.tdsize.toNat - block)) - 1024 := by omega
        have later := ih turned.sized (by omega) (telling.next turned more.2) ran (by
          rw [count]
          exact (turned.written more.2 full long.2 (by omega)).mpr written)
        rw [left,shorter,full] at later
        unfold Whole at later ⊢
        omega
      have count : min s.uio.stream.length (1024 * (t.tdsize.toNat - block)) = min (part rlen).toNat s.uio.stream.length := by
        by_cases short : rlen.toNat < 1024
        · have stop : ¬ (rlen - part rlen > 0 ∧ block + 1 < t.tdsize.toNat) := by
            intro going
            have some : 0 < (rlen - part rlen).toNat := going.1
            omega
          rw [writeLoop_stop stop] at ran
          have same := congrArg (fun s : State => s.uio.stream.length) (Except.ok.inj ran)
          have taken := congrArg length written.taken
          rw [length_drop] at taken
          omega
        · omega
      refine (turned.tells (j := min (part rlen).toNat s.uio.stream.length) more.2 telling framed written (by omega) ?_).elim
      omega
    · have stop : rlen.toNat = 0 ∨ t.tdsize.toNat ≤ block := by
        by_contra going
        exact more ⟨lt_def.mpr (by change 0 < _; omega),by omega⟩
      rw [writeLoop_stop more] at ran
      cases ran
      have taken := congrArg length written.taken
      rw [length_drop] at taken
      unfold Whole
      omega

end

section
variable {stale : Word} {t : Tables} {uio : Uio}

structure Inside (t : Tables) (uio : Uio) : Prop where
  positive : uio.uioOffset.msb = false
  less : uio.uioOffset.toNat < 1024 * t.tdsize.toNat

def room (t : Tables) (uio : Uio) : Nat := 1024 * t.tdsize.toNat - uio.uioOffset.toNat

def fitting (t : Tables) (uio : Uio) : Nat := min uio.stream.length (room t uio)

/-- Whatever the user, the swap area and the buffer hold, `swcwrite` writes what fits and nothing else. -/
def WritesExactly (stale : Word) (t : Tables) (uio : Uio) : Prop := ∀ memory area bp, ∃ s' errno,
    swcwrite stale memory t bp ⟨area,uio,[],false⟩ = .ok (s',errno) ∧
    Written memory t uio.uioOffset.toNat (fitting t uio) ⟨area,uio,[],false⟩ s'

theorem fitting_none (sized : uio.Sized) (none : uio.uioResid = 0) : fitting t uio = 0 := by
  rw [fitting,sized.empty.mpr none]
  exact Nat.zero_min _

theorem none_of_fitting (sized : uio.Sized) (inside : Inside t uio)
    (taken : uio.stream = uio.stream.drop (fitting t uio)) : uio.uioResid = 0 := by
  have same := congrArg length taken
  have less := inside.less
  rw [length_drop,fitting,room] at same
  rw [← sized.empty,← length_eq_zero_iff]
  omega

def probe (uio : Uio) : State := ⟨fun _ _ => 0,uio,[],false⟩

theorem telling_probe (t : Tables) (block : Nat) (uio : Uio) : Telling t block (fun _ => 2) (probe uio) :=
  ⟨fun _ => by decide,fun _ _ _ _ => rfl⟩

theorem Inside.start (inside : Inside t uio) : 1024 * block uio + boff uio = uio.uioOffset.toNat := by
  have shifted : (uio.uioOffset.sshiftRight 10).toNat = uio.uioOffset.toNat / 1024 := by
    rw [toNat_sshiftRight_of_msb_false inside.positive,shiftRight_eq_div_pow]
  rw [block,shifted,boff]
  exact div_add_mod _ _

theorem Inside.within (inside : Inside t uio) : block uio < t.tdsize.toNat := by
  have start := inside.start
  have less := inside.less
  omega

theorem Inside.aligned (inside : Inside t uio) (aligned : 1024 ∣ uio.uioOffset.toNat) :
    1024 * block uio = uio.uioOffset.toNat ∧ boff uio = 0 := by
  have zero : boff uio = 0 := mod_eq_zero_of_dvd aligned
  have start := inside.start
  rw [zero,Nat.add_zero] at start
  exact ⟨start,zero⟩

theorem Inside.room (inside : Inside t uio) (aligned : 1024 ∣ uio.uioOffset.toNat) :
    1024 * (t.tdsize.toNat - block uio) = room t uio := by
  rw [SwapContents.room,← (inside.aligned aligned).1]
  omega

theorem whole_part {r n : Nat} {l : Word} (long : 1024 ≤ r) (whole : Whole r l.toNat n) (some : l ≠ 0) : part l = 1024 := by
  have positive : 0 < l.toNat := by bv_omega
  apply eq_of_toNat_eq
  rw [part_toNat]
  unfold Whole at whole
  change _ = 1024
  omega

def writeAll (stale : Word) (memory : Word → UInt8) (t : Tables) (bp : Buf) (s : State) : Except Panic State :=
  writeLoop memory t t.tdsize.toNat (block s.uio) (boff s.uio) (firstLen stale s.uio) (1024 - BitVec.ofNat 32 (boff s.uio)) bp s

def Blocks (stale : Word) (t : Tables) (uio : Uio) : Prop :=
  firstLen stale uio = 0 ∧ uio.uioResid = 0 ∨ 1024 ∣ uio.uioOffset.toNat ∧
  Whole (room t uio) (firstLen stale uio).toNat uio.uioResid.toNat

theorem writeAll_blocks (memory : Word → UInt8) (bp : Buf) (s : State) (sized : s.uio.Sized)
    (inside : Inside t s.uio) (unwrapped : s.wrapped = false) (blocks : Blocks stale t s.uio) :
    ∃ s', writeAll stale memory t bp s = .ok s' ∧ Written memory t s.uio.uioOffset.toNat (fitting t s.uio) s s' := by
  by_cases none : firstLen stale s.uio = 0
  · have nothing : s.uio.uioResid = 0 := by
      rcases blocks with ⟨_,nothing⟩ | ⟨aligned,whole⟩
      · exact nothing
      have long : 1024 ≤ room t s.uio := by
        have within := inside.within
        rw [← inside.room aligned]
        omega
      have zero : (firstLen stale s.uio).toNat = 0 := by
        rw [none]
        rfl
      apply eq_of_toNat_eq
      unfold Whole at whole
      change _ = 0
      omega
    rw [writeAll,writeLoop_stop (fun more => by rw [none] at more; exact absurd more.1 (by decide)),fitting_none sized nothing]
    exact ⟨s,rfl,Written.none unwrapped⟩
  · obtain ⟨aligned,whole⟩ := blocks.resolve_left fun both => none both.1
    obtain ⟨start,zero⟩ := inside.aligned aligned
    rw [← inside.room aligned,← sized.length] at whole
    have first : part (firstLen stale s.uio) = 1024 := whole_part (by have within := inside.within; omega) whole none
    have rest : (1024 : Word) - BitVec.ofNat 32 0 = 1024 := by decide
    rw [writeAll,zero,rest,← first,← start,fitting,← inside.room aligned]
    exact writeLoop_whole sized unwrapped (sub_le _ _) whole

theorem blocks_of_written {bp : Buf} {s s' : State} (sized : s.uio.Sized) (inside : Inside t s.uio)
    (telling : Telling t (block s.uio) bp s)
    (ran : writeAll stale (fun _ => 1) t bp s = .ok s')
    (written : Written (fun _ => 1) t s.uio.uioOffset.toNat (fitting t s.uio) s s') : Blocks stale t s.uio := by
  have within := inside.within
  by_cases none : firstLen stale s.uio = 0
  · rw [writeAll,writeLoop_stop (fun more => by rw [none] at more; exact absurd more.1 (by decide))] at ran
    cases ran
    exact .inl ⟨none,none_of_fitting sized inside written.taken⟩
  have more : firstLen stale s.uio > 0 ∧ block s.uio < t.tdsize.toNat := ⟨by bv_omega,within⟩
  obtain ⟨turns,size⟩ : ∃ turns, t.tdsize.toNat = turns + 1 := ⟨t.tdsize.toNat - 1,by omega⟩
  obtain ⟨s₁,turned,looped⟩ := writeLoop_turn (fun _ => 1) t turns (boff s.uio)
    (1024 - BitVec.ofNat 32 (boff s.uio)) bp more sized
  rw [writeAll,size,looped] at ran
  obtain ⟨s₂,again,framed,_⟩ := writeLoop_framed (fun _ => 1) t turns (block s.uio + 1) 0
    (firstLen stale s.uio - (1024 - BitVec.ofNat 32 (boff s.uio)))
    (part (firstLen stale s.uio - (1024 - BitVec.ofNat 32 (boff s.uio))))
    (fill bp (boff s.uio) ((s.uio.stream.take (1024 - BitVec.ofNat 32 (boff s.uio)).toNat).map fun _ => 1)) turned.sized
  obtain rfl : s₂ = s' := Except.ok.inj (again.symm.trans ran)
  by_cases zero : boff s.uio = 0
  · have aligned : 1024 ∣ s.uio.uioOffset.toNat := dvd_of_mod_eq_zero zero
    have whole : (1024 : Word) - BitVec.ofNat 32 0 = 1024 := by decide
    have long : 1024 ≤ firstLen stale s.uio := by
      by_contra short
      have wrapped : s₁.wrapped = true := by
        rw [turned.wrapped,zero,whole,Bool.or_eq_true]
        exact .inr (decide_eq_true (BitVec.not_le.mp short))
      have ended := framed.wrapped wrapped
      rw [written.unwrapped] at ended
      cases ended
    have full : part (firstLen stale s.uio) = 1024 := if_pos long
    rw [zero,whole,← full] at looped ran
    rw [fitting,← inside.room aligned,← (inside.aligned aligned).1] at written
    refine .inr ⟨aligned,?_⟩
    rw [← inside.room aligned,← sized.length]
    exact whole_of_written sized (sub_le _ _) telling (size ▸ looped.trans ran) written
  · refine (turned.tells (j := 0) within telling framed written (by decide) fun both => ?_).elim
    have start := inside.start
    have positive : 0 < boff s.uio := Nat.pos_of_ne_zero zero
    omega

theorem writes_exactly_iff (stale : Word) (t : Tables) (uio : Uio) (sized : uio.Sized) (inside : Inside t uio) :
    WritesExactly stale t uio ↔ if refused t uio then uio.uioResid = 0 else Blocks stale t uio := by
  cases stops : refused t uio with
  | true =>
    rw [if_pos rfl]
    constructor
    · intro writes
      obtain ⟨s',errno,ran,written⟩ := writes (fun _ => 1) (fun _ _ => 0) fun _ => 2
      rw [swcwrite,if_pos stops] at ran
      cases ran
      exact none_of_fitting sized inside written.taken
    · intro none memory area bp
      rw [swcwrite,if_pos stops,fitting_none sized none]
      exact ⟨_,_,rfl,Written.none rfl⟩
  | false =>
    rw [if_neg Bool.false_ne_true]
    constructor
    · intro writes
      obtain ⟨s',errno,ran,written⟩ := writes (fun _ => 1) (fun _ _ => 0) fun _ => 2
      rw [swcwrite,if_neg (by rw [stops]; exact Bool.false_ne_true)] at ran
      obtain ⟨s₁,looped,same⟩ := Lib.Run.except_map_ok ran
      cases same
      exact blocks_of_written sized inside (telling_probe t _ uio) looped written
    · intro blocks memory area bp
      obtain ⟨s',ran,written⟩ := writeAll_blocks memory bp ⟨area,uio,[],false⟩ sized inside rfl blocks
      refine ⟨s',0,?_,written⟩
      rw [swcwrite,if_neg (by rw [stops]; exact Bool.false_ne_true)]
      exact congrArg (Except.map fun s => (s,0)) ran

end

section
variable {t : Tables} {s s' s₁ : State} {turns block boff o n : Nat} {rlen rsize : Word}

structure Read (t : Tables) (block boff : Nat) (rlen rsize : Word) (s s₁ : State) : Prop where
  given : s₁.delivered = s.delivered ++ (s.uio.stream.take rsize.toNat).mapIdx
    fun i a => (a,s.area (t.tdstart + BitVec.ofNat 32 block) (boff + i))
  stream : s₁.uio.stream = s.uio.stream.drop rsize.toNat
  sized : s₁.uio.Sized
  wrapped : s₁.wrapped = (s.wrapped || decide (rlen < rsize))
  area : s₁.area = s.area

theorem readLoop_turn (turns boff : Nat) (rsize : Word) (more : rlen > 0 ∧ block < t.tdsize.toNat) (sized : s.uio.Sized) :
    ∃ s₁, Read t block boff rlen rsize s s₁ ∧ readLoop t (turns + 1) block boff rlen rsize s =
      readLoop t turns (block + 1) 0 (rlen - rsize) (part (rlen - rsize)) s₁ := by
  obtain ⟨u,ran,moved,stream,left⟩ := uiomove_stream rsize sized
  rw [readLoop,if_pos more,ran]
  refine ⟨{s with uio := u,delivered := _,wrapped := _},⟨?_,stream,left,rfl,rfl⟩,rfl⟩
  exact congrArg (s.delivered ++ mapIdx _ ·) moved

theorem readLoop_stop (less : ¬ (rlen > 0 ∧ block < t.tdsize.toNat)) : readLoop t turns block boff rlen rsize s = .ok s := by
  cases turns with
  | zero => rfl
  | succ turns => rw [readLoop,if_neg less]

theorem Returned.none : Returned t o 0 s s := ⟨by simp,rfl,rfl⟩

theorem Read.returned (read : Read t block boff rlen rsize s s₁) (start : o = 1024 * block + boff)
    (short : boff + rsize.toNat ≤ 1024)
    (rest : Returned t (o + rsize.toNat) n s₁ s') : Returned t o (rsize.toNat + n) s s' := by
  refine ⟨?_,?_,rest.area.trans read.area⟩
  · rw [rest.given,read.given,read.stream,read.area,List.append_assoc,List.take_add,List.mapIdx_append]
    congr 2
    · refine ext_getElem (by simp) fun k first second => ?_
      have small : k < rsize.toNat := by
        simp only [length_mapIdx,length_take] at first
        omega
      have place : (o + k) / 1024 = block ∧ (o + k) % 1024 = boff + k := by omega
      rw [getElem_mapIdx,getElem_mapIdx,Area.byte,place.1,place.2]
    refine ext_getElem (by simp) fun k first second => ?_
    have full : (s.uio.stream.take rsize.toNat).length = rsize.toNat := by
      simp only [length_mapIdx,length_take,length_drop] at first ⊢
      omega
    have place : o + rsize.toNat + k = o + (k + (s.uio.stream.take rsize.toNat).length) := by omega
    rw [getElem_mapIdx,getElem_mapIdx,place]
  · rw [rest.taken,read.stream,drop_drop]

theorem readLoop_blocks (t : Tables) (turns block : Nat) (rlen : Word) (sized : s.uio.Sized)
    (enough : t.tdsize.toNat - block ≤ turns) :
    ∃ s', readLoop t turns block 0 rlen (part rlen) s = .ok s' ∧
      Returned t (1024 * block) (min rlen.toNat (1024 * (t.tdsize.toNat - block))) s s' ∧ s'.wrapped = s.wrapped := by
  induction turns generalizing block rlen s with
  | zero =>
    have none : min rlen.toNat (1024 * (t.tdsize.toNat - block)) = 0 := by omega
    rw [none]
    exact ⟨s,rfl,Returned.none,rfl⟩
  | succ turns ih =>
    by_cases more : rlen > 0 ∧ block < t.tdsize.toNat
    · obtain ⟨s₁,read,looped⟩ := readLoop_turn turns 0 (part rlen) more sized
      obtain ⟨s',ran,rest,wrapped⟩ := @ih s₁ (block + 1) (rlen - part rlen) read.sized (by omega)
      have size := part_toNat rlen
      have positive : 0 < rlen.toNat := more.1
      have left : (rlen - part rlen).toNat = rlen.toNat - (part rlen).toNat := by bv_omega
      have within : ¬ rlen < part rlen := by
        intro less
        have less' : rlen.toNat < (part rlen).toNat := less
        omega
      refine ⟨s',looped.trans ran,?_,?_⟩
      · by_cases long : 1024 ≤ rlen.toNat
        · have place : 1024 * block + (part rlen).toNat = 1024 * (block + 1) := by omega
          have sum : (part rlen).toNat + min (rlen - part rlen).toNat (1024 * (t.tdsize.toNat - (block + 1))) =
              min rlen.toNat (1024 * (t.tdsize.toNat - block)) := by omega
          rw [← sum]
          exact read.returned (Nat.add_zero _).symm (by omega) (place ▸ rest)
        have none : min (rlen - part rlen).toNat (1024 * (t.tdsize.toNat - (block + 1))) = 0 := by omega
        have stop : ¬ (rlen - part rlen > 0 ∧ block + 1 < t.tdsize.toNat) := by
          intro going
          have some : 0 < (rlen - part rlen).toNat := going.1
          omega
        have all : (part rlen).toNat + 0 = min rlen.toNat (1024 * (t.tdsize.toNat - block)) := by omega
        rw [readLoop_stop stop] at ran
        cases ran
        rw [← all]
        exact read.returned (Nat.add_zero _).symm (by omega) Returned.none
      · rw [wrapped,read.wrapped,decide_eq_false within,Bool.or_false]
    · have none : min rlen.toNat (1024 * (t.tdsize.toNat - block)) = 0 := by
        have stop : rlen.toNat = 0 ∨ t.tdsize.toNat ≤ block := by
          by_contra going
          exact more ⟨lt_def.mpr (by change 0 < _; omega),by omega⟩
        omega
      rw [none]
      exact ⟨s,readLoop_stop more,Returned.none,rfl⟩

theorem Returned.of_min (returned : Returned t o n s s') {m : Nat}
    (same : min m s.uio.stream.length = min n s.uio.stream.length) :
    Returned t o m s s' := by
  refine ⟨?_,?_,returned.area⟩
  · rw [returned.given,take_eq_take_iff.mpr same.symm]
  · rw [returned.taken,drop_eq_drop_iff.mpr same.symm]

theorem Returned.min_eq {m : Nat} (first : Returned t o n s s') (second : Returned t o m s s') :
    min m s.uio.stream.length = min n s.uio.stream.length := by
  have same := congrArg length (first.taken.symm.trans second.taken)
  rw [length_drop,length_drop] at same
  omega

end

section
variable {stale : Word} {t : Tables} {uio : Uio} {s : State}

def readAll (stale : Word) (t : Tables) (s : State) : Except Panic State :=
  readLoop t t.tdsize.toNat (block s.uio) (boff s.uio) (firstLen stale s.uio) (1024 - BitVec.ofNat 32 (boff s.uio)) s

def asked (stale : Word) (t : Tables) (uio : Uio) : Nat :=
  if firstLen stale uio = 0 then 0
  else if (firstLen stale uio).toNat + boff uio < 1024 then room t uio
  else min (firstLen stale uio).toNat (room t uio)

def Short (stale : Word) (uio : Uio) : Prop := firstLen stale uio ≠ 0 ∧ (firstLen stale uio).toNat + boff uio < 1024

instance (stale : Word) (uio : Uio) : Decidable (Short stale uio) := instDecidableAnd

theorem toNat_left (l r : Word) :
    (l - r).toNat = if r.toNat ≤ l.toNat then l.toNat - r.toNat else 4294967296 + l.toNat - r.toNat := by
  split_ifs <;> bv_omega

theorem readAll_reads (s : State) (sized : s.uio.Sized) (inside : Inside t s.uio) :
    ∃ s', readAll stale t s = .ok s' ∧ Returned t s.uio.uioOffset.toNat (asked stale t s.uio) s s' ∧
    s'.wrapped = (s.wrapped || decide (Short stale s.uio)) := by
  unfold asked
  by_cases none : firstLen stale s.uio = 0
  · rw [if_pos none,readAll,readLoop_stop (fun more => by rw [none] at more; exact absurd more.1 (by decide))]
    refine ⟨s,rfl,Returned.none,?_⟩
    rw [decide_eq_false (fun short => short.1 none),Bool.or_false]
  have within := inside.within
  have start := inside.start
  have small : boff s.uio < 1024 := mod_lt _ (by decide)
  have size : (1024 - BitVec.ofNat 32 (boff s.uio)).toNat = 1024 - boff s.uio := by
    have narrow : (BitVec.ofNat 32 (boff s.uio)).toNat = boff s.uio := by
      rw [toNat_ofNat,mod_eq_of_lt (by omega)]
    have unit : (1024 : Word).toNat = 1024 := rfl
    rw [toNat_left,narrow,unit,if_pos (by omega)]
  have positive : 0 < (firstLen stale s.uio).toNat := by bv_omega
  obtain ⟨turns,count⟩ : ∃ turns, t.tdsize.toNat = turns + 1 := ⟨t.tdsize.toNat - 1,by omega⟩
  obtain ⟨s₁,read,looped⟩ := readLoop_turn turns (boff s.uio) (1024 - BitVec.ofNat 32 (boff s.uio))
    ⟨lt_def.mpr positive,within⟩ sized
  obtain ⟨s',ran,rest,wrapped⟩ := readLoop_blocks t turns (block s.uio + 1)
    (firstLen stale s.uio - (1024 - BitVec.ofNat 32 (boff s.uio))) read.sized (by omega)
  have next : 1024 * (block s.uio + 1) = s.uio.uioOffset.toNat + (1024 - BitVec.ofNat 32 (boff s.uio)).toNat := by omega
  rw [next] at rest
  have returned := read.returned start.symm (by omega) rest
  have full : room t s.uio = (1024 - boff s.uio) + 1024 * (t.tdsize.toNat - (block s.uio + 1)) := by
    rw [room]
    omega
  have long := s.uio.uioResid.isLt
  have total := sized.length
  rw [readAll,count,looped]
  refine ⟨s',ran,?_,?_⟩
  · rw [if_neg none]
    by_cases short : (firstLen stale s.uio).toNat + boff s.uio < 1024
    · have left : (firstLen stale s.uio - (1024 - BitVec.ofNat 32 (boff s.uio))).toNat =
        4294967296 + (firstLen stale s.uio).toNat - (1024 - boff s.uio) := by
        rw [toNat_left,size,if_neg (by omega)]
      rw [if_pos short]
      refine returned.of_min ?_
      rw [left,size,full]
      omega
    have left : (firstLen stale s.uio - (1024 - BitVec.ofNat 32 (boff s.uio))).toNat =
      (firstLen stale s.uio).toNat - (1024 - boff s.uio) := by
      rw [toNat_left,size,if_pos (by omega)]
    rw [if_neg short]
    refine returned.of_min ?_
    rw [left,size,full]
    omega
  · have less : firstLen stale s.uio < 1024 - BitVec.ofNat 32 (boff s.uio) ↔ Short stale s.uio := by
      rw [lt_def,size,Short,and_iff_right none]
      omega
    rw [wrapped,read.wrapped,decide_eq_decide.mpr less]

/-- The condition of a transfer to the user: the first vector has all that fits, and does not end in the first block. -/
def Reads (stale : Word) (t : Tables) (uio : Uio) : Prop :=
  firstLen stale uio = 0 ∧ uio.uioResid = 0 ∨ 1024 ≤ (firstLen stale uio).toNat + boff uio ∧ firstLen stale uio ≠ 0 ∧
      (uio.uioResid.toNat ≤ (firstLen stale uio).toNat ∨ room t uio ≤ (firstLen stale uio).toNat)

theorem asked_fits (sized : uio.Sized) (inside : Inside t uio) :
    min (asked stale t uio) uio.stream.length = fitting t uio ∧ ¬ Short stale uio ↔ Reads stale t uio := by
  have rest : 0 < room t uio := Nat.sub_pos_of_lt inside.less
  have total := sized.length
  unfold asked Short Reads fitting
  by_cases none : firstLen stale uio = 0
  · have nothing : uio.uioResid = 0 ↔ uio.uioResid.toNat = 0 := by bv_omega
    rw [if_pos none]
    simp only [none,nothing,ne_eq,not_true_eq_false,false_and,not_false_eq_true,and_true,and_false,or_false,true_and]
    omega
  · rw [if_neg none]
    simp only [none,ne_eq,not_false_eq_true,true_and,false_and,false_or]
    split <;> omega

/-- `swcread` gives the user what fits and nothing else, and its lengths do not wrap. -/
def ReadsExactly (stale : Word) (t : Tables) (area : Area) (uio : Uio) : Prop :=
    ∃ s' errno, swcread stale t ⟨area,uio,[],false⟩ = .ok (s',errno) ∧
    Returned t uio.uioOffset.toNat (fitting t uio) ⟨area,uio,[],false⟩ s' ∧ s'.wrapped = false

theorem reads_exactly_iff (area : Area) (sized : uio.Sized) (inside : Inside t uio) :
    ReadsExactly stale t area uio ↔ if refused t uio then uio.uioResid = 0 else Reads stale t uio := by
  cases stops : refused t uio with
  | true =>
    rw [if_pos rfl]
    constructor
    · rintro ⟨s',errno,ran,returned,_⟩
      rw [swcread,if_pos stops] at ran
      cases ran
      exact none_of_fitting sized inside returned.taken
    · intro none
      rw [ReadsExactly,swcread,if_pos stops,fitting_none sized none]
      exact ⟨_,_,rfl,Returned.none,rfl⟩
  | false =>
    have going : ¬ refused t uio = true := by
      rw [stops]
      exact Bool.false_ne_true
    have calls : swcread stale t ⟨area,uio,[],false⟩ = (readAll stale t ⟨area,uio,[],false⟩).map fun s => (s,0) := by
      rw [swcread,if_neg going,readAll]
    obtain ⟨s₁,looped,all,wrapped⟩ := readAll_reads ⟨area,uio,[],false⟩ sized inside
    rw [if_neg Bool.false_ne_true,← asked_fits sized inside]
    constructor
    · rintro ⟨s',errno,ran,returned,clear⟩
      obtain ⟨s₂,again,same⟩ := Lib.Run.except_map_ok (calls.symm.trans ran)
      cases same
      obtain rfl := Except.ok.inj (again.symm.trans looped)
      have count := returned.min_eq all
      rw [clear] at wrapped
      refine ⟨?_,of_decide_eq_false (by simpa using wrapped.symm)⟩
      rw [count,fitting]
      exact Nat.min_eq_left (Nat.min_le_left _ _)
    · rintro ⟨count,long⟩
      refine ⟨s₁,0,?_,all.of_min ?_,?_⟩
      · rw [calls,looped]
        rfl
      · rw [count]
        exact Nat.min_eq_left (Nat.min_le_left _ _)
      · rw [wrapped,decide_eq_false long]
        rfl

/-- A request to write and, later, one to read do what they are for, whatever the user, the swap area and the
buffer hold. -/
def Keeps (before after : Word) (t : Tables) (w r : Uio) : Prop := ∀ memory area bp, ∃ s errno,
  swcwrite before memory t bp ⟨area,w,[],false⟩ = .ok (s,errno) ∧
    Written memory t w.uioOffset.toNat (fitting t w) ⟨area,w,[],false⟩ s ∧ ReadsExactly after t s.area r

theorem keeps_iff (before after : Word) (t : Tables) (w r : Uio) (first : w.Sized) (second : r.Sized)
    (there : Inside t w) (here : Inside t r) :
    Keeps before after t w r ↔ (if refused t w then w.uioResid = 0 else Blocks before t w) ∧
      if refused t r then r.uioResid = 0 else Reads after t r := by
  rw [← writes_exactly_iff before t w first there]
  constructor
  · intro keeps
    refine ⟨fun memory area bp => ?_,?_⟩
    · obtain ⟨s,errno,ran,written,_⟩ := keeps memory area bp
      exact ⟨s,errno,ran,written⟩
    obtain ⟨s,_,_,_,reads⟩ := keeps (fun _ => 0) (fun _ _ => 0) fun _ => 0
    exact (reads_exactly_iff s.area second here).mp reads
  · rintro ⟨writes,reads⟩ memory area bp
    obtain ⟨s,errno,ran,written⟩ := writes memory area bp
    exact ⟨s,errno,ran,written,(reads_exactly_iff s.area second here).mpr reads⟩

/-- A block is written and read back. -/
theorem keeps_block : Keeps 0 0 ⟨8,4⟩ ⟨[⟨4096,1024⟩],1024,1024,.write,[]⟩ ⟨[⟨8192,1024⟩],1024,1024,.read,[]⟩ :=
  (keeps_iff _ _ _ _ _ (by rfl) (by rfl) ⟨by rfl,by decide⟩ ⟨by rfl,by decide⟩).mpr
    ⟨.inr ⟨by decide,.inr ⟨by decide,rfl⟩⟩,.inr ⟨by decide,by decide,.inl (by decide)⟩⟩

/-- Ten bytes at offset 5 take the rest of a block. -/
theorem part_overwrites : ¬ Keeps 0 0 ⟨8,4⟩ ⟨[⟨4096,10⟩],5,10,.write,[]⟩ ⟨[⟨8192,10⟩],5,10,.read,[]⟩ := by
  intro keeps
  have writes : WritesExactly 0 ⟨8,4⟩ ⟨[⟨4096,10⟩],5,10,.write,[]⟩ := by
    intro memory area bp
    obtain ⟨s,errno,ran,written,_⟩ := keeps memory area bp
    exact ⟨s,errno,ran,written⟩
  rcases (writes_exactly_iff _ _ _ (by rfl) ⟨by rfl,by decide⟩).mp writes with ⟨none,_⟩ | ⟨aligned,_⟩
  · exact absurd none (by decide)
  · exact absurd aligned (by decide)

end

end Retrobsd.SwapContents

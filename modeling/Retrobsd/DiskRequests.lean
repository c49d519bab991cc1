import Retrobsd.Rdisk

/-! Requests to the disks: `rdstrategy` of `rdisk.c` for any disks, partition tables and
answers of the devices, with `biodone`, `biowait` and `geterror`. -/
namespace Retrobsd.DiskRequests
open BufferCache Rdisk

/-- A buffer as the strategy routine sees it. The block number is a `long`, the count an
unsigned number. -/
structure Request where
  flags : Flags
  error : Nat
  dev : Dev
  blkno : BitVec 32
  bcount : BitVec 32

/-- An entry of `disks`, with the answers that its routines give: zero tells of a failure. -/
structure Diskentry where
  unit : Nat
  readonly : Bool
  size : Nat
  int : size < 2^31
  read : (unit offset bcount : Nat) → Nat
  write : (unit offset bcount : Nat) → Nat

structure Access where
  root : Nat
  read : Bool
  offset : Nat
  bcount : Nat
  answer : Nat

def diskflags (mbr : Block) (size : Nat) : Diskflags where
  opens := 1
  start := fun i => lbastart mbr i / 2
  len := fun i => lbalength mbr i / 2
  blocks := size

/-- `start[part - 1]`, which for a partition that there is not is something behind the array. -/
def startOf (flags : Diskflags) (behind : Nat → BitVec 32) (part : Nat) : Nat :=
  if part = 0 then 0
  else if h : part - 1 < 4 then flags.start ⟨part - 1,h⟩ else (behind part).toNat

def offset (flags : Diskflags) (behind : Nat → BitVec 32) (bp : Request) : Nat :=
  ((startOf flags behind (minor bp.dev) + bp.blkno.toInt) % 2^32).toNat

inductive Fault where
  | panic (message : String)
deriving DecidableEq

/-- The buffer as it is completed; an asynchronous one is then left to `brelse`. -/
def biodone (bp : Request) : Except Fault Request :=
  if bp.flags.bDone then .error (.panic "dup biodone")
  else .ok {bp with flags := {bp.flags with bDone := true,bWanted := false}}

def geterror (bp : Request) : Nat := if bp.flags.bError then (if bp.error = 0 then 5 else bp.error) else 0

/-- The error number of the process after `biowait`, if the buffer is done. -/
def biowait (uError : Nat) (bp : Request) : Option Nat :=
  if bp.flags.bDone then some (if uError = 0 then geterror bp else uError) else none

variable (disks : List Diskentry) (mbr : Nat → Block) (behind : Nat → Nat → BitVec 32)

/-- The buffer, if it is completed, and the accesses that were made for it. The answers are
not looked at. -/
def rdstrategy (bp : Request) : Except Fault (Option Request × List Access) :=
  match disks[major bp.dev]? with
  | none => .ok (none,[])
  | some disk =>
    let spot := offset (diskflags (mbr (major bp.dev)) disk.size) (behind (major bp.dev)) bp
    let count := bp.bcount.toNat
    let made :=
      if bp.flags.bRead then [⟨major bp.dev,true,spot,count,disk.read disk.unit spot count⟩]
      else if disk.readonly then []
      else [⟨major bp.dev,false,spot,count,disk.write disk.unit spot count⟩]
    match biodone bp with
    | .error e => .error e
    | .ok bp => .ok (some bp,made)

def extent (disk : Diskentry) (root part : Nat) : Option (Nat × Nat) :=
  if part = 0 then some (0,disk.size)
  else if h : part - 1 < 4 then
    some ((diskflags (mbr root) disk.size).start ⟨part - 1,h⟩,(diskflags (mbr root) disk.size).len ⟨part - 1,h⟩)
  else none

def Inside (disk : Diskentry) (bp : Request) : Prop :=
  ∃ start len, extent mbr disk (major bp.dev) (minor bp.dev) = some (start,len) ∧ 0 ≤ bp.blkno.toInt ∧
    bp.blkno.toInt * 1024 + bp.bcount.toNat ≤ len * 1024

def Within (disk : Diskentry) (bp : Request) (access : Access) : Prop :=
  ∃ start len, extent mbr disk (major bp.dev) (minor bp.dev) = some (start,len) ∧ start ≤ access.offset ∧
    access.offset * 1024 + access.bcount ≤ (start + len) * 1024

/-- What is expected: the buffer is completed, nothing outside the partition is touched, and
either the transfer was made inside it and the device reports success, or the buffer has an
error that `biowait` returns. -/
def Kept (bp : Request) : Prop :=
    ∃ done accesses, rdstrategy disks mbr behind bp = .ok (some done,accesses) ∧ done.flags.bDone = true ∧
    (∀ access ∈ accesses, ∃ disk, disks[major bp.dev]? = some disk ∧ Within mbr disk bp access) ∧
    ((∃ disk access, disks[major bp.dev]? = some disk ∧ Inside mbr disk bp ∧ accesses = [access] ∧ access.read = bp.flags.bRead ∧
        access.bcount = bp.bcount.toNat ∧ access.answer ≠ 0) ∨
      (done.flags.bError = true ∧ ∃ error, biowait 0 done = some error ∧ error ≠ 0))

def answer (disk : Diskentry) (bp : Request) : Nat :=
  let spot := offset (diskflags (mbr (major bp.dev)) disk.size) (behind (major bp.dev)) bp
  if bp.flags.bRead then disk.read disk.unit spot bp.bcount.toNat else disk.write disk.unit spot bp.bcount.toNat

def Fair (bp : Request) : Prop := bp.flags.bDone = false ∧ ∃ disk, disks[major bp.dev]? = some disk ∧
    if bp.flags.bRead = true ∨ disk.readonly = false then
      Inside mbr disk bp ∧ (answer mbr behind disk bp ≠ 0 ∨ bp.flags.bError = true)
    else bp.flags.bError = true

theorem le32_lt (b : Block) (k : Nat) : le32 b k < 2^32 := by
  have first := b.byteAt_lt k
  have second := b.byteAt_lt (k + 1)
  have third := b.byteAt_lt (k + 2)
  have fourth := b.byteAt_lt (k + 3)
  rw [le32]
  omega

variable {disks mbr behind} {disk : Diskentry} {bp : Request}

theorem extent_bounds {root part start len : Nat} (found : extent mbr disk root part = some (start,len)) :
    start < 2^31 ∧ len < 2^31 := by
  rw [extent] at found
  split_ifs at found with whole some
  · cases found
    exact ⟨by decide,disk.int⟩
  cases found
  have first := le32_lt (mbr root) (446 + 16 * (part - 1) + 8)
  have second := le32_lt (mbr root) (446 + 16 * (part - 1) + 12)
  simp only [diskflags,lbastart,lbalength]
  omega

theorem startOf_extent {root part start len : Nat} (found : extent mbr disk root part = some (start,len))
    (after : Nat → BitVec 32) :
    startOf (diskflags (mbr root) disk.size) after part = start := by
  rw [extent] at found
  rw [startOf]
  split_ifs at found ⊢
  · cases found
    rfl
  cases found
  rfl

theorem within_iff {access : Access}
    (spot : access.offset = offset (diskflags (mbr (major bp.dev)) disk.size) (behind (major bp.dev)) bp)
    (count : access.bcount = bp.bcount.toNat) : Within mbr disk bp access ↔ Inside mbr disk bp := by
  have low := BitVec.le_toInt bp.blkno
  have high := BitVec.toInt_lt (x := bp.blkno)
  constructor
  · rintro ⟨start,len,found,before,after⟩
    obtain ⟨first,most⟩ := extent_bounds found
    rw [offset,startOf_extent found] at spot
    rw [count] at after
    refine ⟨start,len,found,?_,?_⟩ <;> omega
  · rintro ⟨start,len,found,positive,fits⟩
    obtain ⟨first,most⟩ := extent_bounds found
    rw [offset,startOf_extent found] at spot
    refine ⟨start,len,found,?_,?_⟩ <;> omega

def completed (bp : Request) : Request := {bp with flags := {bp.flags with bDone := true,bWanted := false}}

theorem biodone_completed (fresh : bp.flags.bDone = false) : biodone bp = .ok (completed bp) := by
  rw [biodone,fresh]
  rfl

theorem biowait_completed (error : bp.flags.bError = true) : ∃ e, biowait 0 (completed bp) = some e ∧ e ≠ 0 := by
  have marked : (completed bp).flags.bError = true := error
  refine ⟨geterror (completed bp),rfl,?_⟩
  rw [geterror,if_pos marked]
  split_ifs with zero
  · decide
  · exact zero

variable (mbr behind) in
def access (disk : Diskentry) (bp : Request) : Access :=
  ⟨major bp.dev,bp.flags.bRead,offset (diskflags (mbr (major bp.dev)) disk.size) (behind (major bp.dev)) bp,bp.bcount.toNat,
    answer mbr behind disk bp⟩

theorem rdstrategy_eq (found : disks[major bp.dev]? = some disk) (fresh : bp.flags.bDone = false) :
    rdstrategy disks mbr behind bp =
      .ok (some (completed bp),if bp.flags.bRead = true ∨ disk.readonly = false then [access mbr behind disk bp] else []) := by
  rw [rdstrategy,found]
  dsimp only
  rw [biodone_completed fresh]
  cases read : bp.flags.bRead <;> cases readonly : disk.readonly <;> simp [access,answer,read]

theorem within_access : Within mbr disk bp (access mbr behind disk bp) ↔ Inside mbr disk bp := within_iff rfl rfl

/-- Whatever disks there are and whatever they answer, a request is either carried out inside its partition or
completed with an error if and only if it names a disk and an access for it lies inside the partition and
succeeds, or the buffer had an error from before. -/
theorem rdstrategy_kept (disks : List Diskentry) (mbr : Nat → Block) (behind : Nat → Nat → BitVec 32) (bp : Request) :
    Kept disks mbr behind bp ↔ Fair disks mbr behind bp := by
  constructor
  · rintro ⟨done,accesses,ran,finished,within,outcome⟩
    cases found : disks[major bp.dev]? with
    | none =>
      rw [rdstrategy,found] at ran
      cases ran
    | some disk =>
      have fresh : bp.flags.bDone = false := by
        by_contra old
        rw [rdstrategy,found,biodone,if_pos (by simpa using old)] at ran
        cases ran
      rw [rdstrategy_eq found fresh] at ran
      cases ran
      refine ⟨fresh,disk,found,?_⟩
      split_ifs at within outcome ⊢ with made
      · obtain ⟨same,there,inside⟩ := within _ (List.mem_singleton_self _)
        rw [found] at there
        cases there
        refine ⟨within_access.mp inside,?_⟩
        rcases outcome with ⟨-,access,-,-,one,-,-,succeeded⟩ | ⟨error,-⟩
        · cases one
          exact .inl succeeded
        · exact .inr error
      · rcases outcome with ⟨-,access,-,-,one,-⟩ | ⟨error,-⟩
        · cases one
        · exact error
  · rintro ⟨fresh,disk,found,fair⟩
    refine ⟨completed bp,_,rdstrategy_eq found fresh,rfl,?_,?_⟩
    · intro made member
      split_ifs at fair member with does
      · rw [List.mem_singleton.mp member]
        exact ⟨disk,found,within_access.mpr fair.1⟩
      · cases member
    split_ifs at fair ⊢ with does
    · rcases fair.2 with succeeded | error
      · exact .inl ⟨disk,_,found,fair.1,rfl,rfl,rfl,succeeded⟩
      · exact .inr ⟨error,biowait_completed error⟩
    · exact .inr ⟨fair,biowait_completed fair⟩

def card : Diskentry := ⟨0,false,20,by decide,fun _ _ _ => 1,fun _ _ _ => 1⟩

def someMbr : Block := fun i => if i.val = 454 then 2 else if i.val = 458 then 20 else 0

def request (read : Bool) (blkno : BitVec 32) : Request := ⟨{Flags.none with bRead := read},0,1,blkno,1024⟩

/-- A read that the card does not manage is completed without an error. -/
theorem failed_read_succeeds : ¬ Kept [{card with read := fun _ _ _ => 0}] (fun _ => someMbr) (fun _ _ => 0)
    (request true 0) := by
  rintro ⟨done,accesses,ran,-,-,outcome⟩
  cases ran
  rcases outcome with ⟨-,access,-,-,one,-,-,succeeded⟩ | ⟨error,-⟩
  · cases one
    exact succeeded rfl
  · cases error

end Retrobsd.DiskRequests

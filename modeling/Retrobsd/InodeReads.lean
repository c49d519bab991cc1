import Retrobsd.InodeCache
import Retrobsd.FreeListChain

/-! `iget`, `irele` and `iupdat` of `ufs_inode.c` over the devices that the inodes are
on, and what becomes of a slot when its inode cannot be read. -/
namespace Retrobsd.InodeReads
open Function Except
open InodeCache

def nicinod : Nat := 32
def inopb : Nat := 16
def nindir : Nat := 256
def eio : Nat := 5
def enfile : Nat := 23

def itod (x : Nat) : Nat := (x + inopb - 1) / inopb
def itoo (x : Nat) : Nat := (x + inopb - 1) % inopb

/-- The inodes of a super block. `inode` has the `fs_ninode` numbers of `fs_inode`, the
last one first. -/
structure Inodes where
  inode : List Nat
  ilock : Nat
  tinode : Nat
  lasti : Nat
  nbehind : Nat

/-- A device with the super block of its file system. `bError` is what the driver
leaves in `b_error`. -/
structure Device where
  volume : FreeList.Volume
  inodes : Inodes
  ronly : Bool
  bError : Nat → Nat

structure State where
  table : Table
  mount : List Mount
  device : Nat → Device
  uError : Nat
  time : Nat
  console : List String

inductive Fault where
  | sleeping
  | noImt
  | notFree
  | spinning
deriving DecidableEq

def State.setVolume (s : State) (dev : Nat) (v : FreeList.Volume) : State :=
  {s with device := update s.device dev {s.device dev with volume := v}}

def State.setInode (s : State) (x : Slot) (ip : Inode) : State := {s with table := s.table.set x ip}

def geterror (bError : Nat) : Nat := if bError = 0 then eio else bError

def bread (s : State) (dev blkno : Nat) : State × Option Block :=
  let d := s.device dev
  if d.volume.failing blkno then
    ({s with uError := if s.uError = 0 then geterror (d.bError blkno) else s.uError},none)
  else (s,some (d.volume.disk blkno))

def getDinode (b : Block) (o : Nat) : Dinode where
  mode := b.word (16 * o) % 2^16
  nlink := b.word (16 * o) / 2^16
  uid := b.word (16 * o + 1)
  gid := b.word (16 * o + 2)
  size := b.word (16 * o + 3)
  addr i := b.word (16 * o + 4 + i)
  flags := b.word (16 * o + 12)
  atime := b.word (16 * o + 13)
  mtime := b.word (16 * o + 14)
  ctime := b.word (16 * o + 15)

def putDinode (b : Block) (o : Nat) (n : Dinode) : Block := b.writeWords fun j =>
  if j < 16 * o ∨ j ≥ 16 * o + 16 then none else match j - 16 * o with
  | 0 => some (n.mode % 2^16 + n.nlink % 2^16 * 2^16)
  | 1 => some n.uid
  | 2 => some n.gid
  | 3 => some n.size
  | 11 => none
  | 12 => some n.flags
  | 13 => some n.atime
  | 14 => some n.mtime
  | 15 => some n.ctime
  | k => some (n.addr (Fin.ofNat 7 (k - 4)))

def iupdat (s : State) (x : Slot) : State :=
  let ip := s.table.inode x
  if !(ip.iupd || ip.iacc || ip.ichg || ip.imod) then s
  else if (s.device ip.dev).ronly then s
  else match bread s ip.dev (itod ip.number) with
    | (s,none) => s
    | (s,some b) =>
      let node := {ip.node with
        atime := if ip.iacc then s.time else ip.node.atime
        mtime := if ip.iupd then s.time else ip.node.mtime
        ctime := if ip.ichg then s.time else ip.node.ctime}
      let v := (s.device ip.dev).volume
      let v := {v with disk := update v.disk (itod ip.number) (putDinode b (itoo ip.number) node)}
      (s.setInode x {ip with node,iupd := false,iacc := false,ichg := false,imod := false}).setVolume ip.dev v

def free (s : State) (dev ino bno : Nat) : Except Fault State :=
  match FreeList.free (s.device dev).volume ino bno with
  | .error _ => .error .sleeping
  | .ok v => .ok (s.setVolume dev v)

def clearSlots (dev : Nat) (slot : State → Nat → Except Fault State) (s : State) (bn : Nat) : Except Fault State :=
  match bread s dev bn with
  | (s,none) => .ok s
  | (s,some cpy) =>
    let v := (s.device dev).volume
    let s := s.setVolume dev {v with disk := update v.disk bn Block.zero}
    (List.range nindir).reverse.foldlM (fun s i => if cpy.word i ≠ 0 then slot s (cpy.word i) else .ok s) s

def indirtrunc (dev ino : Nat) : Nat → State → Nat → Except Fault State
  | 0 => clearSlots dev fun s nb => free s dev ino nb
  | level + 1 => clearSlots dev fun s nb => (indirtrunc dev ino level s nb).bind fun s => free s dev ino nb

def dropTree (dev ino : Nat) (addr : Fin 7 → Nat) (s : State) (level : Nat) : Except Fault State :=
  let bn := addr (Fin.ofNat 7 (4 + level))
  if bn ≠ 0 then (indirtrunc dev ino level s bn).bind fun s => free s dev ino bn else .ok s

def dropDirect (dev ino : Nat) (addr : Fin 7 → Nat) (s : State) (i : Nat) : Except Fault State :=
  let bn := addr (Fin.ofNat 7 i)
  if bn ≠ 0 then free s dev ino bn else .ok s

def freeBlocks (s : State) (x : Slot) : Except Fault State :=
  let ip := s.table.inode x
  if !ip.ipipe && ip.node.size == 0 then .ok s
  else
    let s := s.setInode x {ip with node := {ip.node with size := 0,addr := fun _ => 0}}
    ([2,1,0].foldlM (dropTree ip.dev ip.number ip.node.addr) s).bind fun s =>
      [3,2,1,0].foldlM (dropDirect ip.dev ip.number ip.node.addr) s

def itrunc (s : State) (x : Slot) : Except Fault State := (freeBlocks s x).map fun s =>
  let ip := s.table.inode x
  iupdat (s.setInode x {ip with ichg := true,iupd := true}) x

def ifree (s : State) (dev ino : Nat) : State :=
  let d := s.device dev
  let n : Inodes := {d.inodes with tinode := (d.inodes.tinode + 1) % 2^32}
  let d :=
    if n.ilock ≠ 0 then {d with inodes := n}
    else if n.inode.length ≥ nicinod then
      {d with inodes := if n.lasti > ino then {n with nbehind := (n.nbehind + 1) % 2^32} else n}
    else {d with
      inodes := {n with inode := ino :: n.inode}
      volume := {d.volume with fs := {d.volume.fs with fsFmod := 1}}}
  {s with device := update s.device dev d}

def itimes (ip : Inode) (time : Nat) : Inode :=
  if ip.iupd || ip.iacc || ip.ichg then
    {ip with
      imod := true
      node := {ip.node with
        atime := if ip.iacc then time else ip.node.atime
        mtime := if ip.iupd then time else ip.node.mtime
        ctime := if ip.ichg then time else ip.node.ctime}
      iacc := false,iupd := false,ichg := false}
  else ip

def reap (s : State) (x : Slot) : Except Fault State :=
  let dev := (s.table.inode x).dev
  let ino := (s.table.inode x).number
  (itrunc s x).map fun s =>
    let ip := s.table.inode x
    let node := {ip.node with mode := 0,addr := update ip.node.addr 1 0}
    ifree (s.setInode x {ip with node,iupd := true,ichg := true}) dev ino

def irele (s : State) (x : Slot) : Except Fault State :=
  let ip := s.table.inode x
  if ip.count = 1 then
    let s := s.setInode x {ip with ilocked := true}
    let reaped := if ip.node.nlink = 0 ∧ (s.device ip.dev).ronly = false then reap s x else .ok s
    reaped.map fun s =>
      let s := iupdat s x
      {s with table := s.table.retire x}
  else
    let ip := if !ip.ilocked then itimes ip s.time else ip
    .ok (s.setInode x {ip with count := ip.count - 1})

def iput (s : State) (x : Slot) : Except Fault State :=
  let ip := s.table.inode x
  irele (s.setInode x {ip with ilocked := false,iwant := false}) x

/-- The part of `iget` that reads the inode into a slot of the free list. -/
def readInode (s : State) (x : Slot) (dev ino : Nat) : Except Fault (State × Option Slot) :=
  let s := {s with table := s.table.claim x dev ino}
  match bread s dev (itod ino) with
  | (s,none) => (iput {s with table := s.table.forget x} x).map fun s => (s,none)
  | (s,some b) =>
    .ok (s.setInode x {s.table.inode x with node := getDinode b (itoo ino)},some x)

def iget : Nat → State → Nat → Nat → Except Fault (State × Option Slot)
  | 0,_,_,_ => .error .spinning
  | fuel + 1,s,dev,ino => match s.table.look s.mount dev ino with
    | .locked _ => .error .sleeping
    | .mounted dev => iget fuel s dev rootino
    | .noImt => .error .noImt
    | .incore x => .ok ({s with table := s.table.hold x},some x)
    | .full => .ok ({s with uError := enfile,console := s.console ++ ["inode: table full\n"]},none)
    | .notFree => .error .notFree
    | .recycle x => readInode s x dev ino

def reads : Nat → State → Nat → Nat → Option (Nat × Nat × Slot)
  | 0,_,_,_ => none
  | fuel + 1,s,dev,ino => match s.table.look s.mount dev ino with
    | .mounted dev => reads fuel s dev rootino
    | .recycle x => some (dev,ino,x)
    | _ => none

variable {s s' : State} {x : Slot} {dev ino : Nat}

section
variable {bn : Nat}

def SameInodes (s s' : State) : Prop := ∀ d, (s'.device d).inodes = (s.device d).inodes

theorem SameInodes.trans {r : State} (first : SameInodes s r) (second : SameInodes r s') :
    SameInodes s s' := fun d => (second d).trans (first d)

theorem setVolume_inodes (v : FreeList.Volume) : SameInodes s (s.setVolume dev v) := by
  intro d
  by_cases here : d = dev
  · rw [here]
    show (update s.device dev {s.device dev with volume := v} dev).inodes = _
    rw [update_self]
  · exact congrArg Device.inodes (update_of_ne here _ _)

theorem bread_device : (bread s dev bn).1.device = s.device := by
  unfold bread
  cases failing : (s.device dev).volume.failing bn <;> simp only [failing] <;> rfl

theorem bread_inodes (s : State) (dev bn : Nat) : SameInodes s (bread s dev bn).1 := fun d => by rw [bread_device]

theorem iupdat_inodes : SameInodes s (iupdat s x) := by
  have kept := bread_inodes s (s.table.inode x).dev (itod (s.table.inode x).number)
  unfold iupdat
  extract_lets ip
  split
  · exact fun _ => rfl
  split
  · exact fun _ => rfl
  split
  · rename_i r found
    rwa [found] at kept
  rename_i r b found
  rw [found] at kept
  exact kept.trans (setVolume_inodes _)

theorem free_inodes (done : free s dev ino bn = .ok s') : SameInodes s s' := by
  unfold free at done
  split at done
  · cases done
  obtain rfl := ok.inj done
  exact setVolume_inodes _

theorem foldlM_inodes {α : Type} {f : State → α → Except Fault State} (keeps : ∀ {s a s'}, f s a = .ok s' → SameInodes s s') :
    ∀ {l : List α} {s s' : State}, l.foldlM f s = .ok s' → SameInodes s s' := by
  intro l
  induction l with
  | nil =>
    intro s s' done
    obtain rfl := ok.inj done
    exact fun _ => rfl
  | cons a l ih =>
    intro s s' done
    rw [List.foldlM_cons] at done
    obtain ⟨r,first,rest⟩ := Lib.Run.except_bind_ok done
    exact (keeps first).trans (ih rest)

theorem clearSlots_inodes {slot : State → Nat → Except Fault State} (keeps : ∀ {s b s'}, slot s b = .ok s' → SameInodes s s')
    (done : clearSlots dev slot s bn = .ok s') : SameInodes s s' := by
  have kept := bread_inodes s dev bn
  unfold clearSlots at done
  split at done
  · rename_i r found
    rw [found] at kept
    obtain rfl := ok.inj done
    exact kept
  rename_i r b found
  rw [found] at kept
  refine kept.trans ((setVolume_inodes _).trans (foldlM_inodes (fun {s i s'} each => ?_) done))
  split at each
  · exact keeps each
  obtain rfl := ok.inj each
  exact fun _ => rfl

theorem indirtrunc_inodes {level : Nat} :
    ∀ {s s' : State} {bn : Nat}, indirtrunc dev ino level s bn = .ok s' → SameInodes s s' := by
  induction level with
  | zero => exact fun done => clearSlots_inodes free_inodes done
  | succ level ih =>
    intro s s' bn done
    refine clearSlots_inodes (fun {s b s'} each => ?_) done
    obtain ⟨r,below,root⟩ := Lib.Run.except_bind_ok each
    exact (ih below).trans (free_inodes root)

theorem dropTree_inodes {addr : Fin 7 → Nat} {level : Nat}
    (done : dropTree dev ino addr s level = .ok s') : SameInodes s s' := by
  unfold dropTree at done
  extract_lets bn at done
  split at done
  · obtain ⟨r,below,root⟩ := Lib.Run.except_bind_ok done
    exact (indirtrunc_inodes below).trans (free_inodes root)
  obtain rfl := ok.inj done
  exact fun _ => rfl

theorem dropDirect_inodes {addr : Fin 7 → Nat} {i : Nat} (done : dropDirect dev ino addr s i = .ok s') : SameInodes s s' := by
  unfold dropDirect at done
  extract_lets bn at done
  split at done
  · exact free_inodes done
  obtain rfl := ok.inj done
  exact fun _ => rfl

theorem freeBlocks_inodes (done : freeBlocks s x = .ok s') : SameInodes s s' := by
  unfold freeBlocks at done
  extract_lets ip _ r at done
  split at done
  · obtain rfl := ok.inj done
    exact fun _ => rfl
  obtain ⟨q,levels,direct⟩ := Lib.Run.except_bind_ok done
  have first : SameInodes r q := foldlM_inodes dropTree_inodes levels
  exact first.trans (foldlM_inodes dropDirect_inodes direct)

theorem itrunc_inodes (done : itrunc s x = .ok s') : SameInodes s s' := by
  obtain ⟨r,freed,rfl⟩ := Lib.Run.except_map_ok done
  exact (freeBlocks_inodes freed).trans iupdat_inodes

theorem ifree_tinode : ((ifree s dev ino).device dev).inodes.tinode = ((s.device dev).inodes.tinode + 1) % 2^32 := by
  have here : (ifree s dev ino).device dev = _ := update_self dev _ s.device
  rw [here]
  dsimp only
  split_ifs <;> rfl

theorem reap_tinode (done : reap s x = .ok s') : ((s'.device (s.table.inode x).dev).inodes.tinode) =
    ((s.device (s.table.inode x).dev).inodes.tinode + 1) % 2^32 := by
  obtain ⟨r,truncated,rfl⟩ := Lib.Run.except_map_ok done
  rw [ifree_tinode,← itrunc_inodes truncated]
  rfl

end

/-- Whether `irele` takes the inode for one that was removed. -/
def Kept (s : State) (x : Slot) : Prop := 0 < (s.table.inode x).node.nlink ∨ (s.device (s.table.inode x).dev).ronly = true

theorem irele_kept (last : (s.table.inode x).count = 1) (kept : Kept s x)
    (clean : ((s.table.inode x).iupd || (s.table.inode x).iacc || (s.table.inode x).ichg || (s.table.inode x).imod) = false) :
    irele s x = .ok {s with table := (s.table.set x {s.table.inode x with ilocked := true}).retire x} := by
  have stays : ¬((s.table.inode x).node.nlink = 0 ∧ (s.device (s.table.inode x).dev).ronly = false) := by
    rintro ⟨unlinked,writable⟩
    rcases kept with linked | readonly
    · omega
    rw [writable] at readonly
    cases readonly
  unfold irele
  rw [if_pos last]
  dsimp only [State.setInode]
  rw [if_neg stays]
  dsimp only [Except.map]
  unfold iupdat
  simp [set_self,clean]

theorem irele_reaped (last : (s.table.inode x).count = 1) (reaped : ¬Kept s x) (done : irele s x = .ok s') :
    (s'.device (s.table.inode x).dev).inodes.tinode = ((s.device (s.table.inode x).dev).inodes.tinode + 1) % 2^32 := by
  have gone : (s.table.inode x).node.nlink = 0 ∧ (s.device (s.table.inode x).dev).ronly = false :=
    ⟨by by_contra linked; exact reaped (.inl (Nat.pos_of_ne_zero linked)),by
      by_contra readonly; exact reaped (.inr (by simpa using readonly))⟩
  unfold irele at done
  rw [if_pos last] at done
  dsimp only [State.setInode] at done
  rw [if_pos gone] at done
  obtain ⟨r,taken,rfl⟩ := Lib.Run.except_map_ok done
  have counted := reap_tinode taken
  simp only [set_self] at counted
  rw [← counted]
  exact congrArg Inodes.tinode (iupdat_inodes _)

theorem geterror_pos (b : Nat) : geterror b ≠ 0 := by
  unfold geterror
  split_ifs with zero
  · decide
  · exact zero

def unread (s : State) (x : Slot) (dev ino : Nat) : State where
  table := (((s.table.claim x dev ino).forget x).set x {s.table.inode x with
      ilocked := false,iwant := false,imount := false,iupd := false,iacc := false,ichg := false,imod := false
      ipipe := false,dev,number := 0,count := (s.table.inode x).count + 1})
  mount := s.mount
  device := s.device
  uError := if s.uError = 0 then geterror ((s.device dev).bError (itod ino)) else s.uError
  time := s.time
  console := s.console

theorem readInode_failed (fails : (s.device dev).volume.failing (itod ino) = true) :
    readInode s x dev ino = (irele (unread s x dev ino) x).map fun s => (s,none) := by
  unfold readInode bread
  simp only [fails,if_true]
  unfold iput
  simp only [forget_inode,claim_inode,update_self]
  rfl

theorem unread_inode : (unread s x dev ino).table.inode x = {(s.table.inode x).setFlag false with
    dev,number := 0,count := (s.table.inode x).count + 1} := set_self

theorem unread_cached {lists : Fin inohsz → List Slot} {l : List Slot} (cached : Cached s.table lists (x :: l))
    (missing : s.table.ifind dev ino = none) :
    Cached (unread s x dev ino).table (fun h => (rehashed lists x dev ino h).erase x) l := by
  have claimed := (cached.claim missing).forget (x := x)
  refine claimed.set ?_ ?_ ?_ <;> rw [forget_inode,update_self,claim_inode,update_self]

theorem iget_reads : ∀ {fuel dev ino dev' ino' : Nat}, reads fuel s dev ino = some (dev',ino',x) →
    iget fuel s dev ino = readInode s x dev' ino' ∧ s.table.look s.mount dev' ino' = .recycle x := by
  intro fuel
  induction fuel with
  | zero => exact fun read => nomatch read
  | succ fuel ih =>
    intro dev ino dev' ino' read
    unfold reads at read
    unfold iget
    split at read
    · rename_i d found
      rw [found]
      exact ih read
    · rename_i y found
      cases read
      rw [found]
      exact ⟨rfl,rfl⟩
    · cases read

/-- The free blocks, the free inodes with their number, and the blocks of a device. -/
structure Untouched (d d' : Device) : Prop where
  freeBlocks : d'.volume.fs = d.volume.fs
  freeInodes : d'.inodes = d.inodes
  blocks : d'.volume.disk = d.volume.disk

/-- The error is told, nothing is changed on any device, and the slot can be had again
but not be found. -/
structure Refused (s s' : State) (x : Slot) : Prop where
  uError : s'.uError ≠ 0
  devices : ∀ d, Untouched (s.device d) (s'.device d)
  free : ∃ lists l, Cached s'.table lists (l ++ [x])
  lost : ∀ dev ino, s'.table.ifind dev ino ≠ some x

theorem unread_refused {lists : Fin inohsz → List Slot} {l : List Slot} (cached : Cached s.table lists (x :: l))
    (missing : s.table.ifind dev ino = none) {r : State} (kept : Kept (unread s x dev ino) x)
    (done : irele (unread s x dev ino) x = .ok r) : Refused s r x := by
  have free : (s.table.inode x).count = 0 := (cached.free x).mp List.mem_cons_self
  have last : ((unread s x dev ino).table.inode x).count = 1 := by
    rw [unread_inode,free]
  rw [irele_kept last kept (by rw [unread_inode]; rfl)] at done
  obtain rfl := ok.inj done
  have locked : Cached ((unread s x dev ino).table.set x {(unread s x dev ino).table.inode x with ilocked := true}) _ l :=
    (unread_cached cached missing).set rfl rfl Iff.rfl
  have retired := locked.retire (x := x) (by rw [set_self]; exact last)
  refine ⟨?_,fun d => ⟨rfl,rfl,rfl⟩,⟨_,_,retired⟩,fun d n found => ?_⟩
  · show (if s.uError = 0 then geterror ((s.device dev).bError (itod ino)) else s.uError) ≠ 0
    split_ifs with clear
    · exact geterror_pos _
    · exact clear
  · have inside := (retired.hashed.ifind_some.mp found).1
    exact List.Nodup.not_mem_erase ((cached.claim missing).hashed.holds.nodup _) inside

/-- A failed read is harmless exactly when the slot was last used for an inode that has
links, or for a read on a file system that is not written. -/
theorem failed_read (s : State) (lists : Fin inohsz → List Slot) (l : List Slot) (cached : Cached s.table lists l)
    (fuel dev ino dev' ino' : Nat) (x : Slot) (read : reads fuel s dev ino = some (dev',ino',x))
    (fails : (s.device dev').volume.failing (itod ino') = true) :
    (∃ s', iget fuel s dev ino = .ok (s',none) ∧ Refused s s' x) ↔ 0 < (s.table.inode x).node.nlink ∨
    (s.device dev').ronly = true := by
  obtain ⟨same,found⟩ := iget_reads read
  obtain ⟨missing,m,rfl⟩ := cached.look_recycle found
  have free : (s.table.inode x).count = 0 := (cached.free x).mp List.mem_cons_self
  have last : ((unread s x dev' ino').table.inode x).count = 1 := by
    rw [unread_inode,free]
  have kept : Kept (unread s x dev' ino') x ↔ 0 < (s.table.inode x).node.nlink ∨ (s.device dev').ronly = true := by
    rw [Kept,unread_inode]
    exact Iff.rfl
  rw [same,readInode_failed fails,← kept]
  constructor
  · rintro ⟨s',done,refused⟩
    obtain ⟨r,released,pair⟩ := Lib.Run.except_map_ok done
    obtain rfl : r = s' := (Prod.mk.inj pair).1
    by_contra reaped
    have counted := irele_reaped last reaped released
    rw [(refused.devices _).freeInodes] at counted
    have other : (unread s x dev' ino').device = s.device := rfl
    rw [other] at counted
    omega
  · intro keeps
    obtain ⟨r,released⟩ : ∃ r, irele (unread s x dev' ino') x = .ok r := ⟨_,irele_kept last keeps (by rw [unread_inode]; rfl)⟩
    exact ⟨r,by rw [released]; rfl,unread_refused cached missing keeps released⟩

/-- A table whose first slot still has a file with one block and so many links, and a device that
does not read the block of inode 20. -/
def recycled (nlink : Nat) : State where
  table := Table.ihinit fun _ => {
    ilocked := false,iwant := false,imount := false,iupd := false,iacc := false,ichg := false,imod := false,ipipe := false
    count := 0,dev := 1,number := 30
    node := ⟨0,nlink,0,0,1024,fun i => if i = 0 then 9 else 0,0,0,0,0⟩}
  mount := []
  device := fun _ => ⟨{FreeList.smallVolume with failing := fun b => b == 2},⟨[],0,3,2,0⟩,false,fun _ => 0⟩
  uError := 0
  time := 77
  console := []

theorem recycled_cached (nlink : Nat) :
    Cached (recycled nlink).table (fun _ => []) (List.finRange ninode) := ihinit_cached fun _ => rfl

def firstSlot : Slot := ⟨0,Nat.succ_pos _⟩

theorem failed_read_recycled : ∃ s', iget 1 (recycled 1) 0 20 = .ok (s',none) ∧ Refused (recycled 1) s' firstSlot :=
  (failed_read (recycled 1) _ _ (recycled_cached 1) 1 0 20 0 20 firstSlot (by decide +kernel)
  (by decide +kernel)).mpr (.inl (by decide))

/-- Without links the block 9 of the old device is free on the new one, and so is the number 0. -/
theorem recycled_frees : ((recycled 0).device 0).volume.fs.fsNfree = 1 ∧ ((recycled 0).device 0).inodes.inode = [] ∧
    ∃ s', iget 1 (recycled 0) 0 20 = .ok (s',none) ∧ s'.uError = eio ∧ (s'.device 0).volume.fs.fsNfree = 2 ∧
      (s'.device 0).volume.fs.fsFree 1 = 9 ∧ (s'.device 0).inodes.inode = [0] ∧ ¬Refused (recycled 0) s' firstSlot := by
  have computed : Lib.Run.returns (fun r => decide (r.2 = none ∧ r.1.uError = eio ∧ (r.1.device 0).volume.fs.fsNfree = 2 ∧
      (r.1.device 0).volume.fs.fsFree 1 = 9 ∧ (r.1.device 0).inodes.inode = [0])) (iget 1 (recycled 0) 0 20) = true := by
    decide +kernel
  obtain ⟨⟨s',slot⟩,done,found⟩ := Lib.Run.of_returns computed
  obtain ⟨rfl,error,nfree,last,numbers⟩ := of_decide_eq_true found
  refine ⟨rfl,rfl,s',done,error,nfree,last,numbers,fun refused => ?_⟩
  have same := congrArg FreeList.Fs.fsNfree (refused.devices 0).freeBlocks
  rw [nfree] at same
  exact absurd same (by decide)

end Retrobsd.InodeReads

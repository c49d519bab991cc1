import Retrobsd.Lib.Run

/-! Inodes handed out and taken back, `ialloc` and `ifree` of `ufs_alloc.c`, with what
`iget`, `iput` and `irele` of `ufs_inode.c` do to the inodes of one file system. A process
stands between two steps where it sleeps. -/
namespace Retrobsd.InodeAllocation
open Function

def nicinod : Nat := 32
def inopb : Nat := 16
def rootino : Nat := 2
def naddr : Nat := 7

def itod (x : Nat) : Nat := (x + inopb - 1) / inopb
def itoo (x : Nat) : Nat := (x + inopb - 1) % inopb

structure Dinode where
  mode : Nat
  nlink : Nat
  flags : Nat
  addr : List Nat
deriving DecidableEq

/-- An inode in core. `lock` is `ILOCKED` with the process that set it, `dirty` stands for
the flags `IUPD`, `IACC`, `ICHG` and `IMOD`, `mount` for `IMOUNT`. -/
structure Inode (ι : Type) where
  node : Dinode
  count : Nat
  lock : Option ι
  dirty : Bool
  mount : Bool

/-- The super block. `inode` has the `fs_ninode` numbers of `fs_inode`, the last one first. -/
structure Fs where
  isize : Nat
  inode : List Nat
  ilock : Nat
  ronly : Bool
  fmod : Bool
  tinode : Int
  lasti : Nat
  nbehind : Nat

inductive Caller where
  | ialloc
  | other
deriving DecidableEq

/-- Where a process sleeps, or what `ialloc` has returned to it. A scan remembers the
numbers that its pass has looked at, and whether each was free. -/
inductive Pc where
  | idle
  | ilock
  | waiting (ino : Nat) (caller : Caller)
  | reading (ino : Nat) (caller : Caller)
  | crossing (caller : Caller)
  | truncating (ino : Nat) (caller : Caller)
  | updating (ino : Nat) (caller : Caller)
  | scanning (first : Bool) (ino adr : Nat) (seen : List (Nat × Bool))
  | returned (ino : Nat)
  | enfile
  | enospc (emsg : String) (seen : List (Nat × Bool))
deriving DecidableEq

/-- The in-core inodes are those on the hash chains, the disk has dinodes by block and place.
`owners` counts to how many owners a number is handed out. -/
structure State (ι : Type) where
  fs : Fs
  disk : Nat × Nat → Dinode
  table : Nat → Option (Inode ι)
  pc : ι → Pc
  owners : Nat → Nat

inductive Fault where
  | pastEnd
  | refused
deriving DecidableEq

section
variable {ι : Type}

def place (ino : Nat) : Nat × Nat := (itod ino,itoo ino)

def Fs.inoEnd (fs : Fs) : Nat := inopb * (fs.isize - 1) + 1

def State.keep (s : State ι) (ino : Nat) (ip : Inode ι) : State ι := {s with table := update s.table ino (some ip)}

def iupdat (s : State ι) (ino : Nat) (ip : Inode ι) : State ι :=
  if ip.dirty && !s.fs.ronly then
    {s with disk := update s.disk (place ino) ip.node,table := update s.table ino (some {ip with dirty := false})}
  else s

def State.disown (s : State ι) (ino : Nat) : State ι := {s with owners := update s.owners ino (s.owners ino - 1)}

def ifree (fs : Fs) (ino : Nat) : Fs :=
  let fs := {fs with tinode := fs.tinode + 1}
  if fs.ilock ≠ 0 then fs
  else if fs.inode.length ≥ nicinod then
    if fs.lasti > ino then {fs with nbehind := fs.nbehind + 1} else fs
  else {fs with inode := ino :: fs.inode,fmod := true}

def sleeps (ronly : Bool) (ip : Inode ι) : Bool := ip.count == 1 && !ronly && (ip.node.nlink == 0 || ip.dirty)

/-- The end of `irele` for the last reference: the inode goes to the free list. What a
read-only file system does not write is forgotten with the last reference. -/
def settle (s : State ι) (ino : Nat) (ip : Inode ι) : State ι :=
  let s := s.keep ino {ip with lock := none,count := ip.count - 1,dirty := false,mount := false}
  if s.fs.ronly then s.disown ino else s

def releNow (s : State ι) (ino : Nat) (ip : Inode ι) : State ι :=
  if ip.count = 1 then settle s ino ip else s.keep ino {ip with count := ip.count - 1}

variable [DecidableEq ι]

def State.at (s : State ι) (p : ι) (pc : Pc) : State ι := {s with pc := update s.pc p pc}

def releAsleep (s : State ι) (p : ι) (ino : Nat) (ip : Inode ι) (caller : Caller) : State ι :=
    (s.keep ino {ip with lock := some p}).at p
    (if ip.node.nlink = 0 then .truncating ino caller else .updating ino caller)

inductive Got (ι : Type) where
  | locked (s : State ι) (ip : Inode ι)
  | asleep (s : State ι)
  | full

/-- `iget`. An inode that is mounted on takes the process to the root of the other file
system. A slot for an inode that is not in core there is or is not, as `full` tells. -/
def iget (s : State ι) (p : ι) (ino : Nat) (caller : Caller) (full : Bool) : Got ι :=
  match s.table ino with
  | some ip =>
    if ip.lock.isSome then .asleep (s.at p (.waiting ino caller))
    else if ip.mount then .asleep (s.at p (.crossing caller))
    else
      let ip := {ip with count := ip.count + 1,lock := some p}
      .locked (s.keep ino ip) ip
  | none =>
    if full then .full
    else
      -- the slot still has what was in it before
      let ip := ⟨⟨0,0,0,[]⟩,1,some p,false,false⟩
      .asleep ((s.keep ino ip).at p (.reading ino caller))

def emsg : String := "no inodes free"

def nextBlock (s : State ι) (p : ι) (first : Bool) (ino adr : Nat) (seen : List (Nat × Bool)) : Option (State ι) :=
  if adr < s.fs.isize then some (s.at p (.scanning first ino adr seen)) else none

def State.unlockScan (s : State ι) (inobas : Nat) : State ι := {s with fs := {s.fs with lasti := inobas,ilock := 0}}

def fromtop (s : State ι) (p : ι) : Option (State ι) := nextBlock {s with fs := {s.fs with nbehind := 0}} p false 1 1 []

def fruitless (s : State ι) (p : ι) : State ι := ({s with fs := {s.fs with nbehind := 0}}.unlockScan 0).at p (.enospc emsg [])

def startScan (s : State ι) (p : ι) : State ι :=
  let s := {s with fs := {s.fs with ilock := s.fs.ilock + 1}}
  let onward := if s.fs.nbehind < 4 * nicinod then nextBlock s p true s.fs.lasti (itod s.fs.lasti) [] else none
  (onward <|> fromtop s p).getD (fruitless s p)

def handOut (s : State ι) (p : ι) (ino : Nat) (ip : Inode ι) : State ι :=
  let s := s.keep ino {ip with node := {ip.node with addr := List.replicate naddr 0,flags := 0}}
  {s with
    fs := {s.fs with fmod := true,tinode := s.fs.tinode - 1}
    owners := update s.owners ino (s.owners ino + 1)}.at p (.returned ino)

/-- The label `loop`, as far as the next sleep. The numbers are those in `fs_inode`. -/
def loop (p : ι) (full : Bool) : List Nat → State ι → State ι
  | [],s => startScan {s with fs := {s.fs with inode := []}} p
  | ino :: rest,s =>
    let s := {s with fs := {s.fs with inode := rest}}
    if ino ≤ rootino then loop p full rest s
    else match iget s p ino .ialloc full with
      | .full => s.at p .enfile
      | .asleep s => s
      | .locked s ip =>
        if ip.node.mode = 0 then handOut s p ino ip
        -- inode was allocated after all
        else if sleeps s.fs.ronly ip then releAsleep s p ino ip .ialloc
        else loop p full rest (releNow s ino {ip with lock := none})

def tested (s : State ι) (p : ι) (ino : Nat) (ip : Inode ι) (full : Bool) : State ι :=
  if ip.node.mode = 0 then handOut s p ino ip
  else if sleeps s.fs.ronly ip then releAsleep s p ino ip .ialloc
  else loop p full s.fs.inode (releNow s ino {ip with lock := none})

def gotten (s : State ι) (p : ι) (ino : Nat) (ip : Inode ι) (full : Bool) : Caller → State ι
  | .ialloc => tested s p ino ip full
  | .other => s

def released (s : State ι) (p : ι) (full : Bool) : Caller → State ι
  | .ialloc => loop p full s.fs.inode s
  | .other => s

def scanBlock (s : State ι) (adr : Nat) : (left : Nat) → (ino : Nat) → List Nat → List (Nat × Bool) →
    Except Fault (List Nat × List (Nat × Bool))
  | 0,_,inode,seen => .ok (inode,seen)
  | left + 1,ino,inode,seen =>
    let free := decide ((s.disk (adr,inopb - (left + 1))).mode = 0) && (s.table ino).isNone
    let seen := seen ++ [(ino,free)]
    if free then
      if inode.length ≥ nicinod then .error .pastEnd
      else if (ino :: inode).length ≥ nicinod then .ok (ino :: inode,seen)
      else scanBlock s adr left (ino + 1) (ino :: inode) seen
    else scanBlock s adr left (ino + 1) inode seen

def finish (s : State ι) (p : ι) (full : Bool) (inobas : Nat) (seen : List (Nat × Bool)) : State ι :=
  let s := s.unlockScan inobas
  if s.fs.inode.length > 0 then loop p full s.fs.inode s else s.at p (.enospc emsg seen)

def endPass (s : State ι) (p : ι) (full first : Bool) (inobas : Nat) (seen : List (Nat × Bool)) : State ι :=
  if s.fs.inode.length < nicinod ∧ first then
    (fromtop s p).getD (finish {s with fs := {s.fs with nbehind := 0}} p full 0 [])
  else finish s p full inobas seen

def scanned (s : State ι) (p : ι) (full first : Bool) (ino adr : Nat) (seen : List (Nat × Bool)) : Except Fault (State ι) :=
  match scanBlock s adr inopb ino s.fs.inode seen with
  | .error e => .error e
  | .ok (inode,seen) =>
    let s := {s with fs := {s.fs with inode}}
    let turn := if inode.length ≥ nicinod then none else nextBlock s p first (ino + inopb) (adr + 1) seen
    .ok (turn.getD (endPass s p full first ino seen))

/-- `ialloc`, and what it does when `fs_ilock` has woken it up. -/
def ialloc (s : State ι) (p : ι) (full : Bool) : State ι :=
  if s.fs.ilock ≠ 0 then s.at p .ilock else loop p full s.fs.inode s

def truncated (s : State ι) (p : ι) (ino : Nat) (ip : Inode ι) (addr : List Nat) (caller : Caller) : State ι :=
  let s := {s.keep ino {ip with node := {ip.node with mode := 0,addr},dirty := true} with fs := ifree s.fs ino}
  (s.at p (.updating ino caller)).disown ino

def resume (s : State ι) (p : ι) (full : Bool) : Except Fault (State ι) :=
  let awake := s.at p .idle
  match s.pc p with
  | .ilock => .ok (ialloc awake p full)
  | .waiting ino caller => match iget awake p ino caller full with
    | .full => .ok (s.at p (if caller = .ialloc then .enfile else .idle))
    | .asleep s => .ok s
    | .locked s ip => .ok (gotten s p ino ip full caller)
  | .reading ino caller => match s.table ino with
    | none => .error .refused
    | some ip =>
      let ip := {ip with node := s.disk (place ino)}
      .ok (gotten (awake.keep ino ip) p ino ip full caller)
  | .crossing caller =>
    if full then .ok (s.at p (if caller = .ialloc then .enfile else .idle))
    else .ok (released awake p full caller)
  | .updating ino caller => match s.table ino with
    | none => .error .refused
    | some ip => .ok (released (settle (iupdat awake ino ip) ino ip) p full caller)
  | .scanning first ino adr seen => scanned awake p full first ino adr seen
  | _ => .error .refused

def held (s : State ι) (p : ι) (ino : Nat) : Option (Inode ι) :=
    (s.table ino).filter fun ip => decide (ip.lock = some p ∧ s.pc p = .idle)

/-- What processes do: allocate, go on from a sleep, and everything else that is done to
inodes in core, by those who hold their locks or refer to them. -/
inductive Op (ι : Type) where
  | ialloc (p : ι) (full : Bool)
  | resume (p : ι) (full : Bool)
  | fill (p : ι) (node : Dinode)
  | giveUp (p : ι)
  | failed (p : ι)
  | truncated (p : ι) (addr : List Nat)
  | iget (p : ι) (ino : Nat) (full : Bool)
  | igrab (p : ι) (ino : Nat)
  | refer (p : ι) (ino : Nat)
  | ilock (p : ι) (ino : Nat)
  | iunlock (p : ι) (ino : Nat)
  | change (p : ι) (ino : Nat) (node : Dinode)
  | mount (p : ι) (ino : Nat) (mounted : Bool)
  | iupdat (p : ι) (ino : Nat)
  | iput (p : ι) (ino : Nat)
  | irele (p : ι) (ino : Nat)
  | recycle (ino : Nat)

def irele (s : State ι) (p : ι) (ino : Nat) (ip : Inode ι) : State ι :=
  if sleeps s.fs.ronly ip then releAsleep s p ino ip .other else releNow s ino ip

def step (s : State ι) : Op ι → Except Fault (State ι)
  | .ialloc p full => if s.pc p = .idle then .ok (ialloc s p full) else .error .refused
  | .resume p full => resume s p full
  -- `maknode`, `mkdir` and `pipe` set the mode before they sleep
  | .fill p node => match s.pc p with
    | .returned ino => match s.table ino with
      | some ip => if node.mode ≠ 0 then .ok ((s.keep ino {ip with node,dirty := true}).at p .idle) else .error .refused
      | none => .error .refused
    | _ => .error .refused
  -- `pipe` when `falloc` fails
  | .giveUp p => match s.pc p with
    | .returned ino => match s.table ino with
      | some ip => .ok (irele ((s.at p .idle).disown ino) p ino {ip with lock := none})
      | none => .error .refused
    | _ => .error .refused
  | .failed p => match s.pc p with
    | .enfile => .ok (s.at p .idle)
    | .enospc _ _ => .ok (s.at p .idle)
    | _ => .error .refused
  | .truncated p addr => match s.pc p with
    | .truncating ino caller => match s.table ino with
      | some ip => .ok (truncated s p ino ip addr caller)
      | none => .error .refused
    | _ => .error .refused
  | .iget p ino full =>
    if s.pc p = .idle ∧ 0 < ino ∧ ino < s.fs.inoEnd then match iget s p ino .other full with
      | .full => .ok s
      | .asleep s => .ok s
      | .locked s _ => .ok s
    else .error .refused
  | .igrab p ino => match s.table ino with
    | some ip =>
      if s.pc p = .idle ∧ ip.lock = none then .ok
        (s.keep ino {ip with count := ip.count + 1,lock := some p}) else .error .refused
    | none => .error .refused
  -- who holds the lock of an inode refers to it too
  | .refer p ino => match s.table ino with
    | some ip =>
      if s.pc p = .idle ∧ 0 < ip.count ∧ (ip.lock = none ∨ ip.lock = some p ∨ 1 < ip.count) then
        .ok (s.keep ino {ip with count := ip.count + 1})
      else .error .refused
    | none => .error .refused
  | .ilock p ino => match s.table ino with
    | some ip => if s.pc p = .idle ∧ ip.lock = none ∧
      0 < ip.count then .ok (s.keep ino {ip with lock := some p}) else .error .refused
    | none => .error .refused
  | .iunlock p ino => match held s p ino with
    | some ip => .ok (s.keep ino {ip with lock := none})
    | none => .error .refused
  | .change p ino node => match held s p ino with
    | some ip => if node.mode ≠ 0 then .ok (s.keep ino {ip with node,dirty := true}) else .error .refused
    | none => .error .refused
  | .mount p ino mount => match held s p ino with
    | some ip => .ok (s.keep ino {ip with mount})
    | none => .error .refused
  | .iupdat p ino => match s.table ino with
    | some ip =>
      if ip.lock = some p ∧ (s.pc p = .idle ∨ s.pc p = .truncating ino .other ∨ s.pc p = .truncating ino .ialloc) then
        .ok (iupdat s ino ip)
      else .error .refused
    | none => .error .refused
  | .iput p ino => match held s p ino with
    | some ip => .ok (irele s p ino {ip with lock := none})
    | none => .error .refused
  | .irele p ino => match s.table ino with
    | some ip =>
      if s.pc p = .idle ∧ 0 < ip.count ∧ (ip.lock = none ∨ 1 < ip.count) then .ok (irele s p ino ip) else .error .refused
    | none => .error .refused
  -- `iget` takes the slot for an inode of another file system, or for another of this one
  | .recycle ino => match s.table ino with
    | some ip => if ip.count = 0 then .ok {s with table := update s.table ino none} else .error .refused
    | none => .error .refused

end

end Retrobsd.InodeAllocation

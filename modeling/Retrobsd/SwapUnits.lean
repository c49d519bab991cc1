import Retrobsd.DiskRequests
import Retrobsd.ResourceMapRuns

/-! The temporary devices in the swap area: `swcioctl`, `swcread`, `swcwrite` and
`swstrategy` of `swap.c`, next to the other users of `swapmap`. Beside the tables of the
driver the state keeps what the map has given to each unit and to the others. -/
namespace Retrobsd.SwapUnits
open Function
open Lib.Extents ResourceMap DiskRequests

structure Device where
  disks : List Diskentry
  mbr : Nat → Block
  behind : Nat → Nat → BitVec 32
  swapdev : BufferCache.Dev
  disk : Diskentry
  present : disks[BufferCache.major swapdev]? = some disk

/-- `units` and `others` are the regions that have been allocated and not freed since, and
`strays` those that a unit freed without having them. -/
structure State where
  map : Map
  tdsize : Fin 3 → Nat
  tdstart : Fin 3 → Nat
  console : List String
  units : Fin 3 → Option Extent
  others : List Extent
  strays : List Extent

def State.region (s : State) (unit : Fin 3) : Extent := ⟨s.tdstart unit,s.tdsize unit⟩

def State.print (s : State) (message : String) : State := {s with console := s.console ++ [message]}

inductive Cmd where
  | tfalloc
  | rdgetmediasize
  | other

structure Transfer where
  read : Bool
  blkno : Nat
  count : Nat
deriving DecidableEq

def swap (read : Bool) (blkno count : Nat) : List Transfer :=
  if count = 0 then [] else [⟨read,sizeT blkno,count⟩]

def outOfRange (unit : Nat) : String := "temp" ++ toString unit ++ ": Device number out of range\n"

def giveBack (s : State) (unit : Fin 3) : Except ResourceMap.Fault State :=
  if s.tdstart unit = 0 then .ok s else do
    let (map,printed) ← mfree s.map (s.tdsize unit) (s.tdstart unit)
    return {s with
      map
      console := s.console ++ printed
      units := update s.units unit none
      strays := if s.units unit = some (s.region unit) then s.strays else s.region unit :: s.strays}

/-- The allocation, and what is left at the argument. The message has one argument less than
it prints; `stray` is what is there. -/
def take (stray : Nat) (s : State) (unit : Fin 3) (value : BitVec 32) : Except ResourceMap.Fault (State × BitVec 32) := do
  let (map,addr) ← malloc s.map value.toNat
  let s := {s with map,tdstart := update s.tdstart unit addr}
  if addr = 0 then
    return (s.print ("temp" ++ toString (s.tdsize unit) ++ ": failed to allocate " ++ toString stray ++ " blocks\n"),0)
  return ({s with
    tdsize := update s.tdsize unit value.toNat
    units := update s.units unit (some ⟨addr,value.toNat⟩)},value)

def swcioctl (stray : Nat) (s : State) (unit : Nat) (cmd : Cmd)
    (value : BitVec 32) : Except ResourceMap.Fault (State × Nat × BitVec 32) :=
  if h : unit < 3 then
    match cmd with
    | .tfalloc => do
      let s ← giveBack s ⟨unit,h⟩
      if 0 < value.toInt then
        let (s,value) ← take stray s ⟨unit,h⟩ value
        return (s,0,value)
      return (s,22,value)
    | .rdgetmediasize => .ok (s,22,BitVec.ofNat 32 (s.tdsize ⟨unit,h⟩))
    | .other => .ok (s,22,value)
  else .ok (s.print (outOfRange unit),19,value)

/-- The loop of `swcread` and `swcwrite`, with as many turns to go as there are blocks. The
remaining length is an unsigned number that may pass below zero. -/
def blockLoop (read : Bool) (start size : Nat) : Nat → Nat → BitVec 32 → BitVec 32 → List Transfer
  | 0,_,_,_ => []
  | turns + 1,block,rlen,rsize =>
    if rlen ≠ 0 ∧ block < size then
      let left := rlen - rsize
      swap read (start + block) 1024 ++ blockLoop read start size turns (block + 1) left (if left ≥ 1024 then 1024 else left)
    else []

def blocks (read : Bool) (s : State) (unit : Fin 3) (offset len : BitVec 32) : List Transfer :=
  let block := offset.sshiftRight 10
  let boff := offset - block <<< 10
  blockLoop read (s.tdstart unit) (s.tdsize unit) (s.tdsize unit) block.toNat len (1024 - boff)

def swcread (s : State) (unit : Nat) (offset len : BitVec 32) : State × Nat × List Transfer :=
  if h : unit < 3 then
    if s.tdstart ⟨unit,h⟩ = 0 then (s,5,[])
    else if offset.toNat ≥ sizeT (s.tdsize ⟨unit,h⟩ * 1024) then (s,5,[])
    else (s,0,blocks true s ⟨unit,h⟩ offset len)
  else (s.print (outOfRange unit),19,[])

def swcwrite (s : State) (unit : Nat) (offset len : BitVec 32) : State × Nat × List Transfer :=
  if h : unit < 3 then
    if s.tdstart ⟨unit,h⟩ = 0 then
      (s.print ("temp" ++ toString unit ++ ": attempt to write with no allocation\n"),5,[])
    else if offset.toNat ≥ sizeT (s.tdsize ⟨unit,h⟩ * 1024) then
      (s.print ("temp" ++ toString unit ++ ": attempt to write past end of allocation\n"),5,[])
    else (s,0,blocks false s ⟨unit,h⟩ offset len)
  else (s.print (outOfRange unit),19,[])

def swstrategy (device : Device) (s : State)
    (bp : Request) : Except ResourceMap.Fault (State × Option Request × List Transfer) :=
  let unit := BufferCache.minor bp.dev
  if unit = 64 then
    match rdstrategy device.disks device.mbr device.behind {bp with dev := device.swapdev} with
    | .error (.panic message) => .error (.panic message)
    | .ok (done,_) => .ok (s,done.map (fun done => {done with dev := bp.dev}),[])
  else if h : unit < 3 then
    if s.tdstart ⟨unit,h⟩ = 0 then
      .ok (s.print ("swap" ++ toString unit ++ ": attempt to access unallocated device\n"),none,[])
    else if bp.blkno.toNat > s.tdsize ⟨unit,h⟩ then
      .ok (s.print ("swap" ++ toString unit ++ ": attempt to access past end of allocation\n"),none,[])
    else match biodone bp with
      | .error (.panic message) => .error (.panic message)
      | .ok done => .ok (s,some done,swap bp.flags.bRead (s.tdstart ⟨unit,h⟩ + bp.blkno.toNat) bp.bcount.toNat)
  else .ok (s,none,[])

inductive Op where
  | ioctl (unit : Nat) (cmd : Cmd) (value : BitVec 32)
  | read (unit : Nat) (offset len : BitVec 32)
  | write (unit : Nat) (offset len : BitVec 32)
  | strategy (bp : Request)
  | other (op : ResourceMap.Op)

def step (stray : Nat) (device : Device) (s : State) : Op → Except ResourceMap.Fault State
  | .ioctl unit cmd value => (swcioctl stray s unit cmd value).map Prod.fst
  | .read unit offset len => .ok (swcread s unit offset len).1
  | .write unit offset len => .ok (swcwrite s unit offset len).1
  | .strategy bp => (swstrategy device s bp).map Prod.fst
  | .other op => (ResourceMap.step ⟨s.map,s.others,s.console⟩ op).map fun t =>
    {s with map := t.map,others := t.held,console := t.console}

def State.held (s : State) : List Extent := (s.units 0).toList ++ (s.units 1).toList ++ (s.units 2).toList ++ s.others

/-- The region is empty, or it is what the map has allocated to the unit, and each of its
blocks is neither free nor allocated to anyone else. -/
def Owned (s : State) (unit : Fin 3) : Prop := s.tdsize unit = 0 ∨ (s.units unit = some (s.region unit) ∧
    ∀ u, (s.region unit).holds u → cover (live s.map) u = 0 ∧ cover s.held u = 1)

def Within (s : State) (unit : Nat) (transfer : Transfer) : Prop := ∃ h : unit < 3, s.tdstart ⟨unit,h⟩ ≤ transfer.blkno ∧
    transfer.blkno * 1024 + transfer.count ≤ (s.tdstart ⟨unit,h⟩ + s.tdsize ⟨unit,h⟩) * 1024

def Carried (device : Device) (s : State) : Op → Prop
  | .ioctl _ _ _ => True
  | .read unit offset len => ∀ transfer ∈ (swcread s unit offset len).2.2, Within s unit transfer
  | .write unit offset len => ∀ transfer ∈ (swcwrite s unit offset len).2.2, Within s unit transfer
  | .strategy bp => ∃ t done transfers, swstrategy device s bp = .ok (t,some done,transfers) ∧ done.flags.bDone = true ∧
    ∀ transfer ∈ transfers, Within s (BufferCache.minor bp.dev) transfer
  | .other _ => True

/-- What is expected of a call: it leaves every unit with a region of its own, has freed
nothing twice, and has made its transfers where it may. -/
def Kept (stray : Nat) (device : Device) (s : State) (op : Op) : Prop :=
  (∃ t, step stray device s op = .ok t ∧ (∀ unit, Owned t unit) ∧ t.strays = []) ∧ Carried device s op

def Disciplined (s : State) : Op → Prop
  | .other (.malloc size) => size ≠ 0
  | .other (.malloc3 _ _ _) => True
  | .other (.mfree size addr) => size = 0 ∨ ⟨addr,size⟩ ∈ s.others
  | _ => True

def Room (s : State) (size addr : Nat) : Prop := Below ⟨s.map,s.held,s.console⟩ (.mfree size addr)

def Satisfiable (s : State) (unit : Fin 3) (size : Nat) : Prop := ∃ e ∈ release (s.region unit) (live s.map), size ≤ e.len

def Fair (s : State) : Op → Prop
  | .ioctl unit .tfalloc value => ∀ h : unit < 3, s.tdstart ⟨unit,h⟩ ≠ 0 →
    0 < value.toInt ∧ Room s (s.tdsize ⟨unit,h⟩) (s.tdstart ⟨unit,h⟩) ∧ Satisfiable s ⟨unit,h⟩ value.toNat
  | .strategy bp => bp.flags.bDone = false ∧ (BufferCache.minor bp.dev = 64 ∨ ∃ h : BufferCache.minor bp.dev < 3,
    s.tdstart ⟨BufferCache.minor bp.dev,h⟩ ≠ 0 ∧ bp.blkno.toNat * 1024 + bp.bcount.toNat ≤
    s.tdsize ⟨BufferCache.minor bp.dev,h⟩ * 1024)
  | .other (.mfree size addr) => Room s size addr
  | _ => True

instance (s : State) : ∀ op, Decidable (Disciplined s op)
  | .other (.malloc _) => inferInstanceAs (Decidable (_ ≠ _))
  | .other (.mfree _ _) => inferInstanceAs (Decidable (_ ∨ _))
  | .other (.malloc3 _ _ _) | .ioctl _ _ _ | .read _ _ _ | .write _ _ _ | .strategy _ => .isTrue trivial

instance (s : State) (size addr : Nat) : Decidable (Room s size addr) :=
  inferInstanceAs (Decidable (Below ⟨s.map,s.held,s.console⟩ (.mfree size addr)))

instance (s : State) (unit : Fin 3) (size : Nat) : Decidable (Satisfiable s unit size) :=
  inferInstanceAs (Decidable (∃ e ∈ _, _ ≤ _))

instance (s : State) : ∀ op, Decidable (Fair s op)
  | .ioctl unit .tfalloc value => inferInstanceAs (Decidable (∀ h : unit < 3, s.tdstart ⟨unit,h⟩ ≠ 0 →
      0 < value.toInt ∧ Room s (s.tdsize ⟨unit,h⟩) (s.tdstart ⟨unit,h⟩) ∧ Satisfiable s ⟨unit,h⟩ value.toNat))
  | .ioctl _ .rdgetmediasize _ | .ioctl _ .other _ | .read _ _ _ | .write _ _ _ => .isTrue trivial
  | .strategy _ => inferInstanceAs (Decidable (_ = _ ∧ (_ = _ ∨ ∃ _ : _ < _, _ ≠ _ ∧ _ ≤ _)))
  | .other (.mfree size addr) => inferInstanceAs (Decidable (Room s size addr))
  | .other (.malloc _) | .other (.malloc3 _ _ _) => .isTrue trivial

end Retrobsd.SwapUnits

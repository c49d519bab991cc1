import Retrobsd.Lib.Run

/-! Pipes: `readp`, `writep`, `pipe_close` and of `rwip` and `rwuio` what they use, for
any number of processes. A step of a process goes on to the next place at which it
may sleep, also inside `rwip`. -/
namespace Retrobsd.Pipes
open Lib.Run

def devBsize : Nat := 1024
def maxpipsiz : Nat := 4 * 1024

inductive Errno where
  | epipe
  | efbig
  | ewouldblock
  | eintr
  | erestart
deriving DecidableEq

/-- A call of `write`: the bytes at the user's addresses, one after the other, how
many there are, `RLIMIT_FSIZE`, `c`, how far the vectors have been used, and
`uio_resid`. -/
structure Write where
  data : Nat → UInt8
  count : Nat
  limit : Nat
  nonblock : Bool
  c : Nat
  pos : Nat
  resid : Nat
  error : Option Errno

inductive Place where
  | idle
  | readLock (n : Nat) (nonblock : Bool)
  | readHeld (n : Nat) (nonblock : Bool)
  | reading (offset resid : Nat)
  | readSleep (n : Nat) (nonblock : Bool)
  | writeLock (checked : Bool) (w : Write)
  | writeHeld (checked : Bool) (w : Write)
  | writing (w : Write)
  | writeSleep (w : Write)

inductive Outcome where
  | count (n : Nat)
  | error (e : Errno)
deriving DecidableEq

/-- `content` is what the file holds below `i_size`. Of the past there is what reads have returned, what writes
have appended, and for each write that has ended its report beside the number of its bytes that were appended.
-/
structure Pipe (ι : Type) where
  content : List UInt8
  fOffset : Nat
  iCount : Nat
  iRead : Bool
  iWrite : Bool
  holder : Option ι
  place : ι → Place
  returned : List UInt8
  appended : List UInt8
  reports : List (Outcome × Nat)

inductive Disabled where
  | disabled
deriving DecidableEq

section
variable {ι : Type} [DecidableEq ι]

def Place.wakeReader : Place → Place
  | .readSleep n nonblock => .readLock n nonblock
  | place => place

def Place.wakeWriter : Place → Place
  | .writeSleep w => .writeLock true w
  | place => place

def Pipe.at (s : Pipe ι) (p : ι) (place : Place) : Pipe ι := {s with place := Function.update s.place p place}

/-- `IUNLOCK` on the way to a place at which the lock is not held. -/
def Pipe.leave (s : Pipe ι) (p : ι) (place : Place) : Pipe ι := {s.at p place with holder := none}

def readDone (s : Pipe ι) (p : ι) (offset : Nat) : Pipe ι :=
  if offset = s.content.length then
    let s := {s with
      fOffset := 0,content := [],iWrite := false
      place := if s.iWrite then fun q => (s.place q).wakeWriter else s.place}
    s.leave p .idle
  else {s with fOffset := offset}.leave p .idle

/-- `n` in a turn of the loop of `rwip`, of which `diff` bytes are there. -/
def readSize (diff : Int) (offset resid : Nat) : Nat :=
  let n := min (devBsize - offset % devBsize) resid
  if diff < n then diff.toNat else n

def readTurn (s : Pipe ι) (p : ι) (offset resid : Nat) : Pipe ι :=
  let diff : Int := s.content.length - offset
  if diff ≤ 0 then readDone s p offset
  else
    let n := readSize diff offset resid
    let s := {s with returned := s.returned ++ (s.content.drop offset).take n}
    if resid - n ≠ 0 ∧ n ≠ 0 then s.at p (.reading (offset + n) (resid - n)) else readDone s p (offset + n)

def readHeld (s : Pipe ι) (p : ι) (n : Nat) (nonblock : Bool) : Pipe ι :=
  if s.content.length = 0 then
    if s.iCount ≠ 2 then s.leave p .idle
    else if nonblock then s.leave p .idle
    else {s with iRead := true}.leave p (.readSleep n nonblock)
  else if n = 0 then readDone s p s.fOffset
  else s.at p (.reading s.fOffset n)

/-- What `rwuio` makes of what `writep` returns, or of a signal in its sleep. -/
def Pipe.report (s : Pipe ι) (w : Write) (outcome : Outcome) : Pipe ι := {s with reports := s.reports ++ [(outcome,w.pos)]}

def Write.outcome (w : Write) : Outcome :=
  match w.error with
  | none => .count (w.count - w.resid)
  | some e => .error e

def writeDone (s : Pipe ι) (p : ι) (w : Write) : Pipe ι := (s.report w w.outcome).leave p .idle

def wakeReaders (s : Pipe ι) : Pipe ι :=
  if s.iRead then {s with iRead := false,place := fun q => (s.place q).wakeReader} else s

def writeLoop (s : Pipe ι) (p : ι) (w : Write) : Pipe ι :=
  if w.c = 0 then writeDone s p {w with resid := 0}
  else if s.iCount ≠ 2 then writeDone s p {w with error := some .epipe}
  else if s.content.length ≥ maxpipsiz then {s with iWrite := true}.leave p (.writeSleep w)
  else
    let chunk := min w.c maxpipsiz
    let w := {w with resid := chunk,c := w.c - chunk}
    if s.content.length + chunk > w.limit then (wakeReaders s).at p (.writeHeld true {w with error := some .efbig})
    else s.at p (.writing {w with error := none})

def writeHeld (s : Pipe ι) (p : ι) (checked : Bool) (w : Write) : Pipe ι :=
  if checked then writeLoop s p w
  else if w.nonblock ∧ ((s.content.length + w.c : Nat) : Int).bmod (2^32) ≥ maxpipsiz then
    writeDone s p {w with error := some .ewouldblock}
  else s.at p (.writeHeld true w)

def Write.slice (w : Write) (n : Nat) : List UInt8 := (List.range n).map fun i => w.data (w.pos + i)

/-- A turn of the loop of `rwip` for a write; `uio_offset` is `i_size` all the time. -/
def writeTurn (s : Pipe ι) (p : ι) (w : Write) : Pipe ι :=
  let n := min (devBsize - s.content.length % devBsize) w.resid
  let s := {s with content := s.content ++ w.slice n,appended := s.appended ++ w.slice n}
  let w := {w with pos := w.pos + n,resid := w.resid - n}
  if w.resid ≠ 0 ∧ n ≠ 0 then s.at p (.writing w) else (wakeReaders s).at p (.writeHeld true w)

end

section
variable {ι : Type} [DecidableEq ι]

inductive Op (ι : Type) where
  | read (p : ι) (n : Nat) (nonblock : Bool)
  | write (p : ι) (data : Nat → UInt8) (count limit : Nat) (nonblock : Bool)
  | lock (p : ι)
  | go (p : ι)
  | signal (p : ι) (restart : Bool)
  | close

def lock (s : Pipe ι) (p : ι) : Except Disabled (Pipe ι) :=
  if s.holder.isSome then .error .disabled
  else match s.place p with
    | .readLock n nonblock => .ok ({s with holder := some p}.at p (.readHeld n nonblock))
    | .writeLock checked w => .ok ({s with holder := some p}.at p (.writeHeld checked w))
    | _ => .error .disabled

def go (s : Pipe ι) (p : ι) : Except Disabled (Pipe ι) :=
  match s.place p with
  | .readHeld n nonblock => .ok (readHeld s p n nonblock)
  | .reading offset resid => .ok (readTurn s p offset resid)
  | .writeHeld checked w => .ok (writeHeld s p checked w)
  | .writing w => .ok (writeTurn s p w)
  | _ => .error .disabled

def signal (s : Pipe ι) (p : ι) (restart : Bool) : Except Disabled (Pipe ι) :=
  match s.place p with
  | .readSleep _ _ => .ok (s.at p .idle)
  | .writeSleep w =>
    let outcome : Outcome := if w.resid = w.count then .error
      (if restart then .erestart else .eintr) else .count (w.count - w.resid)
    .ok ((s.report w outcome).at p .idle)
  | _ => .error .disabled

def pipeClose (s : Pipe ι) : Except Disabled (Pipe ι) :=
  if s.holder.isSome then .error .disabled
  else .ok {s with
    iRead := false,iWrite := false,iCount := s.iCount - 1,place := fun q => (s.place q).wakeWriter.wakeReader}

def step (s : Pipe ι) : Op ι → Except Disabled (Pipe ι)
  | .read p n nonblock => match s.place p with
    | .idle => .ok (s.at p (.readLock n nonblock))
    | _ => .error .disabled
  | .write p data count limit nonblock => match s.place p with
    | .idle => .ok (s.at p (.writeLock false ⟨data,count,limit,nonblock,count,0,count,none⟩))
    | _ => .error .disabled
  | .lock p => lock s p
  | .go p => go s p
  | .signal p restart => signal s p restart
  | .close => pipeClose s

def pipe : Pipe ι := ⟨[],0,2,false,false,none,fun _ => .idle,[],[],[]⟩

end

end Retrobsd.Pipes

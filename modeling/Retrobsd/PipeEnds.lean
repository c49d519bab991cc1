import Retrobsd.Pipes

/-! A pipe with the two files at its ends, for any number of processes that share their
descriptors over `fork`: who waits in `readp` and `writep` and for what, beside passes of
`syncinodes`, which hold the inode while they write it. The bytes themselves are left out. -/
namespace Retrobsd.PipeEnds
open Function
open Lib.Run Pipes

inductive File where
  | rf
  | wf
deriving DecidableEq

/-- A call of `writep`: what is left to write, and what the file and the process set. -/
structure Write where
  c : Nat
  limit : Nat
  nonblock : Bool

inductive Place where
  | idle
  | readLock (n : Nat) (nonblock : Bool)
  | readHeld (n : Nat) (nonblock : Bool)
  | reading (n offset resid : Nat)
  | readSleep (n : Nat) (nonblock : Bool)
  | writeLock (checked : Bool) (w : Write)
  | writeHeld (checked : Bool) (w : Write)
  | writing (w : Write) (resid : Nat)
  | writeSleep (w : Write)
  | closeLock (f : File)
  | syncing

def Place.isIdle : Place → Bool
  | .idle => true
  | _ => false

/-- What a call came to, with what there was at that time: a read of `asked` bytes
that returned none, and a signal to a writer. -/
inductive Result where
  | zero (asked iSize writers : Nat)
  | sigpipe (readers : Nat)
deriving DecidableEq

structure Pipe (ι : Type) where
  iSize : Nat
  fOffset : Nat
  iCount : Nat
  iRead : Bool
  iWrite : Bool
  holder : Option ι
  place : ι → Place
  own : ι → File → Nat
  fCount : File → Nat
  results : List Result

section
variable {ι : Type} [DecidableEq ι]

def Place.wakeReader : Place → Place
  | .readSleep n nonblock => .readLock n nonblock
  | place => place

def Place.wakeWriter : Place → Place
  | .writeSleep w => .writeLock true w
  | place => place

def Pipe.at (s : Pipe ι) (p : ι) (place : Place) : Pipe ι := {s with place := update s.place p place}

def Pipe.leave (s : Pipe ι) (p : ι) (place : Place) : Pipe ι := {s.at p place with holder := none}

def Pipe.note (s : Pipe ι) (r : Result) : Pipe ι := {s with results := s.results ++ [r]}

def readDone (s : Pipe ι) (p : ι) (offset : Nat) : Pipe ι :=
  if offset = s.iSize then
    {s with
      fOffset := 0,iSize := 0,iWrite := false
      place := if s.iWrite then fun q => (s.place q).wakeWriter else s.place}.leave p .idle
  else {s with fOffset := offset}.leave p .idle

def readReturns (s : Pipe ι) (p : ι) (n offset resid : Nat) : Pipe ι :=
  readDone (if resid = n then s.note (.zero n s.iSize (s.fCount .wf)) else s) p offset

def readTurn (s : Pipe ι) (p : ι) (n offset resid : Nat) : Pipe ι :=
  let diff : Int := s.iSize - offset
  if diff ≤ 0 then readReturns s p n offset resid
  else
    let m := readSize diff offset resid
    if resid - m ≠ 0 ∧ m ≠ 0 then s.at p (.reading n (offset + m) (resid - m)) else readReturns s p n (offset + m) (resid - m)

def readHeld (s : Pipe ι) (p : ι) (n : Nat) (nonblock : Bool) : Pipe ι :=
  if s.iSize = 0 then
    if s.iCount ≠ 2 then (s.note (.zero n s.iSize (s.fCount .wf))).leave p .idle
    else if nonblock then s.leave p .idle
    else {s with iRead := true}.leave p (.readSleep n nonblock)
  else if n = 0 then readReturns s p n s.fOffset n
  else s.at p (.reading n s.fOffset n)

def wakeReaders (s : Pipe ι) : Pipe ι :=
  if s.iRead then {s with iRead := false,place := fun q => (s.place q).wakeReader} else s

def writeLoop (s : Pipe ι) (p : ι) (w : Write) : Pipe ι :=
  if w.c = 0 then s.leave p .idle
  else if s.iCount ≠ 2 then (s.note (.sigpipe (s.fCount .rf))).leave p .idle
  else if s.iSize ≥ maxpipsiz then {s with iWrite := true}.leave p (.writeSleep w)
  else
    let chunk := min w.c maxpipsiz
    let w := {w with c := w.c - chunk}
    if s.iSize + chunk > w.limit then (wakeReaders s).at p (.writeHeld true w) else s.at p (.writing w chunk)

def writeHeld (s : Pipe ι) (p : ι) (checked : Bool) (w : Write) : Pipe ι :=
  if checked then writeLoop s p w
  else if w.nonblock ∧ ((s.iSize + w.c : Nat) : Int).bmod (2^32) ≥ maxpipsiz then s.leave p .idle
  else s.at p (.writeHeld true w)

/-- `n` in a turn of the loop of `rwip` for a write, which is at the end of the file. -/
def writeSize (s : Pipe ι) (resid : Nat) : Nat := min (Pipes.devBsize - s.iSize % Pipes.devBsize) resid

def writeTurn (s : Pipe ι) (p : ι) (w : Write) (resid : Nat) : Pipe ι :=
  let n := writeSize s resid
  let s := {s with iSize := s.iSize + n}
  if resid - n ≠ 0 ∧ n ≠ 0 then s.at p (.writing w (resid - n)) else (wakeReaders s).at p (.writeHeld true w)

def synced (s : Pipe ι) (p : ι) : Pipe ι := {s with iCount := s.iCount - 1}.leave p .idle

def pipeClose (s : Pipe ι) (p : ι) (f : File) : Pipe ι := {s with
    iRead := false,iWrite := false,iCount := s.iCount - 1
    place := fun q => (s.place q).wakeWriter.wakeReader
    fCount := update s.fCount f 0}.at p .idle

end

section
variable {ι : Type} [DecidableEq ι]

inductive Op (ι : Type) where
  | read (p : ι) (n : Nat) (nonblock : Bool)
  | write (p : ι) (c limit : Nat) (nonblock : Bool)
  | close (p : ι) (f : File)
  | dup (p : ι) (f : File)
  | fork (p q : ι)
  | sync (p : ι)
  | lock (p : ι)
  | go (p : ι)
  | fault (p : ι) (k : Nat)
  | signal (p : ι)

inductive Disabled where
  | disabled
deriving DecidableEq

def lock (s : Pipe ι) (p : ι) : Except Disabled (Pipe ι) :=
  if s.holder.isSome then .error .disabled
  else match s.place p with
    | .readLock n nonblock => .ok ({s with holder := some p}.at p (.readHeld n nonblock))
    | .writeLock checked w => .ok ({s with holder := some p}.at p (.writeHeld checked w))
    | .closeLock f => .ok (pipeClose s p f)
    | _ => .error .disabled

def go (s : Pipe ι) (p : ι) : Except Disabled (Pipe ι) :=
  match s.place p with
  | .readHeld n nonblock => .ok (readHeld s p n nonblock)
  | .reading n offset resid => .ok (readTurn s p n offset resid)
  | .writeHeld checked w => .ok (writeHeld s p checked w)
  | .writing w resid => .ok (writeTurn s p w resid)
  | .syncing => .ok (synced s p)
  | _ => .error .disabled

/-- A turn of the loop of `rwip` fails: `k` bytes of a read have been moved before that,
or a write has moved the end of the file by `k`. -/
def fault (s : Pipe ι) (p : ι) (k : Nat) : Except Disabled (Pipe ι) :=
  match s.place p with
  | .reading _ offset _ => if offset + k ≤ s.iSize then .ok (readDone s p (offset + k)) else .error .disabled
  | .writing w resid =>
    if k ≤ writeSize s resid then .ok
      ((wakeReaders {s with iSize := s.iSize + k}).at p (.writeHeld true w)) else .error .disabled
  | _ => .error .disabled

def signal (s : Pipe ι) (p : ι) : Except Disabled (Pipe ι) :=
  match s.place p with
  | .readSleep _ _ => .ok (s.at p .idle)
  | .writeSleep _ => .ok (s.at p .idle)
  | _ => .error .disabled

def closef (s : Pipe ι) (p : ι) (f : File) : Pipe ι :=
  let s := {s with own := update s.own p (update (s.own p) f (s.own p f - 1))}
  if s.fCount f > 1 then {s with fCount := update s.fCount f (s.fCount f - 1)} else s.at p (.closeLock f)

def act (s : Pipe ι) : Op ι → Except Disabled (Pipe ι)
  | .read p n nonblock => if s.own p .rf = 0 then .error .disabled else .ok (s.at p (.readLock n nonblock))
  | .write p c limit nonblock => if s.own p .wf = 0 then .error .disabled else .ok (s.at p (.writeLock false ⟨c,limit,nonblock⟩))
  | .close p f => if s.own p f = 0 then .error .disabled else .ok (closef s p f)
  | .dup p f =>
    if s.own p f = 0 then .error .disabled
    else .ok {s with
      own := update s.own p (update (s.own p) f (s.own p f + 1))
      fCount := update s.fCount f (s.fCount f + 1)}
  | .fork p q =>
    if s.own q .rf ≠ 0 ∨ s.own q .wf ≠ 0 ∨ (s.place q).isIdle = false then .error .disabled
    else .ok {s with own := update s.own q (s.own p),fCount := fun f => s.fCount f + s.own p f}
  | .sync p =>
    if s.holder.isSome ∨ s.iCount = 0 then .error .disabled
    else .ok ({s with holder := some p,iCount := s.iCount + 1}.at p .syncing)
  | _ => .error .disabled

def Op.actor : Op ι → Option ι
  | .read p _ _ | .write p _ _ _ | .close p _ | .dup p _ | .fork p _ | .sync p => some p
  | _ => none

def step (s : Pipe ι) : Op ι → Except Disabled (Pipe ι)
  | .lock p => lock s p
  | .go p => go s p
  | .fault p k => fault s p k
  | .signal p => signal s p
  | op => if op.actor.any fun p => (s.place p).isIdle then act s op else .error .disabled

def pipe (p : ι) : Pipe ι where
  iSize := 0
  fOffset := 0
  iCount := 2
  iRead := false
  iWrite := false
  holder := none
  place _ := .idle
  own q _ := if q = p then 1 else 0
  fCount _ := 1
  results := []

end

end Retrobsd.PipeEnds

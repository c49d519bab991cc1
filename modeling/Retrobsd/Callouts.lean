import Retrobsd.Lib.Indices

/-! The callout queue of `kern_clock.c`: `softclock`, the part of `hardclock` that
updates the queue, `timeout`, `untimeout` and `coutinit`. Pointers are numbers:
0 is `NULL`, `&callout[i]` is `i + 1`, and `&calltodo` is behind the table. -/
namespace Retrobsd.Callouts
open Function

def int (x : Int) : Int := (x + 2^31) % 2^32 - 2^31

structure Table (φ α : Type) where
  cTime : Nat → Int
  cArg : Nat → α
  cFunc : Nat → φ
  cNext : Nat → Nat
  callfree : Nat

inductive Fault where
  /-- `panic("timeout table overflow")` -/
  | overflow
  | stuck
deriving DecidableEq

section
variable {φ α : Type}

def calltodo (ncall : Nat) : Nat := ncall + 1

/-- The loop of `hardclock` over the queue and whether it asks for `softclock`. -/
def hardclockLoop : Nat → Table φ α → Nat → Bool → Except Fault (Table φ α × Bool)
  | 0,s,p1,needsoft => if p1 = 0 then .ok (s,needsoft) else .error .stuck
  | turns + 1,s,p1,needsoft =>
    if p1 = 0 then .ok (s,needsoft)
    else
      let time := int (s.cTime p1 - 1)
      let s := {s with cTime := update s.cTime p1 time}
      if time > 0 then .ok (s,needsoft)
      else if time = 0 then .ok (s,true)
      else hardclockLoop turns s (s.cNext p1) true

def hardclock (ncall : Nat) (s : Table φ α) : Except Fault (Table φ α × Bool) :=
    hardclockLoop ncall s (s.cNext (calltodo ncall)) false

def softclockTurn (ncall : Nat) (s : Table φ α) : Table φ α × Option (φ × α) :=
  let p1 := s.cNext (calltodo ncall)
  if p1 = 0 ∨ s.cTime p1 > 0 then (s,none)
  else
    let s := {s with cNext := update s.cNext (calltodo ncall) (s.cNext p1)}
    ({s with cNext := update s.cNext p1 s.callfree,callfree := p1},some (s.cFunc p1,s.cArg p1))

/-- `for (p1 = &calltodo; (p2 = p1->c_next) && p2->c_time < t; p1 = p2)` -/
def timeoutLoop (s : Table φ α) : Nat → Nat → Int → Except Fault (Nat × Nat × Int)
  | 0,_,_ => .error .stuck
  | turns + 1,p1,t =>
    let p2 := s.cNext p1
    if p2 ≠ 0 ∧ s.cTime p2 < t then
      timeoutLoop s turns p2 (if s.cTime p2 > 0 then int (t - s.cTime p2) else t)
    else .ok (p1,p2,t)

def link (s : Table φ α) (pnew p1 p2 : Nat) (t : Int) : Table φ α :=
  let s := {s with cNext := update s.cNext p1 pnew}
  let s := {s with cNext := update s.cNext pnew p2,cTime := update s.cTime pnew t}
  if p2 ≠ 0 then {s with cTime := update s.cTime p2 (int (s.cTime p2 - t))} else s

def timeout (ncall : Nat) (s : Table φ α) (func : φ) (arg : α) (t : Int) : Except Fault (Table φ α) :=
  let t := if t ≤ 0 then 1 else t
  let pnew := s.callfree
  if pnew = 0 then .error .overflow
  else
    let s := {s with
      callfree := s.cNext pnew
      cArg := update s.cArg pnew arg
      cFunc := update s.cFunc pnew func}
    match timeoutLoop s (ncall + 1) (calltodo ncall) t with
    | .error e => .error e
    | .ok (p1,p2,t) => .ok (link s pnew p1 p2 t)

section
variable [DecidableEq φ] [DecidableEq α]

def untimeoutLoop (s : Table φ α) (func : φ) (arg : α) : Nat → Nat → Except Fault (Option (Nat × Nat))
  | 0,_ => .error .stuck
  | turns + 1,p1 =>
    let p2 := s.cNext p1
    if p2 = 0 then .ok none
    else if s.cFunc p2 = func ∧ s.cArg p2 = arg then .ok (some (p1,p2))
    else untimeoutLoop s func arg turns p2

def unlink (s : Table φ α) (p1 p2 : Nat) : Table φ α :=
  let s := if s.cNext p2 ≠ 0 ∧ s.cTime p2 > 0 then
    {s with cTime := update s.cTime (s.cNext p2) (int (s.cTime (s.cNext p2) + s.cTime p2))} else s
  let s := {s with cNext := update s.cNext p1 (s.cNext p2)}
  {s with cNext := update s.cNext p2 s.callfree,callfree := p2}

def untimeout (ncall : Nat) (s : Table φ α) (func : φ) (arg : α) : Except Fault (Table φ α) :=
  match untimeoutLoop s func arg (ncall + 1) (calltodo ncall) with
  | .error e => .error e
  | .ok none => .ok s
  | .ok (some (p1,p2)) => .ok (unlink s p1 p2)

end

/-- `for (i=1; i<NCALL; i++) callout[i-1].c_next = &callout[i];` from `i` on. -/
def coutinitLoop : Nat → Table φ α → Nat → Table φ α
  | 0,s,_ => s
  | turns + 1,s,i => coutinitLoop turns {s with cNext := update s.cNext i (i + 1)} (i + 1)

def coutinit (ncall : Nat) (s : Table φ α) : Table φ α := coutinitLoop (ncall - 1) {s with callfree := 1} 1

def boot (f : φ) (a : α) : Table φ α := ⟨fun _ => 0,fun _ => a,fun _ => f,fun _ => 0,0⟩

end

end Retrobsd.Callouts

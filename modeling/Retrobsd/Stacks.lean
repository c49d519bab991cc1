import Retrobsd.Transfers

/-! The sizes of a process's data and stack: where the entries to the kernel and
`sendsig` take note of the stack pointer, `brk`, `exec`, `fork` and swapping. A
process is followed from one `exec` on, as itself or as a child of its own. -/
namespace Retrobsd.Stacks
open Lib.Run Transfers

def maxmem : Word := 96#32 * 1024#32
def ssize : Word := 2048#32

def sigframe : Word := 160#32

structure Proc where
  pDaddr : Word
  pSaddr : Word
  pDsize : Word
  pSsize : Word
  uTsize : Word
  uDsize : Word
  uSsize : Word
  sload : Bool
  sasAltstack : Bool
  ssBase : Word
  ssSize : Word
  ssOnstack : Bool
deriving DecidableEq

inductive Signal where
  | sigsegv
  | sigill
deriving DecidableEq

inductive Panic where
  | unexpectedException
deriving DecidableEq

structure Exec where
  omagic : Bool
  aText : Word
  aData : Word
  aBss : Word
deriving DecidableEq

inductive Call where
  | brk (naddr : Word)
  | execve (ep : Exec) (nargc : Word)
  | sigaltstack (disable onstack : Bool) (base size : Word)
  | sigstack (sp : Word) (onstack : Bool)
  | sigreturn (onstack : Bool)
  | other
deriving DecidableEq

def expand (p : Proc) (sp : Word) : Proc :=
  if p.pSsize < userDataEnd - sp then
    {p with pSsize := userDataEnd - sp,pSaddr := sp,uSsize := userDataEnd - sp}
  else p

def brk (p : Proc) (naddr : Word) : Proc :=
  let newsize := naddr - p.pDaddr
  let newsize := if newsize.toInt < 0 then 0 else newsize
  if p.uTsize + newsize + p.uSsize > maxmem then p
  else {p with pDsize := newsize,uDsize := newsize}

def execve (p : Proc) (ep : Exec) (nargc : Word) : Proc :=
  let ep := if ep.omagic then {ep with aData := ep.aData + ep.aText,aText := 0} else ep
  let ts := ep.aText
  let ds := ep.aData + ep.aBss
  let ss := ssize + nargc
  if ts + ds + ss > maxmem then p
  else {p with
    pDsize := ds,pDaddr := userDataStart,pSsize := ss,pSaddr := userDataEnd - ss
    uTsize := ts,uDsize := ds,uSsize := ss
    sasAltstack := false,ssBase := 0,ssSize := 0,ssOnstack := false}

def sigaltstack (p : Proc) (disable onstack : Bool) (base size : Word) : Proc :=
  if disable then if p.ssOnstack then p else {p with sasAltstack := false,ssOnstack := onstack}
  else if size.toInt < 128 then p
  else {p with sasAltstack := true,ssBase := base,ssSize := size,ssOnstack := onstack}

def call (p : Proc) : Call → Proc
  | .brk naddr => brk p naddr
  | .execve ep nargc => execve p ep nargc
  | .sigaltstack disable onstack base size => sigaltstack p disable onstack base size
  | .sigstack sp onstack => {p with ssBase := sp,ssSize := 0,ssOnstack := p.ssOnstack || onstack,sasAltstack := true}
  | .sigreturn onstack => {p with ssOnstack := onstack}
  | .other => p

def syscall (p : Proc) (sp : Word) (c : Call) : Proc × Option Signal :=
  if sp < p.pDaddr + p.uDsize then (p,some .sigsegv) else (call (expand p sp) c,none)

def interrupt (p : Proc) (sp : Word) : Except Panic Proc :=
  if sp < p.pDaddr + p.uDsize then .error .unexpectedException else .ok (expand p sp)

/-- The addresses of the members of `sf_sc` that are stored to: all but `sc_align`. -/
def stored (sfp : Word) : List Word := bytes (sfp + 16) 8 ++ bytes (sfp + 32) 128

/-- `onstack` tells whether the handler is to run on the alternate stack. -/
def sendsig (p : Proc) (sp : Word) (onstack : Bool) : Proc × Option Signal × List Word :=
  let switch : Bool := p.sasAltstack && !p.ssOnstack && onstack
  let sfp := (if switch then p.ssBase + p.ssSize else sp) - sigframe
  let p := if switch then {p with ssOnstack := true} else p
  if p.ssOnstack then (p,none,stored sfp)
  else if sfp < p.pDaddr + p.uDsize then (p,some .sigill,[])
  else (expand p sfp,none,stored sfp)

/-- `a` are the places that `malloc3` finds in the swap area for data and stack. -/
def swapout (p : Proc) (a : Word × Word) : Proc := {p with pDaddr := a.1,pSaddr := a.2,sload := false}

def swapin (p : Proc) : Proc := {p with pDaddr := userDataStart,pSaddr := userDataEnd - p.pSsize,sload := true}

def newproc (p : Proc) (a : Word × Word) : Proc := swapout p a

inductive Op where
  | syscall (sp : Word) (c : Call)
  | interrupt (sp : Word)
  | sendsig (sp : Word) (onstack : Bool)
  | swapout (a : Word × Word)
  | swapin
  | forked (a : Word × Word)
deriving DecidableEq

/-- The process after it, a signal that is posted on the way, and the stores of
`sendsig`. -/
def act (p : Proc) : Op → Except Panic (Proc × Option Signal × List Word)
  | .syscall sp c => .ok ((syscall p sp c).1,(syscall p sp c).2,[])
  | .interrupt sp => (interrupt p sp).map fun p => (p,none,[])
  | .sendsig sp onstack => .ok (sendsig p sp onstack)
  | .swapout a => .ok (swapout p a,none,[])
  | .swapin => .ok (swapin p,none,[])
  | .forked a => .ok (newproc p a,none,[])

def step (p : Proc) (op : Op) : Except Panic Proc := (act p op).map Prod.fst

end Retrobsd.Stacks

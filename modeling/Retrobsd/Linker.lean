import Retrobsd.ArchiveTables
import Retrobsd.Lib.Probing
import Retrobsd.Lib.Sweeps

/-! The first pass of `ld`: the symbol table, the objects that are loaded and the search of libraries. -/
namespace Retrobsd.Linker
open Relocations (Byte Word Nlist Exec nUndf nAbs nText nData nBss nComm nTypeMask nExt rmagic)
open Archives (Ld.Ranlib)
open Lib.Run Lib.Sweeps Lib.Probing

inductive Fault where
  | exit
  | loops
deriving DecidableEq

structure Flags where
  sflag : Bool
  xflag : Bool
  Xflag : Bool
  Sflag : Bool
deriving DecidableEq

/-- A symbol of `symtab`. The slot of `hshtab` that points to it is what `symhash` has for it. -/
structure Entry extends Nlist where
  slot : Nat
deriving DecidableEq

structure Pass1 where
  symtab : List Entry
  tsize : Word
  dsize : Word
  bsize : Word
  ssize : Word
  nsym : Word
  liblist : List Word
deriving DecidableEq

structure Object where
  off : Word
  name : List Byte
  head : Exec
  syms : List Nlist
deriving DecidableEq

section

def symtabsz : Nat := 1500

def nlibs : Nat := 256

def cstr (s : List Byte) : List Byte := s.takeWhile (· != 0)

def hashRot13 (s : List Byte) : Word := (cstr s).foldl (fun hash c =>
    let hash := hash + c.setWidth 32
    hash - (hash <<< 13 ||| hash >>> 19)) 0

variable (s : Pass1)

def Pass1.keys : List (Nat × List Byte) := s.symtab.map fun e => (e.slot,cstr e.name)

/-- The slot of a symbol, and the entry that is there. The comparison ends with the name that is
looked for. -/
def lookup (name : List Byte) : Except Fault (Nat × Option Nat) :=
  match probe (symtabsz + 2) ((cstr name).isPrefixOf ·) s.keys (symtabsz + 2) ((hashRot13 name).toNat % symtabsz + 2) with
  | none => .error .loops
  | some r => .ok r

def enter (cursym : Nlist) (hp : Nat × Option Nat) : Except Fault (Pass1 × Option Nat) :=
  match hp with
  | (_,some sp) => .ok (s,some sp)
  | (slot,none) => if s.symtab.length ≥ symtabsz then .error .exit else .ok ({s with symtab := s.symtab ++ [⟨cursym,slot⟩]},none)

end

structure Rel where
  ctrel : Word
  cdrel : Word
  cbrel : Word

def symreloc (r : Rel) (cursym : Nlist) : Nlist :=
  if cursym.nType = nText ∨ cursym.nType = nExt + nText then {cursym with nValue := cursym.nValue + r.ctrel}
  else if cursym.nType = nData ∨ cursym.nType = nExt + nData then {cursym with nValue := cursym.nValue + r.cdrel}
  else if cursym.nType = nBss ∨ cursym.nType = nExt + nBss then {cursym with nValue := cursym.nValue + r.cbrel}
  else if cursym.nType = nExt + nUndf ∨ cursym.nType = nExt + nComm then cursym
  else if cursym.nType &&& nExt ≠ 0 then {cursym with nType := nExt + nAbs}
  else cursym

def redefine (sp cursym : Nlist) : Nlist × Bool :=
  if cursym.nType = nExt + nUndf then (sp,false)
  else if sp.nType = nExt + nUndf ∨ sp.nType = nExt + nComm then
    if cursym.nType = nExt + nComm then
      ({sp with nType := cursym.nType,nValue := if cursym.nValue > sp.nValue then cursym.nValue else sp.nValue},false)
    else if sp.nType = nExt + nUndf ∨ cursym.nType = nExt + nData ∨ cursym.nType = nExt + nBss then
      ({sp with nType := cursym.nType,nValue := cursym.nValue},true)
    else (sp,false)
  else (sp,false)

structure Loading where
  ld : Pass1
  ndef : Nat
  nsymbol : Word
  nloc : Word

def Flags.drops (o : Flags) (type : Word) : Bool := o.Sflag && (type &&& nTypeMask == nAbs || type &&& nTypeMask > nComm)

def Flags.discards (o : Flags) (cursym : Nlist) : Bool := o.sflag || o.xflag || o.Xflag && cursym.isLocal

def loadsym (o : Flags) (r : Rel) (l : Loading) (cursym : Nlist) : Except Fault Loading :=
  if o.drops cursym.nType then .ok l
  else if cursym.nType &&& nExt = 0 then
    if o.discards cursym then .ok l
    else .ok {l with nsymbol := l.nsymbol + 1,nloc := l.nloc + BitVec.ofNat 32 (cursym.name.length + 6)}
  else do
    let cursym := symreloc r cursym
    let hp ← lookup l.ld cursym.name
    match ← enter l.ld cursym hp with
    | (ld,none) => return {l with ld}
    | (ld,some sp) => match ld.symtab[sp]? with
      | none => return {l with ld}
      | some e =>
        let (changed,defined) := redefine e.toNlist cursym
        return {l with
          ld := {ld with symtab := ld.symtab.set sp ⟨changed,e.slot⟩}
          ndef := if defined then l.ndef + 1 else l.ndef}

def readhdr (h : Exec) : Except Fault Unit :=
  if h.magic ≠ rmagic ∨ h.text.toNat % 4 ≠ 0 ∨ h.data.toNat % 4 ≠ 0 ∨ h.bss.toNat % 4 ≠ 0 then .error .exit else .ok ()

def mkfsym (o : Flags) (name : List Byte) : Word :=
  if o.sflag || o.xflag then 0 else BitVec.ofNat 32 ((Archives.rname name).length + 6)

def rel (s : Pass1) (h : Exec) : Rel := ⟨s.tsize,s.dsize - h.text,s.bsize - (h.text + h.data)⟩

def alignW (size : Word) : Word := (size + 3) &&& ~~~3

def load1 (o : Flags) (libflg : Bool) (s : Pass1) (m : Object) : Except Fault (Pass1 × Bool) := do
  readhdr m.head
  let nloc := mkfsym o m.name
  let l ← run (loadsym o (rel s m.head)) ⟨s,0,if nloc ≠ 0 then 1 else 0,nloc⟩ m.syms
  if !libflg || l.ndef ≠ 0 then
    return ({l.ld with
      tsize := alignW (s.tsize + m.head.text)
      dsize := alignW (s.dsize + m.head.data)
      bsize := alignW (s.bsize + m.head.bss)
      ssize := s.ssize + l.nloc
      nsym := s.nsym + l.nsymbol},true)
  else return ({l.ld with symtab := l.ld.symtab.take s.symtab.length},false)

def addlibp (s : Pass1) (nloc : Word) : Except Fault Pass1 :=
  if s.liblist.length + 1 ≥ nlibs then .error .exit else .ok {s with liblist := s.liblist ++ [nloc]}

def step (o : Flags) (s : Pass1) (m : Object) : Except Fault Pass1 := do
  let (s,loaded) ← load1 o true s m
  if loaded then addlibp s m.off else return s

def stepAt (o : Flags) (ms : List Object) (s : Pass1) (off : Word) : Except Fault Pass1 :=
  match ms.find? (·.off == off) with
  | none => .ok s
  | some m => step o s m

def randstep (o : Flags) (ms : List Object) (s : Pass1) (p : Ld.Ranlib) : Except Fault Pass1 := do
  match ← lookup s p.name with
  | (_,none) => return s
  | (_,some pp) =>
    if (s.symtab[pp]?).any fun e => e.nType == nExt + nUndf then stepAt o ms s p.off else return s

def Pass1.loads (s : Pass1) : Nat := s.liblist.length

def endlib : Word := -1

def load1lib (o : Flags) (ms : List Object) (s : Pass1) : Except Fault Pass1 := do
  let s ← sweeps (step o) Pass1.loads .loops ms (ms.length + 1) s
  addlibp s endlib

def ldrandlib (o : Flags) (ms : List Object) (rantab : List Ld.Ranlib) (s : Pass1) : Except Fault Pass1 := do
  if rantab.length ≥ Archives.Ld.rantabsz then .error .exit
  let s ← sweeps (randstep o ms) Pass1.loads .loops rantab (rantab.length + 1) s
  addlibp s endlib

/-- What `getfile` finds. A table of contents that is out of date is passed over. -/
inductive Arg where
  | regular (m : Object)
  | archive (ms : List Object)
  | randomized (ms : List Object) (rantab : List Ld.Ranlib)
  | outOfDate (ms : List Object)

def load1arg (o : Flags) (s : Pass1) : Arg → Except Fault Pass1
  | .regular m => (load1 o false s m).map Prod.fst
  | .archive ms | .outOfDate ms => load1lib o ms s
  | .randomized ms rantab => ldrandlib o ms rantab s

/-- The members of an archive that the second pass loads, and the rest of `liblist`. -/
def load2lib (libp : List Word) : List Word × List Word := (libp.takeWhile (· != endlib),(libp.dropWhile (· != endlib)).drop 1)

def load2arg : Arg → List Word → List Word × List Word
  | .regular _,libp => ([],libp)
  | .archive _,libp | .randomized _ _,libp | .outOfDate _,libp => load2lib libp

end Retrobsd.Linker

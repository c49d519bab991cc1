import Retrobsd.RelocationStreams

/-! What `as.c` reads: its lexemes, its symbol table and `getexpr`. The scanner has split a
letter `b` or `f` from the number it stands behind, and has read each string as a whole. -/
namespace Retrobsd.Assembler
open Relocations (Word Byte nUndf nAbs nText nData nBss nStrng nComm nTypeMask rabs rtext rdata rbss rstrng rext)

inductive Lexeme where
  | lEof
  | lEol
  | lName (name : String)
  | lReg (register : Word)
  | lNum (value : Word)
  | suffix (forward : Bool)
  | lLshift
  | lRshift
  | char (c : Char)
  | string (bytes : List Byte)
  | lAscii
  | lBss
  | lComm
  | lData
  | lGlobl
  | lHalf
  | lStrng
  | lRdata
  | lText
  | lEqu
  | lWord
  | lByte
  | lSpace
  | lFile
  | lSection
  | lSymtype
  | lSectype
  | lPrevious
  | lGnuattr
  | lAlign
  | lSet
  | lEnt
  | lType
  | lFrame
  | lMask
  | lFmask
  | lEnd
  | lSize
  | lIdent
  | lWeak
  | lLocal
deriving DecidableEq

inductive Segment where
  | text
  | data
  | strng
  | bss
  | ext
  | abs
deriving DecidableEq

def segmtype : Segment → Word
  | .text => nText
  | .data => nData
  | .strng => nStrng
  | .bss => nBss
  | .ext => nUndf
  | .abs => nAbs

def segmrel : Segment → Word
  | .text => rtext
  | .data => rdata
  | .strng => rstrng
  | .bss => rbss
  | .ext => rext
  | .abs => rabs

def typesegm (type : Word) : Segment :=
  if type = nUndf then .ext
  else if type = nAbs then .abs
  else if type = nText then .text
  else if type = nData then .data
  else if type = nBss then .bss
  else .strng

/-- How `as` may end: with an error message, by writing to the file that `.bss` does not have, or not at all. -/
inductive Fault where
  | uerror (message : String)
  | crash
  | endless
  | fuel
deriving DecidableEq

structure Symbol where
  name : String
  nType : Word
  nValue : Word
deriving DecidableEq

def Symbol.type (s : Symbol) : Word := s.nType &&& nTypeMask

def stsize : Nat := 921

def spaceSize : Nat := stsize * 8

def rlabOffset : Word := 0x800000

def rlabMaxval : Word := 1000000

def exprGprel : Word := 1

def exprHi : Word := 2

def exprLo : Word := 4

structure Scan where
  input : List Lexeme
  stab : List Symbol
  extref : Word
  exprFlags : Word

abbrev Parse := StateT Scan (Except Fault)

def uerror {σ α : Type} (message : String) : StateT σ (Except Fault) α := fun _ => .error (.uerror message)

def getlex : Parse Lexeme := fun s => match s.input with
  | [] => .ok (.lEof,s)
  | l :: rest => .ok (l,{s with input := rest})

def ungetlex (l : Lexeme) : Parse Unit := fun s => match l with
  | .lEof => .ok ((),s)
  | l => .ok ((),{s with input := l :: s.input})

def expect (l : Lexeme) (message : String) : Parse Unit := do
  if (← getlex) ≠ l then uerror message

def comma : Parse Unit := expect (.char ',') "comma expected"

def lookname (name : String) : Parse Nat := fun s =>
  match s.stab.findIdx? (·.name == name) with
  | some i => .ok (i,s)
  | none =>
    if s.stab.length ≥ stsize then .error (.uerror "symbol table overflow")
    else if (s.stab.map (·.name.length + 1)).sum + name.length + 1 > spaceSize then .error (.uerror "out of memory")
    else .ok (s.stab.length,{s with stab := s.stab ++ [⟨name,nUndf,0⟩]})

def symbol (stab : List Symbol) (i : Nat) : Symbol := stab.getD i ⟨"",nUndf,0⟩

def setSymbol (i : Nat) (sym : Symbol) : Parse Unit := modify fun s => {s with stab := s.stab.set i sym}

def operator : Lexeme → Option (Word → Word → Word)
  | .char '&' => some (· &&& ·)
  | .char '|' => some (· ||| ·)
  | .char '^' => some (· ^^^ ·)
  | .char '~' => some fun a b => a ^^^ ~~~b
  | .lLshift => some fun a b => a <<< (b &&& 0x1f)
  | .lRshift => some fun a b => a >>> (b &&& 0x1f)
  | .char '*' => some (· * ·)
  | .char '/' => some (· / ·)
  | _ => none

def function : String → Option Word
  | "gp_rel" => some exprGprel
  | "hi" => some exprHi
  | "lo" => some exprLo
  | _ => none

mutual

/-- What `getterm` and `getexpr` return comes with `intval`. The place that `.` stands for is an
argument, and the fuel bounds how deep the calls nest. -/
def getterm (segm : Segment) (dot : Word) : Nat → Parse (Segment × Word)
  | 0 => fun _ => .error .fuel
  | fuel + 1 => do
    match ← getlex with
    | .lNum value =>
      match ← getlex with
      | .suffix forward =>
        if value ≥ rlabMaxval then uerror "too large relative label"
        modify fun s => {s with extref := if forward then rlabOffset + value else rlabOffset - value}
        return (.ext,0)
      | other =>
        ungetlex other
        return (.abs,value)
    | .lName name =>
      let cval ← lookname name
      let sym := symbol (← get).stab cval
      if sym.type = nUndf ∨ sym.type = nComm then
        modify fun s => {s with extref := BitVec.ofNat 32 cval}
        return (.ext,0)
      return (typesegm sym.type,sym.nValue)
    | .char '.' => return (segm,dot)
    | .char '%' =>
      let .lName name ← getlex | uerror "bad %function name"
      let some flag := function name | uerror ("unknown function " ++ name)
      modify fun s => {s with exprFlags := s.exprFlags ||| flag}
      expect (.char '(') ("bad " ++ name ++ " syntax")
      let (s,intval) ← getexpr segm dot fuel
      expect (.char ')') "bad () syntax"
      return (s,intval)
    | .char '(' =>
      let (s,intval) ← getexpr segm dot fuel
      expect (.char ')') "bad () syntax"
      return (s,intval)
    | _ => uerror "operand missed"

def getexpr (segm : Segment) (dot : Word) : Nat → Parse (Segment × Word)
  | 0 => fun _ => .error .fuel
  | fuel + 1 => do
    let clex ← getlex
    ungetlex clex
    match clex with
    | .lNum _ | .lName _ | .char '.' | .char '(' | .char '%' =>
      let (s,rez) ← getterm segm dot fuel
      exprLoop segm dot fuel s rez
    | _ => exprLoop segm dot fuel .abs 0

def exprLoop (segm : Segment) (dot : Word) : Nat → Segment → Word → Parse (Segment × Word)
  | 0,_,_ => fun _ => .error .fuel
  | fuel + 1,s,rez => do
    let clex ← getlex
    match clex with
    | .char '+' =>
      let (s2,intval) ← getterm segm dot fuel
      if s = .abs then exprLoop segm dot fuel s2 (rez + intval)
      else if s2 ≠ .abs then uerror "too complex expression"
      else exprLoop segm dot fuel s (rez + intval)
    | .char '-' =>
      let (s2,intval) ← getterm segm dot fuel
      if s2 = s ∧ s2 ≠ .ext then exprLoop segm dot fuel .abs (rez - intval)
      else if s2 ≠ .abs then uerror "too complex expression"
      else exprLoop segm dot fuel s (rez - intval)
    | _ =>
      match operator clex with
      | some f =>
        let (s2,intval) ← getterm segm dot fuel
        if s ≠ .abs ∨ s2 ≠ .abs then uerror "too complex expression"
        if clex = .char '/' ∧ intval = 0 then uerror "division by zero"
        exprLoop segm dot fuel s (f rez intval)
      | none =>
        ungetlex clex
        return (s,rez)

end

def expression (segm : Segment) (dot : Word) : Parse (Segment × Word) := fun s => getexpr segm dot (3 * s.input.length + 3) s

def absolute (segm : Segment) (dot : Word) (message : String) : Parse Word := do
  let (s,value) ← expression segm dot
  if s ≠ .abs then uerror message
  return value

end Retrobsd.Assembler

import Retrobsd.AssemblerOpcodes

/-! `pass1` of `as.c` with what it puts into the files of the segments. A log of the items as they
stand in the source is kept beside the files. -/
namespace Retrobsd.Assembler
open Relocations (Word Byte Reloc nUndf nTypeMask nExt nWeak nLoc nComm rgprel rbyte32)

/-- What a statement adds to its segment. A branch may have taken the instruction before it into its
delay slot; `pad` is the automatic alignment. -/
inductive Item where
  | label (value : Word)
  | code (word : Word)
  | branch (word : Word) (swapped : Bool)
  | data (bytes : List Byte)
  | pad (n : Nat)
deriving DecidableEq

/-- Where `pass1` is: before a statement, behind one, or at its end. -/
inductive Phase where
  | statement
  | terminator
  | done
deriving DecidableEq

structure Asm where
  scan : Scan
  segm : Segment
  sfile : Segment → List Byte
  rfile : Segment → List Reloc
  count : Segment → Word
  labeltab : List (Word × Word)
  modeReorder : Bool
  buffer : Option Buffered
  phase : Phase
  items : List (Segment × Item)

abbrev Pass := StateT Asm (Except Fault)

def maxrlab : Nat := 200

def scanned {α : Type} (p : Parse α) : Pass α := fun a => (p a.scan).map fun (x,scan) => (x,{a with scan})

def placed {α : Type} (p : Segment → Word → Parse α) : Pass α := fun a => scanned (p a.segm (a.count a.segm)) a

def Segment.filed : Segment → Bool
  | .text | .data | .strng => true
  | _ => false

def note (item : Item) : Pass Unit := modify fun a => {a with items := a.items ++ [(a.segm,item)]}

def noteData (bytes : List Byte) : Pass Unit := if bytes = [] then pure () else note (.data bytes)

def fputs (bytes : List Byte) : Pass Unit := fun a =>
  if a.segm.filed then .ok ((),{a with sfile := Function.update a.sfile a.segm (a.sfile a.segm ++ bytes)}) else .error .crash

def fputword (w : Word) : Pass Unit := fputs (Relocations.fputword w)

def fputrel (r : Reloc) : Pass Unit := fun a =>
  if a.segm.filed then .ok ((),{a with rfile := Function.update a.rfile a.segm (a.rfile a.segm ++ [r])}) else .error .crash

def advance (n : Word) : Pass Unit := modify fun a => {a with count := Function.update a.count a.segm (a.count a.segm + n)}

def reorderFlush : Pass Unit := do
  match (← get).buffer with
  | none => return
  | some b =>
    fputword b.word
    fputrel b.rel
    modify fun a => {a with buffer := none}

def emitword (b : Buffered) : Pass Unit := do
  let a ← get
  if a.modeReorder && a.segm == .text then
    reorderFlush
    modify fun a => {a with buffer := some b}
  else
    fputword b.word
    fputrel b.rel
  advance 4

def emitCode (b : Buffered) : Pass Unit := do
  emitword b
  note (.code b.word)

def emitData (b : Buffered) : Pass Unit := do
  emitword b
  note (.data (Relocations.fputword b.word))

def spaceLoop (fill : Bool) : Nat → Pass Unit
  | 0 => return
  | n + 1 => do
    advance 1
    if fill then fputs [0]
    let a ← get
    if a.count a.segm &&& 3 = 0 then fputrel relabs
    spaceLoop fill n

def addSpace (nbytes : Nat) (fill : Bool) : Pass Unit := do
  if (← get).segm.filed then spaceLoop fill nbytes else advance (BitVec.ofNat 32 nbytes)

def zeros (n : Nat) : List Byte := List.replicate n 0

/-- How far `align` goes; the shift takes five bits. -/
def alignment (count alignBits : Word) : Word :=
  let mask := (1 : Word) <<< (alignBits.toNat % 32) - 1
  if count &&& mask = 0 then 0 else mask + 1 - (count &&& mask)

def align (alignBits : Word) (item : Nat → Item) : Pass Unit := do
  let a ← get
  let nbytes := alignment (a.count a.segm) alignBits
  if nbytes = 0 then return
  if a.segm.filed then spaceLoop true nbytes.toNat else advance nbytes
  note (item nbytes.toNat)

def autoAlign (alignBits : Word) : Pass Unit := align alignBits .pad

def depends (i : Insn) (b : Buffered) : Bool :=
  b.clobber != 0 && (i.has (frs1 ||| frs2) && field i.opcode 21 == b.clobber || i.has frt2 && field i.opcode 16 == b.clobber)

def emitBranch (i : Insn) : Pass Unit := do
  if let some b := (← get).buffer then
    if depends i b then reorderFlush
  fputword i.opcode
  fputrel i.rel
  match (← get).buffer with
  | some _ =>
    -- delay slot: insert a previous instruction
    reorderFlush
    note (.branch i.opcode true)
  | none =>
    fputword 0
    fputrel relabs
    advance 4
    note (.branch i.opcode false)
  advance 4

def emitCodes : List Buffered → Pass Unit
  | [] => return
  | b :: bs => do
    emitCode b
    emitCodes bs

def makecmd (p : Optable) : Pass Unit := do
  let i ← placed fun segm dot => operands segm dot p.opcode p.type
  match p.func with
  | some .li => emitCodes (← placed fun segm dot => emitLi segm dot i)
  | some .la => emitCodes (← placed fun segm dot => emitLa segm dot i)
  | none =>
    let a ← get
    if a.modeReorder && i.has fdslot && a.segm == .text then emitBranch i
    else emitCode ⟨i.opcode,i.rel,i.clobber⟩

def makeascii : Pass Unit := do
  let .string bytes ← scanned getlex | uerror "no .ascii parameter"
  if bytes ≠ [] then fputs bytes
  addSpace bytes.length false
  noteData bytes

def skipstring : Parse Unit := do
  let .string _ ← getlex | uerror "no string parameter"
  return

def setsection (name : String) : Option Segment :=
  ([(".text",.text),(".data",.data),(".sdata",.data),(".rodata",.strng),(".bss",.bss),(".sbss",.bss),(".mdebug",.strng)].find?
    fun (p : String × Segment) => name.startsWith p.1).map Prod.snd

def setoption (name : String) : Pass Unit := do
  if name = "reorder" then modify fun a => {a with modeReorder := true}
  else if name = "noreorder" then
    modify fun a => {a with modeReorder := false}
    reorderFlush
  else if name ∉ ["macro","nomacro","mips16","nomips16","micromips","nomicromips","at","noat"] then
    uerror ("unknown option " ++ name)

def labelled (name : String) : Pass Unit := do
  reorderFlush
  let cval ← scanned (lookname name)
  let a ← get
  let sym := symbol a.scan.stab cval
  scanned (setSymbol cval {sym with nValue := a.count a.segm,nType := sym.nType &&& ~~~nTypeMask ||| segmtype a.segm})
  note (.label (symbol (← get).scan.stab cval).nValue)

def numbered (num : Word) : Pass Unit := do
  if (← get).labeltab.length ≥ maxrlab then uerror "too many digital labels"
  reorderFlush
  let a ← get
  modify fun a => {a with labeltab := a.labeltab ++ [(num,a.count a.segm)]}
  note (.label (a.count a.segm))
  scanned (expect (.char ':') "bad digital label")

def defined (name : String) : Pass Unit := do
  let cval ← scanned (lookname name)
  let (csegm,value) ← placed expression
  if csegm = .ext then uerror "indirect equivalence"
  scanned do
    let sym := symbol (← get).stab cval
    setSymbol cval {sym with nValue := value,nType := sym.nType &&& nExt ||| segmtype csegm}

def common (name : String) : Parse Nat := do
  let cval ← lookname name
  let sym := symbol (← get).stab cval
  if sym.nType ≠ nUndf ∧ sym.nType ≠ nLoc ∧ sym.type ≠ nComm then uerror "name already defined"
  setSymbol cval {sym with nType := if sym.nType &&& nLoc ≠ 0 then nComm else nExt ||| nComm}
  return cval

def sized (cval : Nat) (size : Word) : Parse Unit := do
  setSymbol cval {symbol (← get).stab cval with nValue := size}

def namedComm (name : String) : Pass Unit := do
  let cval ← scanned (common name)
  let size ← placed fun segm dot => absolute segm dot "bad .comm length"
  scanned (sized cval size)

def comm : Pass Unit := do
  let .lName name ← scanned getlex | uerror "bad parameter of .comm"
  let cval ← scanned (common name)
  match ← scanned getlex with
  | .char ',' =>
    let size ← placed fun segm dot => absolute segm dot "bad length of .comm"
    scanned (sized cval size)
  | clex =>
    scanned (ungetlex clex)
    scanned (sized cval 1)
  match ← scanned getlex with
  | .char ',' =>
    let _ ← placed fun segm dot => absolute segm dot "bad .comm alignment"
  | clex => scanned (ungetlex clex)

def nameLoop (message : String) (act : Symbol → Except String Symbol) : List Lexeme → List Symbol →
    Except Fault (List Lexeme × List Symbol)
  | .lName name :: rest,stab => do
    let (cval,s) ← lookname name ⟨rest,stab,0,0⟩
    match act (symbol s.stab cval) with
    | .error text => .error (.uerror text)
    | .ok sym =>
      let stab := s.stab.set cval sym
      match rest with
      | .char ',' :: rest => nameLoop message act rest stab
      | rest => .ok (rest,stab)
  | _,_ => .error (.uerror message)

def named (message : String) (act : Symbol → Except String Symbol) : Parse Unit := fun s =>
  (nameLoop message act s.input s.stab).map fun (input,stab) => ((),{s with input, stab})

def globl (sym : Symbol) : Except String Symbol :=
  if sym.nType &&& nLoc ≠ 0 then .error "local name redefined as global" else .ok {sym with nType := sym.nType ||| nExt}

def «local» (sym : Symbol) : Except String Symbol :=
  if sym.nType &&& nExt ≠ 0 then .error "global name redefined as local" else .ok {sym with nType := sym.nType ||| nLoc}

def weak (sym : Symbol) : Except String Symbol := .ok {sym with nType := sym.nType ||| nWeak}

def wordLoop : Nat → Pass Unit
  | 0 => fun _ => .error .fuel
  | fuel + 1 => do
    scanned (modify fun s => {s with exprFlags := 0})
    let (cval,intval) ← placed expression
    let s := (← get).scan
    let flags := if s.exprFlags &&& exprGprel ≠ 0 then rbyte32 ||| segmrel cval ||| rgprel else rbyte32 ||| segmrel cval
    emitData ⟨intval,⟨flags,if cval = .ext then s.extref else 0,0⟩,0⟩
    match ← scanned getlex with
    | .char ',' => wordLoop fuel
    | clex => scanned (ungetlex clex)

/-- The values of `.byte` and `.half` are put out as they are read. -/
def byteLoop (put : Word → List Byte) : Nat → List Byte → Pass (List Byte)
  | 0,_ => fun _ => .error .fuel
  | fuel + 1,bytes => do
    let (_,intval) ← placed expression
    fputs (put intval)
    match ← scanned getlex with
    | .char ',' => byteLoop put fuel (bytes ++ put intval)
    | clex =>
      scanned (ungetlex clex)
      return bytes ++ put intval

def bytes (put : Word → List Byte) : Pass Unit := do
  let bytes ← byteLoop put ((← get).scan.input.length + 1) []
  addSpace bytes.length false
  noteData bytes

def emitZeros : Nat → Pass Unit
  | 0 => return
  | n + 1 => do
    emitData ⟨0,relabs,0⟩
    emitZeros n

def setCount : Pass Unit := do
  scanned (expect (.char '=') "bad instruction")
  let (csegm,addr) ← placed expression
  let a ← get
  let count := a.count a.segm
  if csegm ≠ a.segm then uerror "bad count assignment"
  if addr < count then uerror "negative count increment"
  reorderFlush
  if a.segm = .bss then
    advance (addr - count)
    noteData (zeros (addr - count).toNat)
  else
    let n := (addr.toNat - count.toNat + 3) / 4
    -- the loop never ends if the counter goes past its end
    if count.toNat + 4 * n ≥ 2^32 then fun _ => .error .endless
    emitZeros n

def optional (p : Parse Unit) : Parse Unit := do
  match ← getlex with
  | .char ',' => p
  | clex => ungetlex clex

def number (message : String) : Parse Word := do
  let .lNum value ← getlex | uerror message
  return value

def identifier (message : String) : Parse String := do
  let .lName name ← getlex | uerror message
  return name

def sectionArguments : Parse Unit := optional do
    skipstring
    optional do
      expect .lSectype "bad type of .section"
      optional do
        let _ ← number "bad entry size of .section"

def frame : Parse Unit := do
  let _ ← register "bad register of .frame"
  expect (.char ',') "bad parameter of .frame"
  let _ ← number "bad parameter of .frame"
  expect (.char ',') "bad register of .frame"
  let _ ← register "bad register of .frame"

def mask (numberText commaText valueText : String) (segm : Segment) (dot : Word) : Parse Unit := do
  let _ ← number numberText
  expect (.char ',') commaText
  let _ ← absolute segm dot valueText

def size (segm : Segment) (dot : Word) : Parse Unit := do
  let _ ← identifier "bad name of .size"
  optional do
    let _ ← absolute segm dot "bad value of .size"

def type : Parse Unit := do
  let _ ← identifier "bad name of .type"
  optional (expect .lSymtype "bad type of .type")

/-- A statement that begins with a name. In front of `.equ` and `.comm` the name is lost. -/
def nameStatement (name : String) : Pass Phase := do
  match ← scanned getlex with
  | .char ':' =>
    labelled name
    return .statement
  | .char '=' =>
    defined name
    return .terminator
  | .lEqu =>
    defined ".equ"
    return .terminator
  | .lComm =>
    namedComm ".comm"
    return .terminator
  | clex =>
    let some p := lookcmd name | uerror "bad instruction"
    scanned (ungetlex clex)
    autoAlign 2
    makecmd p
    return .terminator

def switchTo (segm : Segment) : Pass Unit := modify fun a => {a with segm}

def finish : Pass Unit := do
  reorderFlush
  switchTo .text
  autoAlign 2
  switchTo .data
  autoAlign 2
  switchTo .strng
  autoAlign 2
  switchTo .bss
  autoAlign 2

def directive : Lexeme → Pass Unit
  | .char '.' => setCount
  | .lText => do
    switchTo .text
    reorderFlush
  | .lData => switchTo .data
  | .lStrng | .lRdata => switchTo .strng
  | .lBss => switchTo .bss
  | .lWord => do
    reorderFlush
    autoAlign 2
    wordLoop ((← get).scan.input.length + 1)
  | .lByte => do
    reorderFlush
    bytes fun w => [w.setWidth 8]
  | .lHalf => do
    reorderFlush
    autoAlign 1
    bytes fun w => [w.setWidth 8,(w >>> 8).setWidth 8]
  | .lSpace => do
    let (_,intval) ← placed expression
    reorderFlush
    addSpace intval.toNat true
    noteData (zeros intval.toNat)
  | .lAlign => do
    let bits ← scanned (number "bad parameter of .align")
    reorderFlush
    align bits fun n => .data (zeros n)
  | .lAscii => do
    reorderFlush
    makeascii
  | .lGlobl => scanned (named "bad parameter of .globl" globl)
  | .lLocal => scanned (named "bad parameter of .local" «local»)
  | .lWeak => scanned (named "bad parameter of .weak" weak)
  | .lComm => comm
  | .lFile => scanned do
    let _ ← number "bad parameter of .file"
    skipstring
  | .lIdent => scanned skipstring
  | .lSection => do
    let name ← match ← scanned getlex with
      | .lName name => pure name
      | .lBss => pure ".bss"
      | _ => uerror "bad name of .section"
    let some segm := setsection name | uerror "bad .section name"
    switchTo segm
    scanned sectionArguments
  | .lPrevious => return
  | .lGnuattr => scanned do
    let _ ← number "bad parameter of .gnu_attribute"
    expect (.char ',') "bad parameter of .gnu_attribute"
    let _ ← number "bad parameter of .gnu_attribute"
  | .lSet => do
    let name ← scanned (identifier "bad parameter of .set")
    setoption name
  | .lEnt => scanned do
    let _ ← lookname (← identifier "bad parameter of .ent")
  | .lEnd => scanned do
    let _ ← lookname (← identifier "bad parameter of .end")
  | .lType => scanned type
  | .lFrame => scanned frame
  | .lMask => placed (mask "bad mask of .mask" "bad parameter of .mask" "bad expression of .mask")
  | .lFmask => placed (mask "bad mask of .fmask" "bad parameter of .fmask" "bad expression of .fmask")
  | .lSize => placed size
  | _ => uerror "bad syntax"

def statement : Pass Phase := do
  match ← scanned getlex with
  | .lEof =>
    finish
    return .done
  | .lEol => return .statement
  | .char ':' => return .statement
  | .lName name => nameStatement name
  | .lNum num =>
    numbered num
    return .statement
  | clex =>
    directive clex
    return .terminator

def terminator : Pass Phase := do
  match ← scanned getlex with
  | .lEol => return .statement
  | .lEof => return .done
  | _ => uerror "bad instruction arguments"

def step (a : Asm) (_ : Unit) : Except Fault Asm :=
  match a.phase with
  | .statement => (statement a).map fun (phase,a) => {a with phase}
  | .terminator => (terminator a).map fun (phase,a) => {a with phase}
  | .done => .ok a

def start (text : List Lexeme) : Asm where
  scan := ⟨text,[],0,0⟩
  segm := .text
  sfile := fun _ => []
  rfile := fun _ => []
  count := fun _ => 0
  labeltab := []
  modeReorder := true
  buffer := none
  phase := .statement
  items := []

end Retrobsd.Assembler

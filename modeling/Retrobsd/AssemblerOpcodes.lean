import Retrobsd.AssemblerSource

/-! The instructions that `as` knows, and how `makecmd` reads the operands of one. -/
namespace Retrobsd.Assembler
open Relocations (Word Reloc rabs rext rgprel rhigh16 rhigh16s rword16 rword26)

/-! Flags of instruction formats. -/

def frd1 : Word := 0x000001
def frd2 : Word := 0x000002
def frt1 : Word := 0x000004
def frt2 : Word := 0x000008
def frt3 : Word := 0x000010
def frs1 : Word := 0x000020
def frs2 : Word := 0x000040
def frs3 : Word := 0x000080
def frsb : Word := 0x000100
def fcode : Word := 0x000200
def fdslot : Word := 0x000400
def foff16 : Word := 0x000800
def fhigh16 : Word := 0x001000
def foff18 : Word := 0x002000
def faoff18 : Word := 0x004000
def faoff28 : Word := 0x008000
def fsa : Word := 0x010000
def fsel : Word := 0x020000
def fsize : Word := 0x040000
def fmsb : Word := 0x080000
def frtd : Word := 0x100000
def fcode16 : Word := 0x200000
def fmod : Word := 0x400000

inductive Pseudo where
  | li
  | la
deriving DecidableEq

structure Optable where
  opcode : Word
  name : String
  type : Word
  func : Option Pseudo
deriving DecidableEq

def optable : List Optable := [⟨0x00000020,"add",frd1 ||| frs2 ||| frt3 ||| fmod,none⟩,
  ⟨0x20000000,"addi",frt1 ||| frs2 ||| foff16 ||| fmod,none⟩,
  ⟨0x24000000,"addiu",frt1 ||| frs2 ||| foff16 ||| fmod,none⟩,
  ⟨0x00000021,"addu",frd1 ||| frs2 ||| frt3 ||| fmod,none⟩,
  ⟨0x00000024,"and",frd1 ||| frs2 ||| frt3 ||| fmod,none⟩,
  ⟨0x30000000,"andi",frt1 ||| frs2 ||| foff16 ||| fmod,none⟩,
  ⟨0x10000000,"b",faoff18 ||| fdslot,none⟩,
  ⟨0x04110000,"bal",faoff18 ||| fdslot,none⟩,
  ⟨0x10000000,"beq",frs1 ||| frt2 ||| foff18 ||| fdslot,none⟩,
  ⟨0x50000000,"beql",frs1 ||| frt2 ||| foff18 ||| fdslot,none⟩,
  ⟨0x50000000,"beqz",frs1 ||| foff18 ||| fdslot,none⟩,
  ⟨0x04010000,"bgez",frs1 ||| foff18 ||| fdslot,none⟩,
  ⟨0x04110000,"bgezal",frs1 ||| foff18 ||| fdslot,none⟩,
  ⟨0x04130000,"bgezall",frs1 ||| foff18 ||| fdslot,none⟩,
  ⟨0x04030000,"bgezl",frs1 ||| foff18 ||| fdslot,none⟩,
  ⟨0x1c000000,"bgtz",frs1 ||| foff18 ||| fdslot,none⟩,
  ⟨0x5c000000,"bgtzl",frs1 ||| foff18 ||| fdslot,none⟩,
  ⟨0x18000000,"blez",frs1 ||| foff18 ||| fdslot,none⟩,
  ⟨0x58000000,"blezl",frs1 ||| foff18 ||| fdslot,none⟩,
  ⟨0x04000000,"bltz",frs1 ||| foff18 ||| fdslot,none⟩,
  ⟨0x04100000,"bltzal",frs1 ||| foff18 ||| fdslot,none⟩,
  ⟨0x04120000,"bltzall",frs1 ||| foff18 ||| fdslot,none⟩,
  ⟨0x04020000,"bltzl",frs1 ||| foff18 ||| fdslot,none⟩,
  ⟨0x14000000,"bne",frs1 ||| frt2 ||| foff18 ||| fdslot,none⟩,
  ⟨0x54000000,"bnel",frs1 ||| frt2 ||| foff18 ||| fdslot,none⟩,
  ⟨0x54000000,"bnez",frs1 ||| foff18 ||| fdslot,none⟩,
  ⟨0x0000000d,"break",fcode16,none⟩,
  ⟨0x70000021,"clo",frd1 ||| frs2 ||| frtd ||| fmod,none⟩,
  ⟨0x70000020,"clz",frd1 ||| frs2 ||| frtd ||| fmod,none⟩,
  ⟨0x4200001f,"deret",0,none⟩,
  ⟨0x41606000,"di",frt1 ||| fmod,none⟩,
  ⟨0x0000001a,"div",frs1 ||| frt2,none⟩,
  ⟨0x0000001b,"divu",frs1 ||| frt2,none⟩,
  ⟨0x000000c0,"ehb",0,none⟩,
  ⟨0x41606020,"ei",frt1 ||| fmod,none⟩,
  ⟨0x42000018,"eret",0,none⟩,
  ⟨0x7c000000,"ext",frt1 ||| frs2 ||| fsa ||| fsize ||| fmod,none⟩,
  ⟨0x7c000004,"ins",frt1 ||| frs2 ||| fsa ||| fmsb ||| fmod,none⟩,
  ⟨0x08000000,"j",faoff28 ||| fdslot,none⟩,
  ⟨0x0c000000,"jal",faoff28 ||| fdslot,none⟩,
  ⟨0x00000009,"jalr",frd1 ||| frs2 ||| fdslot,none⟩,
  ⟨0x00000409,"jalr.hb",frd1 ||| frs2 ||| fdslot,none⟩,
  ⟨0x00000008,"jr",frs1 ||| fdslot,none⟩,
  ⟨0x00000408,"jr.hb",frs1 ||| fdslot,none⟩,
  ⟨0x00000000,"la",frt1 ||| fmod,some .la⟩,
  ⟨0x80000000,"lb",frt1 ||| foff16 ||| frsb ||| fmod,none⟩,
  ⟨0x90000000,"lbu",frt1 ||| foff16 ||| frsb ||| fmod,none⟩,
  ⟨0x84000000,"lh",frt1 ||| foff16 ||| frsb ||| fmod,none⟩,
  ⟨0x94000000,"lhu",frt1 ||| foff16 ||| frsb ||| fmod,none⟩,
  ⟨0x00000000,"li",frt1 ||| fmod,some .li⟩,
  ⟨0xc0000000,"ll",frt1 ||| foff16 ||| frsb ||| fmod,none⟩,
  ⟨0x3c000000,"lui",frt1 ||| fhigh16 ||| fmod,none⟩,
  ⟨0x8c000000,"lw",frt1 ||| foff16 ||| frsb ||| fmod,none⟩,
  ⟨0x88000000,"lwl",frt1 ||| foff16 ||| frsb ||| fmod,none⟩,
  ⟨0x98000000,"lwr",frt1 ||| foff16 ||| frsb ||| fmod,none⟩,
  ⟨0x70000000,"madd",frs1 ||| frt2 ||| fmod,none⟩,
  ⟨0x70000001,"maddu",frs1 ||| frt2 ||| fmod,none⟩,
  ⟨0x40000000,"mfc0",frt1 ||| frd2 ||| fsel ||| fmod,none⟩,
  ⟨0x00000010,"mfhi",frd1 ||| fmod,none⟩,
  ⟨0x00000012,"mflo",frd1 ||| fmod,none⟩,
  ⟨0x00000021,"move",frd1 ||| frs2 ||| fmod,none⟩,
  ⟨0x0000000b,"movn",frd1 ||| frs2 ||| frt3 ||| fmod,none⟩,
  ⟨0x0000000a,"movz",frd1 ||| frs2 ||| frt3 ||| fmod,none⟩,
  ⟨0x70000004,"msub",frs1 ||| frt2 ||| fmod,none⟩,
  ⟨0x70000005,"msubu",frs1 ||| frt2 ||| fmod,none⟩,
  ⟨0x40800000,"mtc0",frt1 ||| frd2 ||| fsel,none⟩,
  ⟨0x00000011,"mthi",frs1,none⟩,
  ⟨0x00000013,"mtlo",frs1,none⟩,
  ⟨0x70000002,"mul",frd1 ||| frs2 ||| frt3 ||| fmod,none⟩,
  ⟨0x00000018,"mult",frs1 ||| frt2,none⟩,
  ⟨0x00000019,"multu",frs1 ||| frt2,none⟩,
  ⟨0x00000000,"nop",0,none⟩,
  ⟨0x00000027,"nor",frd1 ||| frs2 ||| frt3 ||| fmod,none⟩,
  ⟨0x00000025,"or",frd1 ||| frs2 ||| frt3 ||| fmod,none⟩,
  ⟨0x34000000,"ori",frt1 ||| frs2 ||| foff16 ||| fmod,none⟩,
  ⟨0x7c00003b,"rdhwr",frt1 ||| frd2 ||| fmod,none⟩,
  ⟨0x41400000,"rdpgpr",frd1 ||| frt2 ||| fmod,none⟩,
  ⟨0x00200002,"ror",frd1 ||| frt2 ||| fsa ||| fmod,none⟩,
  ⟨0x00000046,"rorv",frd1 ||| frt2 ||| frs3 ||| fmod,none⟩,
  ⟨0xa0000000,"sb",frt1 ||| foff16 ||| frsb,none⟩,
  ⟨0xe0000000,"sc",frt1 ||| foff16 ||| frsb,none⟩,
  ⟨0x7000003f,"sdbbp",fcode,none⟩,
  ⟨0x7c000420,"seb",frd1 ||| frt2,none⟩,
  ⟨0x7c000620,"seh",frd1 ||| frt2,none⟩,
  ⟨0xa4000000,"sh",frt1 ||| foff16 ||| frsb,none⟩,
  ⟨0x00000000,"sll",frd1 ||| frt2 ||| fsa ||| fmod,none⟩,
  ⟨0x00000004,"sllv",frd1 ||| frt2 ||| frs3 ||| fmod,none⟩,
  ⟨0x0000002a,"slt",frd1 ||| frs2 ||| frt3 ||| fmod,none⟩,
  ⟨0x28000000,"slti",frt1 ||| frs2 ||| foff16 ||| fmod,none⟩,
  ⟨0x2c000000,"sltiu",frt1 ||| frs2 ||| foff16 ||| fmod,none⟩,
  ⟨0x0000002b,"sltu",frd1 ||| frs2 ||| frt3 ||| fmod,none⟩,
  ⟨0x00000003,"sra",frd1 ||| frt2 ||| fsa ||| fmod,none⟩,
  ⟨0x00000007,"srav",frd1 ||| frt2 ||| frs3 ||| fmod,none⟩,
  ⟨0x00000002,"srl",frd1 ||| frt2 ||| fsa ||| fmod,none⟩,
  ⟨0x00000006,"srlv",frd1 ||| frt2 ||| frs3 ||| fmod,none⟩,
  ⟨0x00000040,"ssnop",0,none⟩,
  ⟨0x00000022,"sub",frd1 ||| frs2 ||| frt3 ||| fmod,none⟩,
  ⟨0x00000023,"subu",frd1 ||| frs2 ||| frt3 ||| fmod,none⟩,
  ⟨0xac000000,"sw",frt1 ||| foff16 ||| frsb,none⟩,
  ⟨0xa8000000,"swl",frt1 ||| foff16 ||| frsb,none⟩,
  ⟨0xb8000000,"swr",frt1 ||| foff16 ||| frsb,none⟩,
  ⟨0x0000000f,"sync",fcode,none⟩,
  ⟨0x0000000c,"syscall",fcode,none⟩,
  ⟨0x00000034,"teq",frs1 ||| frt2 ||| fcode,none⟩,
  ⟨0x040c0000,"teqi",frs1 ||| foff16,none⟩,
  ⟨0x00000030,"tge",frs1 ||| frt2 ||| fcode,none⟩,
  ⟨0x04080000,"tgei",frs1 ||| foff16,none⟩,
  ⟨0x04090000,"tgeiu",frs1 ||| foff16,none⟩,
  ⟨0x00000031,"tgeu",frs1 ||| frt2 ||| fcode,none⟩,
  ⟨0x00000032,"tlt",frs1 ||| frt2 ||| fcode,none⟩,
  ⟨0x040a0000,"tlti",frs1 ||| foff16,none⟩,
  ⟨0x040b0000,"tltiu",frs1 ||| foff16,none⟩,
  ⟨0x00000033,"tltu",frs1 ||| frt2 ||| fcode,none⟩,
  ⟨0x00000036,"tne",frs1 ||| frt2 ||| fcode,none⟩,
  ⟨0x040e0000,"tnei",frs1 ||| foff16,none⟩,
  ⟨0x42000020,"wait",fcode,none⟩,
  ⟨0x41c00000,"wrpgpr",frd1 ||| frt2,none⟩,
  ⟨0x7c0000a0,"wsbh",frd1 ||| frt2 ||| fmod,none⟩,
  ⟨0x00000026,"xor",frd1 ||| frs2 ||| frt3 ||| fmod,none⟩,
  ⟨0x38000000,"xori",frt1 ||| frs2 ||| foff16 ||| fmod,none⟩]

def lookcmd (name : String) : Option Optable := optable.find? (·.name == name)

structure Insn where
  opcode : Word
  type : Word
  clobber : Word
  offset : Word
  negate : Bool
  rel : Reloc

inductive Label where
  | done3
  | fsa
  | foff16

def relabs : Reloc := ⟨rabs,0,0⟩

def field (opcode : Word) (shift : Nat) : Word := opcode >>> shift &&& 31

def Insn.has (i : Insn) (flags : Word) : Bool := i.type &&& flags != 0

def Insn.put (i : Insn) (bits : Word) : Insn := {i with opcode := i.opcode ||| bits}

def register (message : String) : Parse Word := do
  let .lReg r ← getlex | uerror message
  return r

def jumpForm (opcode type : Word) : Parse (Word × Word) := do
  if type ≠ faoff28 ||| fdslot then return (opcode,type)
  let clex ← getlex
  ungetlex clex
  match clex with
  | .lReg _ =>
    if opcode = 0x08000000 then return (0x00000008,frs1 ||| fdslot)
    else if opcode = 0x0c000000 then return (0x00000009,frd1 ||| frs2 ||| fdslot)
    else return (opcode,type)
  | _ => return (opcode,type)

def Insn.first (i : Insn) (flag : Word) (shift : Nat) (message : String) (cval : Word) : Parse (Insn × Word) := do
  if !i.has flag then return (i,cval)
  let r ← register message
  return (i.put (r <<< shift),r)

/-- A division with three operands is one with two if the first is `$zero`. -/
def firstRs (opcode : Word) : List Lexeme → Except Fault (Word × List Lexeme)
  | .lReg r :: .char ',' :: rest =>
    if r = 0 ∧ (opcode = 0x1a ∨ opcode = 0x1b) then firstRs opcode rest else .ok (r,.char ',' :: rest)
  | .lReg r :: rest =>
    if r = 0 ∧ (opcode = 0x1a ∨ opcode = 0x1b) then .error (.uerror "comma expected") else .ok (r,rest)
  | _ => .error (.uerror "bad rs register")

def readRs (opcode : Word) : Parse Word := fun s => (firstRs opcode s.input).map fun (r,rest) => (r,{s with input := rest})

def Insn.opened (i : Insn) (cval : Word) : Insn :=
  let i := if i.has frtd then i.put (cval <<< 16) else i
  if i.has fmod && i.has (frd1 ||| frt1 ||| frs1) then {i with clobber := cval} else i

def firstRegister (i : Insn) : Parse Insn := do
  let (i,cval) ← i.first frd1 11 "bad rd register" 0
  let (i,cval) ← i.first frt1 16 "bad rt register" cval
  if i.has frs1 then
    let r ← readRs i.opcode
    return (i.put (r <<< 21)).opened r
  else return i.opened cval

def secondRd (i : Insn) : Parse Insn := do
  if !i.has frd2 then return i
  comma
  let r ← register "bad rd register"
  return i.put (r <<< 11)

def secondRt (i : Insn) : Parse (Insn × Option Label) := do
  if !i.has frt2 then return (i,none)
  comma
  match ← getlex with
  | .lReg r => return (i.put (r <<< 16),none)
  | clex =>
    if i.has frd1 && i.has fsa then
      ungetlex clex
      return (i.put (field i.opcode 11 <<< 16),some .fsa)
    else uerror "bad rt register"

def secondRs (i : Insn) : Parse (Insn × Option Label) := do
  if !i.has frs2 then return (i,none)
  let clex ← getlex
  if clex ≠ .char ',' then
    if i.opcode &&& 0xfc00003f ≠ 0x00000009 then uerror "comma expected"
    -- `jalr` with one operand links in `$31`
    ungetlex clex
    let i := (i.put (field i.opcode 11 <<< 21)).put (31 <<< 11)
    return ({i with clobber := 31},some .done3)
  match ← getlex with
  | .lReg r => return (i.put (r <<< 21),none)
  | clex =>
    if i.has frt1 && i.has foff16 then
      ungetlex clex
      return (i.put (field i.opcode 16 <<< 21),some .foff16)
    else uerror "bad rs register"

def literalForm (opcode : Word) : Option (Word × Bool) :=
  match opcode &&& 0xfc0007ff with
  | 0x00000020 => some (0x20000000,false)
  | 0x00000021 => some (0x24000000,false)
  | 0x00000024 => some (0x30000000,false)
  | 0x00000025 => some (0x34000000,false)
  | 0x0000002a => some (0x28000000,false)
  | 0x0000002b => some (0x2c000000,false)
  | 0x00000022 => some (0x20000000,true)
  | 0x00000023 => some (0x24000000,true)
  | 0x00000026 => some (0x38000000,false)
  | _ => none

def thirdRt (i : Insn) : Parse (Insn × Option Label) := do
  if !i.has frt3 then return (i,none)
  let clex ← getlex
  if clex ≠ .char ',' then
    -- with two operands the first register is also the second
    ungetlex clex
    let opcode := i.opcode &&& ~~~((31 : Word) <<< 21) ||| field i.opcode 11 <<< 21 ||| field i.opcode 21 <<< 16
    return ({i with opcode},some .done3)
  match ← getlex with
  | .lReg r => return (i.put (r <<< 16),none)
  | clex =>
    if i.has frd1 && i.has frs2 then
      let some (newop,negate) := literalForm i.opcode | uerror "bad rt register"
      ungetlex clex
      let opcode := newop ||| field i.opcode 11 <<< 16 ||| i.opcode &&& (31 : Word) <<< 21
      return ({i with opcode, type := frt1 ||| frs2 ||| foff16 ||| fmod, negate},some .foff16)
    else uerror "bad rt register"

def thirdRs (i : Insn) : Parse (Insn × Option Label) := do
  if !i.has frs3 then return (i,none)
  let clex ← getlex
  if clex ≠ .char ',' then
    ungetlex clex
    let opcode := i.opcode &&& ~~~((31 : Word) <<< 16) ||| field i.opcode 11 <<< 16 ||| field i.opcode 16 <<< 21
    return ({i with opcode},some .done3)
  let r ← register "bad rs register"
  return (i.put (r <<< 21),none)

section
variable (segm : Segment) (dot : Word)

def shiftAmount (i : Insn) : Parse Insn := do
  let offset ← absolute segm dot "absolute value required"
  let i := {i with offset}
  if i.type &&& (fcode ||| fcode16 ||| fsa) = fcode then return i.put (offset <<< 6)
  else if i.type &&& (fcode ||| fcode16 ||| fsa) = fcode16 then return i.put (offset <<< 16)
  else if i.type &&& (fcode ||| fcode16 ||| fsa) = fsa then return i.put ((offset &&& 0x1f) <<< 6)
  else return i

def relocatable (i : Insn) : Parse Insn := do
  modify fun s => {s with exprFlags := 0}
  let (segment,value) ← expression segm dot
  let s ← get
  if i.negate ∧ segmrel segment ≠ rabs then uerror "cannot negate relocatable literal"
  let offset := if i.negate then -value else value
  let index := if segmrel segment = rext then s.extref else i.rel.index
  let flags := if s.exprFlags &&& exprGprel ≠ 0 then segmrel segment ||| rgprel else segmrel segment
  let format := i.type &&& (foff16 ||| foff18 ||| faoff18 ||| faoff28 ||| fhigh16)
  let i := {i with offset, rel := {i.rel with flags, index}}
  if format = foff16 then return i.put (offset &&& 0xffff)
  else if format = fhigh16 then
    if flags = rabs then return i.put (offset >>> 16)
    let high := if s.exprFlags &&& exprHi ≠ 0 then rhigh16s else rhigh16
    let i := {i with rel := {i.rel with flags := flags ||| high,offset := offset &&& 0xffff}}
    return i.put ((offset + 0x8000) >>> 16)
  else if format = foff18 ∨ format = faoff18 then
    if segment = segm then
      return {i with rel := {i.rel with flags := rabs}}.put ((offset - (dot + 4)) >>> 2 &&& 0xffff)
    else if segment = .ext then
      return {i with rel := {i.rel with flags := flags ||| rword16}}.put (offset >>> 2 &&& 0xffff)
    else uerror "invalid segment"
  else if format = faoff28 then
    return {i with rel := {i.rel with flags := flags ||| rword26}}.put (offset >>> 2 &&& 0x3ffffff)
  else return i

def shiftForm (opcode : Word) : Option Word :=
  match opcode &&& 0xffe0003f with
  | 0x00200002 => some 0x00000046
  | 0x00000000 => some 0x00000004
  | 0x00000003 => some 0x00000007
  | 0x00000002 => some 0x00000006
  | _ => none

def immediate (i : Insn) : Parse Insn := do
  if i.has fsel then
    match ← getlex with
    | .char ',' =>
      let offset ← absolute segm dot "absolute value required"
      return i.put (offset &&& 7)
    | clex =>
      ungetlex clex
      return i
  else if i.has fsa then
    comma
    let clex ← getlex
    match clex with
    | .lReg r =>
      if i.type = frd1 ||| frt2 ||| fsa ||| fmod then
        let some newop := shiftForm i.opcode | uerror "bad shift amount"
        return {i with opcode := newop ||| i.opcode &&& (0x3ff : Word) <<< 11 ||| r <<< 21,type := frd1 ||| frt2 ||| frs3 ||| fmod}
      ungetlex clex
      shiftAmount segm dot i
    | _ =>
      ungetlex clex
      shiftAmount segm dot i
  else if i.has (fcode ||| fcode16) then
    if i.has fcode && i.has frt2 then
      match ← getlex with
      | .char ',' => shiftAmount segm dot i
      | clex =>
        ungetlex clex
        return i
    else shiftAmount segm dot i
  else if i.has (foff16 ||| foff18 ||| faoff18 ||| faoff28 ||| fhigh16) then
    if i.has (foff16 ||| foff18 ||| fhigh16) then comma
    relocatable segm dot i
  else return i

def Label.jump (i : Insn) : Label → Parse Insn
  | .done3 => immediate segm dot i
  | .fsa => shiftAmount segm dot i
  | .foff16 => relocatable segm dot i

def baseArgument (i : Insn) : Parse Insn := do
  if !i.has frsb then return i
  expect (.char '(') "left par expected"
  let r ← register "bad rs register"
  expect (.char ')') "right par expected"
  return i.put (r <<< 21)

def sizeArgument (i : Insn) : Parse Insn := do
  if !i.has fsize then return i
  comma
  let offset ← absolute segm dot "absolute value required"
  return {i with offset}.put ((offset - 1 &&& 0x1f) <<< 11)

def msbArgument (i : Insn) : Parse Insn := do
  if !i.has fmsb then return i
  comma
  let size ← absolute segm dot "absolute value required"
  let offset := if i.offset + size > 32 then 32 else i.offset + size
  return {i with offset}.put ((offset - 1 &&& 0x1f) <<< 11)

def lastArgument (i : Insn) : Parse Insn := do
  let i ← baseArgument i
  let i ← sizeArgument segm dot i
  msbArgument segm dot i

def operands (opcode type : Word) : Parse Insn := do
  let (opcode,type) ← jumpForm opcode type
  let i ← firstRegister ⟨opcode,type,0,0,false,relabs⟩
  let i ← secondRd i
  let i ← match ← secondRt i with
    | (i,some label) => label.jump segm dot i
    | (i,none) =>
      match ← secondRs i with
      | (i,some label) => label.jump segm dot i
      | (i,none) =>
        match ← thirdRt i with
        | (i,some label) => label.jump segm dot i
        | (i,none) =>
          match ← thirdRs i with
          | (i,some label) => label.jump segm dot i
          | (i,none) => immediate segm dot i
  lastArgument segm dot i

structure Buffered where
  word : Word
  rel : Reloc
  clobber : Word

def emitLi (i : Insn) : Parse (List Buffered) := do
  comma
  let value ← absolute segm dot "absolute value required"
  if value ≤ 0xffff then return [⟨i.opcode ||| (0x34000000 ||| value),i.rel,value >>> 16⟩]
  else if value ≥ -0x8000 then return [⟨i.opcode ||| (0x24000000 ||| value &&& 0xffff),i.rel,value >>> 16⟩]
  else return [⟨i.opcode ||| 0x3c000000 ||| value >>> 16,relabs,value >>> 16⟩,
    ⟨i.opcode ||| (0x34000000 ||| (i.opcode &&& 0x1f0000) <<< 5 ||| value &&& 0xffff),i.rel,value >>> 16⟩]

def emitLa (i : Insn) : Parse (List Buffered) := do
  comma
  modify fun s => {s with exprFlags := 0}
  let (segment,value) ← expression segm dot
  if segment = .abs then uerror "relocatable value required"
  let s ← get
  let index := if segmrel segment = rext then s.extref else i.rel.index
  let flags := if s.exprFlags &&& exprGprel ≠ 0 then segmrel segment ||| rgprel else segmrel segment
  let hi := (value + 0x8000) >>> 16
  return [⟨i.opcode ||| 0x3c000000 ||| hi,⟨flags ||| rhigh16s,index,value &&& 0xffff⟩,hi⟩,
    ⟨i.opcode ||| (0x24000000 ||| (i.opcode &&& 0x1f0000) <<< 5 ||| value &&& 0xffff),
      ⟨(flags ||| rhigh16s) &&& ~~~rhigh16s,index,value &&& 0xffff⟩,value >>> 16⟩]

end

end Retrobsd.Assembler

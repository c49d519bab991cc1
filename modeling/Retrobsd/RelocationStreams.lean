import Retrobsd.RelocationRecords

/-! The object file that `as` has written when `main` returns, and how `ld` takes it
up again in `load2`: the records of `.data` and `.strng` are two streams for `as` and
one for `ld`. -/
namespace Retrobsd.Relocations

def fputword (w : Word) : List Byte := putc w ++ putc (w >>> 8) ++ putc (w >>> 16) ++ putc (w >>> 24)

def fgetword (f : List Byte) : Word × List Byte :=
  let (a,f) := getc f
  let (b,f) := getc f
  let (c,f) := getc f
  let (d,f) := getc f
  (a ||| b <<< 8 ||| c <<< 16 ||| d <<< 24,f)

def nUndf : Word := 0x00
def nAbs : Word := 0x01
def nText : Word := 0x02
def nData : Word := 0x03
def nBss : Word := 0x04
def nStrng : Word := 0x05
def nComm : Word := 0x06
def nTypeMask : Word := 0x1f
def nExt : Word := 0x20
def nWeak : Word := 0x40
def nLoc : Word := 0x80

structure Nlist where
  name : List Byte
  nType : Word
  nValue : Word
deriving DecidableEq

def letterL : Byte := 0x4c

def letterDot : Byte := 0x2e

def Nlist.isLocal (s : Nlist) : Bool := s.name.head? == some letterL || s.name.head? == some letterDot

def rmagic : Word := 0x106

structure Exec where
  magic : Word
  text : Word
  data : Word
  bss : Word
  reltext : Word
  reldata : Word
  syms : Word
  entry : Word
deriving DecidableEq

def hdrsz : Nat := 32

def fputhdr (h : Exec) : List Byte := fputword h.magic ++ fputword h.text ++ fputword h.data ++ fputword h.bss ++
    fputword h.reltext ++ fputword h.reldata ++ fputword h.syms ++ fputword h.entry

def fgethdr (f : List Byte) : Exec :=
  let (magic,f) := fgetword f
  let (text,f) := fgetword f
  let (data,f) := fgetword f
  let (bss,f) := fgetword f
  let (reltext,f) := fgetword f
  let (reldata,f) := fgetword f
  let (syms,f) := fgetword f
  let (entry,_) := fgetword f
  ⟨magic,text,data,bss,reltext,reldata,syms,entry⟩

inductive Seg where
  | text
  | data
  | strng
deriving DecidableEq

/-- What `pass2` leaves: of each segment its words with their records, the size of
`.bss`, the symbol table and the options. -/
structure Assembled where
  segment : Seg → List (Word × Reloc)
  bss : Word
  stab : List Nlist
  xflags : Bool
  xFlag : Bool

namespace Assembled

/-- Of the symbol table `middle` keeps what `-x` and `-X` do not discard. -/
def stsize : Nat := 921

def keeps (a : Assembled) (s : Nlist) : Bool := !a.xflags || s.nType &&& nExt != 0 || a.xFlag && !s.isLocal

def newindex (a : Assembled) (i : Word) : Word := BitVec.ofNat 32 ((a.stab.take i.toNat).filter a.keeps).length

def typerel (t : Word) : Word :=
  if t &&& nTypeMask = nAbs then rabs
  else if t &&& nTypeMask = nText then rtext
  else if t &&& nTypeMask = nData then rdata
  else if t &&& nTypeMask = nBss then rbss
  else if t &&& nTypeMask = nStrng then rdata
  else 0

def typeOf (a : Assembled) (i : Word) : Word := ((a.stab[i.toNat]?).map Nlist.nType).getD 0

/-- Relocate a relocation info word: remap symbol indexes, put the string
pseudo-section to the data section. -/
def relrel (a : Assembled) (r : Reloc) : Reloc :=
  if r.flags &&& rext = rstrng then {r with flags := r.flags &&& ~~~rsmask ||| rdata}
  else if r.flags &&& rext = rext then
    let type := a.typeOf r.index
    if type = nExt + nUndf ∨ type = nExt + nComm then
      if a.xflags then {r with index := a.newindex r.index} else r
    else {r with flags := r.flags &&& ~~~rsmask ||| typerel type}
  else r

def count (a : Assembled) (s : Seg) : Nat := wordsz * (a.segment s).length

def rfile (a : Assembled) (s : Seg) : List Byte := (a.segment s).flatMap fun p => fputrel p.2

def makerelocLoop (a : Assembled) : Nat → Reloc → List Byte → List Byte
  | 0,_,_ => []
  | n + 1,r,f =>
    let (r,f) := fgetrel f r
    let r := a.relrel r
    fputrel r ++ a.makerelocLoop n r f

def padding (nbytes : Nat) : List Byte := List.replicate ((wordsz - nbytes % wordsz) % wordsz) 0

def makereloc (a : Assembled) (s : Seg) : List Byte :=
  if a.count s = 0 then []
  else
    let f := a.makerelocLoop (a.count s / wordsz) ⟨0,0,0⟩ (a.rfile s)
    f ++ padding f.length

def fputsym (s : Nlist) : List Byte :=
    putc (BitVec.ofNat 32 s.name.length) ++ putc (s.nType &&& ~~~nLoc) ++ fputword s.nValue ++ s.name

def stlength (a : Assembled) : Nat := (((a.stab.filter a.keeps).map fun s => 2 + wordsz + s.name.length).sum)

def stalign (a : Assembled) : Nat := wordsz - a.stlength % wordsz

def makesymtab (a : Assembled) : List Byte :=
  ((a.stab.filter fun s => !a.xflags || s.nType &&& nExt != 0 || a.xFlag && s.name.head? != some letterL).flatMap fputsym) ++
    List.replicate a.stalign 0

def makeheader (a : Assembled) : Exec where
  magic := rmagic
  text := BitVec.ofNat 32 (a.count .text)
  data := BitVec.ofNat 32 (a.count .data + a.count .strng)
  bss := a.bss
  reltext := BitVec.ofNat 32 (a.makereloc .text).length
  reldata := BitVec.ofNat 32 ((a.makereloc .data).length + (a.makereloc .strng).length)
  syms := BitVec.ofNat 32 (a.stlength + a.stalign)
  entry := 0

def words (a : Assembled) (s : Seg) : List Byte := (a.segment s).flatMap fun p => fputword p.1

def objectFile (a : Assembled) : List Byte := fputhdr a.makeheader ++ (a.words .text ++ (a.words .data ++ (a.words .strng ++
    (a.makereloc .text ++ (a.makereloc .data ++ (a.makereloc .strng ++ a.makesymtab))))))

end Assembled

/-- What `as` hands to `makereloc` has come out of records of a scratch file, the
symbol table has `STSIZE` places, `.bss` ends on a word and a file has less than 4 GB. -/
structure Object extends Assembled where
  fits : ∀ s, ∀ p ∈ segment s, p.2.Fits
  few : stab.length ≤ Assembled.stsize
  aligned : bss.toNat % wordsz = 0
  small : toAssembled.objectFile.length < 2^32

namespace Ld

/-- A turn of `relocate`: the word and the record that it has read, and what
`relword` makes of them. -/
structure Turn where
  word : Word
  rel : Reloc
  written : Word × Reloc

def relocate (relword : Word → Reloc → Word → Word × Reloc) : Nat → Word → Reloc → List Byte → List Byte → List Turn
  | 0,_,_,_,_ => []
  | n + 1,address,r,text,reloc =>
    let (word,text) := fgetword text
    let (r,reloc) := fgetrel reloc r
    let written := relword word r address
    ⟨word,r,written⟩ :: relocate relword n (address + 4) written.2 text reloc

def readhdr (file : List Byte) : Option Exec :=
  let h := fgethdr file
  if h.magic ≠ rmagic then none
  else if h.text.toNat % wordsz ≠ 0 then none
  else if h.data.toNat % wordsz ≠ 0 then none
  else if h.bss.toNat % wordsz ≠ 0 then none
  else some h

/-- Both calls of `relocate` in `load2`, for a file that is no archive. -/
def load2 (relword : Word → Reloc → Word → Word × Reloc) (torigin dorigin : Word) (r : Reloc) (file : List Byte) :
    Option (List Turn × List Turn) := do
  let h ← readhdr file
  let loc := hdrsz
  let count := loc + h.text.toNat + h.data.toNat
  let text := relocate relword (h.text.toNat / wordsz) torigin r (file.drop loc) (file.drop count)
  let data := relocate relword (h.data.toNat / wordsz) dorigin r (file.drop (loc + h.text.toNat))
    (file.drop (count + h.reltext.toNat))
  pure (text,data)

end Ld

end Retrobsd.Relocations

import Retrobsd.Block

/-! Directories as `ufs_namei.c` keeps them: blocks of variable-length records, the
search of `namei` in one directory, and the functions that enter, remove and
rewrite a record with the parameters that the search has left. -/
namespace Retrobsd

namespace Block

/-- The kernel's `bcopy` inside of a block, which goes upwards. -/
def bcopy (b : Block) (src dst : Nat) : Nat → Block
  | 0 => b
  | len + 1 => (bcopy b src dst len).fill (dst + len) 1 fun _ => (bcopy b src dst len).byte (src + len)

def half (b : Block) (o : Nat) : Nat := b.byteAt o + 2^8 * b.byteAt (o + 1)

def quad (b : Block) (o : Nat) : Nat := b.byteAt o + 2^8 * b.byteAt (o + 1) + 2^16 * b.byteAt (o + 2) + 2^24 * b.byteAt (o + 3)

end Block

namespace Directory

def dirblksiz : Nat := 1024

def maxnamlen : Nat := 63

abbrev Name := List UInt8

def roundup (x y : Nat) : Nat := (x + (y - 1)) / y * y

def dirsiz (namlen : Nat) : Nat := (8 + namlen + 1 + 3) / 4 * 4

def dIno (b : Block) (o : Nat) : Nat := b.quad o

def dReclen (b : Block) (o : Nat) : Nat := b.half (o + 4)

def dNamlen (b : Block) (o : Nat) : Nat := b.half (o + 6)

def dName (b : Block) (o : Nat) : Name := (List.range (dNamlen b o)).map fun k => b.byte (o + 8 + k)

def setReclen (b : Block) (o v : Nat) : Block := b.fill (o + 4) 2 fun k => UInt8.ofNat (v / 256^k)

/-- `struct direct` as `ni_dent` has it; `rest` are the bytes of the name field from
earlier names. -/
structure Direct where
  dIno : Nat
  dReclen : Nat
  dName : Name
  rest : Nat → UInt8

def Direct.image (e : Direct) (k : Nat) : UInt8 :=
  if k < 4 then UInt8.ofNat (e.dIno / 256^k)
  else if k < 6 then UInt8.ofNat (e.dReclen / 256^(k - 4))
  else if k < 8 then UInt8.ofNat (e.dName.length / 256^(k - 6))
  else if h : k - 8 < e.dName.length then e.dName.get ⟨k - 8,h⟩
  else if k - 8 = e.dName.length then 0
  else e.rest (k - 8)

structure Nameidata where
  niOffset : Nat
  niCount : Nat
  niEndoff : Nat
  niDent : Direct

structure Dir where
  iSize : Nat
  block : Nat → Block

def Dir.write (d : Dir) (offset len : Nat) (f : Nat → UInt8) : Dir where
  iSize := max d.iSize (offset + len)
  block := Function.update d.block (offset / 1024) ((d.block (offset / 1024)).fill (offset % 1024) len f)

/-- `itrunc` to a block boundary; blocks that come again are zero. -/
def Dir.truncate (d : Dir) (length : Nat) : Dir where
  iSize := length
  block := fun k => if k * 1024 < length then d.block k else Block.zero

inductive SlotStatus where
  | none
  | compact
  | found
deriving DecidableEq

/-- The variables of the search in `namei`; `bp` is the block that the buffer has. -/
structure Search where
  niOffset : Nat
  bp : Nat
  entryoffsetinblock : Nat
  slotstatus : SlotStatus
  slotoffset : Int
  slotfreespace : Int
  slotsize : Int
  prevoff : Nat
  enduseful : Nat

def noteSlot (slotneeded ino reclen namlen : Nat) (s : Search) : Search :=
  if s.slotstatus = .found then s
  else
    let size : Int := if ino ≠ 0 then reclen - dirsiz namlen else reclen
    if size > 0 then
      if size ≥ slotneeded then {s with slotstatus := .found,slotoffset := s.niOffset,slotsize := reclen}
      else if s.slotstatus = .none then
        let slotoffset : Int := if s.slotoffset = -1 then s.niOffset else s.slotoffset
        let slotfreespace := s.slotfreespace + size
        if slotfreespace ≥ slotneeded then
          {s with slotoffset,slotfreespace,slotstatus := .compact,slotsize := s.niOffset + reclen - slotoffset}
        else {s with slotoffset,slotfreespace}
      else s
    else s

def nextBlock (s : Search) : Search :=
  let s := if s.niOffset % 1024 = 0 then {s with bp := s.niOffset / 1024,entryoffsetinblock := 0} else s
  if s.slotstatus = .none ∧ s.entryoffsetinblock % dirblksiz = 0 then {s with slotoffset := -1,slotfreespace := 0} else s

def advance (ino reclen : Nat) (s : Search) : Search := {s with
    prevoff := s.niOffset
    niOffset := s.niOffset + reclen
    entryoffsetinblock := s.entryoffsetinblock + reclen
    enduseful := if ino ≠ 0 then s.niOffset + reclen else s.enduseful}

def searchloop (d : Dir) (slotneeded : Nat) (name : Name) (endsearch : Nat) : Nat → Search → Search × Bool
  | 0,s => (s,false)
  | fuel + 1,s =>
    if s.niOffset < endsearch then
      let s := nextBlock s
      let b := d.block s.bp
      let o := s.entryoffsetinblock
      if dReclen b o = 0 then
        let i := dirblksiz - o % dirblksiz
        searchloop d slotneeded name endsearch fuel
        {s with niOffset := s.niOffset + i,entryoffsetinblock := s.entryoffsetinblock + i}
      else
        let s := noteSlot slotneeded (dIno b o) (dReclen b o) (dNamlen b o) s
        if dIno b o ≠ 0 ∧ dName b o = name then (s,true)
        else searchloop d slotneeded name endsearch fuel (advance (dIno b o) (dReclen b o) s)
    else (s,false)

def startSearch (offset : Nat) (slotstatus : SlotStatus) : Search := ⟨offset,offset / 1024,offset % 1024,slotstatus,-1,0,0,0,0⟩

def search (d : Dir) (slotneeded : Nat) (name : Name) (s : Search) (endsearch : Nat) : Search × Bool :=
  searchloop d slotneeded name endsearch endsearch s

def wholeSearch (d : Dir) (name : Name) (slotstatus : SlotStatus) : Search × Bool :=
  search d (dirsiz name.length) name (startSearch 0 slotstatus) (roundup d.iSize dirblksiz)

/-- A `LOOKUP`, which returns the inode number and the block of the entry. It starts
at `nc_prevoffset` if the last search was in the same directory, and then searches
what is before it in a second pass. -/
def lookup (d : Dir) (hint : Option Nat) (name : Name) : Option (Nat × Nat) :=
  let found (s : Search) := (dIno (d.block s.bp) s.entryoffsetinblock,s.niOffset / dirblksiz * dirblksiz)
  match hint with
  | none =>
    let r := wholeSearch d name .found
    if r.2 then some (found r.1) else none
  | some prevoffset =>
    let prevoffset := if prevoffset > d.iSize then 0 else prevoffset
    let r := search d 0 name (startSearch prevoffset .found) (roundup d.iSize dirblksiz)
    if r.2 then some (found r.1)
    else
      let r := search d 0 name {r.1 with niOffset := 0} prevoffset
      if r.2 then some (found r.1) else none

inductive Fault where
  | errno (e : Nat)
  | panic (message : String)
  | hangs
deriving DecidableEq

def enoent : Nat := 2

def eexist : Nat := 17

def dent (d : Dir) (name : Name) (rest : Nat → UInt8) (s : Search) : Direct :=
  ⟨dIno (d.block s.bp) s.entryoffsetinblock,dReclen (d.block s.bp) s.entryoffsetinblock,name,rest⟩

/-- `namei` for the last component of a path, with `CREATE`: the place for the
entry, unless the name is there. -/
def nameiCreate (d : Dir) (name : Name) (rest : Nat → UInt8) : Except Fault Nameidata :=
  let (s,hit) := wholeSearch d name .none
  if hit then .error (.errno eexist)
  else if s.slotstatus = .none then
    let offset := roundup d.iSize dirblksiz
    .ok ⟨offset,0,roundup offset dirblksiz,⟨0,0,name,rest⟩⟩
  else
    let slotend := (s.slotoffset + s.slotsize).toNat
    let enduseful := if s.enduseful < slotend then slotend else s.enduseful
    .ok ⟨s.slotoffset.toNat,s.slotsize.toNat,roundup enduseful dirblksiz,⟨0,0,name,rest⟩⟩

def nameiDelete (d : Dir) (name : Name) (rest : Nat → UInt8) : Except Fault Nameidata :=
  let (s,hit) := wholeSearch d name .found
  if !hit then .error (.errno enoent)
  else .ok ⟨s.niOffset,if s.niOffset % dirblksiz = 0 then 0 else s.niOffset - s.prevoff,0,dent d name rest s⟩

/-- `namei` with `CREATE` and `LOCKPARENT` for a name that is there. -/
def nameiRewrite (d : Dir) (name : Name) (rest : Nat → UInt8) : Except Fault Nameidata :=
  let (s,hit) := wholeSearch d name .none
  if !hit then .error (.errno enoent) else .ok ⟨s.niOffset,0,0,dent d name rest s⟩

structure Compaction where
  dirbuf : Block
  ep : Nat
  dsize : Nat
  spacefree : Int
  loc : Nat

def compactStep (base : Nat) (c : Compaction) : Compaction :=
  let nep := base + c.loc
  let (dirbuf,ep,spacefree) :=
    if dIno c.dirbuf c.ep ≠ 0 then (setReclen c.dirbuf c.ep c.dsize,c.ep + c.dsize,c.spacefree)
    else (c.dirbuf,c.ep,c.spacefree + c.dsize)
  let dsize := dirsiz (dNamlen dirbuf nep)
  ⟨dirbuf.bcopy nep ep dsize,ep,dsize,spacefree + dReclen dirbuf nep - dsize,c.loc + dReclen dirbuf nep⟩

def compact (base niCount : Nat) : Nat → Compaction → Except Fault Compaction
  | 0,_ => .error .hangs
  | fuel + 1,c => if c.loc < niCount then compact base niCount fuel (compactStep base c) else .ok c

def placeEntry (e : Direct) (c : Compaction) : Except Fault Block :=
  let newentrysize := dirsiz e.dName.length
  if dIno c.dirbuf c.ep = 0 then
    if unsigned (c.spacefree + c.dsize) < newentrysize then .error (.panic "wdir: compact1")
    else .ok (c.dirbuf.fill c.ep newentrysize {e with dReclen := unsigned (c.spacefree + c.dsize)}.image)
  else if c.spacefree < newentrysize then .error (.panic "wdir: compact2")
  else .ok ((setReclen c.dirbuf c.ep c.dsize).fill (c.ep + c.dsize) newentrysize {e with dReclen := unsigned c.spacefree}.image)

def enterFresh (d : Dir) (ndp : Nameidata) : Dir :=
  let d := d.write ndp.niOffset (dirsiz ndp.niDent.dName.length) {ndp.niDent with dReclen := dirblksiz}.image
  {d with iSize := roundup d.iSize dirblksiz}

def enterSlot (d : Dir) (ndp : Nameidata) : Except Fault Dir := do
  let iSize := if ndp.niOffset + ndp.niCount > d.iSize then ndp.niOffset + ndp.niCount else d.iSize
  let b := d.block (ndp.niOffset / 1024)
  let base := ndp.niOffset % 1024
  let dsize := dirsiz (dNamlen b base)
  let c ← compact base ndp.niCount (ndp.niCount + 1) ⟨b,base,dsize,dReclen b base - dsize,dReclen b base⟩
  let b ← placeEntry ndp.niDent c
  return ⟨iSize,Function.update d.block (ndp.niOffset / 1024) b⟩

def direnter (d : Dir) (ino : Nat) (ndp : Nameidata) : Except Fault Dir :=
  let ndp := {ndp with niDent := {ndp.niDent with dIno := ino}}
  if ndp.niCount = 0 then
    if ndp.niOffset % dirblksiz ≠ 0 then .error (.panic "wdir: newblk") else .ok (enterFresh d ndp)
  else do
    let d ← enterSlot d ndp
    return if ndp.niEndoff ≠ 0 ∧ ndp.niEndoff < d.iSize then d.truncate ndp.niEndoff else d

def dirremove (d : Dir) (ndp : Nameidata) : Dir :=
  if ndp.niCount = 0 then d.write ndp.niOffset (dirsiz ndp.niDent.dName.length) {ndp.niDent with dIno := 0}.image
  else
    let ep := ndp.niOffset - ndp.niCount
    let b := d.block (ep / 1024)
    let b := setReclen b (ep % 1024) (dReclen b (ep % 1024) + ndp.niDent.dReclen)
    {d with block := Function.update d.block (ep / 1024) b}

def dirrewrite (d : Dir) (ino : Nat) (ndp : Nameidata) : Dir :=
  d.write ndp.niOffset (dirsiz ndp.niDent.dName.length) {ndp.niDent with dIno := ino}.image

inductive Op where
  | create (name : Name) (rest : Nat → UInt8) (ino : Nat)
  | remove (name : Name) (rest : Nat → UInt8)
  | rewrite (name : Name) (rest : Nat → UInt8) (ino : Nat)

def step (d : Dir) : Op → Except Fault Dir
  | .create name rest ino => do direnter d ino (← nameiCreate d name rest)
  | .remove name rest => do return dirremove d (← nameiDelete d name rest)
  | .rewrite name rest ino => do return dirrewrite d ino (← nameiRewrite d name rest)

end Directory
end Retrobsd

import Retrobsd.Lib.Run

/-! Transfers between the kernel and the user: `read`, `readv`, `write` and `writev`
up to the driver of the file, `uiomove` and `ureadc`, which drivers move data with,
and the profiling counters. The bytes that are loaded from or stored to at an
address of the user are noted. -/
namespace Retrobsd.Transfers

abbrev Word := BitVec 32

def userFlashStart : Word := 0x9d000000#32 + 192#32 * 1024#32
def userFlashEnd : Word := 0x9d000000#32 + 512#32 * 1024#32
def userDataStart : Word := 0x7f000000#32 + 32#32 * 1024#32
def userDataEnd : Word := 0x7f000000#32 + 128#32 * 1024#32

def baduaddr (addr : Word) : Bool :=
  if addr ≥ userFlashStart ∧ addr < userFlashEnd then false
  else if addr ≥ userDataStart ∧ addr < userDataEnd then false
  else true

def bytes (addr : Word) (n : Nat) : List Word := (List.range n).map fun i => addr + BitVec.ofNat 32 i

theorem mem_bytes {a addr : Word} {n : Nat} : a ∈ bytes addr n ↔ ∃ i < n, addr + BitVec.ofNat 32 i = a := by
  simp [bytes]

structure Iovec where
  iovBase : Word
  iovLen : Word
deriving DecidableEq

inductive Rw where
  | read
  | write
deriving DecidableEq

/-- The vectors from `uio_iov` on are the `uio_iovcnt` that are left. -/
structure Uio where
  uioIov : List Iovec
  uioOffset : Word
  uioResid : Word
  uioRw : Rw
  touched : List Word
deriving DecidableEq

/-- `past` is a turn of `uiomove` beyond the last vector. -/
inductive Panic where
  | past
  | ureadc
deriving DecidableEq

/-- The part of a turn of `uiomove` and of `ureadc` that moves `cnt` bytes. -/
def Uio.move (uio : Uio) (iov : Iovec) (rest : List Iovec) (cnt : Word) : Uio := {uio with
    uioIov := ⟨iov.iovBase + cnt,iov.iovLen - cnt⟩ :: rest
    uioResid := uio.uioResid - cnt
    uioOffset := uio.uioOffset + cnt
    touched := uio.touched ++ bytes iov.iovBase cnt.toNat}

def uiomove (n : Word) (uio : Uio) : Except Panic Uio :=
  if n > 0 ∧ uio.uioResid ≠ 0 then
    match _vectors : uio.uioIov with
    | [] => .error .past
    | iov :: rest =>
      if iov.iovLen = 0 then uiomove n {uio with uioIov := rest}
      else
        let cnt := if iov.iovLen > n then n else iov.iovLen
        uiomove (n - cnt) (uio.move iov rest cnt)
  else .ok uio
termination_by (uio.uioIov.length,n.toNat)
decreasing_by
  · simp only [_vectors,List.length_cons]
    apply Prod.Lex.left
    omega
  simp only [_vectors,Uio.move,List.length_cons]
  apply Prod.Lex.right
  split <;> bv_omega

def ureadcLoop (uio : Uio) : List Iovec → Except Panic Uio
  | [] => .error .ureadc
  | iov :: rest => if iov.iovLen = 0 ∨ uio.uioResid = 0 then ureadcLoop uio rest else .ok (uio.move iov rest 1)

def ureadc (uio : Uio) : Except Panic Uio := ureadcLoop uio uio.uioIov

inductive Move where
  | uiomove (n : Word)
  | ureadc
deriving DecidableEq

def step (uio : Uio) : Move → Except Panic Uio
  | .uiomove n => uiomove n uio
  | .ureadc => ureadc uio

inductive Errno where
  | ebadf
  | einval
  | efault
deriving DecidableEq

structure File where
  fread : Bool
  fwrite : Bool

/-- `rwuio` up to the call of `fo_rw`. The total is kept in a `long` of as many bits
as `uio_resid`, so that the comparison of the two cannot fail. -/
def rwuio (fp : Option File) (uio : Uio) : Except Errno Uio :=
  match fp with
  | none => .error .ebadf
  | some f =>
    if (match uio.uioRw with
      | .read => f.fread
      | .write => f.fwrite) = false then .error .ebadf
    else
      let total := uio.uioIov.foldl (fun total iov => total + iov.iovLen) 0
      let uio := {uio with uioResid := total}
      if uio.uioResid ≠ total then .error .einval else .ok uio

def iovecs (word : Word → Word) (iovp : Word) (iovcnt : Nat) : List Iovec := (List.range iovcnt).map fun i =>
    ⟨word (iovp + 8 * BitVec.ofNat 32 i),word (iovp + 8 * BitVec.ofNat 32 i + 4)⟩

inductive Request where
  | read (cbuf count : Word)
  | write (cbuf count : Word)
  | readv (iovp iovcnt : Word)
  | writev (iovp iovcnt : Word)
deriving DecidableEq

def readv (rw : Rw) (word : Word → Word) (fp : Option File) (iovp iovcnt : Word) : Except Errno Uio :=
  if iovcnt > 16 then .error .einval
  else
    let nbytes := iovcnt * 8
    if baduaddr iovp ∨ baduaddr (iovp + nbytes - 1) then .error .efault
    else rwuio fp ⟨iovecs word iovp iovcnt.toNat,0,0,rw,bytes iovp nbytes.toNat⟩

def request (word : Word → Word) (fp : Option File) : Request → Except Errno Uio
  | .read cbuf count => rwuio fp ⟨[⟨cbuf,count⟩],0,0,.read,[]⟩
  | .write cbuf count => rwuio fp ⟨[⟨cbuf,count⟩],0,0,.write,[]⟩
  | .readv iovp iovcnt => readv .read word fp iovp iovcnt
  | .writev iovp iovcnt => readv .write word fp iovp iovcnt

structure Uprof where
  prBase : Word
  prSize : Word
  prOff : Word
  prScale : Word

def profil (bufbase bufsize pcoffset pcscale : Word) : Uprof := ⟨bufbase,bufsize,pcoffset,pcscale⟩

def addupc (word : Word → Word) (pc : Word) (pbuf : Uprof) (ticks : Word) : (Word → Word) × List Word :=
  if pc < pbuf.prOff then (word,[])
  else
    let indx := ((pc - pbuf.prOff) * pbuf.prScale) >>> 16
    if indx ≥ pbuf.prSize then (word,[])
    else
      let counter := pbuf.prBase + 4 * indx
      (Function.update word counter (word counter + ticks),bytes counter 4)

end Retrobsd.Transfers

import Retrobsd.ExecArguments
import Retrobsd.ExecImages
import Retrobsd.SignalFrames

/-! The call `execve` of kern_exec.c as one run of the process: what it finds of the file,
the collecting of arguments, `getxfile`, and the copying back of the arguments. The disks
answer without an error. `namei`, `access` and the maps of memory answer in any way. -/
namespace Retrobsd.ExecCalls
open Function
open ExecArguments Lib.Pieces Transfers

def enoexec : Nat := 8
def eacces : Nat := 13
def efbig : Nat := 27

section

structure Inode (ι : Type) where
  ip : ι
  iMode : Nat
  iUid : Nat
  iGid : Nat
  itext : Bool
  iCount : Nat
  noexec : Bool
  nosuid : Bool
  contents : List Byte

def ifreg : Nat := 0o100000
def ifmt : Nat := 0o170000
def isuid : Nat := 0o4000
def isgid : Nat := 0o2000
def iexec : Nat := 0o100
def iread : Nat := 0o400

def omagic : Nat := 0o407
def nmagic : Nat := 0o410

def shsize : Nat := 32

def maxcomlen : Nat := 63

def comName (dName : Nat → Byte) : Nat → Byte := fun i => if i < maxcomlen then dName i else 0

/-- What a call finds around it. `stack` is on the stack of the kernel where nothing has been read to, and
`resumed` is the memory that `endvfork` leaves to a child. Where nothing comes back from `namei` or `access`
there is an error; the hole in a directory, for which `namei` sets none, is left out. -/
structure World (ι : Type) where
  namei : Except Nat (Inode ι × (Nat → Byte))
  interpreter : (Nat → Byte) → Except Nat (Inode ι × (Nat → Byte))
  access : ι → Nat → Option Nat
  traced : Bool
  stack : Nat → Byte
  malloc : Option Nat
  file : List (ExecImages.File ι)
  others : Others
  resumed : Mem
  namei_error : ∀ error, namei = .error error → error ≠ 0
  interpreter_error : ∀ dirp error, interpreter dirp = .error error → error ≠ 0
  access_error : ∀ ip mode error, access ip mode = some error → error ≠ 0

variable {ι : Type}

def World.refused (w : World ι) (ip : Inode ι) : Option Nat :=
  match w.access ip.ip iexec with
  | some error => some error
  | none =>
    match if w.traced then w.access ip.ip iread else none with
    | some error => some error
    | none => if ip.iMode &&& ifmt ≠ ifreg ∨ ip.iMode &&& (iexec ||| iexec >>> 3 ||| iexec >>> 6) = 0 then some eacces else none

def readHead (exdata : Nat → Byte) (contents : List Byte) : Nat → Byte :=
  let exdata := update exdata 0 0
  fun i => if i < shsize then contents.getD i (exdata i) else exdata i

def endLine : Nat → (Nat → Byte) → Nat → (Nat → Byte) × Nat
  | 0,e,cp => (e,cp)
  | turns + 1,e,cp =>
    if e cp = 9 then endLine turns (update e cp 32) (cp + 1)
    else if e cp = 10 then (update e cp 0,cp)
    else endLine turns e (cp + 1)

/-- `while (p (*cp)) cp++`. There is a zero within the turns. -/
def advance (p : Byte → Bool) : Nat → (Nat → Byte) → Nat → Nat
  | 0,_,cp => cp
  | turns + 1,e,cp => if p (e cp) then advance p turns e (cp + 1) else cp

structure Line where
  niDirp : Nat → Byte
  cfarg : Nat → Byte

def parseLine (e : Nat → Byte) : Option (Line × (Nat → Byte)) :=
  let (e,cp) := endLine (shsize - 2) e 2
  if e cp ≠ 0 then none
  else
    let dirp := advance (· == 32) shsize e 2
    let cp := advance (fun b => b != 0 && b != 32) shsize e dirp
    if e cp = 0 then some (⟨skip dirp e,fun _ => 0⟩,e)
    else
      let e := update e cp 0
      let cp := advance (· == 32) shsize e (cp + 1)
      some (⟨skip dirp e,if e cp = 0 then fun _ => 0 else skip cp e⟩,e)

structure Ready (ι : Type) where
  ip : Inode ι
  exdata : Nat → Byte
  script : Option Script
  uid : Nat
  gid : Nat

def header (exdata : Nat → Byte) : Stacks.Exec where
  omagic := word exdata 0 = omagic
  aText := BitVec.ofNat 32 (word exdata 4)
  aData := BitVec.ofNat 32 (word exdata 8)
  aBss := BitVec.ofNat 32 (word exdata 12)

def aEntry (exdata : Nat → Byte) : Word := BitVec.ofNat 32 (word exdata 28)

def short (exdata : Nat → Byte) (contents : List Byte) : Bool := contents.length < shsize ∧ exdata 0 ≠ 0x23

def World.again (w : World ι) (ip : Inode ι) (exdata : Nat → Byte) : Except Nat (Nat → Byte) :=
  match w.refused ip with
  | some error => .error error
  | none =>
    let exdata := readHead exdata ip.contents
    if short exdata ip.contents then .error enoexec else .ok exdata

def isExec (exdata : Nat → Byte) : Bool := word exdata 0 = omagic ∨ word exdata 0 = nmagic

def World.shell (w : World ι) (exdata : Nat → Byte) : Except Nat (Inode ι × (Nat → Byte) × Script) :=
  if exdata 0 ≠ 0x23 ∨ exdata 1 ≠ 0x21 then .error enoexec
  else
    match parseLine exdata with
    | none => .error enoexec
    | some (line,exdata) =>
      match w.interpreter line.niDirp with
      | .error error => .error error
      | .ok (ip,dName) =>
        match w.again ip exdata with
        | .error error => .error error
        | .ok exdata => if isExec exdata then .ok (ip,exdata,⟨comName dName,line.cfarg⟩) else .error enoexec

/-- The part of `execve` before there is space for arguments, with `u_uid` and `u_groups[0]`. -/
def World.prepare (w : World ι) (uUid uGid : Nat) : Except Nat (Ready ι) :=
  match w.namei with
  | .error error => .error error
  | .ok (ip,_) =>
    if ip.noexec then .error eacces
    else
      let uid := if !ip.nosuid ∧ ip.iMode &&& isuid ≠ 0 then ip.iUid else uUid
      let gid := if !ip.nosuid ∧ ip.iMode &&& isgid ≠ 0 then ip.iGid else uGid
      match w.again ip w.stack with
      | .error error => .error error
      | .ok exdata =>
        if isExec exdata then .ok ⟨ip,exdata,none,uid,gid⟩
        else (w.shell exdata).map fun found => ⟨found.1,found.2.1,some found.2.2,uid,gid⟩

end

section

structure Proc (ι φ : Type) where
  mem : Mem
  regs : SignalFrames.Frame → Word
  pDsize : Word
  pDaddr : Word
  pSsize : Word
  pSaddr : Word
  uUid : Nat
  pUid : Int
  uGid : Nat
  uSvuid : Nat
  uSvgid : Nat
  signals : Signals.Proc ι
  ssDisable : Bool
  ssSize : Word
  ssBase : Word
  files : List (Option φ × Bool)
  lastfile : Nat

/-- A process in the call. The area of the arguments is `swap`, which is `taken` from the
map, and the files in `closed` have been given to `closef`. -/
structure State (ι φ : Type) where
  proc : Proc ι φ
  prScale : Nat
  svfork : Bool
  trapped : Bool
  uTsize : Word
  uDsize : Word
  uSsize : Word
  fname : Nat
  argp : Nat
  envp : Nat
  swap : Swap
  taken : Option Nat
  closed : List φ
  uError : Nat

variable {ι φ : Type} [DecidableEq ι]

def dataStart : Nat := userDataStart.toNat
def dataEnd : Nat := userDataEnd.toNat

def offset (i : ExecImages.Image) : Word := BitVec.ofNat 32 shsize + i.ts

def Ready.diff (r : Ready ι) (i : ExecImages.Image) : Word := BitVec.ofNat 32 r.ip.contents.length - offset i

/-- The offset is a negative one, for which `bmap` gives `EFBIG`. -/
def Ready.misread (r : Ready ι) (i : ExecImages.Image) : Bool := i.aData ≠ 0 ∧ 0 < (r.diff i).toInt ∧ (offset i).toInt < 0

def Ready.rdwri (r : Ready ι) (i : ExecImages.Image) (mem : Mem) (uError : Nat) : Mem × Nat :=
  if r.misread i then (mem,efbig)
  else if uError ≠ 0 ∨ (r.diff i).toInt ≤ 0 then (mem,uError)
  else
    (fun a => if dataStart ≤ a ∧ a < dataStart + min i.aData.toNat (r.diff i).toNat then
        r.ip.contents.getD ((offset i).toNat + (a - dataStart)) 0 else mem a,uError)

/-- A process gets the image. Where the data does not fit, the clearing of the rest of the
memory goes on to the end of the addresses and never comes back. -/
def State.load (s : State ι φ) (w : World ι) (r : Ready ι) (i : ExecImages.Image) : Except Hang (State ι φ) :=
  if dataEnd - dataStart < i.aData.toNat then .error .wild
  else
    let mem := if s.svfork then w.resumed else s.proc.mem
    let (mem,uError) := r.rdwri i mem s.uError
    let mem := fun a => if dataStart + i.aData.toNat ≤ a ∧ a < dataEnd then 0 else mem a
    let uUid := if w.traced then s.proc.uUid else r.uid
    let uGid := if w.traced then s.proc.uGid else r.gid
    .ok {s with
      prScale := 0
      svfork := false
      trapped := w.traced
      uTsize := i.ts
      uDsize := i.ds
      uSsize := i.ss
      uError
      proc := {s.proc with
        mem
        pDsize := i.ds
        pDaddr := i.pDaddr
        pSsize := i.ss
        pSaddr := i.pSaddr
        uUid
        -- a `short`
        pUid := if w.traced then s.proc.pUid else (BitVec.ofNat 16 r.uid).toInt
        uGid
        uSvuid := uUid
        uSvgid := uGid}}

def World.image (w : World ι) (r : Ready ι) (nargc : Word) : Except Nat ExecImages.Image :=
  ExecImages.getxfile (header r.exdata) nargc (ExecImages.textBusy r.ip.ip r.ip.itext r.ip.iCount w.file)

def State.getxfile (s : State ι φ) (w : World ι) (r : Ready ι) (nargc : Word) : Except Hang (State ι φ) :=
  match w.image r nargc with
  | .error error => .ok {s with uError := error}
  | .ok i => s.load w r i

def discard (o : Others) (w : Swap) (k : Nat) : Swap := if incore w k then brelse (cancel (bread o w k) k) k else w

def discards (o : Others) (w : Swap) (nc : Nat) : Swap := (List.range ((nc + devBsize - 1) / devBsize)).foldl (discard o) w

structure Back where
  ucp : Nat
  ap : Nat
  nc : Nat
  cc : Nat
  cp : Nat
  bp : Option Nat
  swap : Swap
  mem : Mem

def Back.release (b : Back) : Swap :=
  match b.bp with
  | none => b.swap
  | some bp => brelse b.swap bp

def Back.fill (o : Others) (b : Back) : Back :=
  if b.cc = 0 then
    let k := b.nc / devBsize
    {b with cc := devBsize,cp := 0,bp := some k,swap := cancel (bread o b.release k) k}
  else b

def Back.source (b : Back) : Nat → Byte := skip b.cp (b.swap.slot (b.bp.getD 0)).data

def Back.copy (b : Back) (bytes : List Byte) : Back := {b with
    ucp := b.ucp + bytes.length
    nc := b.nc + bytes.length
    cc := b.cc - bytes.length
    cp := b.cp + bytes.length
    mem := store b.mem b.ucp bytes}

def copyout (o : Others) : Nat → Back → Except Hang Back
  | 0,_ => .error .stuck
  | turns + 1,b =>
    let b := b.fill o
    let (bytes,ended) := copystr b.source b.cc
    if ended then .ok (b.copy bytes) else copyout o turns (b.copy bytes)

def wordBytes (n : Nat) : List Byte :=
    [BitVec.ofNat 8 n,BitVec.ofNat 8 (n / 256),BitVec.ofNat 8 (n / 65536),BitVec.ofNat 8 (n / 16777216)]

def Back.pointer (b : Back) (n : Nat) : Back := {b with mem := store b.mem b.ap (wordBytes n)}

/-- `*(int*) ap = 0; ap += NBPW;` where the environment begins. -/
def Back.divide (b : Back) (na ne : Nat) : Back := if na = ne then {b.pointer 0 with ap := b.ap + 4} else b

def copyback (o : Others) (ne : Nat) : Nat → Back → Except Hang Back
  | 0,b => .ok (b.divide 0 ne)
  | na + 1,b =>
    let b := b.divide (na + 1) ne
    match copyout o 7 (b.pointer b.ucp) with
    | .error hang => .error hang
    | .ok b => copyback o ne na {b with ap := b.ap + 4}

def Proc.trim (files : List (Option φ × Bool)) : Nat → Nat
  | 0 => 0
  | n + 1 => if (files.getD n (none,false)).1.isNone then Proc.trim files n else n + 1

/-- The files that are not for another program. `lastfile` is counted from 1. -/
def Proc.closeFiles (p : Proc ι φ) : Proc ι φ × List φ :=
  let closes := fun (i : Nat) (f : Option φ × Bool) => i < p.lastfile && f.2
  let files := p.files.mapIdx fun i f => if closes i f then (none,false) else f
  ({p with files, lastfile := Proc.trim files p.lastfile},
  (p.files.zipIdx.filterMap fun f => if closes f.2 f.1 then f.1.1 else none))

def registers (old : SignalFrames.Frame → Word) (ap na ne : Nat) (entry : Word) : SignalFrames.Frame → Word
  | .sp => BitVec.ofNat 32 ((ap - 16) / 16 * 16)
  | .r4 => BitVec.ofNat 32 (na - ne)
  | .r5 => BitVec.ofNat 32 ap
  | .r6 => BitVec.ofNat 32 (ap + (na - ne + 1) * 4)
  | .pc => entry
  | .status => old .status
  | _ => 0

def State.finish (s : State ι φ) (w : World ι) (r : Ready ι) (nc na ne : Nat) : Except Hang (State ι φ) :=
  let ucp := dataEnd - nc - 4
  let ap := ucp - na * 4 - 8
  let mem := store s.proc.mem (dataEnd - 4) (wordBytes ap)
  match copyback w.others ne na ⟨ucp,ap,0,0,0,none,s.swap,mem⟩ with
  | .error hang => .error hang
  | .ok b =>
    let b := b.pointer 0
    match Signals.execsigs s.proc.signals with
    | .error _ => .error .stuck
    | .ok signals =>
      let (proc,closed) := Proc.closeFiles {s.proc with
        mem := b.mem
        signals
        ssDisable := true
        ssSize := 0
        ssBase := 0
        regs := registers s.proc.regs ap na ne (aEntry r.exdata)}
      .ok {s with proc, closed, swap := b.release,taken := none}

def rounded (nc : Nat) : Nat := (nc + 3) / 4 * 4

def nargc (nc na : Nat) : Word := BitVec.ofNat 32 (nc + (na + 4) * 4)

def State.commit (s : State ι φ) (w : World ι) (r : Ready ι) (nc na ne : Nat) : Except Hang (State ι φ) :=
  match s.getxfile w r (nargc nc na) with
  | .error hang => .error hang
  | .ok s =>
    if s.uError ≠ 0 then .ok {s with swap := discards w.others s.swap nc,taken := none}
    else s.finish w r nc na ne

def State.collected (s : State ι φ) (w : World ι) (r : Ready ι) (c : Collected) : Except Hang (State ι φ) :=
  if c.error ≠ 0 then
    .ok {s with uError := c.error,swap := discards w.others c.area.release c.area.nc,taken := none}
  else {s with swap := c.area.flush,uError := c.uError}.commit w r (rounded c.area.nc) c.na c.ne

def execve (w : World ι) (s : State ι φ) : Except Hang (State ι φ) :=
  match w.prepare s.proc.uUid s.proc.uGid with
  | .error error => .ok {s with uError := error}
  | .ok r =>
    match w.malloc with
    | none => .ok {s with uError := ExecImages.enomem}
    | some bno =>
      let s := {s with taken := some bno}
      match collect w.others ⟨s.proc.mem,s.fname,r.script⟩ s.argp s.envp s.swap with
      | .error hang => .error hang
      | .ok c => s.collected w r c

end

section

theorem discard_slot (o : Others) (w : Swap) (j k : Nat) :
    ((discard o w k).slot j = w.slot j ∨ (discard o w k).slot j = (w.slot j).taken ∨ ((discard o w k).slot j).Clean) ∧
      ((discard o w k).slot k).Clean := by
  have clean : incore w k → ((discard o w k).slot k).Clean := by
    intro cached
    unfold discard
    rw [if_pos cached]
    unfold brelse cancel Swap.onBuf
    rw [put_same,put_same]
    intro b cached
    simp only [Option.map_map,Option.map_eq_some_iff] at cached
    obtain ⟨c,-,rfl⟩ := cached
    exact ⟨rfl,rfl⟩
  by_cases cached : incore w k
  · refine ⟨?_,clean cached⟩
    by_cases same : j = k
    · exact .inr (.inr (by rw [same]; exact clean cached))
    have other : (discard o w k).slot j = (w.sleep o).slot j := by
      unfold discard
      rw [if_pos cached]
      unfold brelse cancel Swap.onBuf bread
      dsimp only
      rw [put_other same,put_other same,put_other same]
    rw [other]
    obtain same | same := sleep_slot w o j
    · exact .inl same
    · exact .inr (.inl same)
  · have same : discard o w k = w := if_neg cached
    rw [same]
    refine ⟨.inl rfl,fun b present => ?_⟩
    simp [incore,present] at cached

theorem discards_clean (o : Others) {w : Swap} {nc : Nat} (rest : ∀ k, nc ≤ devBsize * k → (w.slot k).Clean) (k : Nat) :
    ((discards o w nc).slot k).Clean := by
  have step : ∀ n, (∀ k < n, (((List.range n).foldl (discard o) w).slot k).Clean) ∧
      ∀ k, (w.slot k).Clean → (((List.range n).foldl (discard o) w).slot k).Clean := by
    intro n
    induction n with
    | zero => exact ⟨nofun,fun k clean => clean⟩
    | succ n ih =>
      rw [List.range_succ,List.foldl_append]
      generalize (List.range n).foldl (discard o) w = v at ih
      have keep : ∀ k, (v.slot k).Clean → ((discard o v n).slot k).Clean := by
        intro k clean
        obtain same | same | same := (discard_slot o v k n).1
        · rwa [same]
        · rw [same]
          exact clean.taken
        · exact same
      constructor
      · intro k before
        by_cases last : k = n
        · rw [last]
          exact (discard_slot o v k n).2
        · exact keep k (ih.1 k (by omega))
      · exact fun k clean => keep k (ih.2 k clean)
  by_cases inside : k < (nc + devBsize - 1) / devBsize
  · exact (step _).1 k inside
  refine (step _).2 k (rest k ?_)
  unfold devBsize at *
  omega

variable {ι φ : Type} {w : World ι} {s t : State ι φ} {r : Ready ι} {nc na ne : Nat}

theorem finish_error (done : s.finish w r nc na ne = .ok t) : t.uError = s.uError := by
  unfold State.finish at done
  dsimp only at done
  split at done
  · cases done
  split at done
  · cases done
  cases done
  rfl

theorem rdwri_wrong {uError : Nat} (mem : Mem) (wrong : uError ≠ 0 ∨ r.misread i) :
    ∃ e, e ≠ 0 ∧ r.rdwri i mem uError = (mem,e) := by
  unfold Ready.rdwri
  by_cases negative : r.misread i
  · exact ⟨efbig,by decide,by rw [if_pos negative]⟩
  have before := wrong.resolve_right negative
  exact ⟨uError,before,by rw [if_neg negative,if_pos (.inl before)]⟩

theorem load_wild (big : dataEnd - dataStart < i.aData.toNat) : s.load w r i = .error .wild := by
  unfold State.load
  rw [if_pos big]

structure Same (p q : Proc ι φ) : Prop where
  mem : ∀ a, dataStart ≤ a → a < dataEnd → q.mem a = p.mem a
  regs : q.regs = p.regs
  sizes : (q.pDsize,q.pDaddr,q.pSsize,q.pSaddr) = (p.pDsize,p.pDaddr,p.pSsize,p.pSaddr)
  ids : (q.uUid,q.pUid,q.uGid,q.uSvuid,q.uSvgid) = (p.uUid,p.pUid,p.uGid,p.uSvuid,p.uSvgid)
  signals : q.signals = p.signals
  sigstk : (q.ssDisable,q.ssSize,q.ssBase) = (p.ssDisable,p.ssSize,p.ssBase)
  files : (q.files,q.lastfile) = (p.files,p.lastfile)

theorem Same.refl (p : Proc ι φ) : Same p p := ⟨fun _ _ _ => rfl,rfl,rfl,rfl,rfl,rfl,rfl⟩

structure Already (w : World ι) (svfork : Bool) (p : Proc ι φ) (r : Ready ι) (i : ExecImages.Image) : Prop where
  kept : ∀ a, dataStart ≤ a → a < dataStart + i.aData.toNat → svfork = true → w.resumed a = p.mem a
  cleared : ∀ a, dataStart + i.aData.toNat ≤ a → a < dataEnd → p.mem a = 0
  sizes : (i.ds,i.pDaddr,i.ss,i.pSaddr) = (p.pDsize,p.pDaddr,p.pSsize,p.pSaddr)
  uids : (if w.traced then p.uUid else r.uid,if w.traced then p.pUid else (BitVec.ofNat 16 r.uid).toInt) = (p.uUid,p.pUid)
  gid : (if w.traced then p.uGid else r.gid) = p.uGid
  saved : (p.uSvuid,p.uSvgid) = (p.uUid,p.uGid)

theorem load_same (fits : i.aData.toNat ≤ dataEnd - dataStart) (wrong : s.uError ≠ 0 ∨ r.misread i) :
    ∃ t, s.load w r i = .ok t ∧ t.uError ≠ 0 ∧ t.swap = s.swap ∧ (Same s.proc t.proc ↔ Already w s.svfork s.proc r i) := by
  obtain ⟨e,nonzero,read⟩ := rdwri_wrong (if s.svfork then w.resumed else s.proc.mem) wrong
  unfold State.load
  rw [if_neg (by omega)]
  simp only [read]
  refine ⟨_,rfl,nonzero,rfl,fun same => ?_,fun already => ?_⟩
  · have ids := same.ids
    simp only [Prod.mk.injEq] at ids
    refine ⟨fun a after before child => ?_,fun a after before => ?_,same.sizes,by rw [ids.1,ids.2.1],ids.2.2.1,?_⟩
    · have kept := same.mem a after (by unfold dataEnd dataStart userDataEnd userDataStart at *; omega)
      dsimp only at kept
      rwa [if_neg (by omega),if_pos child] at kept
    · have cleared := same.mem a (by omega) before
      dsimp only at cleared
      rw [if_pos ⟨after,before⟩] at cleared
      exact cleared.symm
    · rw [← ids.2.2.2.1,← ids.2.2.2.2,ids.1,ids.2.2.1]
  · have uids := Prod.mk.inj already.uids
    have saved := Prod.mk.inj already.saved
    refine ⟨fun a after before => ?_,rfl,already.sizes,?_,rfl,rfl,rfl⟩
    · dsimp only
      split_ifs with cleared child
      · exact (already.cleared a cleared.1 cleared.2).symm
      · exact already.kept a after (by omega) child
      · rfl
    · rw [uids.1,uids.2,already.gid,saved.1,saved.2]

theorem load_right (loaded : s.load w r i = .ok t) (before : s.uError = 0) (right : ¬r.misread i) : t.uError = 0 := by
  have read : (r.rdwri i (if s.svfork then w.resumed else s.proc.mem) s.uError).2 = 0 := by
    unfold Ready.rdwri
    rw [if_neg right]
    split_ifs <;> exact before
  by_cases big : dataEnd - dataStart < i.aData.toNat
  · rw [load_wild big] at loaded
    cases loaded
  unfold State.load at loaded
  rw [if_neg big] at loaded
  cases loaded
  exact read

variable [DecidableEq ι]

structure Atomic (p : Proc ι φ) (t : State ι φ) : Prop where
  same : Same p t.proc
  returned : t.taken = none
  clean : ∀ k, (t.swap.slot k).Clean

variable {i : ExecImages.Image}

theorem refused_atomic {c : Collected} {text : List Byte} (ready : c.area.Ready text) (refused : c.error = e2big) :
    ∃ t, s.collected w r c = .ok t ∧ Atomic s.proc t := by
  unfold State.collected
  rw [if_pos (by rw [refused]; decide)]
  refine ⟨_,rfl,Same.refl _,rfl,discards_clean _ fun k after => ready.release ?_⟩
  rwa [← ready.length]

theorem commit_iff (clean : ∀ k, ((discards w.others s.swap nc).slot k).Clean) :
    (∀ t, s.commit w r nc na ne = .ok t → t.uError ≠ 0 → Atomic s.proc t) ↔
      ∀ i, w.image r (nargc nc na) = .ok i → i.aData.toNat ≤ dataEnd - dataStart → (s.uError ≠ 0 ∨ r.misread i) →
        Already w s.svfork s.proc r i := by
  unfold State.commit State.getxfile
  cases found : w.image r (nargc nc na) with
  | error error =>
    refine iff_of_true (fun t done wrong => ?_) nofun
    dsimp only at done
    split_ifs at done with failed
    · cases done
      exact ⟨Same.refl _,rfl,clean⟩
    · exact absurd ((finish_error done).trans (by simpa using failed)) wrong
  | ok i =>
    dsimp only
    constructor
    · rintro atomic _ ⟨⟩ fits wrong
      obtain ⟨t,loaded,failed,-,same⟩ := load_same (w := w) fits wrong
      rw [loaded] at atomic
      dsimp only at atomic
      rw [if_pos failed] at atomic
      exact same.mp (atomic _ rfl failed).same
    intro already t done failed
    by_cases fits : i.aData.toNat ≤ dataEnd - dataStart
    · by_cases wrong : s.uError ≠ 0 ∨ r.misread i
      · obtain ⟨t',loaded,failed',swap,same⟩ := load_same (w := w) fits wrong
        rw [loaded] at done
        dsimp only at done
        rw [if_pos failed'] at done
        cases done
        refine ⟨same.mpr (already i rfl fits wrong),rfl,?_⟩
        rw [swap]
        exact clean
      cases loaded : s.load w r i with
      | error hang =>
        rw [loaded] at done
        cases done
      | ok t' =>
        rw [loaded] at done
        rw [not_or,not_not] at wrong
        have fine := load_right loaded wrong.1 wrong.2
        dsimp only at done
        rw [if_neg (by simpa using fine)] at done
        exact absurd ((finish_error done).trans fine) failed
    · rw [load_wild (by omega)] at done
      cases done

structure Entry (ι φ : Type) where
  state : State ι φ
  noError : state.uError = 0
  untaken : state.taken = none
  clean : ∀ k, (state.swap.slot k).Clean

/-- An image that is loaded although a pointer is -1 or its data has a negative offset. -/
structure Spoils (w : World ι) (s : State ι φ) (r : Ready ι) (i : ExecImages.Image) : Prop where
  prepared : w.prepare s.proc.uUid s.proc.uGid = .ok r
  space : w.malloc ≠ none
  loaded : ∃ ts na ne bad, Gathered ⟨s.proc.mem,s.fname,r.script⟩ s.argp s.envp ts na ne bad ∧ ts.flatten.length ≤ ncargs ∧
    w.image r (nargc (rounded ts.flatten.length) na) = .ok i ∧ (bad = true ∨ r.misread i)
  fits : i.aData.toNat ≤ dataEnd - dataStart

/-- A call that fails leaves everything alone exactly where no image is loaded although a
pointer is -1 or its data has a negative offset, or that image is what the process has. -/
theorem atomic_iff (w : World ι) (s : Entry ι φ) :
    (∀ t, execve w s.state = .ok t → t.uError ≠ 0 → Atomic s.state.proc t) ↔ ∀ r i, Spoils w s.state r i →
    Already w s.state.svfork s.state.proc r i := by
  unfold execve
  cases prepared : w.prepare s.state.proc.uUid s.state.proc.uGid with
  | error error =>
    refine iff_of_true ?_ fun r i spoils => absurd (prepared.symm.trans spoils.prepared) nofun
    rintro _ ⟨⟩ -
    exact ⟨Same.refl _,s.untaken,s.clean⟩
  | ok r =>
    cases space : w.malloc with
    | none =>
      refine iff_of_true ?_ fun r i spoils => absurd space spoils.space
      rintro _ ⟨⟩ -
      exact ⟨Same.refl _,s.untaken,s.clean⟩
    | some bno =>
      dsimp only
      obtain ⟨c,result,begun,⟨ts,bad,gathered,ready,whole,uError⟩ | ⟨⟨part,ready⟩,refused,long⟩⟩ :=
        collect_spec w.others ⟨s.state.proc.mem,s.state.fname,r.script⟩ s.state.argp s.state.envp s.clean
      · have clean : ∀ k, ((discards w.others c.area.flush (rounded ts.flatten.length)).slot k).Clean := by
          refine discards_clean _ fun k after => (ready.flush begun).clean k ?_
          unfold rounded at after
          omega
        rw [result]
        unfold State.collected
        simp only [whole,ne_eq,not_true_eq_false,if_false,ready.length]
        refine (commit_iff (s := {s.state with taken := some bno,swap := c.area.flush,uError := c.uError}) clean).trans ?_
        dsimp only
        have small := ready.small
        have length := ready.length
        have wrong : c.uError ≠ 0 ↔ bad = true := by
          rw [uError]
          cases bad <;> decide
        rw [wrong]
        constructor
        · intro already r' i spoils
          obtain ⟨us,na,ne,worse,again,-,found,spoilt⟩ := spoils.loaded
          obtain ⟨⟩ := Except.ok.inj (prepared.symm.trans spoils.prepared)
          obtain ⟨rfl,rfl,rfl,rfl⟩ := gathered.unique again
          exact already i found spoils.fits spoilt
        · intro already i found fits spoilt
          exact already r i ⟨prepared,by rw [space]; nofun,⟨ts,c.na,c.ne,bad,gathered,by omega,found,spoilt⟩,fits⟩
      · rw [result]
        refine iff_of_true ?_ fun r' i spoils => ?_
        · obtain ⟨t,done,atomic⟩ := refused_atomic (s := {s.state with taken := some bno}) (w := w) (r := r) ready refused
          intro t' done' _
          cases done.symm.trans done'
          exact atomic
        obtain ⟨us,na,ne,worse,again,fits,-⟩ := spoils.loaded
        obtain ⟨⟩ := Except.ok.inj (prepared.symm.trans spoils.prepared)
        have past := long us na ne worse again
        omega

def tiny : List Byte := [8,1,0,0,0,0,0,0,4,0,0,0] ++ List.replicate 20 0 ++ [1,2,3,4]

def around : World Unit where
  namei := .ok (⟨(),0o100755,0,0,false,1,false,false,tiny⟩,fun _ => 0)
  interpreter := fun _ => .error 2
  access := fun _ _ => none
  traced := false
  stack := fun _ => 0
  malloc := some 1
  file := []
  others := ⟨fun _ _ => false,fun _ _ _ => 0⟩
  resumed := fun _ => 0
  namei_error := nofun
  interpreter_error := by rintro _ _ ⟨⟩; decide
  access_error := nofun

def caller : Entry Unit Unit where
  state := {
    proc := {
      mem := fun a => if a < dataStart + 4 then 0xff else 0
      regs := fun _ => 0
      pDsize := 0x1000, pDaddr := userDataStart, pSsize := 0x800, pSaddr := userDataEnd - 0x800
      uUid := 1, pUid := 1, uGid := 1, uSvuid := 1, uSvgid := 1
      signals := ⟨0,0,0,0,.run,false,false,false,0,0,0,1,(),0,fun _ => 0,fun _ => 0,0,0,0,false,0,none,false⟩
      ssDisable := true, ssSize := 0, ssBase := 0, files := [], lastfile := 0}
    prScale := 0, svfork := false, trapped := false, uTsize := 0, uDsize := 0x1000, uSsize := 0x800
    fname := 1, argp := dataStart, envp := 0
    swap := ⟨fun _ => ⟨fun _ => 0,none⟩,0⟩
    taken := none, closed := [], uError := 0}
  noError := rfl
  untaken := rfl
  clean := nofun

theorem caller_replaced : ∃ t, execve around caller.state = .ok t ∧ t.uError = efault ∧ ¬Atomic caller.state.proc t := by
  have result : (execve around caller.state).map (fun t => (t.uError,t.proc.pDsize)) = .ok (efault,4) := by decide +kernel
  cases done : execve around caller.state with
  | error hang =>
    rw [done] at result
    cases result
  | ok t =>
    rw [done] at result
    obtain ⟨error,size⟩ := Prod.mk.inj (Except.ok.inj result)
    refine ⟨t,rfl,error,fun atomic => ?_⟩
    have same := (Prod.mk.inj atomic.same.sizes).1
    rw [size] at same
    exact absurd same (by decide)

end

end Retrobsd.ExecCalls

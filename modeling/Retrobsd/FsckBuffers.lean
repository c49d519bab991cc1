import Retrobsd.Lib.Run
import Retrobsd.Lib.WriteBack

/-! The buffers of fsck: the window of inode blocks, the one for directories and the free list, that of the superblock
and the one in which pass 1 truncates indirect blocks. A run is any sequence of what the passes do to blocks: which they
do depends on what they read and on the operator, and is left open. -/
namespace Retrobsd.Fsck
open List
open Function
open Lib.Run

def superb : Int := 0
def rootino : Nat := 2
def inopb : Nat := 16
def ninoblk : Nat := 4
def nicfree : Nat := 200
def word : Nat := 2^32

def itod (x : Nat) : Int := ((x + inopb - 1) / inopb : Nat)

structure Bufarea (β : Type) where
  bno : Int
  buf : β
  dirty : Bool

/-- What the passes have to do with blocks: pass 1 finds those in use, passes 2 to 4 go through directories, pass 5 checks
the free list. -/
inductive Pass | one | two | five
  deriving DecidableEq

inductive Fault | exit | pass
  deriving DecidableEq

structure State (β : Type) where
  disk : Int → β
  inobuf : Nat → β
  startib : Int
  inodirty : Bool
  fileblk : Bufarea β
  sblk : Bufarea β
  blockmap : Int → Bool
  imax : Nat
  fsmin : Int
  fsmax : Int
  pass : Pass
  wfdes : Bool

section
variable {β : Type}

def bread (disk : Int → β) (blk : Int) (k : Nat) : β := disk (blk + k)

/-- With `-n` the device is not opened for writing, and nothing is written. -/
def bwrite (wfdes : Bool) (disk : Int → β) (buf : Nat → β) (blk : Int) (blocks : Nat) : Int → β :=
  if wfdes then fun b => if blk ≤ b ∧ b < blk + blocks then buf (b - blk).toNat else disk b else disk

def flush (wfdes : Bool) (disk : Int → β) (bp : Bufarea β) : (Int → β) × Bufarea β :=
  if bp.dirty then (bwrite wfdes disk (fun _ => bp.buf) bp.bno 1,{bp with dirty := false}) else (disk,bp)

def getblk (wfdes : Bool) (disk : Int → β) (bp : Bufarea β) (blk : Int) : (Int → β) × Bufarea β :=
  if bp.bno = blk then (disk,bp)
  else
    let (disk,bp) := flush wfdes disk bp
    (disk,⟨blk,bread disk blk 0,bp.dirty⟩)

namespace State
variable (s : State β)

def outrange (b : Int) : Bool := b < s.fsmin || s.fsmax ≤ b

def flushInodes : State β :=
  if s.inodirty then {s with disk := bwrite s.wfdes s.disk s.inobuf s.startib ninoblk,inodirty := false} else s

def flushFile : State β := {s with disk := (flush s.wfdes s.disk s.fileblk).1,fileblk := (flush s.wfdes s.disk s.fileblk).2}

def flushSuper : State β := {s with disk := (flush s.wfdes s.disk s.sblk).1,sblk := (flush s.wfdes s.disk s.sblk).2}

def getblk (blk : Int) : State β := {s with
  disk := (Fsck.getblk s.wfdes s.disk s.fileblk blk).1
  fileblk := (Fsck.getblk s.wfdes s.disk s.fileblk blk).2}

def ginode (inumber : Nat) : Except Fault (State β) :=
  if inumber < rootino ∨ s.imax < inumber then .error .exit
  else if itod inumber < s.startib ∨ s.startib + ninoblk ≤ itod inumber then
    .ok {s.flushInodes with inobuf := bread s.flushInodes.disk (itod inumber),startib := itod inumber}
  else .ok s

/-- What `ginode` points to is changed, and the window marked if the operator wants the change. -/
def editInode (inumber : Nat) (f : β → β) (fix : Bool) : State β :=
  let k := (itod inumber - s.startib).toNat
  {s with inobuf := update s.inobuf k (f (s.inobuf k)),inodirty := fix || s.inodirty}

def editFile (f : β → β) (fix : Bool) : State β := {s with fileblk := ⟨s.fileblk.bno,f s.fileblk.buf,fix || s.fileblk.dirty⟩}

def editSuper (f : β → β) : State β := {s with sblk := ⟨s.sblk.bno,f s.sblk.buf,true⟩}

def setbmap (b : Int) : State β := {s with blockmap := update s.blockmap b true}

def clrbmap (b : Int) : State β := {s with blockmap := update s.blockmap b false}

def unused : Int := (((List.range s.fsmax.toNat).map Int.ofNat).find? fun i => !s.blockmap i).getD 0

def allocblk : State β × Int := (if s.unused = 0 then s else s.setbmap s.unused,s.unused)

def pass1check (b : Int) : State β := if s.outrange b then s else s.setbmap b

def pass4check (b : Int) : State β := if s.outrange b then s else s.clrbmap b

def iblock (b : Int) (f : Option (β → β)) : State β :=
  if s.outrange b then s
  else
    let ib : Bufarea β := ⟨b,bread s.disk b 0,false⟩
    match f with
    | none => s
    | some f => {s with disk := (flush s.wfdes s.disk ⟨ib.bno,f ib.buf,true⟩).1}

def readdir (b : Int) (f : Option (β → β)) (fix : Bool) : State β :=
  if s.outrange b then s
  else match f with
    | none => s.getblk b
    | some f => (s.getblk b).editFile f fix

def dirscan (b : Int) (f : β → β) : State β :=
  if s.outrange b then s else ((s.getblk b).editFile f true).editSuper id

def allocdir (inumber : Nat) (f : Int → β → β) (g : β → β) : Except Fault (State β) := do
  let s ← s.ginode inumber
  let (s,blk) := s.allocblk
  -- `allocino` returns 0 then, which `ginode` is called with
  if blk = 0 then throw .exit
  return ((s.editInode inumber (f blk) true).getblk blk).editFile g true

/-- A directory is given a block before its last one, `old`, if the operator wants it. -/
def expanddir (inumber : Nat) (old : Int) (f g : β → β) (h : Int → β → β) (fix : Bool) : Except Fault (State β) := do
  let s ← s.ginode inumber
  let (s,newblk) := s.allocblk
  if newblk = 0 then return s
  let s := (((s.getblk old).getblk newblk).editFile f true).getblk old
  if fix then return (s.editFile g true).editInode inumber (h newblk) true
  else return (s.editFile g false).pass4check newblk

def link (fblk : List Int → β) (blk : Int) (chunk : List Int) : State β := {s with fileblk := ⟨blk,fblk chunk,true⟩}.flushFile

end State

/-- The blocks of the volume from the last one down, with the part of the free list that is in `freeblk`. -/
def salvage (fblk : List Int → β) : List Int → State β → List Int → State β × List Int
  | [],s,chunk => (s,chunk)
  | blk :: blks,s,chunk =>
    if s.blockmap blk then salvage fblk blks s chunk
    else if nicfree ≤ chunk.length then salvage fblk blks (s.link fblk blk chunk) [blk]
    else salvage fblk blks s (chunk ++ [blk])

namespace State
variable (s : State β)

def downwards : List Int := (List.range (s.fsmax - s.fsmin).toNat).map fun k => s.fsmax - 1 - Int.ofNat k

def makefree (fblk : List Int → β) (sb : List Int → β → β) : State β :=
  let (s,chunk) := salvage fblk s.downwards s [0]
  {s with fileblk := ⟨s.fileblk.bno,fblk chunk,s.fileblk.dirty⟩}.editSuper (sb chunk)

def ckfini : State β :=
  let s := s.flushFile.flushSuper
  let s := if s.sblk.bno ≠ superb then {s with sblk := ⟨superb,s.sblk.buf,true⟩}.flushSuper else s
  s.flushInodes

end State

/-- The sizes that `setup` finds in the superblock are words. -/
def setup (nflag : Bool) (isize fsize : Nat) (disk : Int → β) : Option (State β) :=
  let imax := (((isize : Int) - 1) * inopb % word).toNat
  let fsmin : Int := (isize : Int).bmod word
  let fsmax : Int := (fsize : Int).bmod word
  let empty : Bufarea β := ⟨-1,disk superb,false⟩
  if fsmin ≥ fsmax ∨ imax / inopb ≠ (((isize : Int) - 1) % word).toNat then none
  else some ⟨disk,fun _ => disk superb,fsmax,false,empty,⟨superb,bread disk superb 0,false⟩,fun _ => false,imax,
    fsmin,fsmax,.one,!nflag⟩

def State.pass1 (s : State β) : State β := {s with blockmap := fun b => (0 ≤ b && b < s.fsmin) || s.blockmap b}

inductive Op (β : Type)
  | ginode (inumber : Nat)
  | inode (inumber : Nat) (f : β → β) (fix : Bool)
  | pass1check (b : Int)
  | iblock (b : Int) (f : Option (β → β))
  | pass1b
  | pass2
  | readdir (b : Int) (f : Option (β → β)) (fix : Bool)
  | dirscan (b : Int) (f : β → β)
  | pass4check (b : Int)
  | allocdir (inumber : Nat) (f : Int → β → β) (g : β → β)
  | expanddir (inumber : Nat) (old : Int) (f g : β → β) (h : Int → β → β) (fix : Bool)
  | pass5
  | super (f : β → β)
  | freeblk (v : β)
  | freechk (b : Int)
  | makefree (fblk : List Int → β) (sb : List Int → β → β)

def during (now : Bool) (next : Except Fault (State β)) : Except Fault (State β) := if now then next else .error .pass

def step (s : State β) : Op β → Except Fault (State β)
  | .ginode inumber => during (s.pass ≠ .five) (s.ginode inumber)
  | .inode inumber f fix => during (s.pass ≠ .five) do return (← s.ginode inumber).editInode inumber f fix
  | .pass1check b => during (s.pass = .one) (.ok (s.pass1check b))
  | .iblock b f => during (s.pass = .one) (.ok (s.iblock b f))
  | .pass1b => during (s.pass = .one) (.ok s.flushInodes)
  | .pass2 => during (s.pass = .one) (.ok {s with pass := .two})
  | .readdir b f fix => during (s.pass = .two) (.ok (s.readdir b f fix))
  | .dirscan b f => during (s.pass = .two) (.ok (s.dirscan b f))
  | .pass4check b => during (s.pass = .two) (.ok (s.pass4check b))
  | .allocdir inumber f g => during (s.pass = .two) (s.allocdir inumber f g)
  | .expanddir inumber old f g h fix => during (s.pass = .two) (s.expanddir inumber old f g h fix)
  | .pass5 => during (s.pass = .two) (.ok {s.flushFile with pass := .five})
  | .super f => during (s.pass = .five) (.ok (s.editSuper f))
  -- `freeblk` is the buffer of `fileblk`: the start of the free list is put over the block that is in it
  | .freeblk v => during (s.pass = .five) (.ok {s with fileblk := ⟨s.fileblk.bno,v,s.fileblk.dirty⟩})
  | .freechk b => during (s.pass = .five) (.ok (if s.outrange b then s else s.getblk b))
  | .makefree fblk sb => during (s.pass = .five) (.ok (s.makefree fblk sb))

/-- The parts of the free list that `makefree` writes to blocks, and the one that is left. -/
def chained (used : Int → Bool) : List Int → List Int → List (Int × List Int) × List Int
  | [],chunk => ([],chunk)
  | blk :: blks,chunk =>
    if used blk then chained used blks chunk
    else if nicfree ≤ chunk.length then ((blk,chunk) :: (chained used blks [blk]).1,(chained used blks [blk]).2)
    else chained used blks (chunk ++ [blk])

def changes (s : State β) : Op β → List (Int × (β → β))
  | .inode inumber f _ => [(itod inumber,f)]
  | .iblock b f | .readdir b f _ => if s.outrange b then [] else f.toList.map (b,·)
  | .dirscan b f => if s.outrange b then [] else [(b,f)]
  | .allocdir inumber f g => [(itod inumber,f s.unused),(s.unused,g)]
  | .expanddir inumber old f g h _ =>
    if s.unused = 0 then [] else [(s.unused,f),(old,g),(itod inumber,h s.unused)]
  | .super f => [(superb,f)]
  | .makefree fblk sb =>
    let (links,chunk) := chained s.blockmap s.downwards [0]
    links.map (fun l => (l.1,fun _ => fblk l.2)) ++ [(superb,sb chunk)]
  | _ => []

def applied (d : Int → β) (cs : List (Int × (β → β))) : Int → β := cs.foldl (fun d c => update d c.1 (c.2 (d c.1))) d

def next (p : State β × (Int → β)) (op : Op β) : Except Fault (State β × (Int → β)) :=
  (step p.1 op).map fun t => (t,applied p.2 (changes p.1 op))

inductive Which | inoblk | fileblk | sblk
  deriving DecidableEq

def Covers (first b : Int) : Prop := first ≤ b ∧ b < first + ninoblk

instance (first b : Int) : Decidable (Covers first b) := instDecidableAnd

namespace State
variable (s : State β)

/-- The copy of a block that a buffer holds and may write back. Pass 5 has `fileblk` for parts of the free list, and does
not come to inodes. -/
def copy : Which → Int → Option β
  | .inoblk,b =>
    if Covers s.startib b ∧ s.startib ≠ s.fsmax ∧ (s.pass = .five → s.inodirty = true) then some (s.inobuf (b - s.startib).toNat)
    else none
  | .fileblk,b => if b = s.fileblk.bno ∧ b ≠ -1 ∧ s.pass ≠ .five then some s.fileblk.buf else none
  | .sblk,b => if b = s.sblk.bno then some s.sblk.buf else none

def window (inumber : Nat) : Int :=
  if itod inumber < s.startib ∨ s.startib + ninoblk ≤ itod inumber then itod inumber else s.startib

def Room (inumber : Nat) : Prop := s.fileblk.dirty = true → ¬Covers (s.window inumber) s.fileblk.bno

instance (inumber : Nat) : Decidable (s.Room inumber) := inferInstanceAs (Decidable (_ → _))

end State

/-- No data block is modified while the window reaches to it, the last block of a directory that grows is a data block,
and what is changed before the operator is asked is wanted. -/
def Meets (s : State β) : Op β → Prop
  | .ginode inumber => s.Room inumber
  | .inode inumber _ fix => s.Room inumber ∧ fix = true
  | .iblock b f => s.outrange b = false → f.isSome = true → ¬Covers s.startib b
  | .readdir b f fix => s.outrange b = false → f.isSome = true → ¬Covers s.startib b ∧ fix = true
  | .dirscan b _ => s.outrange b = false → ¬Covers s.startib b
  | .allocdir inumber _ _ => s.Room inumber ∧ ¬Covers (s.window inumber) s.unused
  | .expanddir inumber old _ _ _ fix => s.Room inumber ∧ ¬Covers (s.window inumber) s.unused ∧
    s.outrange old = false ∧ ¬Covers (s.window inumber) old ∧ fix = true
  | .makefree _ _ => s.inodirty = true → ∀ l ∈ (chained s.blockmap s.downwards [0]).1, ¬Covers s.startib l.1
  | _ => True

instance (s : State β) : ∀ op : Op β, Decidable (Meets s op)
  | .ginode _ => inferInstanceAs (Decidable (s.Room _))
  | .iblock _ _ | .readdir _ _ _ => inferInstanceAs (Decidable (_ → _ → _))
  | .dirscan _ _ => inferInstanceAs (Decidable (_ → _))
  | .inode _ _ _ | .allocdir _ _ _ | .expanddir _ _ _ _ _ _ => inferInstanceAs (Decidable (_ ∧ _))
  | .makefree _ _ => inferInstanceAs (Decidable (_ → ∀ l ∈ (chained s.blockmap s.downwards [0]).1, _))
  | .pass1check _ | .pass1b | .pass2 | .pass4check _ | .pass5 | .super _ | .freeblk _ | .freechk _ =>
    .isTrue trivial

/-- No buffer holds a copy of a block that is not what the modifications have made of it, and the disk is when all are
written back. -/
def Kept (p : State β × (Int → β)) : Prop := (∀ which b v, p.1.copy which b = some v → v = p.2 b) ∧ p.1.ckfini.disk = p.2

end

section
open Lib.WriteBack
variable {β : Type} {s t : State β} {d : Int → β}

namespace State

def marked (s : State β) : Which → Bool
  | .inoblk => s.inodirty
  | .fileblk => s.fileblk.dirty
  | .sblk => s.sblk.dirty

def view (s : State β) : Store Which Int β := ⟨s.disk,fun which => ⟨s.copy which,s.marked which⟩⟩

end State

def home (fsmin : Int) : Which → Int → Prop
  | .inoblk,b => 1 ≤ b ∧ b < fsmin
  | .fileblk,b => fsmin ≤ b
  | .sblk,b => b = superb

structure Shape (s : State β) : Prop where
  sizes : 1 ≤ s.fsmin ∧ s.fsmin < s.fsmax ∧ (s.imax : Int) = 16 * (s.fsmin - 1)
  reserved : ∀ b, 0 ≤ b → b < s.fsmin → s.blockmap b = true
  window : s.startib = s.fsmax ∧ s.inodirty = false ∨ 1 ≤ s.startib ∧ s.startib < s.fsmin
  file : s.fileblk.bno = -1 ∧ s.fileblk.dirty = false ∨ s.pass ≠ .one ∧ s.fsmin ≤ s.fileblk.bno ∧ s.fileblk.bno < s.fsmax
  scratch : s.pass = .five → s.fileblk.dirty = false
  super : s.sblk.bno = superb
  opened : s.wfdes = true

structure Inv (s : State β) (d : Int → β) : Prop where
  shape : Shape s
  coherent : Coherent (home s.fsmin) d s.view

theorem outrange_false (b : Int) : s.outrange b = false ↔ s.fsmin ≤ b ∧ b < s.fsmax := by
  simp [State.outrange]

theorem bwrite_one (opened : s.wfdes = true) (disk : Int → β) (v : β) (blk : Int) :
    bwrite s.wfdes disk (fun _ => v) blk 1 = update disk blk v := by
  funext b
  rw [bwrite,if_pos opened,update_apply]
  by_cases here : b = blk
  · rw [if_pos (by omega),if_pos here]
  · rw [if_neg (by omega),if_neg here]

variable {inumber isize : Nat} {b : Int} {v : β}

theorem Shape.itod (shape : Shape s) (low : rootino ≤ inumber) (high : inumber ≤ s.imax) :
    1 ≤ itod inumber ∧ itod inumber < s.fsmin := by
  have sizes := shape.sizes
  rw [Fsck.itod,inopb]
  rw [rootino] at low
  omega

theorem Shape.loaded (shape : Shape s) (dirty : s.inodirty = true) :
    s.startib ≠ s.fsmax ∧ 1 ≤ s.startib ∧ s.startib < s.fsmin := by
  have sizes := shape.sizes
  rcases shape.window with ⟨_,clean⟩ | here
  · rw [dirty] at clean
    cases clean
  · omega

theorem copy_inoblk (held : s.copy .inoblk b = some v) :
    Covers s.startib b ∧ s.startib ≠ s.fsmax ∧ (s.pass = .five → s.inodirty = true) ∧ v = s.inobuf (b - s.startib).toNat := by
  simp only [State.copy] at held
  split at held
  next here => exact ⟨here.1,here.2.1,here.2.2,(Option.some.inj held).symm⟩
  next => cases held

theorem copy_super (held : s.copy .sblk b = some v) : b = s.sblk.bno ∧ v = s.sblk.buf := by
  simp only [State.copy] at held
  split at held
  next same => exact ⟨same,(Option.some.inj held).symm⟩
  next => cases held

theorem copy_inoblk_some (inside : Covers s.startib b) (loaded : s.startib ≠ s.fsmax) (early : s.pass ≠ .five) :
    s.copy .inoblk b = some (s.inobuf (b - s.startib).toNat) := if_pos ⟨inside,loaded,fun five => absurd five early⟩

theorem copy_inoblk_none (outside : ¬Covers s.startib b) : s.copy .inoblk b = none := if_neg fun here => outside here.1

theorem copy_file (held : s.copy .fileblk b = some v) : b = s.fileblk.bno ∧ s.pass ≠ .five ∧ v = s.fileblk.buf := by
  simp only [State.copy] at held
  split at held
  next here => exact ⟨here.1,here.2.2,(Option.some.inj held).symm⟩
  next => cases held

theorem copy_file_none (other : b ≠ s.fileblk.bno) : s.copy .fileblk b = none := if_neg fun here => other here.1

theorem Shape.file_apart (shape : Shape s) (low : 0 ≤ b) (inside : b < s.fsmin) :
    s.copy .fileblk b = none := copy_file_none fun same => by
    rcases shape.file with ⟨none,_⟩ | here
    · omega
    · omega

theorem Shape.super_apart (shape : Shape s) (low : 1 ≤ b) : s.copy .sblk b = none := if_neg fun same => by
  rw [same,shape.super] at low
  exact absurd low (by decide)

theorem Inv.flushInodes (inv : Inv s d) : Inv s.flushInodes d ∧ s.flushInodes.inodirty = false := by
  rw [State.flushInodes]
  split
  next dirty =>
    have loaded := inv.shape.loaded dirty
    refine ⟨⟨⟨inv.shape.sizes,inv.shape.reserved,.inr loaded.2,inv.shape.file,inv.shape.scratch,inv.shape.super,
      inv.shape.opened⟩,?_⟩,rfl⟩
    refine inv.coherent.flushed .inoblk (by rintro ⟨⟩ other <;> first | rfl | contradiction) (fun k => ?_) fun k v held => ?_
    · simp only [State.view,State.copy,dirty,inv.shape.opened,bwrite,if_true,Covers]
      by_cases inside : s.startib ≤ k ∧ k < s.startib + ninoblk <;> simp [inside,loaded.1]
    · obtain ⟨inside,there,_,rfl⟩ := copy_inoblk held
      exact if_pos ⟨inside,there,fun _ => dirty⟩
  next clean => exact ⟨inv,Bool.eq_false_iff.mpr clean⟩

theorem Shape.edited (shape : Shape s) (dirty : s.fileblk.dirty = true) :
    s.pass ≠ .five ∧ s.fsmin ≤ s.fileblk.bno ∧ s.fileblk.bno < s.fsmax := by
  refine ⟨fun five => ?_,?_⟩
  · rw [shape.scratch five] at dirty
    cases dirty
  rcases shape.file with ⟨_,clean⟩ | here
  · rw [clean] at dirty
    cases dirty
  · exact here.2

theorem Inv.flushFile (inv : Inv s d) : Inv s.flushFile d ∧ s.flushFile.fileblk.dirty = false := by
  rw [State.flushFile,flush]
  split
  next dirty =>
    have there := inv.shape.edited dirty
    have sizes := inv.shape.sizes
    refine ⟨⟨⟨inv.shape.sizes,inv.shape.reserved,inv.shape.window,?_,fun _ => rfl,inv.shape.super,inv.shape.opened⟩,?_⟩,rfl⟩
    · rcases inv.shape.file with ⟨none,_⟩ | here
      · exact .inl ⟨none,rfl⟩
      · exact .inr here
    refine inv.coherent.flushed .fileblk (by rintro ⟨⟩ other <;> first | rfl | contradiction) (fun k => ?_) fun k v held => held
    simp only [State.view,State.copy,bwrite_one inv.shape.opened,update_apply]
    by_cases same : k = s.fileblk.bno
    · have real : k ≠ -1 := by omega
      simp [same,there.1,same ▸ real]
    · simp [same]
  next clean => exact ⟨inv,Bool.eq_false_iff.mpr clean⟩

theorem Inv.flushSuper (inv : Inv s d) : Inv s.flushSuper d ∧ s.flushSuper.sblk.dirty = false := by
  rw [State.flushSuper,flush]
  split
  next dirty =>
    refine ⟨⟨⟨inv.shape.sizes,inv.shape.reserved,inv.shape.window,inv.shape.file,inv.shape.scratch,inv.shape.super,
      inv.shape.opened⟩,?_⟩,rfl⟩
    refine inv.coherent.flushed .sblk (by rintro ⟨⟩ other <;> first | rfl | contradiction) (fun k => ?_) fun k v held => held
    simp only [State.view,State.copy,bwrite_one inv.shape.opened,update_apply]
    by_cases same : k = s.sblk.bno <;> simp [same]
  next clean => exact ⟨inv,Bool.eq_false_iff.mpr clean⟩

theorem Inv.ckfini (inv : Inv s d) : s.ckfini.disk = d := by
  obtain ⟨first,file⟩ := inv.flushFile
  obtain ⟨second,super⟩ := first.flushSuper
  obtain ⟨third,inodes⟩ := second.flushInodes
  have place : s.flushFile.flushSuper.sblk.bno = superb := second.shape.super
  rw [State.ckfini]
  rw [if_neg fun other => other place]
  refine third.coherent.settled fun which => ?_
  cases which with
  | inoblk => exact inodes
  | fileblk =>
    rw [State.flushInodes]
    split <;> exact file
  | sblk =>
    rw [State.flushInodes]
    split <;> exact super

structure Sought (s : State β) (inumber : Nat) (t : State β) : Prop where
  file : t.fileblk = s.fileblk
  used : t.blockmap = s.blockmap
  sizes : t.fsmin = s.fsmin ∧ t.fsmax = s.fsmax
  pass : t.pass = s.pass
  window : t.startib = s.window inumber
  block : 1 ≤ itod inumber ∧ itod inumber < t.fsmin
  held : Covers t.startib (itod inumber) ∧ t.startib ≠ t.fsmax

theorem Inv.readInodes {blk : Int} (inv : Inv s d) (clean : s.inodirty = false)
    (block : 1 ≤ blk ∧ blk < s.fsmin) (room : s.fileblk.dirty = true → ¬Covers blk s.fileblk.bno) :
    Inv {s with inobuf := bread s.disk blk,startib := blk} d := by
  refine ⟨⟨inv.shape.sizes,inv.shape.reserved,.inr block,inv.shape.file,inv.shape.scratch,inv.shape.super,inv.shape.opened⟩,?_⟩
  refine inv.coherent.loaded (i := Which.inoblk) (Covers blk) clean (fun which other k inside dirty own => ?_)
    (by rintro ⟨⟩ other <;> first | rfl | contradiction) (fun k => rfl) fun k v held => ?_
  · cases which with
    | inoblk => exact absurd rfl other
    | fileblk => exact copy_file_none fun same => room dirty (same ▸ inside)
    | sblk => exact absurd (Int.le_trans block.1 inside.1) (by rw [own]; decide)
  · obtain ⟨inside,_,_,is⟩ := copy_inoblk held
    dsimp only at inside is
    have offset : blk + ((k - blk).toNat : Int) = k := by
      have low := inside.1
      omega
    rw [bread,offset] at is
    exact ⟨inside,is⟩

theorem flushInodes_frame (s : State β) :
    s.flushInodes = {s with disk := s.flushInodes.disk,inodirty := s.flushInodes.inodirty} := by
  rw [State.flushInodes]
  split <;> rfl

theorem Inv.ginode (inv : Inv s d) (room : s.Room inumber) (done : s.ginode inumber = .ok t) : Inv t d ∧ Sought s inumber t := by
  rw [State.ginode] at done
  split at done
  next => cases done
  next valid =>
    obtain ⟨low,high⟩ := not_or.mp valid
    have block := inv.shape.itod (Nat.not_lt.mp low) (Nat.not_lt.mp high)
    have sizes := inv.shape.sizes
    split at done
    next away =>
      obtain ⟨flushed,clean⟩ := inv.flushInodes
      have place : s.window inumber = itod inumber := if_pos away
      rw [flushInodes_frame] at done flushed clean
      cases done
      rw [State.Room,place] at room
      refine ⟨flushed.readInodes clean block room,⟨rfl,rfl,⟨rfl,rfl⟩,rfl,place.symm,block,⟨⟨Int.le_refl _,?_⟩,?_⟩⟩⟩
      · exact Int.lt_add_of_pos_right _ (by decide)
      · exact Int.ne_of_lt (Int.lt_trans block.2 sizes.2.1)
    next here =>
      cases done
      have place : s.window inumber = s.startib := if_neg here
      obtain ⟨low,high⟩ := not_or.mp here
      refine ⟨inv,⟨rfl,rfl,⟨rfl,rfl⟩,rfl,place.symm,block,⟨⟨Int.not_lt.mp low,Int.not_le.mp high⟩,?_⟩⟩⟩
      omega

theorem copy_editInode (reach : Covers s.startib (itod inumber) ∧ s.startib ≠ s.fsmax) (early : s.pass ≠ .five)
    (f : β → β) (k : Int) : (s.editInode inumber f true).copy .inoblk k =
      update (s.copy .inoblk) (itod inumber) (some (f (s.inobuf (itod inumber - s.startib).toNat))) k := by
  obtain ⟨covered,loaded⟩ := reach
  by_cases inside : Covers s.startib k
  · have after : (s.editInode inumber f true).copy .inoblk k =
      some ((s.editInode inumber f true).inobuf (k - s.startib).toNat) :=
      if_pos ⟨inside,loaded,fun _ => rfl⟩
    rw [after,update_apply,State.editInode]
    dsimp only
    by_cases same : k = itod inumber
    · rw [if_pos same,same,update_self]
    have apart : (k - s.startib).toNat ≠ (itod inumber - s.startib).toNat := by
      have := inside.1
      have := covered.1
      omega
    rw [if_neg same,update_of_ne apart,copy_inoblk_some inside loaded early]
  · have apart : k ≠ itod inumber := fun same => inside (same ▸ covered)
    rw [update_of_ne apart,copy_inoblk_none inside]
    exact copy_inoblk_none inside

theorem Inv.editInode (inv : Inv s d) (block : 1 ≤ itod inumber ∧ itod inumber < s.fsmin)
    (reach : Covers s.startib (itod inumber) ∧ s.startib ≠ s.fsmax) (early : s.pass ≠ .five) (f : β → β) :
    Inv (s.editInode inumber f true) (update d (itod inumber) (f (d (itod inumber)))) := by
  have sizes := inv.shape.sizes
  have window : 1 ≤ s.startib ∧ s.startib < s.fsmin := by
    rcases inv.shape.window with ⟨no,_⟩ | here
    · exact absurd no reach.2
    · exact here
  refine ⟨⟨sizes,inv.shape.reserved,.inr window,inv.shape.file,inv.shape.scratch,inv.shape.super,inv.shape.opened⟩,?_⟩
  rw [← inv.coherent.copies .inoblk _ _ (copy_inoblk_some reach.1 reach.2 early)]
  refine inv.coherent.stored (i := Which.inoblk) _ block (fun which other => ?_)
    (by rintro ⟨⟩ other <;> first | rfl | contradiction) (fun k => rfl) (copy_editInode reach early f) rfl
  cases which with
  | inoblk => exact absurd rfl other
  | fileblk => exact inv.shape.file_apart (by omega) block.2
  | sblk => exact inv.shape.super_apart block.1

theorem getblk_eq (s : State β) (b : Int) : s.getblk b = if s.fileblk.bno = b then s
    else {s.flushFile with fileblk := ⟨b,bread s.flushFile.disk b 0,s.flushFile.fileblk.dirty⟩} := by
  rw [State.getblk,getblk]
  split
  next => rfl
  next => rfl

theorem Inv.getblk (inv : Inv s d) (late : s.pass ≠ .one) (inside : s.fsmin ≤ b ∧ b < s.fsmax) : Inv (s.getblk b) d := by
  rw [getblk_eq]
  split
  next => exact inv
  next =>
    obtain ⟨flushed,clean⟩ := inv.flushFile
    have sizes := inv.shape.sizes
    refine ⟨⟨sizes,inv.shape.reserved,inv.shape.window,.inr ⟨late,inside⟩,fun _ => clean,inv.shape.super,inv.shape.opened⟩,?_⟩
    refine flushed.coherent.loaded (i := Which.fileblk) (· = b) clean (fun which other k here dirty own => ?_)
      (by rintro ⟨⟩ other <;> first | rfl | contradiction) (fun k => rfl) fun k v held => ?_
    · cases which with
      | inoblk => exact absurd (here ▸ own.2) (Int.not_lt.mpr inside.1)
      | fileblk => exact absurd rfl other
      | sblk =>
        have zero : b = 0 := here.symm.trans own
        omega
    · obtain ⟨same,_,is⟩ := copy_file held
      obtain rfl : k = b := same
      exact ⟨rfl,is.trans (congrArg s.flushFile.disk (Int.add_zero k))⟩

theorem getblk_bno (s : State β) (b : Int) : (s.getblk b).fileblk.bno = b := by
  rw [getblk_eq]
  split
  next same => exact same
  next => rfl

structure Still (s t : State β) : Prop where
  window : t.startib = s.startib
  pass : t.pass = s.pass
  low : t.fsmin = s.fsmin
  high : t.fsmax = s.fsmax

theorem Still.trans {u : State β} (first : Still s t) (second : Still t u) : Still s u :=
  ⟨second.window.trans first.window,second.pass.trans first.pass,second.low.trans first.low,second.high.trans first.high⟩

theorem getblk_still (s : State β) (b : Int) : Still s (s.getblk b) := by
  rw [getblk_eq]
  split <;> exact ⟨rfl,rfl,rfl,rfl⟩

theorem amend_still (s : State β) (b : Int) (f : β → β) : Still s ((s.getblk b).editFile f true) := by
  obtain ⟨window,pass,low,high⟩ := getblk_still s b
  exact ⟨window,pass,low,high⟩

theorem Inv.editFile (inv : Inv s d) (pass : s.pass = .two) (here : s.fileblk.bno = b)
    (inside : s.fsmin ≤ b ∧ b < s.fsmax) (apart : ¬Covers s.startib b) (f : β → β) :
    Inv (s.editFile f true) (update d b (f (d b))) := by
  subst here
  have sizes := inv.shape.sizes
  have late : s.pass ≠ .one := by
    rw [pass]
    decide
  have early : s.pass ≠ .five := by
    rw [pass]
    decide
  have real : s.fileblk.bno ≠ -1 := by omega
  refine ⟨⟨sizes,inv.shape.reserved,inv.shape.window,.inr ⟨late,inside⟩,fun five => absurd five early,
    inv.shape.super,inv.shape.opened⟩,?_⟩
  rw [← inv.coherent.copies .fileblk _ s.fileblk.buf (if_pos ⟨rfl,real,early⟩)]
  have copied : ∀ k, (s.editFile f true).copy .fileblk k = update (s.copy .fileblk) s.fileblk.bno
    (some (f s.fileblk.buf)) k := fun k => by
    rw [update_apply]
    split
    next same => exact if_pos ⟨same,same ▸ real,early⟩
    next other => exact (copy_file_none (s := s.editFile f true) other).trans (copy_file_none other).symm
  refine inv.coherent.stored (i := Which.fileblk) _ inside.1 (fun which other => ?_)
    (by rintro ⟨⟩ other <;> first | rfl | contradiction) (fun k => rfl) copied rfl
  cases which with
  | inoblk => exact copy_inoblk_none apart
  | fileblk => exact absurd rfl other
  | sblk => exact inv.shape.super_apart (by omega)

theorem Inv.editSuper (inv : Inv s d) (f : β → β) : Inv (s.editSuper f) (update d superb (f (d superb))) := by
  have sizes := inv.shape.sizes
  have super := inv.shape.super
  refine ⟨⟨sizes,inv.shape.reserved,inv.shape.window,inv.shape.file,inv.shape.scratch,super,inv.shape.opened⟩,?_⟩
  rw [← inv.coherent.copies .sblk superb s.sblk.buf (if_pos super.symm)]
  have copied : ∀ k, (s.editSuper f).copy .sblk k = update (s.copy .sblk) superb (some (f s.sblk.buf)) k := fun k => by
    rw [update_apply,← super]
    split
    next same => exact if_pos same
    next other => exact (if_neg other).trans (if_neg other).symm
  refine inv.coherent.stored (i := Which.sblk) _ rfl (fun which other => ?_)
    (by rintro ⟨⟩ other <;> first | rfl | contradiction) (fun k => rfl) copied rfl
  cases which with
  | inoblk =>
    refine copy_inoblk_none fun here => ?_
    have low := here.1
    rw [superb] at low
    rcases inv.shape.window with ⟨none,_⟩ | there <;> omega
  | fileblk => exact inv.shape.file_apart (Int.le_refl _) (by rw [superb]; omega)
  | sblk => exact absurd rfl other

theorem Inv.disk (inv : Inv s d) (inside : s.fsmin ≤ b) (file : s.copy .fileblk b = none) : s.disk b = d b := by
  have sizes := inv.shape.sizes
  refine inv.coherent.rest b fun which _ own => ?_
  cases which with
  | inoblk => exact absurd own.2 (Int.not_lt.mpr inside)
  | fileblk => exact file
  | sblk =>
    have zero : b = 0 := own
    omega

theorem Inv.write (inv : Inv s d) (inside : s.fsmin ≤ b) (file : s.copy .fileblk b = none)
    (window : s.copy .inoblk b = none) (v : β) : Inv {s with disk := update s.disk b v} (update d b v) := by
  have sizes := inv.shape.sizes
  refine ⟨⟨sizes,inv.shape.reserved,inv.shape.window,inv.shape.file,inv.shape.scratch,inv.shape.super,inv.shape.opened⟩,?_⟩
  refine inv.coherent.write v (fun which => ?_) rfl (funext fun which => by cases which <;> rfl)
  cases which with
  | inoblk => exact window
  | fileblk => exact file
  | sblk => exact inv.shape.super_apart (by omega)

theorem Inv.setbmap (inv : Inv s d) (b : Int) : Inv (s.setbmap b) d := by
  refine ⟨⟨inv.shape.sizes,fun k low high => ?_,inv.shape.window,inv.shape.file,inv.shape.scratch,inv.shape.super,
    inv.shape.opened⟩,inv.coherent⟩
  rw [State.setbmap]
  dsimp only
  rw [update_apply]
  split
  next => rfl
  next => exact inv.shape.reserved k low high

theorem Inv.clrbmap (inv : Inv s d) (inside : s.fsmin ≤ b) : Inv (s.clrbmap b) d := by
  refine ⟨⟨inv.shape.sizes,fun k low high => ?_,inv.shape.window,inv.shape.file,inv.shape.scratch,inv.shape.super,
    inv.shape.opened⟩,inv.coherent⟩
  have other : k ≠ b := fun same => absurd high (Int.not_lt.mpr (same ▸ inside))
  exact (update_of_ne other ..).trans (inv.shape.reserved k low high)

theorem Shape.unused (shape : Shape s) (found : s.unused ≠ 0) : s.fsmin ≤ s.unused ∧ s.unused < s.fsmax := by
  rw [State.unused] at found ⊢
  cases first : ((List.range s.fsmax.toNat).map Int.ofNat).find? fun i => !s.blockmap i with
  | none =>
    rw [first] at found
    exact absurd rfl found
  | some b =>
    rw [Option.getD_some]
    have free := List.find?_some first
    obtain ⟨k,listed,is⟩ := mem_map.mp (mem_of_find?_eq_some first)
    have bound := mem_range.mp listed
    have low : 0 ≤ b := is ▸ Int.natCast_nonneg k
    refine ⟨Int.not_lt.mp fun high => ?_,?_⟩
    · rw [shape.reserved b low high] at free
      cases free
    have place : (k : Int) = b := is
    omega

theorem applied_one (d : Int → β) (b : Int) (f : β → β) : applied d [(b,f)] = update d b (f (d b)) := rfl

theorem applied_append (d : Int → β) (cs cs' : List (Int × (β → β))) :
    applied d (cs ++ cs') = applied (applied d cs) cs' := foldl_append

theorem Inv.iblock {f : Option (β → β)} (inv : Inv s d) (pass : s.pass = .one) (meets : Meets s (.iblock b f)) :
    Inv (s.iblock b f) (applied d (changes s (.iblock b f))) := by
  rw [State.iblock,changes]
  cases outside : s.outrange b with
  | true => exact inv
  | false =>
    cases f with
    | none => exact inv
    | some f =>
      have sizes := inv.shape.sizes
      have inside := (outrange_false b).mp outside
      have file : s.copy .fileblk b = none := copy_file_none fun same => by
        rcases inv.shape.file with ⟨none,_⟩ | here
        · omega
        · exact here.1 pass
      have value : f (bread s.disk b 0) = f (d b) := by
        rw [← inv.disk inside.1 file,bread]
        exact congrArg (fun k => f (s.disk k)) (Int.add_zero b)
      have write := inv.write inside.1 file (copy_inoblk_none (meets outside rfl)) (f (d b))
      rw [← bwrite_one inv.shape.opened s.disk,← value] at write
      exact applied_one d b f ▸ value ▸ write

theorem Inv.amend (inv : Inv s d) (pass : s.pass = .two) (inside : s.fsmin ≤ b ∧ b < s.fsmax)
    (apart : ¬Covers s.startib b) (f : β → β) : Inv ((s.getblk b).editFile f true) (update d b (f (d b))) := by
  have late : s.pass ≠ .one := by
    rw [pass]
    decide
  have still := getblk_still s b
  exact (inv.getblk late inside).editFile (still.pass.trans pass) (getblk_bno s b) (still.low ▸ still.high ▸ inside)
    (still.window ▸ apart) f

theorem Inv.readdir {f : Option (β → β)} {fix : Bool} (inv : Inv s d) (pass : s.pass = .two)
    (meets : Meets s (.readdir b f fix)) : Inv (s.readdir b f fix) (applied d (changes s (.readdir b f fix))) := by
  rw [State.readdir.eq_def,changes]
  cases outside : s.outrange b with
  | true => exact inv
  | false =>
    have inside := (outrange_false b).mp outside
    cases f with
    | none =>
      refine inv.getblk ?_ inside
      rw [pass]
      decide
    | some f =>
      obtain ⟨apart,fix⟩ := meets outside rfl
      rw [fix]
      exact inv.amend pass inside apart f

theorem Inv.dirscan {f : β → β} (inv : Inv s d) (pass : s.pass = .two) (meets : Meets s (.dirscan b f)) :
    Inv (s.dirscan b f) (applied d (changes s (.dirscan b f))) := by
  rw [State.dirscan,changes]
  cases outside : s.outrange b with
  | true => exact inv
  | false =>
    have inside := (outrange_false b).mp outside
    have marked := (inv.amend pass inside (meets outside) f).editSuper id
    rw [id,update_eq_self] at marked
    exact marked

theorem Sought.unused (sought : Sought s inumber t) : t.unused = s.unused := by
  rw [State.unused,State.unused,sought.used,sought.sizes.2]

theorem Inv.allocdir {f : Int → β → β} {g : β → β} (inv : Inv s d) (pass : s.pass = .two)
    (meets : Meets s (.allocdir inumber f g)) (done : s.allocdir inumber f g = .ok t) :
    Inv t (applied d (changes s (.allocdir inumber f g))) := by
  obtain ⟨room,apart⟩ := meets
  rw [State.allocdir] at done
  obtain ⟨u,found,done⟩ := except_bind_ok done
  obtain ⟨kept,sought⟩ := inv.ginode room found
  simp only [State.allocblk,sought.unused] at done
  split at done
  next => cases done
  next nonzero =>
    cases done
    have pass := sought.pass.trans pass
    have early : u.pass ≠ .five := by
      rw [pass]
      decide
    have inside := kept.shape.unused (sought.unused ▸ nonzero)
    rw [sought.unused] at inside
    rw [← sought.window] at apart
    have entered := (kept.setbmap s.unused).editInode sought.block sought.held early (f s.unused)
    exact entered.amend pass inside apart g

theorem Inv.expanddir {old : Int} {f g : β → β} {h : Int → β → β} {fix : Bool} (inv : Inv s d) (pass : s.pass = .two)
    (meets : Meets s (.expanddir inumber old f g h fix)) (done : s.expanddir inumber old f g h fix = .ok t) :
    Inv t (applied d (changes s (.expanddir inumber old f g h fix))) := by
  obtain ⟨room,apart,within,away,wanted⟩ := meets
  rw [State.expanddir] at done
  obtain ⟨u,found,done⟩ := except_bind_ok done
  obtain ⟨kept,sought⟩ := inv.ginode room found
  simp only [State.allocblk,sought.unused] at done
  rw [changes]
  split at done
  next zero =>
    rw [if_pos zero]
    cases done
    exact kept
  next nonzero =>
    rw [if_neg nonzero]
    cases done
    have pass := sought.pass.trans pass
    have early : u.pass ≠ .five := by
      rw [pass]
      decide
    have late : u.pass ≠ .one := by
      rw [pass]
      decide
    have inside := kept.shape.unused (sought.unused ▸ nonzero)
    have within := (outrange_false old).mp within
    rw [sought.unused] at inside
    rw [← sought.sizes.1,← sought.sizes.2] at within
    rw [← sought.window] at apart away
    have still := getblk_still (u.setbmap s.unused) old
    have entered := ((kept.setbmap s.unused).getblk late within).amend (still.pass.trans pass) (still.low ▸ still.high ▸ inside)
      (still.window ▸ apart) f
    have still := still.trans (amend_still _ s.unused f)
    have moved := entered.amend (still.pass.trans pass) (still.low ▸ still.high ▸ within) (still.window ▸ away) g
    have still := still.trans (amend_still _ old g)
    have early : (u.setbmap s.unused).pass ≠ .five := early
    have block : 1 ≤ itod inumber ∧ itod inumber < (u.setbmap s.unused).fsmin := sought.block
    have held : Covers (u.setbmap s.unused).startib (itod inumber) ∧
      (u.setbmap s.unused).startib ≠ (u.setbmap s.unused).fsmax := sought.held
    rw [← still.pass] at early
    rw [← still.low] at block
    rw [← still.window,← still.high] at held
    exact moved.editInode block held early (h s.unused)

theorem Inv.link {blk : Int} (inv : Inv s d) (pass : s.pass = .five) (inside : s.fsmin ≤ blk ∧ blk < s.fsmax)
    (apart : s.inodirty = true → ¬Covers s.startib blk) (fblk : List Int → β) (chunk : List Int) :
    Inv (s.link fblk blk chunk) (update d blk (fblk chunk)) := by
  have file : s.copy .fileblk blk = none := if_neg fun here => here.2.2 pass
  have window : s.copy .inoblk blk = none := if_neg fun here => apart (here.2.2 pass) here.1
  have written := inv.write inside.1 file window (fblk chunk)
  rw [← bwrite_one inv.shape.opened s.disk] at written
  have late : s.pass ≠ .one := by
    rw [pass]
    decide
  refine ⟨⟨inv.shape.sizes,inv.shape.reserved,inv.shape.window,.inr ⟨late,inside⟩,fun _ => rfl,inv.shape.super,
    inv.shape.opened⟩,?_⟩
  refine written.coherent.release_at .fileblk (by rintro ⟨⟩ other <;> first | rfl | contradiction) (fun k => rfl)
    (fun k w held => absurd pass (copy_file held).2.1) fun dirty => ?_
  have marked : s.fileblk.dirty = true := dirty
  rw [inv.shape.scratch pass] at marked
  cases marked

theorem Inv.salvage (fblk : List Int → β) : ∀ (blks : List Int) {s : State β} {d : Int → β} (chunk : List Int),
    Inv s d → s.pass = .five → (∀ b ∈ blks, s.fsmin ≤ b ∧ b < s.fsmax) →
    (s.inodirty = true → ∀ l ∈ (chained s.blockmap blks chunk).1, ¬Covers s.startib l.1) →
    Inv (salvage fblk blks s chunk).1 (applied d ((chained s.blockmap blks chunk).1.map fun l => (l.1,fun _ => fblk l.2))) ∧
      (salvage fblk blks s chunk).2 = (chained s.blockmap blks chunk).2
  | [],_,_,_,inv,_,_,_ => ⟨inv,rfl⟩
  | blk :: blks,s,d,chunk,inv,pass,inside,apart => by
    have within : ∀ b ∈ blks, s.fsmin ≤ b ∧ b < s.fsmax := fun b member => inside b (mem_cons_of_mem _ member)
    rw [chained] at apart
    rw [Fsck.salvage,chained]
    split
    next used =>
      rw [if_pos used] at apart
      exact Inv.salvage fblk blks chunk inv pass within apart
    next free =>
      rw [if_neg free] at apart
      split
      next full =>
        rw [if_pos full] at apart
        have linked := inv.link pass (inside blk mem_cons_self) (fun dirty => apart dirty _ mem_cons_self) fblk chunk
        exact Inv.salvage fblk blks [blk] linked pass within fun dirty l member => apart dirty l (mem_cons_of_mem _ member)
      next part =>
        rw [if_neg part] at apart
        exact Inv.salvage fblk blks (chunk ++ [blk]) inv pass within apart

theorem downwards_inside (s : State β) (member : b ∈ s.downwards) : s.fsmin ≤ b ∧ b < s.fsmax := by
  obtain ⟨k,listed,is⟩ := mem_map.mp member
  have bound := mem_range.mp listed
  have place : s.fsmax - 1 - (k : Int) = b := is
  omega

theorem Inv.scratch (inv : Inv s d) (pass : s.pass = .five) (v : β) :
    Inv {s with fileblk := ⟨s.fileblk.bno,v,s.fileblk.dirty⟩} d := by
  refine ⟨⟨inv.shape.sizes,inv.shape.reserved,inv.shape.window,inv.shape.file,inv.shape.scratch,inv.shape.super,
    inv.shape.opened⟩,?_⟩
  refine inv.coherent.release_at .fileblk (by rintro ⟨⟩ other <;> first | rfl | contradiction) (fun k => rfl)
    (fun k w held => absurd pass (copy_file held).2.1) fun dirty => ?_
  have marked : s.fileblk.dirty = true := dirty
  rw [inv.shape.scratch pass] at marked
  cases marked

theorem salvage_pass (fblk : List Int → β) :
    ∀ (blks : List Int) (s : State β) (chunk : List Int),(salvage fblk blks s chunk).1.pass = s.pass
  | [],_,_ => rfl
  | blk :: blks,s,chunk => by
    rw [salvage]
    split
    next => exact salvage_pass fblk blks s chunk
    next =>
      split
      next => exact salvage_pass fblk blks _ [blk]
      next => exact salvage_pass fblk blks s (chunk ++ [blk])

theorem Inv.makefree {fblk : List Int → β} {sb : List Int → β → β} (inv : Inv s d) (pass : s.pass = .five)
    (meets : Meets s (.makefree fblk sb)) : Inv (s.makefree fblk sb) (applied d (changes s (.makefree fblk sb))) := by
  obtain ⟨linked,chunk⟩ := Inv.salvage fblk s.downwards [0] inv pass (fun b => downwards_inside s) meets
  have late := (salvage_pass fblk s.downwards s [0]).trans pass
  rw [State.makefree,changes]
  dsimp only
  rw [applied_append,applied_one,chunk]
  exact (linked.scratch late _).editSuper _

theorem setup_sizes (fits : (((isize : Int) - 1) * inopb % word).toNat / inopb = (((isize : Int) - 1) % word).toNat) :
    1 ≤ (isize : Int).bmod word ∧ ((((isize : Int) - 1) * inopb % word).toNat : Int) = 16 * ((isize : Int).bmod word - 1) := by
  rw [inopb,word] at *
  rw [Int.bmod_def]
  split <;> omega

theorem setup_ok {fsize : Nat} {disk : Int → β} (opened : setup false isize fsize disk = some s) :
    ∃ (imax : Nat) (fsmin fsmax : Int), 1 ≤ fsmin ∧ fsmin < fsmax ∧ (imax : Int) = 16 * (fsmin - 1) ∧ s =
      ⟨disk,fun _ => disk superb,fsmax,false,⟨-1,disk superb,false⟩,⟨superb,bread disk superb 0,false⟩,fun _ =>
      false,imax,fsmin,fsmax,.one,
        true⟩ := by
  unfold setup at opened
  extract_lets imax fsmin fsmax empty at opened
  split at opened
  next => cases opened
  next sizes =>
    obtain ⟨order,fits⟩ := not_or.mp sizes
    obtain ⟨low,inodes⟩ : 1 ≤ fsmin ∧ (imax : Int) = 16 * (fsmin - 1) := setup_sizes (Classical.not_not.mp fits)
    exact ⟨imax,fsmin,fsmax,low,Int.not_le.mp order,inodes,(Option.some.inj opened).symm⟩

theorem setup_inv {fsize : Nat} {disk : Int → β} (opened : setup false isize fsize disk = some s) : Inv s.pass1 disk := by
  obtain ⟨imax,fsmin,fsmax,low,order,inodes,rfl⟩ := setup_ok opened
  clear opened
  refine ⟨⟨⟨low,order,inodes⟩,fun b low high => ?_,.inl ⟨rfl,rfl⟩,.inl ⟨rfl,rfl⟩,fun _ => rfl,rfl,rfl⟩,
    ⟨fun which k v held => ?_,fun _ _ => rfl⟩⟩
  · have here : (decide (0 ≤ b) && decide (b < fsmin)) = true := by
      rw [decide_eq_true low]
      exact decide_eq_true high
    exact Bool.or_eq_true_iff.mpr (.inl here)
  cases which with
  | inoblk => exact absurd rfl (copy_inoblk held).2.1
  | fileblk =>
    have real : k ≠ -1 := fun none => by
      rw [none] at held
      cases held
    exact absurd (copy_file held).1 real
  | sblk =>
    obtain ⟨same,is⟩ := copy_super held
    rw [is,same]
    rfl

theorem Inv.pass4check (inv : Inv s d) (b : Int) : Inv (s.pass4check b) d := by
  rw [State.pass4check]
  split
  next => exact inv
  next inside => exact inv.clrbmap ((outrange_false b).mp (Bool.eq_false_iff.mpr inside)).1

theorem Inv.pass5 (inv : Inv s d) : Inv {s.flushFile with pass := .five} d := by
  obtain ⟨flushed,clean⟩ := inv.flushFile
  have shape := flushed.shape
  refine ⟨⟨shape.sizes,shape.reserved,shape.window,?_,fun _ => clean,shape.super,shape.opened⟩,?_⟩
  · rcases shape.file with none | here
    · exact .inl none
    · exact .inr ⟨Pass.noConfusion,here.2⟩
  refine flushed.coherent.release (fun k => rfl) (fun which k v held => ?_) fun which dirty => ?_
  · cases which with
    | inoblk =>
      obtain ⟨inside,loaded,dirty,is⟩ := copy_inoblk held
      rw [is]
      exact if_pos ⟨inside,loaded,fun _ => dirty rfl⟩
    | fileblk => exact absurd rfl (copy_file held).2.1
    | sblk => exact held
  cases which with
  | inoblk =>
    have dirty : s.flushFile.inodirty = true := dirty
    refine ⟨dirty,fun k => ?_⟩
    by_cases inside : Covers s.flushFile.startib k ∧ s.flushFile.startib ≠ s.flushFile.fsmax
    · exact (if_pos ⟨inside.1,inside.2,fun _ => dirty⟩).trans (if_pos ⟨inside.1,inside.2,fun _ => dirty⟩).symm
    · exact (if_neg fun here => inside ⟨here.1,here.2.1⟩).trans (if_neg fun here => inside ⟨here.1,here.2.1⟩).symm
  | fileblk =>
    have marked : s.flushFile.fileblk.dirty = true := dirty
    rw [clean] at marked
    cases marked
  | sblk => exact ⟨dirty,fun _ => rfl⟩

theorem Inv.pass2 (inv : Inv s d) (pass : s.pass = .one) : Inv {s with pass := .two} d := by
  obtain ⟨none,clean⟩ : s.fileblk.bno = -1 ∧ s.fileblk.dirty = false := by
    rcases inv.shape.file with none | here
    · exact none
    · exact absurd pass here.1
  refine ⟨⟨inv.shape.sizes,inv.shape.reserved,inv.shape.window,.inl ⟨none,clean⟩,Pass.noConfusion,
    inv.shape.super,inv.shape.opened⟩,?_⟩
  have copied : ∀ which k, ({s with pass := .two} : State β).copy which k = s.copy which k := fun which k => by
    cases which <;> simp [State.copy,pass]
  refine inv.coherent.release (fun k => rfl) (fun which k v held => (copied which k).symm.trans held) fun which dirty => ?_
  exact ⟨by cases which <;> exact dirty,copied which⟩

theorem during_ok {now : Bool} {next : Except Fault (State β)} (done : during now next = .ok t) : now = true ∧ next = .ok t := by
  rw [during] at done
  split at done
  next yes => exact ⟨yes,done⟩
  next => cases done

theorem Inv.step {op : Op β} (inv : Inv s d) (meets : Meets s op) (done : step s op = .ok t) :
    Inv t (applied d (changes s op)) := by
  cases op with
  | ginode inumber =>
    obtain ⟨_,done⟩ := during_ok done
    exact (inv.ginode meets done).1
  | inode inumber f fix =>
    obtain ⟨early,done⟩ := during_ok done
    obtain ⟨u,found,done⟩ := except_bind_ok done
    obtain ⟨kept,sought⟩ := inv.ginode meets.1 found
    cases done
    rw [meets.2]
    exact kept.editInode sought.block sought.held (sought.pass ▸ of_decide_eq_true early) f
  | pass1check b =>
    obtain ⟨_,done⟩ := during_ok done
    cases done
    rw [State.pass1check]
    split
    next => exact inv
    next => exact inv.setbmap b
  | iblock b f =>
    obtain ⟨pass,done⟩ := during_ok done
    cases done
    exact inv.iblock (of_decide_eq_true pass) meets
  | pass1b =>
    obtain ⟨_,done⟩ := during_ok done
    cases done
    exact inv.flushInodes.1
  | pass2 =>
    obtain ⟨pass,done⟩ := during_ok done
    cases done
    exact inv.pass2 (of_decide_eq_true pass)
  | readdir b f fix =>
    obtain ⟨pass,done⟩ := during_ok done
    cases done
    exact inv.readdir (of_decide_eq_true pass) meets
  | dirscan b f =>
    obtain ⟨pass,done⟩ := during_ok done
    cases done
    exact inv.dirscan (of_decide_eq_true pass) meets
  | pass4check b =>
    obtain ⟨_,done⟩ := during_ok done
    cases done
    exact inv.pass4check b
  | allocdir inumber f g =>
    obtain ⟨pass,done⟩ := during_ok done
    exact inv.allocdir (of_decide_eq_true pass) meets done
  | expanddir inumber old f g h fix =>
    obtain ⟨pass,done⟩ := during_ok done
    exact inv.expanddir (of_decide_eq_true pass) meets done
  | pass5 =>
    obtain ⟨_,done⟩ := during_ok done
    cases done
    exact inv.pass5
  | super f =>
    obtain ⟨_,done⟩ := during_ok done
    cases done
    exact inv.editSuper f
  | freeblk v =>
    obtain ⟨pass,done⟩ := during_ok done
    cases done
    exact inv.scratch (of_decide_eq_true pass) v
  | freechk b =>
    obtain ⟨pass,done⟩ := during_ok done
    cases done
    have pass := of_decide_eq_true pass
    split
    next => exact inv
    next inside =>
      refine inv.getblk ?_ ((outrange_false b).mp (Bool.eq_false_iff.mpr inside))
      rw [pass]
      decide
  | makefree fblk sb =>
    obtain ⟨pass,done⟩ := during_ok done
    cases done
    exact inv.makefree (of_decide_eq_true pass) meets

theorem Inv.kept (inv : Inv s d) : Kept (s,d) := ⟨fun which b v held => inv.coherent.copies which b v held,inv.ckfini⟩

end

section
variable {β : Type} {s : State β} {isize fsize : Nat} {disk : Int → β} {ops : List (Op β)} {p : State β × (Int → β)}

theorem next_ok {q : State β × (Int → β)} {op : Op β} (done : next p op = .ok q) :
    step p.1 op = .ok q.1 ∧ q.2 = applied p.2 (changes p.1 op) := by
  rw [next] at done
  cases first : step p.1 op with
  | error e =>
    rw [first] at done
    cases done
  | ok t =>
    rw [first] at done
    cases done
    exact ⟨rfl,rfl⟩

/-- In a run whose steps meet the condition no update is lost. -/
theorem updates_kept (opened : setup false isize fsize disk = some s)
    (meets : Along next (fun p op => Meets p.1 op) (s.pass1,disk) ops)
    (done : run next (s.pass1,disk) ops = .ok p) : Kept p := by
  have preserved : ∀ (p : State β × (Int → β)) op q, Inv p.1 p.2 → Meets p.1 op → next p op = .ok q → Inv q.1 q.2 := by
    intro p op q inv meets done
    obtain ⟨stepped,is⟩ := next_ok done
    rw [is]
    exact inv.step meets stepped
  exact (run_invariant preserved ops (s.pass1,disk) p (setup_inv opened) meets done).kept

end

def repair : List (Op Nat) :=
  [.pass1check 5,.iblock 7 (some fun _ => 7),.inode 2 (fun _ => 1) true,.pass2,.readdir 5 none false,.dirscan 5 fun _ => 2,
    .allocdir 3 (fun b _ => b.toNat) fun _ => 3,.expanddir 3 5 (fun _ => 4) (fun v => v + 1) (fun b _ =>
    b.toNat) true,.pass4check 5,
    .pass5,.freeblk 0,.freechk 8,.super (fun _ => 4),.makefree (fun _ => 9) fun _ _ => 5]

def fresh : State Nat := ⟨fun _ => 0,fun _ => 0,12,false,⟨-1,0,false⟩,⟨superb,0,false⟩,fun _ => false,64,5,12,.one,true⟩

theorem updates_kept_repair : ∃ p, run next (fresh.pass1,fun _ => 0) repair = .ok p ∧ Kept p := by
  have opened : setup false 5 12 (fun _ => 0) = some fresh := rfl
  have ends : returns (fun _ => true) (run next (fresh.pass1,fun _ => 0) repair) = true := by decide +kernel
  obtain ⟨p,done,_⟩ := of_returns ends
  exact ⟨p,done,updates_kept opened (by decide +kernel) done⟩

/-- A file system with the root directory in the first data block, which the window reaches: an entry is removed from it,
then a link count is corrected. -/
def entryRemoved : List (Op Nat) := [.ginode 2,.pass2,.dirscan 2 fun _ => 1,.inode 3 (fun _ => 2) true,.pass5]

/-- What was removed is back when fsck is done. -/
theorem entry_comes_back : ∃ s p, setup false 2 20 (fun _ => 0) = some s ∧ run next (s.pass1,fun _ => 0) entryRemoved = .ok p ∧
    p.2 2 = 1 ∧ p.1.ckfini.disk 2 = 0 ∧ ¬Kept p := by
  refine ⟨_,_,rfl,rfl,rfl,rfl,fun kept => ?_⟩
  have same := congrFun kept.2 2
  cases same

end Retrobsd.Fsck

import Retrobsd.Truncation

/-! `ckinode` of fsck with `ADDR`: in which order it comes to the blocks of an inode, and what becomes of the pointers
behind the end of the file. The number of entries of an indirect block is computed from the size of the whole file. -/
namespace Retrobsd.FsckTraversal
open List Int Nat
open FileData (level)

def devBsize : Int := 1024
def nindir : Nat := 256

/-- An address of the inode, and the indices in the indirect blocks on the way, the last one first. -/
structure Pointer where
  slot : Fin 7
  way : List Nat
deriving DecidableEq

def Pointer.child (p : Pointer) (j : Nat) : Pointer := ⟨p.slot,j :: p.way⟩

def Pointer.level (p : Pointer) : Nat := FileData.level p.slot - p.way.length

def firstBelow (slot : Fin 7) : List Nat → Nat
  | [] => FileData.firstBlock slot
  | j :: way => firstBelow slot way + j * nindir ^ (Pointer.level ⟨slot,way⟩ - 1)

/-- The first block of the file that is reached through the pointer. -/
def Pointer.first (p : Pointer) : Nat := firstBelow p.slot p.way

inductive Event
  | call (p : Pointer)
  | truncated (p : Pointer)
deriving DecidableEq

structure Ret where
  keepon : Bool
  stop : Bool

/-- An inode with the pointers as they are when they are come to, and the blocks that can be read. -/
structure Dinode where
  special : Bool
  size : Int
  addr : Pointer → Int
  readable : Pointer → Bool

def sizepb (ilevel : Nat) : Int := devBsize * nindir ^ ilevel

/-- `NINDIR` is unsigned, and so is the comparison with it: a negative count becomes 256. -/
def nif (ilevel : Nat) (isize : Int) : Nat :=
  let nif := ((isize.tdiv (sizepb ilevel) + 1) % 2^32).toNat
  if nif > nindir then nindir else nif

section
variable (func : List Event → Ret) (pass1check : Bool) (x : Dinode)

def applied (h : List Event) (p : Pointer) : List Event × Ret := (h ++ [.call p],func (h ++ [.call p]))

def each (f : Nat → List Event → List Event × Ret) (at' : Nat → Pointer) : List Nat → List Event → List Event × Ret
  | [],h => (h,⟨true,false⟩)
  | j :: js,h =>
    if x.addr (at' j) = 0 then each f at' js h
    else
      let (h,n) := f j h
      if n.stop then (h,n) else each f at' js h

def truncations (p : Pointer) (nif : Nat) : List Event :=
  if pass1check ∧ nif < nindir then
    ((List.range nindir).filter fun j => nif ≤ j ∧ x.addr (p.child j) ≠ 0).map fun j => .truncated (p.child j)
  else []

def iblock : Nat → Int → Pointer → List Event → List Event × Ret
  | 0,_,p,h => applied func h p
  | ilevel + 1,isize,p,h =>
    let (h,n) := applied func h p
    if n.keepon = false then (h,n)
    else if x.readable p = false then (h,⟨false,false⟩)
    else
      let nif := nif ilevel isize
      -- `i` counts the pointers from 1
      each x (fun j => iblock ilevel ((isize - (j + 1) * sizepb ilevel).bmod (2^32)) (p.child j)) p.child (List.range nif)
        (h ++ truncations pass1check x p nif)

end
section
variable (x : Dinode)

def Dinode.Due (p : Pointer) : Prop := devBsize * p.first < x.size

instance (p : Pointer) : Decidable (x.Due p) := inferInstanceAs (Decidable (_ < _))

def Dinode.below : Nat → Pointer → List Pointer
  | 0,p => if x.addr p ≠ 0 ∧ x.Due p then [p] else []
  | l + 1,p =>
    if x.addr p ≠ 0 ∧ x.Due p then
      p :: if x.readable p then (List.range nindir).flatMap fun j => Dinode.below l (p.child j) else []
    else []

/-- The pointers that the size allows, in the order of the blocks of the file, each before those in its block. -/
def Dinode.allowed : List Pointer :=
  if x.special then [] else (List.finRange 7).flatMap fun slot => x.below (level slot) ⟨slot,[]⟩

def calls (h : List Event) : List Pointer := h.filterMap fun e => match e with
  | .call p => some p
  | _ => none

structure Right (pass1check : Bool) (h : List Event) : Prop where
  order : (calls h).filter (fun p => decide (x.Due p)) = x.allowed
  beyond : pass1check = true → ∀ p j, .truncated (p.child j) ∈ h ↔
    .call p ∈ h ∧ 0 < p.level ∧ x.readable p = true ∧ j < nindir ∧ x.addr (p.child j) ≠ 0 ∧ ¬x.Due (p.child j)
  inside : ∀ (p : Pointer) (j : Nat), .call (p.child j) ∈ h ∨ .truncated (p.child j) ∈ h → j < nindir

/-- The blocks that are come to if no entry behind the end is taken for one of the file. -/
inductive Dinode.Reached : Pointer → Prop
  | slot {i : Fin 7} (some : x.addr ⟨i,[]⟩ ≠ 0) : Dinode.Reached ⟨i,[]⟩
  | child {p : Pointer} {j : Nat} (there : Dinode.Reached p) (deep : 0 < p.level) (readable : x.readable p = true)
    (inside : j < nindir) (some : x.addr (p.child j) ≠ 0) (due : x.Due (p.child j)) : Dinode.Reached (p.child j)

def lower : Nat → Nat
  | l + 2 => lower (l + 1) + nindir ^ (l + 1)
  | _ => 0

def Dinode.isize (p : Pointer) : Int := x.size - devBsize * p.first + devBsize * lower p.level

/-- As many entries of the block are taken for ones of the file. -/
def Dinode.entries (p : Pointer) : Nat := nif (p.level - 1) (x.isize p)

structure Dinode.WellFormed : Prop where
  plain : x.special = false
  slots : ∀ i, x.addr ⟨i,[]⟩ ≠ 0 → x.Due ⟨i,[]⟩
  blocks : ∀ p, x.Reached p → 0 < p.level → x.readable p = true ∧ ∀ j < nindir, x.addr (p.child j) ≠ 0 → x.Due (p.child j)

end

variable {pass1check : Bool} {x : Dinode} {p q : Pointer} {l j : Nat}

section
variable {func : List Event → Ret}

theorem first_le (slot : Fin 7) : ∀ way, FileData.firstBlock slot ≤ firstBelow slot way
  | [] => le_refl _
  | _ :: way => (first_le slot way).trans (Nat.le_add_right _ _)

variable (pass1check x) in
def events : Nat → Pointer → List Event
  | 0,p => [.call p]
  | l + 1,p => .call p :: if x.readable p = true then
      truncations pass1check x p (x.entries p) ++
        (List.range (x.entries p)).flatMap fun j => if x.addr (p.child j) = 0 then [] else events l (p.child j)
    else []

end

variable {e : Event}

theorem Dinode.WellFormed.due (formed : x.WellFormed) (there : x.Reached p) : x.Due p := by
  cases there with
  | slot some => exact formed.slots _ some
  | child _ _ _ _ _ due => exact due

section
open FileData (File indirect leafAt place mapBlocks firstBlock)

def address (f : File) (slot : Fin 7) : List Nat → Nat
  | [] => f.ip.iAddr slot
  | j :: way => (f.volume.disk (address f slot way)).word j

variable {f : File} {readable : Nat → Bool} {n : Nat}

end

def goesOn (_ : List Event) : Ret := ⟨true,false⟩

end Retrobsd.FsckTraversal

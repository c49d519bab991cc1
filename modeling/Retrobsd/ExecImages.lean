import Retrobsd.Stacks
import Retrobsd.TransferConfinement

/-! The image of a file that `getxfile` of kern_exec.c loads: its sizes, which are added up
in words, and the addresses that reading it and clearing the rest of the memory store to. -/
namespace Retrobsd.ExecImages
open Transfers Stacks BitVec

def enomem : Nat := 12
def etxtbsy : Nat := 26

def fold (ep : Exec) : Exec := if ep.omagic then {ep with aData := ep.aData + ep.aText,aText := 0} else ep

def bzeroHead : Nat → Word → Word → List Word × Option (Word × Word)
  | 0,dst,nbytes => ([],some (dst,nbytes))
  | turns + 1,dst,nbytes =>
    if dst &&& 3 ≠ 0 then
      if nbytes - 1 = 0 then ([dst],none)
      else
        let (stored,left) := bzeroHead turns (dst + 1) (nbytes - 1)
        (dst :: stored,left)
    else ([],some (dst,nbytes))

def bzero (dst nbytes : Word) : List Word :=
  match bzeroHead 3 dst nbytes with
  | (stored,none) => stored
  | (stored,some (dst,nbytes)) => stored ++ bytes dst nbytes.toNat

structure Image where
  ts : Word
  ds : Word
  ss : Word
  pDaddr : Word
  pSaddr : Word
  aData : Word
deriving DecidableEq

/-- An entry of the file table. `fData` is the inode of a `DTYPE_INODE`. -/
structure File (ι : Type) where
  fData : Option ι
  fCount : Nat
  fwrite : Bool
deriving DecidableEq

/-- The text of `ip` is no shared one yet, and the file is open for writing. -/
def textBusy {ι : Type} [DecidableEq ι] (ip : ι) (itext : Bool) (iCount : Nat) (file : List (File ι)) : Bool :=
  !itext && iCount != 1 && file.any fun fp => fp.fData = some ip ∧ fp.fCount > 0 ∧ fp.fwrite

def getxfile (ep : Exec) (nargc : Word) (busy : Bool) : Except Nat Image :=
  let ep := fold ep
  if ep.aText ≠ 0 ∧ busy then .error etxtbsy
  else
    let ts := ep.aText
    let ds := ep.aData + ep.aBss
    let ss := ssize + nargc
    if ts + ds + ss > maxmem then .error enomem
    else .ok ⟨ts,ds,ss,userDataStart,userDataEnd - ss,ep.aData⟩

def Image.read (i : Image) (available : Nat) : List Word := bytes userDataStart (min i.aData.toNat available)

def Image.cleared (i : Image) : List Word := bzero (userDataStart + i.aData) (userDataEnd - userDataStart - i.aData)

def exact (ep : Exec) (nargc : Word) : Nat := ep.aText.toNat + ep.aData.toNat + ep.aBss.toNat + (ssize.toNat + nargc.toNat)

def Ram (a : Word) : Prop := userDataStart ≤ a ∧ a < userDataEnd

instance (a : Word) : Decidable (Ram a) := instDecidableAnd

structure Fits (ep : Exec) (nargc : Word) (i : Image) : Prop where
  small : exact ep nargc ≤ maxmem.toNat
  read : ∀ available, ∀ a ∈ i.read available, Ram a
  cleared : ∀ a ∈ i.cleared, Ram a

variable {ep : Exec} {nargc : Word} {busy : Bool} {i : Image}

theorem sum_exact (ep : Exec) (nargc : Word) :
    ((fold ep).aText + ((fold ep).aData + (fold ep).aBss) + (ssize + nargc)).toNat = exact ep nargc % 2^32 := by
  unfold fold exact
  split <;> bv_omega

def bzeroTail : List Word × Option (Word × Word) → List Word
  | (stored,none) => stored
  | (stored,some rest) => stored ++ bytes rest.1 rest.2.toNat

theorem bytes_cons (a : Word) (n : Nat) : bytes a (n + 1) = a :: bytes (a + 1) n := by
  unfold bytes
  rw [List.range_succ_eq_map]
  simp only [List.map_cons,List.map_map,List.cons.injEq]
  refine ⟨by simp,List.map_congr_left fun i _ => ?_⟩
  simp only [Function.comp_apply]
  bv_omega

theorem bytes_head {dst nbytes : Word} (more : nbytes ≠ 0) :
    bytes dst nbytes.toNat = dst :: bytes (dst + 1) (nbytes - 1).toNat := by
  rw [← bytes_cons]
  congr 1
  bv_omega

theorem bzeroHead_bytes (turns : Nat) (dst nbytes : Word) (more : nbytes ≠ 0) :
    bzeroTail (bzeroHead turns dst nbytes) = bytes dst nbytes.toNat := by
  induction turns generalizing dst nbytes with
  | zero => rfl
  | succ turns ih =>
    unfold bzeroHead
    split_ifs with unaligned last
    · have one : nbytes = 1 := by bv_omega
      rw [one]
      simp [bzeroTail,bytes]
    · rw [bytes_head more,← ih (dst + 1) (nbytes - 1) last]
      rcases bzeroHead turns (dst + 1) (nbytes - 1) with ⟨stored,_ | rest⟩ <;> rfl
    · rfl

theorem bzero_bytes {dst nbytes : Word} (more : nbytes ≠ 0) : bzero dst nbytes = bytes dst nbytes.toNat := by
  rw [← bzeroHead_bytes 3 dst nbytes more]
  unfold bzero bzeroTail
  rcases bzeroHead 3 dst nbytes with ⟨stored,_ | ⟨dst,nbytes⟩⟩ <;> rfl

theorem bytes_ram (offset : Word) (n : Nat) (inside : offset.toNat + n ≤ 96 * 1024) :
    ∀ a ∈ bytes (userDataStart + offset) n, Ram a := by
  intro a member
  obtain ⟨i,small,rfl⟩ := mem_bytes.mp member
  unfold Ram userDataStart userDataEnd
  have index : (BitVec.ofNat 32 i).toNat = i := by
    rw [toNat_ofNat]
    exact Nat.mod_eq_of_lt (by omega)
  constructor <;> bv_omega

theorem getxfile_ok : getxfile ep nargc busy = .ok i ↔ ¬((fold ep).aText ≠ 0 ∧ busy) ∧ exact ep nargc % 2^32 ≤ maxmem.toNat ∧
      i = ⟨(fold ep).aText,(fold ep).aData + (fold ep).aBss,ssize + nargc,userDataStart,
      userDataEnd - (ssize + nargc),(fold ep).aData⟩ := by
  rw [← sum_exact,← BitVec.le_def,← BitVec.not_lt]
  unfold getxfile
  dsimp only
  split_ifs with refused large
  · exact iff_of_false nofun fun loaded => loaded.1 refused
  · simp [large]
  simp only [Except.ok.injEq,refused,large,not_false_eq_true,true_and]
  exact eq_comm

theorem data_small (small : exact ep nargc ≤ maxmem.toNat) : (fold ep).aData.toNat + 2048 ≤ 96 * 1024 := by
  unfold exact maxmem ssize at small
  unfold fold
  split <;> bv_omega

theorem fits (loaded : getxfile ep nargc busy = .ok i) (small : exact ep nargc ≤ maxmem.toNat) : Fits ep nargc i := by
  obtain ⟨-,-,rfl⟩ := getxfile_ok.mp loaded
  have data := data_small small
  refine ⟨small,fun available => ?_,?_⟩
  · have part : min (fold ep).aData.toNat available ≤ (fold ep).aData.toNat := Nat.min_le_left _ _
    have start := bytes_ram 0#32 (min (fold ep).aData.toNat available) (by rw [BitVec.toNat_zero]; omega)
    rwa [BitVec.add_zero] at start
  unfold Image.cleared
  dsimp only
  have length : (userDataEnd - userDataStart - (fold ep).aData).toNat = 96 * 1024 - (fold ep).aData.toNat := by
    unfold userDataEnd userDataStart
    bv_omega
  rw [bzero_bytes (fun empty => by rw [empty] at length; change 0 = _ at length; omega)]
  exact bytes_ram _ _ (by omega)

/-- The size check is right exactly where the sum of the sizes does not come to 4G and at
most `MAXMEM` bytes more. -/
theorem fits_iff {ι : Type} [DecidableEq ι] (ep : Exec) (nargc : Word) (ip : ι) (itext : Bool) (iCount : Nat)
    (file : List (File ι)) :
    (∀ i, getxfile ep nargc (textBusy ip itext iCount file) = .ok i → Fits ep nargc i) ↔
      (¬((fold ep).aText ≠ 0 ∧ textBusy ip itext iCount file) → exact ep nargc % 2^32 ≤ maxmem.toNat →
        exact ep nargc ≤ maxmem.toNat) := by
  constructor
  · intro fit free wrapped
    exact (fit _ (getxfile_ok.mpr ⟨free,wrapped,rfl⟩)).small
  intro holds i loaded
  obtain ⟨free,wrapped,-⟩ := getxfile_ok.mp loaded
  exact fits loaded (holds free wrapped)

def crafted : Exec := ⟨false,0,0x00020000,0xfffe0000⟩

theorem crafted_loaded : ∃ i, getxfile crafted 20 false = .ok i ∧ ¬Fits crafted 20 i ∧
    (∃ a ∈ i.read 0x20000, ¬Ram a) ∧ (userDataStart + i.aData,userDataEnd - userDataStart - i.aData) =
    (0x7f028000,0xffff8000) := by
  refine ⟨⟨0,0,2068,userDataStart,userDataEnd - 2068,0x20000⟩,by decide,?_,⟨userDataEnd,?_,by decide⟩,by decide⟩
  · intro fit
    exact absurd fit.small (by decide)
  · exact mem_bytes.mpr ⟨96 * 1024,by decide,by decide⟩

end Retrobsd.ExecImages

import Retrobsd.Lib.Indices

/-! Relocation records of `a.out.h`, and the `fgetrel` and `fputrel` that `as.c` and
`ld.c` both have, on the bytes of a file. -/
namespace Retrobsd.Relocations
open BitVec

abbrev Byte := BitVec 8

abbrev Word := BitVec 32

def wordsz : Nat := 4

def rsmask : Word := 0x70
def rabs : Word := 0
def rtext : Word := 0x20
def rdata : Word := 0x30
def rbss : Word := 0x40
def rstrng : Word := 0x60
def rext : Word := 0x70
def rgprel : Word := 0x08
def rfmask : Word := 0x07
def rbyte16 : Word := 0x00
def rbyte32 : Word := 0x01
def rhigh16 : Word := 0x02
def rhigh16s : Word := 0x03
def rword16 : Word := 0x04
def rword26 : Word := 0x05

structure Reloc where
  flags : Word
  index : Word
  offset : Word
deriving DecidableEq

def Reloc.external (r : Reloc) : Bool := r.flags &&& rsmask == rext

def Reloc.high (r : Reloc) : Bool := r.flags &&& rfmask == rhigh16 || r.flags &&& rfmask == rhigh16s

def getc : List Byte → Word × List Byte
  | [] => (-1,[])
  | b :: f => (b.setWidth 32,f)

def putc (w : Word) : List Byte := [w.setWidth 8]

/-- Read a relocation record: 1 to 6 bytes. What the record does not say is left in
`r` as it was. -/
def fgetrel (f : List Byte) (r : Reloc) : Reloc × List Byte :=
  let (flags,f) := getc f
  let r := {r with flags}
  let (r,f) :=
    if r.external then
      let (a,f) := getc f
      let (b,f) := getc f
      let (c,f) := getc f
      ({r with index := a ||| b <<< 8 ||| c <<< 16},f)
    else (r,f)
  if r.high then
    let (a,f) := getc f
    let (b,f) := getc f
    ({r with offset := a ||| b <<< 8},f)
  else (r,f)

def fputrel (r : Reloc) : List Byte := putc r.flags ++
    (if r.external then putc r.index ++ putc (r.index >>> 8) ++ putc (r.index >>> 16) else []) ++
    (if r.high then putc r.offset ++ putc (r.offset >>> 8) else [])

structure Reloc.Fits (r : Reloc) : Prop where
  flags : r.flags.toNat < 2^8
  index : r.index.toNat < 2^24
  offset : r.offset.toNat < 2^16

def Reloc.said (r : Reloc) : Word × Option Word × Option Word :=
  (r.flags,if r.external then some r.index else none,if r.high then some r.offset else none)

theorem clear_above {w : Word} {n i : Nat} (small : w.toNat < 2^n) (above : n ≤ i) (inside : i < 32) : w[i] = false := by
  rw [getElem_eq_testBit_toNat]
  exact Nat.testBit_lt_two_pow (small.trans_le (Nat.pow_le_pow_right (by decide) above))

theorem joined_byte {w : Word} (small : w.toNat < 2^8) : (w.setWidth 8).setWidth 32 = w := by
  apply eq_of_toNat_eq
  rw [toNat_setWidth,toNat_setWidth,Nat.mod_eq_of_lt small]
  exact Nat.mod_eq_of_lt w.isLt

theorem joined_offset {w : Word} (small : w.toNat < 2^16) :
    (w.setWidth 8).setWidth 32 ||| ((w >>> 8).setWidth 8).setWidth 32 <<< 8 = w := by
  apply eq_of_getLsbD_eq
  intro i inside
  rcases Nat.lt_or_ge i 8 with low | mid
  · simp [low,inside]
  rcases Nat.lt_or_ge i 16 with below | above
  · simp [inside,show ¬ i < 8 by omega,show i - 8 < 8 by omega,show i - 8 < 32 by omega,show 8 + (i - 8) = i by omega]
  · simpa [inside,show ¬ i < 8 by omega,show ¬ i - 8 < 8 by omega] using clear_above small above inside

theorem joined_index {w : Word} (small : w.toNat < 2^24) :
    (w.setWidth 8).setWidth 32 ||| ((w >>> 8).setWidth 8).setWidth 32 <<< 8 |||
      ((w >>> 16).setWidth 8).setWidth 32 <<< 16 = w := by
  apply eq_of_getLsbD_eq
  intro i inside
  rcases Nat.lt_or_ge i 8 with low | mid
  · simp [low,inside,show i < 16 by omega]
  rcases Nat.lt_or_ge i 16 with below | high
  · simp [inside,below,show ¬ i < 8 by omega,show i - 8 < 8 by omega,show i - 8 < 32 by omega,show 8 + (i - 8) = i by omega]
  rcases Nat.lt_or_ge i 24 with below | above
  · simp [inside,show ¬ i < 8 by omega,show ¬ i < 16 by omega,show ¬ i - 8 < 8 by omega,show i - 16 < 8 by omega,
      show i - 16 < 32 by omega,show 16 + (i - 16) = i by omega]
  · simpa [inside,show ¬ i < 8 by omega,show ¬ i - 8 < 8 by omega,
      show ¬ i - 16 < 8 by omega] using clear_above small above inside

def Reloc.hears (r s : Reloc) : Reloc where
  flags := s.flags
  index := if s.external then s.index else r.index
  offset := if s.high then s.offset else r.offset

theorem Reloc.said_hears (r s : Reloc) : (r.hears s).said = s.said := by
  have external : (r.hears s).external = s.external := rfl
  have high : (r.hears s).high = s.high := rfl
  rw [said,said,external,high]
  cases ext : s.external <;> cases hi : s.high <;> simp [hears,ext,hi]

theorem fgetrel_fputrel {s : Reloc} (fits : s.Fits) (rest : List Byte) (r : Reloc) :
    fgetrel (fputrel s ++ rest) r = (r.hears s,rest) := by
  obtain ⟨flags,index,offset⟩ := s
  have one := joined_byte fits.flags
  have two := joined_index fits.index
  have three := joined_offset fits.offset
  dsimp only at one two three
  rw [fputrel,putc,List.append_assoc,List.append_assoc,List.singleton_append,fgetrel,getc]
  dsimp only
  rw [one]
  cases ext : Reloc.external ⟨flags,index,offset⟩ <;> cases hi : Reloc.high ⟨flags,index,offset⟩
  all_goals
    have external : ∀ i o, Reloc.external ⟨flags,i,o⟩ = Reloc.external ⟨flags,index,offset⟩ := fun _ _ => rfl
    have high : ∀ i o, Reloc.high ⟨flags,i,o⟩ = Reloc.high ⟨flags,index,offset⟩ := fun _ _ => rfl
    simp [external,high,ext,hi,Reloc.hears,putc,getc,two,three]

end Retrobsd.Relocations

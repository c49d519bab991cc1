import Retrobsd.Lib.Indices

/-! Disk blocks as bytes, and the 32-bit little-endian words that the kernel
keeps in link blocks and indirect blocks. -/
namespace Retrobsd

def devBsize : Nat := 1024

abbrev Block := Fin 1024 → UInt8

namespace Block

def zero : Block := fun _ => 0

def byteAt (b : Block) (k : Nat) : Nat := if h : k < 1024 then (b ⟨k,h⟩).toNat else 0

def byte (b : Block) (k : Nat) : UInt8 := if h : k < 1024 then b ⟨k,h⟩ else 0

def fill (b : Block) (o len : Nat) (f : Nat → UInt8) : Block := fun k =>
  if o ≤ k.val ∧ k.val < o + len then f (k.val - o) else b k

def word (b : Block) (i : Nat) : Nat :=
    b.byteAt (4 * i) + 2^8 * b.byteAt (4 * i + 1) + 2^16 * b.byteAt (4 * i + 2) + 2^24 * b.byteAt (4 * i + 3)

def writeWords (b : Block) (w : Nat → Option Nat) : Block := fun k =>
  match w (k / 4) with
  | some v => UInt8.ofNat (v / 256^(k.val % 4))
  | none => b k

def putWord (b : Block) (i v : Nat) : Block := b.writeWords (fun j => if j = i then some v else none)

theorem byte_fill (b : Block) (o len : Nat) (f : Nat → UInt8) (k : Nat) :
    (b.fill o len f).byte k = if o ≤ k ∧ k < o + len ∧ k < 1024 then f (k - o) else b.byte k := by
  by_cases inside : k < 1024
  · simp only [byte,inside,dif_pos,fill,and_true]
  · simp [byte,inside]

theorem byteAt_lt (b : Block) (k : Nat) : b.byteAt k < 256 := by
  unfold byteAt
  split_ifs with h
  · exact UInt8.toNat_lt _
  · decide

variable {b : Block} {w : Nat → Option Nat} {i v : Nat}

theorem byteAt_writeWords {j : Nat} (inside : i < 256) (low : j < 4) : (b.writeWords w).byteAt (4 * i + j) = match w i with
      | some v => v / 256^j % 256
      | none => b.byteAt (4 * i + j) := by
  have bound : 4 * i + j < 1024 := by omega
  have quotient : (4 * i + j) / 4 = i := by omega
  have rest : (4 * i + j) % 4 = j := by omega
  simp only [byteAt,bound,dif_pos,writeWords,quotient,rest]
  cases w i with
  | none => rfl
  | some v => simp

theorem bytes_of_word (v : Nat) :
    v / 256^0 % 256 + 2^8 * (v / 256^1 % 256) + 2^16 * (v / 256^2 % 256) + 2^24 * (v / 256^3 % 256) = v % 2^32 := by
  norm_num
  omega

section
variable (inside : i < 256)
include inside

theorem word_written : (b.writeWords w).word i = match w i with
    | some v => v % 2^32
    | none => b.word i := by
  have first := @byteAt_writeWords b w i 0 inside (by omega)
  have second := @byteAt_writeWords b w i 1 inside (by omega)
  have third := @byteAt_writeWords b w i 2 inside (by omega)
  have fourth := @byteAt_writeWords b w i 3 inside (by omega)
  cases stored : w i <;> simp only [stored,Nat.add_zero] at first second third fourth <;> simp only [word,first,
    second,third,fourth]
  exact bytes_of_word _

theorem word_stored (stored : w i = some v) : (b.writeWords w).word i = v % 2^32 := by
  rw [word_written inside,stored]

theorem word_writeWords (stored : w i = some v) (small : v < 2^32) : (b.writeWords w).word i = v := by
  rw [word_stored inside stored,Nat.mod_eq_of_lt small]

theorem word_writeWords_other (left : w i = none) : (b.writeWords w).word i = b.word i := by
  rw [word_written inside,left]

theorem word_putWord (small : v < 2^32) : (b.putWord i v).word i = v := word_writeWords inside (by simp) small

theorem word_putWord_other {j : Nat} (other : i ≠ j) : (b.putWord j v).word i = b.word i :=
  word_writeWords_other inside (by simp [other])

end

@[simp] theorem word_zero (i : Nat) : zero.word i = 0 := by
  simp [word,byteAt,zero]

theorem word_lt (b : Block) (i : Nat) : b.word i < 2^32 := by
  have first := b.byteAt_lt (4 * i)
  have second := b.byteAt_lt (4 * i + 1)
  have third := b.byteAt_lt (4 * i + 2)
  have fourth := b.byteAt_lt (4 * i + 3)
  simp only [word]
  omega

end Block

/-- A word as the kernel's `int` and `long` read it. -/
def signed (w : Nat) : Int := if w % 2^32 < 2^31 then (w % 2^32 : Nat) else (w % 2^32 : Nat) - 2^32

def unsigned (n : Int) : Nat := (n % 2^32).toNat

theorem signed_unsigned {n : Int} (low : -2^31 ≤ n) (high : n < 2^31) : signed (unsigned n) = n := by
  unfold signed unsigned
  split_ifs <;> omega

theorem unsigned_lt (n : Int) : unsigned n < 2^32 := by
  unfold unsigned
  omega

end Retrobsd

import Retrobsd.Lib.Indices

/-! Numbers as text in fields of a fixed width: what `printf` puts into a field that is
filled up with blanks, and what `strtol` reads out of it. -/
namespace Retrobsd.Lib.Fields
open List Nat

def ascii (c : Char) : BitVec 8 := BitVec.ofNat 8 c.toNat

def text (s : String) : List (BitVec 8) := s.toList.map ascii

def blank : BitVec 8 := 0x20

def left (width : Nat) (t : List (BitVec 8)) : List (BitVec 8) := t ++ List.replicate (width - t.length) blank

def digits (base n : Nat) : List (BitVec 8) := (Nat.toDigits base n).map ascii

def decimal (n : Int) : List (BitVec 8) := if n < 0 then ascii '-' :: digits 10 n.natAbs else digits 10 n.natAbs

def digitOf (base : Nat) (b : BitVec 8) : Option Nat :=
  if 0x30 ≤ b.toNat ∧ b.toNat < 0x30 + base then some (b.toNat - 0x30) else none

def value (base : Nat) : Nat → List (BitVec 8) → Nat
  | n,[] => n
  | n,b :: t =>
    match digitOf base b with
    | some d => value base (base * n + d) t
    | none => n

def isspace (b : BitVec 8) : Bool := b == blank || 9 ≤ b.toNat && b.toNat ≤ 13

def strtol (base : Nat) (t : List (BitVec 8)) : Int :=
  match t.dropWhile isspace with
  | [] => 0
  | b :: rest =>
    if b = ascii '-' then -(value base 0 rest : Int)
    else if b = ascii '+' then value base 0 rest
    else value base 0 (b :: rest)

section
variable {base n : Nat}

@[simp] theorem length_left {width : Nat} {t : List (BitVec 8)} (fits : t.length ≤ width) : (left width t).length = width := by
  rw [left,length_append,length_replicate]
  omega

theorem mem_toDigits (wide : 1 < base) {c : Char} (member : c ∈ toDigits base n) : ∃ d < base, c = d.digitChar := by
  induction n using Nat.strong_induction_on with
  | _ n ih =>
    rw [toDigits_eq_if wide] at member
    split at member
    next small =>
      rw [mem_singleton] at member
      exact ⟨n,small,member⟩
    next large =>
      rcases mem_append.mp member with before | last
      · exact ih _ (Nat.div_lt_self (by omega) wide) before
      rw [mem_singleton] at last
      exact ⟨_,mod_lt _ (by omega),last⟩

theorem ascii_digitChar {d : Nat} (small : d < 10) : ascii d.digitChar = BitVec.ofNat 8 (0x30 + d) := by
  interval_cases d <;> rfl

theorem digitOf_digit {d : Nat} (small : d < base) (narrow : base ≤ 10) : digitOf base (ascii d.digitChar) = some d := by
  rw [ascii_digitChar (by omega),digitOf,BitVec.toNat_ofNat,mod_eq_of_lt (by omega),if_pos (by omega)]
  simp

variable {rest : List (BitVec 8)}

theorem value_map (narrow : base ≤ 10) {cs : List Char} (all : ∀ c ∈ cs, ∃ d < base, c = d.digitChar)
    (stop : ∀ b ∈ rest.head?, digitOf base b = none) : value base n (cs.map ascii ++ rest) = ofDigitChars base cs n := by
  induction cs generalizing n with
  | nil =>
    cases rest with
    | nil => rfl
    | cons b t =>
      rw [map_nil,nil_append,value,stop b rfl]
      rfl
  | cons c cs ih =>
    obtain ⟨d,small,rfl⟩ := all c mem_cons_self
    rw [map_cons,cons_append,value,digitOf_digit small narrow]
    dsimp only
    rw [ih fun c member => all c (mem_cons_of_mem _ member),ofDigitChars_cons_digitChar_of_lt_ten (by omega)]

theorem value_digits (wide : 1 < base) (narrow : base ≤ 10)
    (stop : ∀ b ∈ rest.head?, digitOf base b = none) : value base 0 (digits base n ++ rest) = n := by
  rw [digits,value_map narrow (fun c member => mem_toDigits wide member) stop,ofDigitChars_toDigits wide narrow]

theorem length_digits (wide : 1 < base) {k : Nat} (positive : 0 < k) (small : n < base^k) : (digits base n).length ≤ k := by
  rw [digits,length_map]
  exact (length_toDigits_le_iff wide positive).mpr small

theorem head_digits (wide : 1 < base) (narrow : base ≤ 10) :
    ∃ d t, d < base ∧ digits base n = BitVec.ofNat 8 (0x30 + d) :: t := by
  obtain ⟨c,cs,shape⟩ := exists_cons_of_ne_nil (toDigits_ne_nil (n := n) (b := base))
  obtain ⟨d,small,rfl⟩ := mem_toDigits wide (shape ▸ mem_cons_self : c ∈ toDigits base n)
  exact ⟨d,cs.map ascii,small,by rw [digits,shape,map_cons,ascii_digitChar (by omega)]⟩

theorem blank_stops (base : Nat) : digitOf base blank = none := by
  have none : ¬ (0x30 ≤ blank.toNat ∧ blank.toNat < 0x30 + base) := by
    rw [show blank.toNat = 0x20 from rfl]
    omega
  rw [digitOf,if_neg none]

theorem strtol_digits (wide : 1 < base) (narrow : base ≤ 10)
    (stop : ∀ b ∈ rest.head?, digitOf base b = none) : strtol base (digits base n ++ rest) = n := by
  obtain ⟨d,t,small,shape⟩ := head_digits (n := n) wide narrow
  have whole := value_digits (n := n) wide narrow stop
  have apart : ∀ d, d < 10 → isspace (BitVec.ofNat 8 (0x30 + d)) = false ∧ BitVec.ofNat 8 (0x30 + d) ≠ ascii '-' ∧
      BitVec.ofNat 8 (0x30 + d) ≠ ascii '+' := by decide
  obtain ⟨space,minus,plus⟩ := apart d (by omega)
  rw [shape,cons_append] at whole ⊢
  rw [strtol,dropWhile_cons_of_neg (by simp [space])]
  dsimp only
  rw [if_neg minus,if_neg plus,whole]

theorem strtol_decimal (n : Int) (stop : ∀ b ∈ rest.head?, digitOf 10 b = none) : strtol 10 (decimal n ++ rest) = n := by
  rw [decimal]
  split
  next negative =>
    rw [cons_append,strtol,dropWhile_cons_of_neg (by decide)]
    dsimp only
    rw [if_pos rfl,value_digits (by decide) (by decide) stop]
    omega
  next =>
    rw [strtol_digits (by decide) (by decide) stop]
    omega

theorem blanks_stop (base k : Nat) : ∀ b ∈ (List.replicate k blank).head?, digitOf base b = none := by
  intro b head
  cases k with
  | zero => cases head
  | succ k =>
    cases head
    exact blank_stops base

theorem strtol_left (wide : 1 < base) (narrow : base ≤ 10) (width : Nat) : strtol base (left width (digits base n)) = n :=
  strtol_digits wide narrow (blanks_stop base _)

theorem strtol_left_decimal (n : Int) (width : Nat) :
    strtol 10 (left width (decimal n)) = n := strtol_decimal n (blanks_stop 10 _)

theorem length_decimal {n : Int} {k : Nat} (positive : 0 < k) (small : n.natAbs < 10^k) : (decimal n).length ≤ k + 1 := by
  have bound := length_digits (show 1 < 10 by decide) positive small
  rw [decimal]
  split
  · exact succ_le_succ bound
  · exact bound.trans (le_succ k)

theorem trimmed_left (width : Nat) {t : List (BitVec 8)} (last : ∀ b ∈ t.getLast?, b ≠ blank) :
    ((left width t).reverse.dropWhile (· == blank)).reverse = t := by
  rw [left,reverse_append,reverse_replicate,dropWhile_append_of_pos (by simp)]
  rcases eq_nil_or_concat t with rfl | ⟨u,b,rfl⟩
  · rfl
  have apart := last b (by simp)
  rw [concat_eq_append,reverse_append,reverse_singleton,singleton_append,
    dropWhile_cons_of_neg (by simpa using apart),reverse_cons,reverse_reverse]

end

end Retrobsd.Lib.Fields

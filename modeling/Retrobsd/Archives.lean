import Retrobsd.Lib.Fields
import Retrobsd.RelocationRecords

/-! Archives as `archive.c` of `ar` reads and writes them: headers of sixty bytes with long names behind
them, and bytes of padding that the writer puts and the readers have to find. A file that is read is
what is left of it, and a file that is written is what has been put into it. -/
namespace Retrobsd.Archives
open List
open Relocations (Byte)
open Lib.Fields

def armag : List Byte := text "!<arch>\n"

def sarmag : Nat := 8

def arfmag : List Byte := text "`\n"

def arEfmt1 : List Byte := text "#1/"

def arhdrsz : Nat := 60

def maxnamlen : Nat := 63

def newline : Byte := 0x0a

def slash : Byte := 0x2f

inductive Fault where
  | badfmt
  | missing
  | negative
  | fuel
deriving DecidableEq

structure Chdr where
  hb : List Byte
  size : Int
  date : Int
  lname : Nat
  gid : Int
  uid : Int
  mode : Int
  name : List Byte
deriving DecidableEq

def arAtoi (hb : List Byte) (start len base : Nat) : Int := strtol base ((hb.drop start).take len)

def getArobj (f : List Byte) : Except Fault (Option (Chdr × List Byte)) :=
  let hb := f.take arhdrsz
  let f := f.drop arhdrsz
  if hb = [] then .ok none
  else if hb.length ≠ arhdrsz then .error .badfmt
  else if hb.drop 58 ≠ arfmag then .error .badfmt
  else
    let date := arAtoi hb 16 12 10
    let uid := arAtoi hb 28 6 10
    let gid := arAtoi hb 34 6 10
    let mode := arAtoi hb 40 8 8
    let size := arAtoi hb 48 10 10
    if hb.head? = some blank then .error .badfmt
    else if hb.take 3 = arEfmt1 then
      let len := strtol 10 (hb.drop 3)
      if len ≤ 0 ∨ len > maxnamlen then .error .badfmt
      else if (f.take len.toNat).length ≠ len.toNat then .error .badfmt
      else .ok (some (⟨hb,size - len,date,len.toNat,gid,uid,mode,f.take len.toNat⟩,f.drop len.toNat))
    else .ok (some (⟨hb,size,date,0,gid,uid,mode,((hb.take 16).reverse.dropWhile (· == blank)).reverse⟩,f))

/-- Copy size bytes from one file to another. A file with less bytes, or a size below zero, ends in `badfmt`. -/
def copyAr (rpad wpad : Bool) (size : Int) (alreadyWritten : Nat) (f : List Byte) : Except Fault (List Byte × List Byte) :=
  if size = 0 then .ok ([],f)
  else if size < 0 ∨ f.length < size.toNat then .error .badfmt
  else
    let pad := if wpad && (size.toNat + alreadyWritten) % 2 == 1 then [newline] else []
    if rpad && size.toNat % 2 == 1 then
      match f.drop size.toNat with
      | [] => .error .badfmt
      | _ :: rest => .ok (f.take size.toNat ++ pad,rest)
    else .ok (f.take size.toNat ++ pad,f.drop size.toNat)

/-- `put_arobj` with the last header read; the member is read from an archive, too. -/
def putHeld (c : Chdr) (f : List Byte) : Except Fault (List Byte × List Byte) := do
  let (out,f) ← copyAr true true c.size c.lname f
  return (c.hb ++ (if c.lname ≠ 0 then c.name else []) ++ out,f)

def skipArobj (c : Chdr) (f : List Byte) : Except Fault (List Byte) :=
  let len := c.size + (c.lname % 2 : Nat)
  if len < 0 then .error .negative else .ok (f.drop len.toNat)

/-- A file as `fstat` and `read` find it. Its times are 32 bits, and its owner has six digits. -/
structure Stat where
  mtime : Int
  uid : Nat
  gid : Nat
  mode : Nat
  contents : List Byte
  time : mtime.natAbs < 10^10
  owner : uid < 10^6 ∧ gid < 10^6
  bits : mode < 8^8
  small : contents.length < 2^31
deriving DecidableEq

def rname : List Byte → List Byte
  | [] => []
  | b :: path => if slash ∈ b :: path then rname path else b :: path

/-- A path of a file: its last component is a name that a directory can hold. -/
structure Path where
  bytes : List Byte
  named : 0 < (rname bytes).length ∧ (rname bytes).length ≤ maxnamlen
deriving DecidableEq

theorem slash_rname (path : List Byte) : slash ∉ rname path := by
  induction path with
  | nil => simp [rname]
  | cons b path ih =>
    rw [rname]
    split
    · exact ih
    next plain => exact plain

def hdr1 (lname : Nat) (s : Stat) : List Byte :=
  arEfmt1 ++ left 13 (digits 10 lname) ++ left 12 (decimal s.mtime) ++ left 6 (digits 10 s.uid) ++ left 6 (digits 10 s.gid) ++
    left 8 (digits 8 s.mode) ++ left 10 (digits 10 (s.contents.length + lname)) ++ arfmag

def hdr2 (name : List Byte) (s : Stat) : List Byte :=
  left 16 (name.take 16) ++ left 12 (decimal s.mtime) ++ left 6 (digits 10 s.uid) ++ left 6 (digits 10 s.gid) ++
    left 8 (digits 8 s.mode) ++ left 10 (digits 10 s.contents.length) ++ arfmag

def putDisk (file : Path) (s : Stat) : Except Fault (List Byte) := do
  let name := rname file.bytes
  let long := name.length > 16 || name.contains blank
  let lname := if long then name.length else 0
  let hb := if long then hdr1 lname s else hdr2 name s
  let (out,_) ← copyAr false true s.contents.length lname s.contents
  return hb.take arhdrsz ++ (if lname ≠ 0 then name else []) ++ out

section

structure Member where
  name : List Byte
  stat : Stat
  named : 0 < name.length ∧ name.length ≤ maxnamlen ∧ slash ∉ name
deriving DecidableEq

def Member.of (file : Path) (s : Stat) : Member := ⟨rname file.bytes,s,file.named.1,file.named.2,slash_rname _⟩

variable (m : Member)

def Member.size : Nat := m.stat.contents.length

def Member.long : Bool := m.name.length > 16 || m.name.contains blank

def Member.lname : Nat := if m.long then m.name.length else 0

def Member.header : List Byte := if m.long then hdr1 m.lname m.stat else hdr2 m.name m.stat

def Member.pad : List Byte := if m.size ≠ 0 ∧ (m.size + m.lname) % 2 = 1 then [newline] else []

def Member.body : List Byte := m.stat.contents ++ m.pad

def Member.encode : List Byte := m.header ++ (if m.lname ≠ 0 then m.name else []) ++ m.body

def Member.chdr : Chdr where
  hb := m.header
  size := m.size
  date := m.stat.mtime
  lname := m.lname
  gid := m.stat.gid
  uid := m.stat.uid
  mode := m.stat.mode
  name := m.name

/-- `copy_ar` finds the padding: it takes the parity of the size for that of the size and the name. -/
def Member.copies : Bool := m.lname % 2 == 0 || m.size == 0

/-- `skip_arobj` finds the padding: it takes the parity of the name instead. -/
def Member.skips : Bool := m.size % 2 == 0 && (m.lname % 2 == 0 || m.size != 0)

def encodeAll (ms : List Member) : List Byte := ms.flatMap Member.encode

end

section
variable (m : Member)

theorem length_decimal_mtime (s : Stat) :
    (decimal s.mtime).length ≤ 12 := (length_decimal (k := 10) (by decide) s.time).trans (by decide)

theorem length_digits_owner (s : Stat) : (digits 10 s.uid).length ≤ 6 ∧ (digits 10 s.gid).length ≤ 6 :=
  ⟨length_digits (by decide) (by decide) s.owner.1,length_digits (by decide) (by decide) s.owner.2⟩

theorem length_digits_mode (s : Stat) : (digits 8 s.mode).length ≤ 8 := length_digits (by decide) (by decide) s.bits

def numbers (s : Stat) (size : Nat) : List Byte :=
  left 12 (decimal s.mtime) ++ (left 6 (digits 10 s.uid) ++ (left 6 (digits 10 s.gid) ++ (left 8 (digits 8 s.mode) ++
    (left 10 (digits 10 size) ++ arfmag))))

theorem header_eq : m.header = (if m.long then arEfmt1 ++ left 13 (digits 10 m.lname) else left 16 (m.name.take 16)) ++
    numbers m.stat (m.size + m.lname) := by
  rw [Member.header]
  cases long : m.long with
  | true => simp only [if_true,hdr1,numbers,append_assoc,Member.size]
  | false =>
    have none : m.lname = 0 := by rw [Member.lname,long]; rfl
    simp [hdr2,numbers,Member.size,none]

theorem lname_le : m.lname ≤ maxnamlen := by
  rw [Member.lname]
  split
  · exact m.named.2.1
  · exact Nat.zero_le _

theorem length_digits_size : (digits 10 (m.size + m.lname)).length ≤ 10 := by
  refine length_digits (by decide) (by decide) ?_
  have small := m.stat.small
  have short := lname_le m
  rw [maxnamlen] at short
  rw [Member.size]
  omega

theorem length_first : (if m.long then arEfmt1 ++ left 13 (digits 10 m.lname) else left 16 (m.name.take 16)).length = 16 := by
  have short := lname_le m
  rw [maxnamlen] at short
  split
  · have fits : (digits 10 m.lname).length ≤ 13 := length_digits (by decide) (by decide) (by omega)
    rw [length_append,length_left fits]
    rfl
  · exact length_left (by rw [length_take]; omega)

theorem length_numbers (s : Stat) (size : Nat) (fits : (digits 10 size).length ≤ 10) : (numbers s size).length = 44 := by
  obtain ⟨uid,gid⟩ := length_digits_owner s
  simp only [numbers,length_append,length_left (length_decimal_mtime s),length_left uid,length_left gid,
    length_left (length_digits_mode s),length_left fits]
  rfl

theorem length_header : m.header.length = arhdrsz := by
  rw [header_eq,length_append,length_first,length_numbers _ _ (length_digits_size m)]
  rfl

theorem drop_fields {α : Type} {l : List α} {n : Nat} (length : l.length = n) (k : Nat) (more : List α) :
    (l ++ more).drop (n + k) = more.drop k := by
  rw [← length,drop_append,drop_eq_nil_of_le (Nat.le_add_right _ _),Nat.add_sub_cancel_left,nil_append]

theorem fields_header : arAtoi m.header 16 12 10 = m.stat.mtime ∧ arAtoi m.header 28 6 10 = m.stat.uid ∧
    arAtoi m.header 34 6 10 = m.stat.gid ∧ arAtoi m.header 40 8 8 = m.stat.mode ∧
    arAtoi m.header 48 10 10 = (m.size + m.lname : Nat) ∧ m.header.drop 58 = arfmag := by
  obtain ⟨uid,gid⟩ := length_digits_owner m.stat
  have first := length_first m
  have date := length_left (length_decimal_mtime m.stat)
  have mode := length_left (length_digits_mode m.stat)
  have size := length_left (length_digits_size m)
  replace uid := length_left uid
  replace gid := length_left gid
  simp only [arAtoi,header_eq,numbers]
  refine ⟨?_,?_,?_,?_,?_,?_⟩
  · rw [drop_left' first,take_left' date]
    exact strtol_left_decimal _ _
  · rw [drop_fields first 12,drop_left' date,take_left' uid]
    exact strtol_left (by decide) (by decide) _
  · rw [drop_fields first 18,drop_fields date 6,drop_left' uid,take_left' gid]
    exact strtol_left (by decide) (by decide) _
  · rw [drop_fields first 24,drop_fields date 12,drop_fields uid 6,drop_left' gid,take_left' mode]
    exact strtol_left (by decide) (by decide) _
  · rw [drop_fields first 32,drop_fields date 20,drop_fields uid 14,drop_fields gid 8,drop_left' mode,take_left' size]
    exact strtol_left (by decide) (by decide) _
  · rw [drop_fields first 42,drop_fields date 30,drop_fields uid 24,drop_fields gid 18,drop_fields mode 10,drop_left' size]

end

section
variable (m : Member)

theorem take_first : m.header.take 16 = if m.long then arEfmt1 ++ left 13 (digits 10 m.lname) else left 16 (m.name.take 16) := by
  rw [header_eq]
  exact take_left' (length_first m)

theorem long_header (long : m.long = true) : m.header.head? ≠ some blank ∧ m.header.take 3 = arEfmt1 ∧
    strtol 10 (m.header.drop 3) = m.name.length ∧ m.lname = m.name.length := by
  have same : m.lname = m.name.length := by rw [Member.lname,long]; rfl
  have shape := header_eq m
  rw [if_pos long,append_assoc,same] at shape
  refine ⟨?_,?_,?_,same⟩
  · rw [shape]
    exact fun bad => absurd (Option.some.inj (show some (ascii '#') = some blank from bad)) (by decide)
  · rw [shape]
    exact take_left' rfl
  rw [shape,drop_left' (show arEfmt1.length = 3 from rfl),left,append_assoc]
  refine strtol_digits (by decide) (by decide) fun b head => ?_
  have short : (digits 10 m.name.length).length ≤ 2 := length_digits (by decide) (by decide) (m.named.2.1.trans_lt (by decide))
  have filled : ∃ k, 13 - (digits 10 m.name.length).length = k + 1 := ⟨12 - (digits 10 m.name.length).length,by omega⟩
  obtain ⟨k,eq⟩ := filled
  rw [eq,replicate_succ,cons_append] at head
  cases head
  exact blank_stops 10

theorem short_header (short : m.long = false) : m.header.head? ≠ some blank ∧ m.header.take 3 ≠ arEfmt1 ∧
    ((m.header.take 16).reverse.dropWhile (· == blank)).reverse = m.name ∧ m.lname = 0 := by
  have none : m.lname = 0 := by rw [Member.lname,short]; rfl
  obtain ⟨some,_,unslashed⟩ := m.named
  have plain : m.name.length ≤ 16 ∧ blank ∉ m.name := by simpa [Member.long] using short
  have whole : m.name.take 16 = m.name := take_of_length_le plain.1
  have first := take_first m
  rw [short,whole] at first
  have field : m.header.take 16 = left 16 m.name := first
  have heads : ∀ k, k ≤ 16 → m.header.take k = (left 16 m.name).take k := by
    intro k small
    rw [← field,take_take,Nat.min_eq_left small]
  refine ⟨fun head => ?_,fun long => ?_,?_,none⟩
  · have one := heads 1 (by decide)
    obtain ⟨b,t,shape⟩ := exists_cons_of_length_pos some
    rw [left,shape] at one
    cases header : m.header with
    | nil => rw [header] at head; cases head
    | cons c u =>
      rw [header] at head one
      cases head
      have same := (List.cons.inj one).1
      exact plain.2 (by rw [shape,same]; exact mem_cons_self)
  · -- a slash is no part of a name, nor of the blanks behind it
    have three := heads 3 (by decide)
    rw [long] at three
    have inside : slash ∈ (left 16 m.name).take 3 := by
      rw [← three]
      decide
    rcases mem_append.mp (mem_of_mem_take inside) with bad | bad
    · exact unslashed bad
    · exact absurd (eq_of_mem_replicate bad) (by decide)
  · rw [field]
    exact trimmed_left 16 fun b last same => plain.2 (same ▸ mem_of_getLast? last)

theorem getArobj_encode (rest : List Byte) : getArobj (m.encode ++ rest) = .ok (some (m.chdr,m.body ++ rest)) := by
  obtain ⟨date,uid,gid,mode,size,magic⟩ := fields_header m
  have length := length_header m
  have head : (m.encode ++ rest).take arhdrsz = m.header := by
    rw [Member.encode,append_assoc,append_assoc]
    exact take_left' length
  have tail : (m.encode ++ rest).drop arhdrsz = (if m.lname ≠ 0 then m.name else []) ++ (m.body ++ rest) := by
    rw [Member.encode,append_assoc,append_assoc]
    exact drop_left' length
  have some : m.header ≠ [] := fun none => by rw [none] at length; cases length
  simp only [getArobj,head,tail,if_neg some,length,ne_eq,not_true_eq_false,if_false,magic,date,uid,gid,mode,size]
  cases long : m.long with
  | true =>
    obtain ⟨first,efmt,len,lname⟩ := long_header m long
    obtain ⟨positive,short,_⟩ := m.named
    rw [if_neg first,if_pos efmt,len,lname]
    have inside : ¬ ((m.name.length : Int) ≤ 0 ∨ (m.name.length : Int) > maxnamlen) := by omega
    have nonzero : m.name.length ≠ 0 := by omega
    have taken : (m.name ++ (m.body ++ rest)).take m.name.length = m.name := take_left' rfl
    have dropped : (m.name ++ (m.body ++ rest)).drop m.name.length = m.body ++ rest := drop_left' rfl
    rw [if_neg inside,if_pos nonzero,Int.toNat_natCast,taken,if_neg (not_not.mpr rfl),dropped]
    have net : ((m.size + m.name.length : Nat) : Int) - m.name.length = m.size := by omega
    rw [net,Member.chdr,lname]
  | false =>
    obtain ⟨first,efmt,name,lname⟩ := short_header m long
    rw [if_neg first,if_neg efmt,name,lname,Member.chdr,lname]
    rfl

theorem copyAr_body (copies : m.copies = true) (wpad : Bool) (rest : List Byte) :
    copyAr true wpad m.size m.lname (m.body ++ rest) = .ok (m.stat.contents ++ if wpad then m.pad else [],rest) := by
  have parity : m.lname % 2 = 0 ∨ m.size = 0 := by simpa [Member.copies] using copies
  rw [copyAr]
  by_cases empty : m.size = 0
  · have none : m.stat.contents = [] := length_eq_zero_iff.mp empty
    rw [empty,if_pos (by rfl)]
    simp [Member.body,Member.pad,empty,none]
  have even := parity.resolve_right empty
  have taken : (m.body ++ rest).take m.size = m.stat.contents := by
    rw [Member.body,append_assoc]
    exact take_left' rfl
  have dropped : (m.body ++ rest).drop m.size = m.pad ++ rest := by
    rw [Member.body,append_assoc]
    exact drop_left' rfl
  have enough : ¬ ((m.size : Int) < 0 ∨ (m.body ++ rest).length < (m.size : Int).toNat) := by
    rw [Member.body,append_assoc,length_append,Int.toNat_natCast]
    rw [show m.stat.contents.length = m.size from rfl]
    omega
  rw [if_neg (by omega),if_neg enough]
  simp only [Int.toNat_natCast,taken,dropped]
  rcases Nat.mod_two_eq_zero_or_one m.size with two | one
  · have pad : m.pad = [] := if_neg fun odd => by omega
    have sum : (m.size + m.lname) % 2 = 0 := by omega
    simp [two,sum,pad]
  have pad : m.pad = [newline] := if_pos ⟨empty,by omega⟩
  have sum : (m.size + m.lname) % 2 = 1 := by omega
  simp [one,sum,pad]

theorem putHeld_body (copies : m.copies = true) (rest : List Byte) : putHeld m.chdr (m.body ++ rest) = .ok (m.encode,rest) := by
  rw [putHeld,Member.chdr]
  dsimp only
  rw [copyAr_body m copies]
  rfl

theorem skipArobj_body (skips : m.skips = true) (rest : List Byte) : skipArobj m.chdr (m.body ++ rest) = .ok rest := by
  have parity : m.size % 2 = 0 ∧ (m.lname % 2 = 0 ∨ m.size ≠ 0) := by simpa [Member.skips] using skips
  have length : m.body.length = m.size + m.lname % 2 := by
    rw [Member.body,length_append,Member.pad,show m.stat.contents.length = m.size from rfl]
    split
    · rw [length_singleton]
      omega
    rw [length_nil]
    omega
  rw [skipArobj,Member.chdr]
  dsimp only
  rw [if_neg (by omega)]
  have len : ((m.size : Int) + (m.lname % 2 : Nat)).toNat = m.size + m.lname % 2 := by omega
  rw [len]
  exact congrArg Except.ok (drop_left' length)

theorem putDisk_eq (file : Path) (s : Stat) : putDisk file s = .ok (Member.of file s).encode := by
  have lname : (Member.of file s).lname =
      if (rname file.bytes).length > 16 || (rname file.bytes).contains blank then (rname file.bytes).length else 0 := rfl
  have header : (if (rname file.bytes).length > 16 || (rname file.bytes).contains blank then hdr1 (Member.of file s).lname s
      else hdr2 (rname file.bytes) s) = (Member.of file s).header := rfl
  have whole : (Member.of file s).header.take arhdrsz = (Member.of file s).header := take_of_length_le (length_header _).le
  rw [putDisk]
  dsimp only
  rw [← lname,header,whole,copyAr]
  by_cases empty : s.contents.length = 0
  · have none : s.contents = [] := length_eq_zero_iff.mp empty
    have pad : (Member.of file s).pad = [] := if_neg fun odd => odd.1 empty
    rw [if_pos (by omega),Member.encode,Member.body,pad,show (Member.of file s).stat.contents = s.contents from rfl,none]
    rfl
  have enough : ¬ ((s.contents.length : Int) < 0 ∨ s.contents.length < (s.contents.length : Int).toNat) := by omega
  rw [if_neg (by omega),if_neg enough]
  simp only [Bool.false_and,Bool.true_and,Int.toNat_natCast,take_length,Bool.false_eq_true,if_false]
  have pad : (if ((s.contents.length + (Member.of file s).lname) % 2 == 1) = true then [newline] else []) =
    (Member.of file s).pad := by
    rw [Member.pad]
    refine if_congr ?_ rfl rfl
    rw [beq_iff_eq]
    exact ⟨fun odd => ⟨empty,odd⟩,And.right⟩
  rw [pad]
  rfl

end

end Retrobsd.Archives

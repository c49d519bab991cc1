import Retrobsd.ArchiveRuns
import Retrobsd.RelocationSymbols

/-! How `ld` reads an archive of `ar`: the headers that `step` comes to, and the table of contents that
`ranlib` has put in front of the members. -/
namespace Retrobsd.Archives
open List BitVec
open Relocations (Byte Word Exec Nlist fputhdr fgethdr fputword fgetword getc putc nExt nUndf nText nTypeMask nLoc rmagic)
open Relocations.Assembled (fputsym)
open Lib.Fields Lib.Run

namespace Ld

structure Archdr where
  name : List Byte
  date : Int
  uid : Int
  gid : Int
  mode : Int
  size : Int
deriving DecidableEq

def fgetarhdr (f : List Byte) : Option (Archdr × List Byte) := do
  let buf := f.take 16
  if buf.length ≠ 16 ∨ buf.head? = some blank then none
  let f := f.drop 16
  let (name,f) ←
    if buf.take 3 = arEfmt1 then
      let len := strtol 10 (buf.drop 3)
      if len ≤ 0 ∨ len > maxnamlen then none
      else if (f.take len.toNat).length ≠ len.toNat then none
      else some (f.take len.toNat,f.drop len.toNat)
    else some ((buf.reverse.dropWhile (· == blank)).reverse,f)
  let hb := f.take 44
  if hb.length ≠ 44 ∨ hb.drop 42 ≠ arfmag then none
  return (⟨name,arAtoi hb 0 12 10,arAtoi hb 12 6 10,arAtoi hb 18 6 10,arAtoi hb 24 8 8,arAtoi hb 32 10 10⟩,f.drop 44)

/-- A member that `step` comes to, and where `load1` will look for its object. -/
structure Visit where
  offset : Word
  name : List Byte
  size : Int
  load : Word
deriving DecidableEq

def load1lib (archive : List Byte) : Nat → Word → List Visit
  | 0,_ => []
  | n + 1,offset =>
    match fgetarhdr (archive.drop offset.toNat) with
    | none => []
    | some (h,_) => ⟨offset,h.name,h.size,offset + 60⟩ :: load1lib archive n (offset + BitVec.ofInt 32 (h.size + 60))

structure Ranlib where
  off : Word
  name : List Byte
deriving DecidableEq

def fgetran : List Byte → Option (Ranlib × List Byte)
  | [] => none
  | len :: f =>
    if len = 0 then none
    else
      let (off,f) := fgetword f
      let (name,f) := fgets len.toNat f
      some (⟨off,name⟩,f)

def rantabsz : Nat := 500

def getrantabLoop : Nat → List Byte → Option (List Ranlib)
  | 0,_ => none
  | n + 1,f =>
    match fgetran f with
    | none => some []
    | some (r,f) => (getrantabLoop n f).map (r :: ·)

def getrantab (archive : List Byte) : Option (List Ranlib) :=
  match fgetarhdr (archive.drop sarmag) with
  | none => none
  | some (_,f) => getrantabLoop rantabsz f

end Ld

section
variable (m : Member)

theorem fgetarhdr_encode (short : m.long = false) (rest : List Byte) : Ld.fgetarhdr (m.encode ++ rest) =
    some (⟨m.name,m.stat.mtime,m.stat.uid,m.stat.gid,m.stat.mode,m.size⟩,m.body ++ rest) := by
  obtain ⟨first,efmt,name,lname⟩ := short_header m short
  obtain ⟨date,uid,gid,mode,size,magic⟩ := fields_header m
  have length := length_header m
  have whole : m.encode ++ rest = m.header ++ (m.body ++ rest) := by
    rw [Member.encode,lname]
    simp
  have buf : (m.encode ++ rest).take 16 = m.header.take 16 := by
    rw [whole,take_append_of_le_length (by rw [length]; decide)]
  have tail : (m.encode ++ rest).drop 16 = m.header.drop 16 ++ (m.body ++ rest) := by
    rw [whole,drop_append_of_le_length (by rw [length]; decide)]
  have numbers : (m.header.drop 16).length = 44 := by rw [length_drop,length]; rfl
  have hb : (m.header.drop 16 ++ (m.body ++ rest)).take 44 = m.header.drop 16 := take_left' numbers
  have object : (m.header.drop 16 ++ (m.body ++ rest)).drop 44 = m.body ++ rest := drop_left' numbers
  have sixteen : (m.header.take 16).length = 16 := by rw [length_take,length]; rfl
  have head : (m.header.take 16).head? ≠ some blank := by
    rw [head?_take]
    simpa using first
  have three : (m.header.take 16).take 3 ≠ arEfmt1 := by rw [take_take]; exact efmt
  have fields : ∀ start len base, arAtoi (m.header.drop 16) start len base = arAtoi m.header (16 + start) len base := by
    intro start len base
    rw [arAtoi,drop_drop,arAtoi]
  have fmag : (m.header.drop 16).drop 42 = arfmag := by rw [drop_drop]; exact magic
  rw [lname,Nat.add_zero] at size
  have open_ : ¬ ((m.header.take 16).length ≠ 16 ∨ (m.header.take 16).head? = some blank) := by
    rintro (bad | bad)
    · exact bad sixteen
    · exact head bad
  have checked : ¬ ((m.header.drop 16).length ≠ 44 ∨ (m.header.drop 16).drop 42 ≠ arfmag) := by
    rintro (bad | bad)
    · exact bad numbers
    · exact bad fmag
  simp only [Ld.fgetarhdr,buf,tail,if_neg open_,if_neg three,name,Option.bind_eq_bind,Option.bind_some,hb,
    if_neg checked,object,fields]
  rw [date,uid,gid,mode,size]
  rfl

end

def placed : Nat → List Member → List Ld.Visit
  | _,[] => []
  | off,m :: ms => ⟨BitVec.ofNat 32 off,m.name,m.size,BitVec.ofNat 32 (off + 60 + m.lname)⟩ :: placed (off + m.encode.length) ms

theorem length_encode_short {m : Member} (short : m.long = false) (even : m.size % 2 = 0) : m.encode.length = 60 + m.size := by
  have lname : m.lname = 0 := by rw [Member.lname,short]; rfl
  have pad : m.pad = [] := if_neg fun odd => by rw [lname] at odd; omega
  rw [Member.encode,lname,Member.body,pad]
  simp [length_header,arhdrsz,Member.size]

theorem load1lib_placed (before : List Byte) {ms : List Member} {n : Nat} (fuel : ms.length < n)
    (short : ∀ m ∈ ms, m.long = false)
    (even : ∀ m ∈ ms, m.size % 2 = 0) (small : (before ++ encodeAll ms).length < 2^31) :
    Ld.load1lib (before ++ encodeAll ms) n (BitVec.ofNat 32 before.length) = placed before.length ms := by
  induction ms generalizing before n with
  | nil =>
    obtain _ | n := n
    · omega
    rw [length_append] at small
    have there : (before ++ encodeAll []).drop (BitVec.ofNat 32 before.length).toNat = [] := by
      rw [toNat_ofNat,Nat.mod_eq_of_lt (by omega)]
      simp [encodeAll]
    rw [Ld.load1lib,there]
    rfl
  | cons m ms ih =>
    obtain _ | n := n
    · omega
    have here := short m mem_cons_self
    have size := length_encode_short here (even m mem_cons_self)
    have lname : m.lname = 0 := by rw [Member.lname,here]; rfl
    have whole : before ++ encodeAll (m :: ms) = before ++ m.encode ++ encodeAll ms := by rw [encodeAll_cons,List.append_assoc]
    have low : before.length < 2^31 := by
      rw [length_append] at small
      omega
    have there : (before ++ encodeAll (m :: ms)).drop (BitVec.ofNat 32 before.length).toNat = m.encode ++ encodeAll ms := by
      rw [toNat_ofNat,Nat.mod_eq_of_lt (by omega),encodeAll_cons]
      exact drop_left' rfl
    have next : BitVec.ofNat 32 before.length + BitVec.ofInt 32 ((m.size : Int) + 60) = BitVec.ofNat 32
      (before ++ m.encode).length := by
      have sum : ((m.size : Int) + 60) = ((60 + m.size : Nat) : Int) := by omega
      rw [sum,ofInt_natCast,← ofNat_add,length_append,size]
    rw [Ld.load1lib,there,fgetarhdr_encode m here,placed,lname]
    dsimp only
    rw [next,whole,ih (before ++ m.encode) (by simpa using fuel) (fun x member => short x (mem_cons_of_mem _ member))
      (fun x member => even x (mem_cons_of_mem _ member)) (whole ▸ small),length_append,Nat.add_zero,ofNat_add]
    rfl

theorem load1lib_load (archive : List Byte) (n : Nat) (offset : Word) :
    ∀ v ∈ Ld.load1lib archive n offset, v.load = v.offset + 60 := by
  induction n generalizing offset with
  | zero => exact fun _ bad => (nomatch bad)
  | succ n ih =>
    intro v member
    rw [Ld.load1lib] at member
    split at member
    · cases member
    rcases mem_cons.mp member with rfl | later
    · rfl
    · exact ih _ v later

theorem placed_short {off : Nat} {ms : List Member} (loads : ∀ v ∈ placed off ms, v.load = v.offset + 60) :
    ∀ m ∈ ms, m.long = false := by
  induction ms generalizing off with
  | nil => exact fun _ bad => (nomatch bad)
  | cons m ms ih =>
    intro x member
    rcases mem_cons.mp member with rfl | later
    · have here := loads _ mem_cons_self
      dsimp only at here
      by_contra long
      rw [Bool.not_eq_false] at long
      have lname : x.lname = x.name.length := by rw [Member.lname,long]; rfl
      obtain ⟨some,short,_⟩ := x.named
      rw [maxnamlen] at short
      rw [lname,ofNat_add,ofNat_add] at here
      bv_omega
    · exact ih (fun v listed => loads v (mem_cons_of_mem _ listed)) x later

section

/-- An object file, as `as` and `ld` write it. A table of symbols ends with zeros. -/
structure ObjectFile where
  head : Exec
  sections : List Byte
  syms : List Nlist
  zeros : Nat
  magic : head.magic = rmagic
  sized : sections.length = head.text.toNat + head.data.toNat + head.reltext.toNat + head.reldata.toNat
  named : ∀ s ∈ syms, 0 < s.name.length ∧ s.name.length < 2^8
  typed : ∀ s ∈ syms, s.nType.toNat < 2^7 ∧ (s.nType &&& nTypeMask = nUndf → s.nValue = 0)
  even : (sections.length + (syms.flatMap fputsym).length + zeros) % 2 = 0

namespace ObjectFile
variable (o : ObjectFile)

def bytes : List Byte := fputhdr o.head ++ (o.sections ++ (o.syms.flatMap fputsym ++ List.replicate o.zeros 0))

def Counted : Prop := (o.syms.flatMap fputsym).length ≤ o.head.syms.toNat ∧
    o.head.syms.toNat ≤ (o.syms.flatMap fputsym).length + 4

instance : Decidable o.Counted := instDecidableAnd

def globals : List Nlist := o.syms.filter fun s => s.nType &&& nExt != 0 && s.nType &&& nTypeMask != nUndf

end ObjectFile

theorem fgets_name (name rest : List Byte) : fgets name.length (name ++ rest) = (name,rest) := by
  induction name with
  | nil => rfl
  | cons b name ih =>
    rw [List.length_cons,List.cons_append,fgets,getc]
    dsimp only
    rw [ih]
    simp

theorem unlocal {t : Word} (small : t.toNat < 2^7) : t &&& ~~~nLoc = t := by
  apply eq_of_getLsbD_eq
  intro i inside
  rcases Nat.lt_or_ge i 7 with low | high
  · have clear : nLoc.getLsbD i = false := by interval_cases i <;> rfl
    rw [getLsbD_and,getLsbD_not,clear]
    simp [inside]
  have clear := Relocations.clear_above small high inside
  rw [getLsbD_and,getLsbD_eq_getElem inside,clear]
  rfl

theorem fputsym_eq {s : Nlist} (named : 0 < s.name.length ∧ s.name.length < 2^8) (small : s.nType.toNat < 2^7) :
    ∃ len : Byte, len ≠ 0 ∧ len.toNat = s.name.length ∧ fputsym s = len :: (putc s.nType ++ (fputword s.nValue ++ s.name)) := by
  refine ⟨(BitVec.ofNat 32 s.name.length).setWidth 8,?_,?_,?_⟩
  · bv_omega
  · rw [toNat_setWidth,toNat_ofNat]
    omega
  · rw [fputsym,unlocal small]
    simp [putc]

theorem getc_putc {t : Word} (small : t.toNat < 2^7) (rest : List Byte) : getc (putc t ++ rest) = (t,rest) := by
  rw [putc,singleton_append,getc,Relocations.joined_byte (by omega)]

theorem rexecLoop_syms {n : Nat} (wOff : Nat) {syms : List Nlist} (fuel : syms.length < n) {k : Nat} (few : k ≤ 4)
    (named : ∀ s ∈ syms, 0 < s.name.length ∧ s.name.length < 2^8)
    (typed : ∀ s ∈ syms, s.nType.toNat < 2^7 ∧ (s.nType &&& nTypeMask = nUndf → s.nValue = 0)) (rest : List Byte) :
    rexecLoop wOff n ((syms.flatMap fputsym).length + k : Nat) (syms.flatMap fputsym ++ rest) =
      .ok ((syms.filter fun s => s.nType &&& nExt != 0 && s.nType &&& nTypeMask != nUndf).map fun s => ⟨wOff,s.name⟩) := by
  induction syms generalizing n with
  | nil =>
    obtain _ | n := n
    · omega
    rw [rexecLoop.eq_def]
    exact if_pos (by simp; omega)
  | cons s syms ih =>
    obtain _ | n := n
    · omega
    obtain ⟨len,some,length,shape⟩ := fputsym_eq (named s mem_cons_self) (typed s mem_cons_self).1
    obtain ⟨small,zero⟩ := typed s mem_cons_self
    have size := Relocations.Assembled.length_fputsym s
    rw [Relocations.wordsz] at size
    have more : ¬ ((((s :: syms).flatMap fputsym).length + k : Nat) : Int) ≤ 4 := by
      rw [flatMap_cons,length_append,size]
      omega
    have left : ((((s :: syms).flatMap fputsym).length + k : Nat) : Int) - (len.toNat + 6) =
      ((syms.flatMap fputsym).length + k : Nat) := by
      rw [flatMap_cons,length_append,size,length]
      omega
    have all : (s :: syms).flatMap fputsym ++ rest =
        len :: (putc s.nType ++ (fputword s.nValue ++ (s.name ++ (syms.flatMap fputsym ++ rest)))) := by
      rw [flatMap_cons,shape]
      simp
    replace ih := ih (by simpa using fuel) (fun q member => named q (mem_cons_of_mem _ member))
      fun q member => typed q (mem_cons_of_mem _ member)
    rw [rexecLoop.eq_def]
    dsimp only
    rw [if_neg more,all]
    dsimp only
    rw [if_neg some,getc_putc small]
    dsimp only
    rw [Relocations.fgetword_fputword]
    dsimp only
    rw [length,fgets_name]
    dsimp only
    rw [← length,left,ih]
    by_cases ext : s.nType &&& nExt = 0
    · rw [if_pos ext,filter_cons_of_neg (by rw [ext]; simp)]
    rw [if_neg ext]
    have bit : (s.nType &&& nExt != 0) = true := bne_iff_ne.mpr ext
    by_cases undf : s.nType &&& nTypeMask = nUndf
    · rw [if_pos ⟨undf,zero undf⟩,filter_cons_of_neg (by rw [undf]; simp)]
    have type : (s.nType &&& nTypeMask != nUndf) = true := bne_iff_ne.mpr undf
    rw [if_neg fun both => undf both.1,filter_cons_of_pos (by rw [bit,type]; rfl)]
    rfl

variable {archive : List Byte}

theorem rexec_object {o : ObjectFile} (counted : o.Counted) {rOff : Nat} {later : List Byte}
    (there : archive.drop rOff = o.bytes ++ later)
    (small : archive.length < 2^31) (wOff : Nat) : rexec archive rOff wOff = .ok (o.globals.map fun s => ⟨wOff,s.name⟩) := by
  have inside : rOff + (o.bytes ++ later).length ≤ archive.length := by
    have length := congrArg length there
    have header : 32 ≤ o.bytes.length := by
      rw [ObjectFile.bytes,length_append,Relocations.length_fputhdr,Relocations.hdrsz]
      omega
    rw [length_drop,length_append] at length
    rw [length_append]
    omega
  have length : o.bytes.length = 32 + o.sections.length + (o.syms.flatMap fputsym).length + o.zeros := by
    simp only [ObjectFile.bytes,length_append,length_replicate]
    rw [Relocations.length_fputhdr,Relocations.hdrsz]
    omega
  rw [length_append] at inside
  have head : fgethdr (o.bytes ++ later) = o.head := by rw [ObjectFile.bytes,List.append_assoc,Relocations.fgethdr_fputhdr]
  have enough : ¬ (o.bytes ++ later).length < 32 := by
    rw [length_append]
    omega
  obtain ⟨low,high⟩ := counted
  have sized := o.sized
  rw [rexec,there]
  dsimp only
  rw [if_neg enough,head]
  by_cases none : o.head.syms = 0
  · rw [if_pos (.inr none)]
    have empty : o.globals = [] := by
      rw [none] at low
      rw [ObjectFile.globals]
      cases syms : o.syms with
      | nil => rfl
      | cons s rest =>
        rw [syms,flatMap_cons,length_append,Relocations.Assembled.length_fputsym] at low
        simp [Relocations.wordsz] at low
    rw [empty]
    rfl
  have offset : (symoff o.head + BitVec.ofNat 32 rOff).toNat = rOff + (32 + o.sections.length) := by
    rw [symoff,if_pos o.magic,sized]
    bv_omega
  have known : ¬ (o.head.magic ≠ rmagic ∧ o.head.magic ≠ omagic ∧ o.head.magic ≠ nmagic ∨ o.head.syms = 0) := by
    rintro (bad | bad)
    · exact bad.1 o.magic
    · exact none bad
  have positive : ¬ (symoff o.head + BitVec.ofNat 32 rOff).toInt < 0 := by
    rw [toInt_eq_toNat_of_lt (by omega)]
    omega
  have table : archive.drop (rOff + (32 + o.sections.length)) =
    o.syms.flatMap fputsym ++ (List.replicate o.zeros 0 ++ later) := by
    rw [← List.drop_drop,there,ObjectFile.bytes,List.append_assoc,List.append_assoc,List.append_assoc]
    rw [drop_fields (show (fputhdr o.head).length = 32 from rfl)]
    exact drop_left' rfl
  obtain ⟨k,few,count⟩ : ∃ k, k ≤ 4 ∧ o.head.syms.toNat = (o.syms.flatMap fputsym).length + k :=
    ⟨o.head.syms.toNat - (o.syms.flatMap fputsym).length,by omega,by omega⟩
  have fuel : o.syms.length < (archive.drop (rOff + (32 + o.sections.length))).length + 1 := by
    have each : o.syms.length ≤ (o.syms.flatMap fputsym).length := by
      rw [length_flatMap]
      calc o.syms.length = (o.syms.map fun _ => 1).sum := by simp
        _ ≤ (o.syms.map fun s => (fputsym s).length).sum := sum_le_sum fun s _ => by
          rw [Relocations.Assembled.length_fputsym]
          omega
    rw [table,length_append]
    omega
  rw [if_neg known,if_neg positive,offset,toInt_eq_toNat_of_lt (by omega),count]
  have whole := rexecLoop_syms wOff fuel few o.named o.typed (List.replicate o.zeros 0 ++ later)
  rw [← table] at whole
  exact whole

structure Piece where
  member : Member
  object : ObjectFile
  same : member.stat.contents = object.bytes

def entries : Nat → List Piece → List Rlib
  | _,[] => []
  | wOff,p :: ps => (p.object.globals.map fun s => ⟨wOff,s.name⟩) ++ entries (wOff + p.member.encode.length) ps

theorem drop_end (before after : List Byte) : (before ++ after).drop ((before ++ after).length - after.length) = after :=
  drop_left' (by rw [length_append]; omega)

theorem rlibs_pieces {ms : List Member} {ps : List Piece} (before : List Byte) (same : objects ms = ps.map Piece.member)
    (counted : ∀ p ∈ ps, p.object.Counted) (small : (before ++ encodeAll ms).length < 2^31) (wOff : Nat) :
    rlibs (before ++ encodeAll ms) ms wOff = .ok (entries wOff ps) := by
  induction ms generalizing before ps wOff with
  | nil =>
    rw [map_eq_nil_iff.mp same.symm]
    rfl
  | cons m ms ih =>
    have whole : before ++ encodeAll (m :: ms) = before ++ m.encode ++ encodeAll ms := by rw [encodeAll_cons,List.append_assoc]
    rw [rlibs]
    by_cases table : m.name = ranlibmag
    · have rest : objects (m :: ms) = objects ms := filter_cons_of_neg (by simp [table])
      rw [if_pos table,whole]
      exact ih (before ++ m.encode) (rest ▸ same) counted (whole ▸ small) wOff
    have rest : objects (m :: ms) = m :: objects ms := filter_cons_of_pos (by simp [table])
    rw [rest] at same
    cases ps with
    | nil => cases same
    | cons p ps =>
      obtain ⟨rfl,others⟩ := cons.inj same
      have split : before ++ encodeAll (p.member :: ms) =
          before ++ (p.member.header ++ if p.member.lname ≠ 0 then p.member.name else
          []) ++ (p.member.body ++ encodeAll ms) := by
        rw [whole,Member.encode]
        simp
      have object : p.member.body ++ encodeAll ms = p.object.bytes ++ (p.member.pad ++ encodeAll ms) := by
        rw [Member.body,p.same,List.append_assoc]
      have there : (before ++ encodeAll (p.member :: ms)).drop
          ((before ++ encodeAll (p.member :: ms)).length - (p.member.body ++ encodeAll ms).length) =
          p.object.bytes ++ (p.member.pad ++ encodeAll ms) := by
        rw [← object,split]
        exact drop_end _ _
      have saved := rexec_object (counted p mem_cons_self) there small wOff
      have more := ih (before ++ p.member.encode) others (fun q member => counted q (mem_cons_of_mem _ member)) (whole ▸ small)
        (wOff + p.member.encode.length)
      rw [if_neg table,saved]
      change Except.bind (rlibs (before ++ encodeAll (p.member :: ms)) ms (wOff + p.member.encode.length)) _ = _
      rw [whole,more]
      rfl

end

section
variable {rs : List Rlib}

def contentsTable : Nat → List Piece → List Ld.Ranlib
  | _,[] => []
  | off,p :: ps => (p.object.globals.map fun s => ⟨BitVec.ofNat 32 off,s.name⟩) ++ contentsTable
    (off + p.member.encode.length) ps

theorem entries_contents (base wOff : Nat) (ps : List Piece) :
    ((entries wOff ps).map fun r => (⟨BitVec.ofNat 32 (base + r.pos),r.sym⟩ : Ld.Ranlib)) = contentsTable (base + wOff) ps := by
  induction ps generalizing wOff with
  | nil => rfl
  | cons p ps ih =>
    rw [entries,map_append,ih,map_map,contentsTable,Nat.add_assoc]
    rfl

theorem entries_named {wOff : Nat} {ps : List Piece} : ∀ r ∈ entries wOff ps, 0 < r.sym.length ∧ r.sym.length < 2^8 := by
  induction ps generalizing wOff with
  | nil => exact fun _ bad => (nomatch bad)
  | cons p ps ih =>
    intro r listed
    rcases mem_append.mp listed with here | later
    · obtain ⟨s,global,rfl⟩ := mem_map.mp here
      exact p.object.named s (mem_of_mem_filter global)
    · exact ih r later

theorem getrantabLoop_symobj {n : Nat} (room : rs.length < n) (base : Nat)
    (named : ∀ r ∈ rs, 0 < r.sym.length ∧ r.sym.length < 2^8)
    (zeros : Nat) (rest : List Byte) :
    Ld.getrantabLoop n ((rs.flatMap fun r =>
    BitVec.ofNat 8 r.sym.length :: (fputword (BitVec.ofNat 32 (base + r.pos)) ++ r.sym)) ++
      (0 :: (List.replicate zeros 0 ++ rest))) = some (rs.map fun r => ⟨BitVec.ofNat 32 (base + r.pos),r.sym⟩) := by
  induction rs generalizing n with
  | nil =>
    obtain _ | n := n
    · omega
    rfl
  | cons r rs ih =>
    obtain _ | n := n
    · omega
    obtain ⟨some,short⟩ := named r mem_cons_self
    have length : (BitVec.ofNat 8 r.sym.length).toNat = r.sym.length := by rw [toNat_ofNat,Nat.mod_eq_of_lt short]
    have nonzero : BitVec.ofNat 8 r.sym.length ≠ 0 := by
      intro zero
      rw [zero] at length
      simp at length
      omega
    rw [List.flatMap_cons,Ld.getrantabLoop,List.cons_append,List.cons_append,Ld.fgetran,if_neg nonzero]
    dsimp only
    rw [List.append_assoc,List.append_assoc,Relocations.fgetword_fputword]
    dsimp only
    rw [length,fgets_name]
    dsimp only
    rw [ih (by simpa using room) fun q member => named q (mem_cons_of_mem _ member)]
    rfl

theorem getrantab_symdef (runner : Runner) (fits : (symobj rs).length < 2^31) (room : rs.length < Ld.rantabsz)
    (named : ∀ r ∈ rs, 0 < r.sym.length ∧ r.sym.length < 2^8) (ms : List Member) :
    Ld.getrantab (file (symdef runner rs fits :: ms)) =
      some (rs.map fun r => ⟨BitVec.ofNat 32 (sarmag + arhdrsz + ransize rs + r.pos),r.sym⟩) := by
  have there : (file (symdef runner rs fits :: ms)).drop sarmag = (symdef runner rs fits).encode ++ encodeAll ms := by
    rw [file,encodeAll_cons]
    exact drop_left' rfl
  have some : 4 - (rs.map fun r => r.sym.length + 5).sum % 4 = 3 - (rs.map fun r => r.sym.length + 5).sum % 4 + 1 := by omega
  rw [Ld.getrantab,there,fgetarhdr_encode _ rfl,Member.body]
  change Ld.getrantabLoop Ld.rantabsz (symobj rs ++ (symdef runner rs fits).pad ++ encodeAll ms) = _
  rw [symobj,some,List.replicate_succ,List.append_assoc,List.append_assoc,List.cons_append]
  exact getrantabLoop_symobj room _ named _ _

end

/-- An archive of object files, perhaps with tables of `ranlib` from before. -/
structure ObjectArchive where
  members : List Member
  pieces : List Piece
  same : objects members = pieces.map Piece.member
  tables : ∀ m ∈ members, m.name = ranlibmag → m.size % 2 = 0
  small : (file members).length < 2^31

namespace ObjectArchive
variable (a : ObjectArchive)

def Stepped (ms : List Member) : Prop := ∀ n > ms.length, Ld.load1lib (file ms) n (BitVec.ofNat 32 sarmag) = placed sarmag ms

def Short : Prop := ∀ m ∈ a.members, m.long = false

/-- The table of contents has room for the symbols, and the archive for the table. -/
structure Fits : Prop where
  counted : ∀ p ∈ a.pieces, p.object.Counted
  room : (entries 0 a.pieces).length < Ld.rantabsz
  table : sarmag + arhdrsz + ransize (entries 0 a.pieces) + (encodeAll (objects a.members)).length < 2^31

theorem even : ∀ m ∈ a.members, m.size % 2 = 0 := by
  intro m member
  by_cases table : m.name = ranlibmag
  · exact a.tables m member table
  have listed : m ∈ objects a.members := mem_filter.mpr ⟨member,by simpa using table⟩
  rw [a.same] at listed
  obtain ⟨p,_,rfl⟩ := mem_map.mp listed
  have whole := p.object.even
  have size : p.member.size = p.object.bytes.length := congrArg length p.same
  rw [size,ObjectFile.bytes,length_append,length_append,length_append,length_replicate,
    Relocations.length_fputhdr,Relocations.hdrsz]
  omega

theorem stepped_placed {ms : List Member} (short : ∀ m ∈ ms, m.long = false) (even : ∀ m ∈ ms, m.size % 2 = 0)
    (small : (file ms).length < 2^31) : Stepped ms :=
  fun _ fuel => load1lib_placed armag fuel short even small

theorem stepped_iff : Stepped a.members ↔ a.Short := by
  constructor
  · intro stepped
    refine @placed_short sarmag _ fun v visited => ?_
    rw [← stepped (a.members.length + 1) (Nat.lt_succ_self _)] at visited
    exact load1lib_load _ _ _ v visited
  · exact fun short => stepped_placed short a.even a.small

theorem length_encodeAll_even {ms : List Member} (short : ∀ m ∈ ms, m.long = false) (even : ∀ m ∈ ms, m.size % 2 = 0) :
    (encodeAll ms).length % 2 = 0 := by
  induction ms with
  | nil => rfl
  | cons m ms ih =>
    have here := length_encode_short (short m mem_cons_self) (even m mem_cons_self)
    have size := even m mem_cons_self
    have rest := ih (fun x member => short x (mem_cons_of_mem _ member)) fun x member => even x (mem_cons_of_mem _ member)
    rw [encodeAll_cons,length_append,here]
    omega

theorem symdef_even {rs : List Rlib} (runner : Runner) (fits : (symobj rs).length < 2^31) :
    (symdef runner rs fits).size % 2 = 0 := by
  have even := ransize_even rs
  have length := length_symobj rs
  change (symobj rs).length % 2 = 0
  omega

theorem length_symdef {rs : List Rlib} (runner : Runner) (fits : (symobj rs).length < 2^31) :
    (symdef runner rs fits).encode.length = arhdrsz + ransize rs := by
  rw [length_encode_short rfl (symdef_even runner fits)]
  exact congrArg (60 + ·) (length_symobj _)

/-- An archive with long names loses members in `ld`, and only such an archive does. Where the names are short and
the headers of the objects count their symbols, `ranlib` makes the table that `getrantab` reads: one entry for
every external symbol that is defined or common, with the offset of the header of its member. -/
theorem archive_agreement (runner : Runner) : (Stepped a.members ↔ a.Short) ∧ (a.Short → a.Fits →
    ∃ fits, step (some (file a.members)) (.ranlib runner) =
    .ok (some (file (symdef runner (entries 0 a.pieces) fits :: objects a.members))) ∧
      Stepped (symdef runner (entries 0 a.pieces) fits :: objects a.members) ∧
      Ld.getrantab (file (symdef runner (entries 0 a.pieces) fits :: objects a.members)) =
        some (contentsTable (sarmag + (symdef runner (entries 0 a.pieces) fits).encode.length) a.pieces)) := by
  refine ⟨a.stepped_iff,fun short fits => ?_⟩
  have kept : ∀ m ∈ objects a.members, m ∈ a.members := fun m member => mem_of_mem_filter member
  have found := rlibs_pieces armag a.same fits.counted a.small 0
  have table := fits.table
  have size : (symobj (entries 0 a.pieces)).length < 2^31 := by
    rw [length_symobj]
    omega
  have finds : Command.finds (.ranlib runner) (some a.members) = true := by
    rw [Command.finds,found,Bool.and_eq_true,Bool.and_eq_true]
    refine ⟨⟨all_eq_true.mpr fun m member => ?_,?_⟩,by simpa using size⟩
    · have lname : m.lname = 0 := by rw [Member.lname,short m member]; rfl
      rw [built,Member.skips,Member.copies,lname,a.even m member]
      split <;> rfl
    · rw [length_encodeAll_even (fun m member => short m (kept m member)) fun m member => a.even m (kept m member)]
      rfl
  refine ⟨size,?_,stepped_placed ?_ ?_ ?_,?_⟩
  · have ran := step_list (.ranlib runner) (some a.members) finds
    rw [Option.map_some,Command.list,found] at ran
    simp only [dif_pos size] at ran
    exact ran
  · intro m member
    rcases mem_cons.mp member with rfl | member
    · rfl
    · exact short m (kept m member)
  · intro m member
    rcases mem_cons.mp member with rfl | member
    · exact symdef_even runner size
    · exact a.even m (kept m member)
  · rw [file,encodeAll_cons,length_append,length_append,length_symdef]
    have magic : armag.length = sarmag := rfl
    omega
  · rw [getrantab_symdef runner size fits.room entries_named,length_symdef,entries_contents,← Nat.add_assoc]
    rfl

end ObjectArchive

def smallObject : ObjectFile where
  head := ⟨rmagic,0,0,0,0,0,8,0⟩
  sections := []
  syms := [⟨text "x",nExt ||| nText,0⟩]
  zeros := 1
  magic := rfl
  sized := rfl
  named := by decide
  typed := by decide
  even := rfl

def smallPiece : Piece := ⟨Member.of ⟨text "x.o",by decide⟩ (someStat smallObject.bytes (by decide)),smallObject,rfl⟩

def smallArchive : ObjectArchive where
  members := [smallPiece.member]
  pieces := [smallPiece]
  same := by decide
  tables := by decide
  small := by decide

def someRunner : Runner := ⟨⟨0,0,0o22,7⟩,by decide,by decide⟩

theorem archive_agreement_smallArchive : ObjectArchive.Stepped smallArchive.members ∧
    ∃ f, step (some (file smallArchive.members)) (.ranlib someRunner) = .ok (some f) ∧
    Ld.getrantab f = some [⟨76,text "x"⟩] := by
  obtain ⟨visits,table⟩ := smallArchive.archive_agreement someRunner
  have short : smallArchive.Short := forall_mem_singleton.mpr rfl
  obtain ⟨fits,ran,_,read⟩ := table short ⟨forall_mem_singleton.mpr (by decide +kernel),by decide +kernel,by decide +kernel⟩
  rw [ObjectArchive.length_symdef] at read
  exact ⟨visits.mpr short,_,ran,read.trans (by decide +kernel)⟩

/-- An object of one symbol, as `ld -r` writes it: the header counts a word behind the padding. -/
def partialObject : List Byte := fputhdr ⟨rmagic,0,0,0,0,0,12,0⟩ ++ (fputsym ⟨text "x",nExt ||| nText,0⟩ ++ [0])

def longPath : Path := ⟨text "floating_compare.o",by decide⟩

def partialDisk : Disk := fun _ => some (someStat partialObject (by decide))

/-- Of an archive with a long name `ld` finds no member, and `ranlib` fails on an object of `ld -r`. -/
theorem agreement_long : ∃ m : Member, run step none [.append partialDisk [longPath]] = .ok (some (file [m])) ∧
    m.name = text "floating_compare.o" ∧ Ld.load1lib (file [m]) 2 (BitVec.ofNat 32 sarmag) = [] ∧
    fault (build someRunner.toUser (some (file [m]))) = some .badfmt := by
  refine ⟨Member.of longPath (someStat partialObject (by decide)),?_,?_,?_,?_⟩ <;> decide +kernel

end Retrobsd.Archives

import Retrobsd.RelocationStreams

/-! `relword` of `ld`: what the fields of a linked program decode to. An addend is known from the
bits of it that the field and the record hold, and addresses are numbers modulo 2^32. -/
namespace Retrobsd.Relocations
open BitVec Option

inductive Format where
  | byte16
  | byte32
  | word16
  | word26
  | high16
  | high16s
  | unknown
deriving DecidableEq

def Reloc.format (r : Reloc) : Format :=
  let f := r.flags &&& rfmask
  if f = rbyte16 then .byte16
  else if f = rbyte32 then .byte32
  else if f = rword16 then .word16
  else if f = rword26 then .word26
  else if f = rhigh16 then .high16
  else if f = rhigh16s then .high16s
  else .unknown

def signedShort (w : Word) : Word := (w.setWidth 16).signExtend 32

namespace Ld

/-- Where the segments of the file that is loaded have come to, `gp`, and the symbols: `nsym`
counts those that come before `symtab` in the output, `local` is from numbers in the file to
places in `symtab`. -/
structure Context where
  ctrel : Word
  cdrel : Word
  cbrel : Word
  gp : Word
  nsym : Word
  symtab : List Nlist
  locals : List (Word × Nat)
  outputRelinfo : Bool

def reltype (stype : Word) : Word :=
  let t := stype &&& nTypeMask
  if t = nUndf then 0
  else if t = nAbs then rabs
  else if t = nText then rtext
  else if t = nData then rdata
  else if t = nBss then rbss
  else if t = nStrng then rdata
  else if t = nComm then rbss
  else 0

/-- No symbol is `bad symbol reference`, with which `ld` ends. -/
def lookloc (c : Context) (sn : Word) : Option Nat := (c.locals.find? (·.1 == sn)).map (·.2)

def address (word : Word) (rel : Reloc) : Word :=
  match rel.format with
  | .byte16 => word &&& 0xffff
  | .byte32 => word
  | .word16 => (word &&& 0xffff) <<< 2
  | .word26 => (word &&& 0x3ffffff) <<< 2
  | .high16 => (word &&& 0xffff) <<< 16 + rel.offset
  | .high16s => (word &&& 0xffff) <<< 16 + signedShort rel.offset
  | .unknown => 0

/-- `sp`, `delta` and the record, after the switch over the segments. -/
structure Delta where
  sp : Option Nlist
  delta : Word
  rel : Reloc

def symbol (c : Context) (rel : Reloc) (i : Nat) (sp : Nlist) : Delta :=
  if sp.nType = nExt + nUndf ∨ sp.nType = nExt + nComm then
    ⟨none,0,{rel with index := c.nsym + BitVec.ofNat 32 i}⟩
  else ⟨some sp,sp.nValue,{rel with flags := rel.flags &&& (rfmask ||| rgprel) ||| reltype sp.nType}⟩

def segment (c : Context) (rel : Reloc) : Option Delta :=
  let s := rel.flags &&& rsmask
  if s = rtext then some ⟨none,c.ctrel,rel⟩
  else if s = rdata then some ⟨none,c.cdrel,rel⟩
  else if s = rbss then some ⟨none,c.cbrel,rel⟩
  else if s = rext then do
    let i ← lookloc c rel.index
    let sp ← c.symtab[i]?
    some (symbol c rel i sp)
  else some ⟨none,0,rel⟩

def gprelative (c : Context) (d : Delta) : Delta :=
  if d.rel.flags &&& rgprel ≠ 0 ∧ c.outputRelinfo = false then
    {d with delta := d.delta - c.gp,rel := {d.rel with flags := d.rel.flags &&& ~~~rgprel}}
  else d

def insert (mask word field : Word) : Word := word &&& ~~~mask ||| field &&& mask

def update (word addr offset : Word) (d : Delta) : Word × Reloc :=
  match d.rel.format with
  | .byte16 => (insert 0xffff word (addr + d.delta),d.rel)
  | .byte32 => (addr + d.delta,d.rel)
  | .word16 => match d.sp with
    | none => (word,d.rel)
    | some _ => (insert 0xffff word ((addr + (d.delta - offset - 4)) >>> 2),{d.rel with flags := rabs})
  | .word26 => (insert 0x3ffffff word ((addr + d.delta) >>> 2),d.rel)
  | .high16 => (insert 0xffff word ((addr + d.delta) >>> 16),d.rel)
  | .high16s => (insert 0xffff word ((addr + d.delta + 0x8000) >>> 16),d.rel)
  | .unknown => (word,d.rel)

def relword (c : Context) (word : Word) (rel : Reloc) (offset : Word) : Option (Word × Reloc) := do
  let d ← segment c rel
  some (update word (address word rel) offset (gprelative c d))

structure Origins where
  torigin : Word
  dorigin : Word
  borigin : Word
  cmorigin : Word

/-- The final value of a symbol, of `middle`; an undefined one sets `errlev`. -/
def settle (o : Origins) (sp : Nlist) : Option Nlist :=
  if sp.nType = nExt + nUndf then none
  else if sp.nType = nExt + nText then some {sp with nValue := sp.nValue + o.torigin}
  else if sp.nType = nExt + nData then some {sp with nValue := sp.nValue + o.dorigin}
  else if sp.nType = nExt + nBss then some {sp with nValue := sp.nValue + o.borigin}
  else if sp.nType = nComm ∨ sp.nType = nExt + nComm then some ⟨sp.name,nExt + nBss,sp.nValue + o.cmorigin⟩
  else some sp

def middle (o : Origins) (syms : List Nlist) : Option (List Nlist) := syms.mapM (settle o)

def Context.shift (c : Context) : Seg → Word
  | .text => c.ctrel
  | _ => c.cdrel

end Ld

section
open Ld (Context)

def base (c : Context) (rel : Reloc) : Option Word :=
  let s := rel.flags &&& rsmask
  if s = rtext then some c.ctrel
  else if s = rdata then some c.cdrel
  else if s = rbss then some c.cbrel
  else if s = rext then do
    let i ← Ld.lookloc c rel.index
    let sp ← c.symtab[i]?
    some sp.nValue
  else some 0

def Reloc.gprelative (rel : Reloc) : Bool := rel.flags &&& rgprel != 0

def target (c : Context) (rel : Reloc) (addend : Word) : Option Word :=
    (base c rel).map fun b => b + addend - if rel.gprelative then c.gp else 0

def branch (word : Word) : Int := 4 * (word.setWidth 16).toInt

def high (word : Word) : Word := BitVec.ofNat 32 (word.toNat % 2^16 * 2^16)

/-- The field and the record hold this addend. In a branch without a symbol it is the address in the
file to which it goes. -/
def Addend (c : Context) (s : Seg) (word : Word) (rel : Reloc) (offset addend : Word) : Prop :=
  match rel.format with
  | .byte16 => addend.toNat % 2^16 = word.toNat % 2^16
  | .byte32 => addend = word
  | .word16 =>
    if rel.external then addend.toNat % 2^18 = 4 * (word.toNat % 2^16)
    else (addend - (offset - c.shift s + 4)).toInt = branch word
  | .word26 => addend.toNat % 2^28 = 4 * (word.toNat % 2^26)
  | .high16 => addend = high word + rel.offset
  | .high16s => addend = high word + signedShort rel.offset
  | .unknown => True

/-- The field of the word at `offset` is exactly the part of the target that its format gives. -/
def Decodes (rel : Reloc) (offset word t : Word) : Prop :=
  match rel.format with
  | .byte16 => if rel.gprelative then (word.setWidth 16).toInt = t.toInt else word.toNat % 2^16 = t.toNat % 2^16
  | .byte32 => word = t
  | .word16 => branch word = (t - (offset + 4)).toInt
  | .word26 => (offset + 4).toNat / 2^28 * 2^28 + 4 * (word.toNat % 2^26) = t.toNat
  | .high16 => word.toNat % 2^16 = t.toNat / 2^16
  | .high16s => high word + signedShort t = t
  | .unknown => True

/-- The field can represent the target. A branch without a symbol is left as it is, so that what it goes
to has to move as far as the branch does. -/
def Representable (c : Context) (s : Seg) (rel : Reloc) (offset addend t : Word) : Prop :=
  match rel.format with
  | .byte16 => rel.gprelative = true → -2^15 ≤ t.toInt ∧ t.toInt < 2^15
  | .word16 =>
    if rel.external then t.toNat % 4 = offset.toNat % 4 ∧ -2^17 ≤ (t - (offset + 4)).toInt ∧ (t - (offset + 4)).toInt < 2^17
    else t - addend = c.shift s
  | .word26 => t.toNat % 4 = 0 ∧ t.toNat / 2^28 = (offset + 4).toNat / 2^28
  | _ => True

theorem insert_field {n : Nat} {mask : Word} (out : (~~~mask).setWidth n = 0#n)
    (kept : mask.setWidth n = allOnes n) (word field : Word) :
    (Ld.insert mask word field).setWidth n = field.setWidth n := by
  rw [Ld.insert,setWidth_or,setWidth_and,setWidth_and,out,kept,and_zero,and_allOnes,zero_or]

theorem insert_low (word field : Word) : (Ld.insert 0xffff word field).setWidth 16 = field.setWidth 16 :=
  insert_field (by decide) (by decide) word field

theorem insert_jump (word field : Word) : (Ld.insert 0x3ffffff word field).setWidth 26 = field.setWidth 26 :=
  insert_field (by decide) (by decide) word field

theorem toInt_low {w : Word} : (w.setWidth 16).toInt = w.toInt ↔ -2^15 ≤ w.toInt ∧ w.toInt < 2^15 := by
  have small := w.isLt
  rw [toInt_eq_toNat_cond,toInt_eq_toNat_cond,toNat_setWidth]
  split_ifs <;> omega

theorem mask16 (w : Word) : (w &&& 0xffff).toNat = w.toNat % 2^16 := by
  rw [toNat_and]
  exact Nat.and_two_pow_sub_one_eq_mod w.toNat 16

theorem mask26 (w : Word) : (w &&& 0x3ffffff).toNat = w.toNat % 2^26 := by
  rw [toNat_and]
  exact Nat.and_two_pow_sub_one_eq_mod w.toNat 26

section
variable {word a e offset : Word}

theorem field_byte16 (addend : a.toNat % 2^16 = word.toNat % 2^16) :
    (Ld.insert 0xffff word ((word &&& 0xffff) + e)).setWidth 16 = (a + e).setWidth 16 := by
  rw [insert_low]
  apply eq_of_toNat_eq
  rw [toNat_setWidth,toNat_setWidth,toNat_add,toNat_add,mask16]
  omega

theorem field_word16 (addend : a.toNat % 2^18 = 4 * (word.toNat % 2^16)) :
    ((Ld.insert 0xffff word (((word &&& 0xffff) <<< 2 + (e - offset - 4)) >>> 2)).setWidth 16).toNat =
      (a + e - (offset + 4)).toNat / 4 % 2^16 := by
  have same : a + e - (offset + 4) = a + (e - offset - 4) := by ring
  rw [same,insert_low,toNat_setWidth,toNat_ushiftRight,Nat.shiftRight_eq_div_pow,toNat_add,toNat_shiftLeft,
    Nat.shiftLeft_eq,mask16,toNat_add]
  generalize (e - offset - 4).toNat = x
  omega

theorem field_word26 (addend : a.toNat % 2^28 = 4 * (word.toNat % 2^26)) :
    (Ld.insert 0x3ffffff word (((word &&& 0x3ffffff) <<< 2 + e) >>> 2)).toNat % 2^26 = (a + e).toNat / 4 % 2^26 := by
  rw [← toNat_setWidth,insert_jump,toNat_setWidth,toNat_ushiftRight,Nat.shiftRight_eq_div_pow,toNat_add,
    toNat_shiftLeft,Nat.shiftLeft_eq,mask26,toNat_add]
  omega

theorem high_eq : high word = (word &&& 0xffff) <<< 16 := by
  apply eq_of_toNat_eq
  rw [toNat_shiftLeft,Nat.shiftLeft_eq,mask16,high,toNat_ofNat]

theorem field_high16 {field : Word} : (Ld.insert 0xffff word (field >>> 16)).toNat % 2^16 = field.toNat / 2^16 := by
  have small := field.isLt
  rw [← toNat_setWidth,insert_low,toNat_setWidth,toNat_ushiftRight,Nat.shiftRight_eq_div_pow]
  omega

theorem toNat_signedShort {t : Word} :
    (signedShort t).toNat = if t.toNat % 2^16 < 2^15 then t.toNat % 2^16 else t.toNat % 2^16 + (2^32 - 2^16) := by
  rw [signedShort,toNat_signExtend,msb_eq_decide,toNat_setWidth,toNat_setWidth]
  split_ifs <;> simp_all <;> omega

theorem field_high16s {t : Word} : high (Ld.insert 0xffff word ((t + 0x8000) >>> 16)) + signedShort t = t := by
  have small := t.isLt
  have carry : (0x8000 : Word).toNat = 2^15 := rfl
  apply eq_of_toNat_eq
  rw [high,field_high16,toNat_add,toNat_ofNat,toNat_signedShort,toNat_add,carry]
  split_ifs <;> omega

end

section
variable {c : Context} {rel : Reloc} {d : Ld.Delta}

theorem reltype_apart (t : Word) : Ld.reltype t &&& (rfmask ||| rgprel) = 0#32 := by
  unfold Ld.reltype
  dsimp only
  split_ifs <;> decide

def Alike (r s : Reloc) : Prop := r.flags &&& (rfmask ||| rgprel) = s.flags &&& (rfmask ||| rgprel)

theorem Alike.part {r s : Reloc} (alike : Alike r s) {m : Word} (inside : (rfmask ||| rgprel) &&& m = m) :
    r.flags &&& m = s.flags &&& m := by
  rw [← inside,← BitVec.and_assoc,← BitVec.and_assoc,alike]

theorem Alike.format {r s : Reloc} (alike : Alike r s) : r.format = s.format := by
  rw [Reloc.format,Reloc.format,alike.part (by decide)]

theorem Alike.gprelative {r s : Reloc} (alike : Alike r s) : r.gprelative = s.gprelative := by
  rw [Reloc.gprelative,Reloc.gprelative,alike.part (by decide)]

theorem settled {o : Ld.Origins} {sp t : Nlist} (settles : Ld.settle o sp = some t) :
    t.nType ≠ nExt + nUndf ∧ t.nType ≠ nExt + nComm := by
  unfold Ld.settle at settles
  split_ifs at settles with undf text data bss comm
  · cases settles
    exact ⟨undf,fun same => absurd (text.symm.trans same) (by decide)⟩
  · cases settles
    exact ⟨undf,fun same => absurd (data.symm.trans same) (by decide)⟩
  · cases settles
    exact ⟨undf,fun same => absurd (bss.symm.trans same) (by decide)⟩
  · cases settles
    exact ⟨(by decide : nExt + nBss ≠ nExt + nUndf),(by decide : nExt + nBss ≠ nExt + nComm)⟩
  · cases settles
    exact ⟨undf,fun same => comm (.inr same)⟩

theorem resolved {o : Ld.Origins} {syms final : List Nlist} (finished : Ld.middle o syms = some final) :
    ∀ sp ∈ final, sp.nType ≠ nExt + nUndf ∧ sp.nType ≠ nExt + nComm := by
  induction syms generalizing final with
  | nil =>
    cases finished
    exact nofun
  | cons sp syms ih =>
    rw [Ld.middle,List.mapM_cons] at finished
    obtain ⟨t,first,rest⟩ := bind_eq_some_iff.mp finished
    obtain ⟨ts,others,same⟩ := bind_eq_some_iff.mp rest
    cases same
    intro s member
    rcases List.mem_cons.mp member with rfl | inside
    · exact settled first
    · exact ih others s inside

theorem segment_spec (defined : ∀ sp ∈ c.symtab, sp.nType ≠ nExt + nUndf ∧ sp.nType ≠ nExt + nComm)
    (found : Ld.segment c rel = some d) : base c rel = some d.delta ∧ Alike d.rel rel ∧ d.sp.isSome = rel.external := by
  unfold Ld.segment at found
  unfold base Reloc.external
  dsimp only at found ⊢
  split_ifs at found with text data bss ext
  · cases found
    rw [if_pos text,text]
    exact ⟨rfl,rfl,rfl⟩
  · cases found
    rw [if_neg text,if_pos data,data]
    exact ⟨rfl,rfl,rfl⟩
  · cases found
    rw [if_neg text,if_neg data,if_pos bss,bss]
    exact ⟨rfl,rfl,rfl⟩
  · rw [if_neg text,if_neg data,if_neg bss,if_pos ext,ext]
    obtain ⟨i,looked,rest⟩ := bind_eq_some_iff.mp found
    obtain ⟨sp,there,same⟩ := bind_eq_some_iff.mp rest
    cases same
    obtain ⟨undf,comm⟩ := defined sp (List.mem_of_getElem? there)
    simp only [looked,there,bind_eq_bind,bind_some]
    rw [Ld.symbol,if_neg (not_or.mpr ⟨undf,comm⟩)]
    refine ⟨rfl,?_,rfl⟩
    rw [Alike,and_or_distrib_right,reltype_apart,BitVec.and_assoc,BitVec.and_self,or_zero]
  · cases found
    rw [if_neg text,if_neg data,if_neg bss,if_neg ext]
    exact ⟨rfl,rfl,(beq_eq_false_iff_ne.mpr ext).symm⟩

theorem gprelative_spec (final : c.outputRelinfo = false) (alike : Alike d.rel rel) :
    (Ld.gprelative c d).delta = d.delta - (if rel.gprelative then c.gp else 0) ∧ (Ld.gprelative c d).rel.format = rel.format ∧
      (Ld.gprelative c d).sp = d.sp := by
  have same := alike.gprelative
  rw [Reloc.gprelative] at same
  unfold Ld.gprelative
  cases gp : rel.gprelative with
  | true =>
    rw [gp] at same
    rw [if_pos ⟨bne_iff_ne.mp same,final⟩,← alike.format,if_pos rfl]
    refine ⟨rfl,?_,rfl⟩
    have kept : ∀ f : Word, f &&& ~~~rgprel &&& rfmask = f &&& rfmask := by
      intro f
      rw [BitVec.and_assoc]
      rfl
    rw [Reloc.format,Reloc.format,kept]
  | false =>
    rw [gp] at same
    rw [if_neg fun both => both.1 (by simpa using same),← alike.format]
    exact ⟨by simp,rfl,rfl⟩

end

theorem toNat_distance {t offset : Word} : (t - (offset + 4)).toNat % 4 = 0 ↔ t.toNat % 4 = offset.toNat % 4 := by
  have four : (4 : Word).toNat = 4 := rfl
  have small := offset.isLt
  rw [toNat_sub,toNat_add,four]
  omega

/-- In a link without relocation information that ends with status 0, a field decodes to its target if and
only if it can represent the target. -/
theorem relword_exact_iff (c : Context) (o : Ld.Origins) (syms : List Nlist) (finished : Ld.middle o syms = some c.symtab)
    (final : c.outputRelinfo = false) (s : Seg) (word : Word) (rel : Reloc) (offset addend t : Word) (out : Word × Reloc)
    (holds : Addend c s word rel offset addend) (aims : target c rel addend = some t)
    (ran : Ld.relword c word rel offset = some out) :
    Decodes rel offset out.1 t ↔ Representable c s rel offset addend t := by
  obtain ⟨d,found,same⟩ := bind_eq_some_iff.mp ran
  obtain ⟨based,alike,external⟩ := segment_spec (resolved finished) found
  obtain ⟨delta,format,sp⟩ := gprelative_spec final alike
  cases same
  rw [target,based,map_some,Option.some.injEq,add_sub_assoc,add_comm d.delta] at aims
  have sum : addend + (Ld.gprelative c d).delta = t := by
    rw [delta,← aims]
    ring
  generalize (Ld.gprelative c d) = e at *
  unfold Addend at holds
  unfold Decodes Representable Ld.update Ld.address
  rw [format]
  cases kind : rel.format with
  | byte16 =>
    simp only [kind] at holds ⊢
    rw [field_byte16 holds,sum]
    split_ifs with gp
    · rw [toInt_low]
      exact ⟨fun range _ => range,fun range => range gp⟩
    refine ⟨fun _ some => absurd some gp,fun _ => ?_⟩
    rw [← toNat_setWidth,field_byte16 holds,sum,toNat_setWidth]
  | byte32 =>
    simp only [kind] at holds ⊢
    rw [← holds,sum]
    exact ⟨fun _ => trivial,fun _ => rfl⟩
  | word16 =>
    simp only [kind] at holds ⊢
    rw [← external,← sp] at holds ⊢
    cases symbol : e.sp with
    | none =>
      rw [symbol,if_neg nofun] at holds
      rw [if_neg nofun]
      have moved : t - (offset + 4) - (addend - (offset - c.shift s + 4)) = t - addend - c.shift s := by ring
      rw [← holds,toInt_inj,eq_comm,← sub_eq_zero,moved,sub_eq_zero]
    | some _ =>
      rw [symbol,if_pos isSome_some] at holds
      rw [if_pos isSome_some]
      have field : ((Ld.insert 0xffff word (((word &&& 0xffff) <<< 2 + (e.delta - offset - 4)) >>> 2)).setWidth 16).toNat =
          (t - (offset + 4)).toNat / 4 % 2^16 := by
        rw [← sum]
        exact field_word16 holds
      rw [← toNat_distance,branch,toInt_eq_toNat_cond,toInt_eq_toNat_cond,field]
      have small := (t - (offset + 4)).isLt
      split_ifs <;> omega
  | word26 =>
    simp only [kind] at holds ⊢
    rw [field_word26 holds,sum]
    have small := t.isLt
    omega
  | high16 =>
    simp only [kind] at holds ⊢
    rw [← high_eq,← holds,sum,field_high16]
    exact ⟨fun _ => trivial,fun _ => rfl⟩
  | high16s =>
    simp only [kind] at holds ⊢
    rw [← high_eq,← holds,sum,field_high16s]
    exact ⟨fun _ => trivial,fun _ => rfl⟩
  | unknown => simp only

/-- `b f` is the first instruction of a program with 0x20010 bytes of text and no data, and `f` is so far behind its beginning. -/
def jumping (far : Word) : Context :=
    ⟨0x7f008000,0x7f008000,0x7f008000,0x7f030010,0,[⟨[0x66],nExt + nText,0x7f008000 + far⟩],[(0,0)],false⟩

def jumped (far : Word) : List Nlist := [⟨[0x66],nExt + nText,far⟩]

def origins : Ld.Origins := ⟨0x7f008000,0x7f028010,0x7f028010,0x7f028010⟩

def branchRecord : Reloc := ⟨rext ||| rword16,0,0⟩

theorem relword_exact_near : Decodes branchRecord 0x7f008000 0x1000003f 0x7f008100 := by
  refine (relword_exact_iff (jumping 0x100) origins (jumped 0x100) (by decide) rfl .text 0x10000000 branchRecord 0x7f008000 0
    0x7f008100 (0x1000003f,⟨rabs,0,0⟩) ?_ (by decide) (by decide)).mpr ?_
  · exact (by decide : (0 : Word).toNat % 2^18 = 4 * ((0x10000000 : Word).toNat % 2^16))
  exact (by decide : (0x7f008100 : Word).toNat % 4 = (0x7f008000 : Word).toNat % 4 ∧
    -2^17 ≤ ((0x7f008100 : Word) - (0x7f008000 + 4)).toInt ∧ ((0x7f008100 : Word) - (0x7f008000 + 4)).toInt < 2^17)

/-- At a distance of 0x20004 the branch goes 0x1fffc back instead. -/
theorem branch_truncated : Ld.middle origins (jumped 0x20008) = some (jumping 0x20008).symtab ∧
    Ld.relword (jumping 0x20008) 0x10000000 branchRecord 0x7f008000 = some (0x10008001,⟨rabs,0,0⟩) ∧
    Addend (jumping 0x20008) .text 0x10000000 branchRecord 0x7f008000 0 ∧
    target (jumping 0x20008) branchRecord 0 = some 0x7f028008 ∧
    branch 0x10008001 = -0x1fffc ∧ ¬ Decodes branchRecord 0x7f008000 0x10008001 0x7f028008 := by
  refine ⟨by decide,by decide,?_,by decide,by decide,?_⟩
  · exact (by decide : (0 : Word).toNat % 2^18 = 4 * ((0x10000000 : Word).toNat % 2^16))
  · exact (by decide : branch 0x10008001 ≠ ((0x7f028008 : Word) - (0x7f008000 + 4)).toInt)

end
end Retrobsd.Relocations

import Retrobsd.RelocationStreams

/-! The records that `ld` reads out of an object are the ones that `as` has put
there, as long as no padding stands between the records of `.data` and of `.strng`. -/
namespace Retrobsd.Relocations
open List BitVec

theorem retyped_segment (f : Word) {t : Word} (within : t &&& rsmask = t) : (f &&& ~~~rsmask ||| t) &&& rsmask = t := by
  have clear : f &&& ~~~rsmask &&& rsmask = 0 := by
    rw [BitVec.and_assoc,show ~~~rsmask &&& rsmask = 0 by decide]
    simp
  have spread : (f &&& ~~~rsmask ||| t) &&& rsmask = (f &&& ~~~rsmask &&& rsmask) ||| (t &&& rsmask) := by
    ext i inside
    simp [Bool.and_or_distrib_right]
  rw [spread,clear,within]
  simp

theorem retyped_format (f : Word) {t : Word} (apart : t &&& rfmask = 0) : (f &&& ~~~rsmask ||| t) &&& rfmask = f &&& rfmask := by
  have spread : (f &&& ~~~rsmask ||| t) &&& rfmask = (f &&& (~~~rsmask &&& rfmask)) ||| (t &&& rfmask) := by
    ext i inside
    simp [Bool.and_or_distrib_right,Bool.and_assoc]
  rw [spread,apart,show ~~~rsmask &&& rfmask = rfmask by decide]
  simp

theorem lt_of_or {a b : Word} {n : Nat} (left : a.toNat < 2^n) (right : b.toNat < 2^n) : (a ||| b).toNat < 2^n := by
  rw [toNat_or]
  exact Nat.or_lt_two_pow left right

theorem lt_of_and {a : Word} (b : Word) {n : Nat} (left : a.toNat < 2^n) : (a &&& b).toNat < 2^n := by
  rw [toNat_and]
  exact lt_of_le_of_lt Nat.and_le_left left

theorem joined_word (w : Word) : (w.setWidth 8).setWidth 32 ||| ((w >>> 8).setWidth 8).setWidth 32 <<< 8 |||
      ((w >>> 16).setWidth 8).setWidth 32 <<< 16 ||| ((w >>> 24).setWidth 8).setWidth 32 <<< 24 = w := by
  apply eq_of_getLsbD_eq
  intro i inside
  rcases Nat.lt_or_ge i 8 with low | second
  · simp [low,inside,show i < 16 by omega,show i < 24 by omega]
  rcases Nat.lt_or_ge i 16 with below | third
  · simp [inside,below,show ¬ i < 8 by omega,show i < 24 by omega,show i - 8 < 8 by omega,show i - 8 < 32 by omega,
      show 8 + (i - 8) = i by omega]
  rcases Nat.lt_or_ge i 24 with below | fourth
  · simp [inside,below,show ¬ i < 8 by omega,show ¬ i < 16 by omega,show ¬ i - 8 < 8 by omega,show i - 16 < 8 by omega,
      show i - 16 < 32 by omega,show 16 + (i - 16) = i by omega]
  simp [inside,show ¬ i < 8 by omega,show ¬ i < 16 by omega,show ¬ i < 24 by omega,show ¬ i - 8 < 8 by omega,
    show ¬ i - 16 < 8 by omega,show i - 24 < 8 by omega,show i - 24 < 32 by omega,show 24 + (i - 24) = i by omega]

theorem fgetword_fputword (w : Word) (rest : List Byte) : fgetword (fputword w ++ rest) = (w,rest) := by
  have joined := joined_word w
  simp [fputword,putc,fgetword,getc,joined]

theorem length_fputword (w : Word) : (fputword w).length = 4 := rfl

theorem fgethdr_fputhdr (h : Exec) (rest : List Byte) : fgethdr (fputhdr h ++ rest) = h := by
  simp [fputhdr,fgethdr,fgetword_fputword]

theorem length_fputhdr (h : Exec) : (fputhdr h).length = hdrsz := rfl

theorem length_words (a : Assembled) (s : Seg) : (a.words s).length = a.count s := by
  rw [Assembled.words,Assembled.count]
  induction a.segment s with
  | nil => rfl
  | cons p rest ih => rw [flatMap_cons,length_append,ih,length_fputword,length_cons,wordsz]; omega

section
variable {a : Assembled}

theorem fputrel_said {r s : Reloc} (same : r.said = s.said) : fputrel r = fputrel s := by
  obtain ⟨flags,rest⟩ := Prod.mk.injEq .. ▸ same
  obtain ⟨index,offset⟩ := Prod.mk.injEq .. ▸ rest
  have external : r.external = s.external := by rw [Reloc.external,flags,Reloc.external]
  have high : r.high = s.high := by rw [Reloc.high,flags,Reloc.high]
  rw [external] at index
  rw [high] at offset
  rw [fputrel,fputrel,flags,external,high]
  cases ext : s.external <;> cases hi : s.high <;> simp_all

theorem typerel_cases (t : Word) : Assembled.typerel t ∈ [rabs,rtext,rdata,rbss] := by
  rw [Assembled.typerel]
  split_ifs <;> decide

theorem said_retyped {r : Reloc} {f t o : Word} (i j : Word) (flags : r.flags = f) (offset : r.high = true → r.offset = o)
    (within : t &&& rsmask = t) (inside : t ≠ rext) (apart : t &&& rfmask = 0) :
    Reloc.said ⟨f &&& ~~~rsmask ||| t,i,r.offset⟩ = Reloc.said ⟨f &&& ~~~rsmask ||| t,j,o⟩ := by
  have external : ∀ k p, Reloc.external ⟨f &&& ~~~rsmask ||| t,k,p⟩ = false := by
    intro k p
    rw [Reloc.external,retyped_segment _ within]
    simpa using inside
  have high : ∀ k p, Reloc.high ⟨f &&& ~~~rsmask ||| t,k,p⟩ = r.high := by
    intro k p
    rw [Reloc.high,retyped_format _ apart,Reloc.high,flags]
  rw [Reloc.said,Reloc.said,external,external,high,high]
  cases hi : r.high with
  | false => rfl
  | true => rw [offset hi]; rfl

theorem typerel_inside (t : Word) : Assembled.typerel t &&& rsmask = Assembled.typerel t ∧ Assembled.typerel t ≠ rext ∧
    Assembled.typerel t &&& rfmask = 0 := by
  have cases := typerel_cases t
  simp only [mem_cons,not_mem_nil,or_false] at cases
  rcases cases with same | same | same | same <;> rw [same] <;> decide

theorem relrel_said {r s : Reloc} (same : r.said = s.said) : (a.relrel r).said = (a.relrel s).said := by
  obtain ⟨flags,rest⟩ := Prod.mk.injEq .. ▸ same
  obtain ⟨index,offset⟩ := Prod.mk.injEq .. ▸ rest
  have external : r.external = s.external := by rw [Reloc.external,flags,Reloc.external]
  have high : r.high = s.high := by rw [Reloc.high,flags,Reloc.high]
  have offset : r.high = true → r.offset = s.offset := by
    intro hi
    simpa [← high,hi] using offset
  rw [Assembled.relrel,Assembled.relrel,flags]
  by_cases string : s.flags &&& rext = rstrng
  · rw [if_pos string,if_pos string]
    exact said_retyped _ _ flags offset (show rdata &&& rsmask = rdata by decide) (by decide) (by decide)
  rw [if_neg string,if_neg string]
  by_cases ext : s.flags &&& rext = rext
  · have named : s.external = true := by simpa [Reloc.external] using (show s.flags &&& rsmask = rext from ext)
    have index : r.index = s.index := by simpa [external,named] using index
    rw [if_pos ext,if_pos ext,index]
    dsimp only
    split_ifs
    · rw [Reloc.said,Reloc.said]
      simp_all [Reloc.external,Reloc.high]
    · exact same
    · obtain ⟨within,inside,apart⟩ := typerel_inside (a.typeOf s.index)
      exact said_retyped _ _ flags offset within inside apart
  · rw [if_neg ext,if_neg ext]
    exact same

theorem Reloc.Fits.relrel {r : Reloc} (fits : r.Fits) (few : a.stab.length ≤ Assembled.stsize) : (a.relrel r).Fits := by
  have retyped : ∀ t : Word, t.toNat < 2^8 → (r.flags &&& ~~~rsmask ||| t).toNat < 2^8 := fun t small =>
    lt_of_or (lt_of_and _ fits.flags) small
  rw [Assembled.relrel]
  dsimp only
  split_ifs
  · exact ⟨retyped _ (by decide),fits.index,fits.offset⟩
  · refine ⟨fits.flags,?_,fits.offset⟩
    have kept : ((a.stab.take r.index.toNat).filter a.keeps).length ≤ a.stab.length :=
      (length_filter_le _ _).trans (by rw [length_take]; exact min_le_right _ _)
    rw [Assembled.newindex,toNat_ofNat]
    rw [Assembled.stsize] at few
    omega
  · exact fits
  · refine ⟨retyped _ ?_,fits.index,fits.offset⟩
    have cases := typerel_cases (a.typeOf r.index)
    simp only [mem_cons,not_mem_nil,or_false] at cases
    rcases cases with same | same | same | same <;> rw [same] <;> decide
  · exact fits

theorem makerelocLoop_eq (rs : List Reloc) (fits : ∀ s ∈ rs, s.Fits) (r : Reloc) (rest : List Byte) :
    a.makerelocLoop rs.length r (rs.flatMap fputrel ++ rest) = rs.flatMap fun s => fputrel (a.relrel s) := by
  induction rs generalizing r with
  | nil => rfl
  | cons s rs ih =>
    rw [List.length_cons,List.flatMap_cons,List.append_assoc,Assembled.makerelocLoop,
      fgetrel_fputrel (fits s mem_cons_self),flatMap_cons]
    dsimp only
    rw [ih fun q member => fits q (mem_cons_of_mem _ member),fputrel_said (relrel_said (r.said_hears s))]

end

section
variable (relword : Word → Reloc → Word → Word × Reloc)

def heard (turns : List Ld.Turn) : List (Word × Option Word × Option Word) := turns.map fun t => t.rel.said

theorem relocate_reads (rs : List Reloc) (fits : ∀ s ∈ rs, s.Fits) (m : Nat) (address : Word) (r : Reloc)
    (text rest : List Byte) :
    ∃ later t after, heard (Ld.relocate relword (rs.length + m) address r text (rs.flatMap fputrel ++ rest)) =
      rs.map Reloc.said ++ heard (Ld.relocate relword m later t after rest) := by
  induction rs generalizing address r text with
  | nil => exact ⟨address,r,text,by simp⟩
  | cons s rs ih =>
    obtain ⟨later,t,after,reads⟩ := ih (fun q member => fits q (mem_cons_of_mem _ member)) (address + 4)
      (relword (fgetword text).1 (r.hears s) address).2 (fgetword text).2
    refine ⟨later,t,after,?_⟩
    rw [List.length_cons,Nat.succ_add,List.flatMap_cons,List.append_assoc,Ld.relocate,
      fgetrel_fputrel (fits s List.mem_cons_self)]
    dsimp only
    rw [heard,List.map_cons,← heard,reads,Reloc.said_hears,List.map_cons,List.cons_append]

theorem said_zero {s : Reloc} (plain : s.flags = 0) : s.said = (0,none,none) := by
  rw [Reloc.said,Reloc.external,Reloc.high,plain]
  rfl

theorem fputrel_zero {s : Reloc} (plain : s.flags = 0) : fputrel s = [0] := by
  rw [fputrel,Reloc.external,Reloc.high,plain]
  rfl

theorem zero_fits : (⟨0,0,0⟩ : Reloc).Fits := ⟨by decide,by decide,by decide⟩

theorem relocate_padded (ss : List Reloc) (fits : ∀ s ∈ ss, s.Fits) (p : Nat) (address : Word) (r : Reloc)
    (text rest : List Byte) :
    heard (Ld.relocate relword ss.length address r text (List.replicate p 0 ++ (ss.flatMap fputrel ++ rest))) =
    ss.map Reloc.said ↔
      p = 0 ∨ ∀ s ∈ ss, s.flags = 0 := by
  rcases Nat.eq_zero_or_pos p with rfl | padded
  · obtain ⟨later,t,after,reads⟩ := relocate_reads relword ss fits 0 address r text rest
    rw [Nat.add_zero] at reads
    simpa [heard,Ld.relocate] using reads
  obtain _ | k := p
  · omega
  have nonzero : k + 1 ≠ 0 := Nat.succ_ne_zero k
  rw [or_iff_right nonzero]
  induction ss generalizing address r text with
  | nil => simp [heard,Ld.relocate]
  | cons s ss ih =>
    have first := fgetrel_fputrel zero_fits (List.replicate k 0 ++ ((s :: ss).flatMap fputrel ++ rest)) r
    rw [fputrel_zero rfl] at first
    rw [List.length_cons,List.replicate_succ,List.cons_append,Ld.relocate]
    rw [singleton_append] at first
    rw [first]
    dsimp only
    rw [heard,map_cons,← heard,map_cons,cons.injEq,Reloc.said_hears,said_zero rfl]
    constructor
    · rintro ⟨here,later⟩
      have plain : s.flags = 0 := (congrArg Prod.fst here).symm
      refine forall_mem_cons.mpr ⟨plain,?_⟩
      rw [List.flatMap_cons,fputrel_zero plain,List.append_assoc,← List.append_assoc,← List.replicate_succ'] at later
      exact (ih (fun q member => fits q (mem_cons_of_mem _ member)) _ _ _).mp later
    intro plain
    obtain ⟨here,later⟩ := forall_mem_cons.mp plain
    refine ⟨(said_zero here).symm,?_⟩
    rw [List.flatMap_cons,fputrel_zero here,List.append_assoc,← List.append_assoc,← List.replicate_succ']
    exact (ih (fun q member => fits q (mem_cons_of_mem _ member)) _ _ _).mpr later

end

section

def Reloc.size (r : Reloc) : Nat := 1 + (if r.external then 3 else 0) + (if r.high then 2 else 0)

theorem length_fputrel (r : Reloc) : (fputrel r).length = r.size := by
  rw [fputrel,Reloc.size]
  cases r.external <;> cases r.high <;> rfl

def Assembled.records (a : Assembled) (s : Seg) : List Reloc := (a.segment s).map fun p => a.relrel p.2

variable (a : Object)

theorem records_fit (s : Seg) : ∀ r ∈ a.records s, r.Fits := by
  intro r member
  obtain ⟨p,listed,rfl⟩ := mem_map.mp member
  exact (a.fits s p listed).relrel a.few

theorem makereloc_eq (s : Seg) :
    a.makereloc s = (a.records s).flatMap fputrel ++ Assembled.padding ((a.records s).flatMap fputrel).length := by
  have whole : a.count s / wordsz = ((a.segment s).map Prod.snd).length := by
    rw [Assembled.count,wordsz,length_map]
    omega
  have file : a.rfile s = ((a.segment s).map Prod.snd).flatMap fputrel ++ [] := by
    rw [Assembled.rfile,append_nil,flatMap_map]
  have fits : ∀ r ∈ (a.segment s).map Prod.snd, r.Fits := by
    intro r member
    obtain ⟨p,listed,rfl⟩ := mem_map.mp member
    exact a.fits s p listed
  have emitted : (((a.segment s).map Prod.snd).flatMap fun r => fputrel (a.relrel r)) = (a.records s).flatMap fputrel := by
    rw [Assembled.records,flatMap_map,flatMap_map]
  rw [Assembled.makereloc]
  split_ifs with none
  · have empty : a.segment s = [] := by
      rw [Assembled.count,wordsz] at none
      exact length_eq_zero_iff.mp (by omega)
    simp [Assembled.records,empty,Assembled.padding,wordsz]
  · rw [whole,file,makerelocLoop_eq _ fits,emitted]

theorem drop_past {α : Type} {l : List α} {n : Nat} (length : l.length = n) (k : Nat) (rest : List α) :
    (l ++ rest).drop (n + k) = rest.drop k := by
  rw [← length,drop_append,drop_eq_nil_of_le (Nat.le_add_right _ _),Nat.add_sub_cancel_left,nil_append]

theorem header_sizes : (a.makeheader.text.toNat = a.count .text) ∧ (a.makeheader.data.toNat = a.count .data + a.count .strng) ∧
    a.makeheader.reltext.toNat = (a.makereloc .text).length := by
  have small := a.small
  rw [Assembled.objectFile] at small
  simp only [length_append,length_words] at small
  simp only [Assembled.makeheader,toNat_ofNat]
  refine ⟨?_,?_,?_⟩ <;> exact Nat.mod_eq_of_lt (by omega)

theorem readhdr_object : Ld.readhdr a.objectFile = some a.makeheader := by
  obtain ⟨text,data,_⟩ := header_sizes a
  have header : fgethdr a.objectFile = a.makeheader := by rw [Assembled.objectFile,fgethdr_fputhdr]
  have bss : a.makeheader.bss.toNat % wordsz = 0 := a.aligned
  rw [Ld.readhdr,header]
  rw [if_neg (by simp [Assembled.makeheader]),text,data,if_neg (by simp [Assembled.count]),
    if_neg (by rw [Assembled.count,Assembled.count,wordsz]; omega),if_neg (by simp [bss])]

theorem padding_eq (n : Nat) : Assembled.padding n = List.replicate ((wordsz - n % wordsz) % wordsz) 0 := rfl

theorem load2_object (relword : Word → Reloc → Word → Word × Reloc) (torigin dorigin : Word) (r : Reloc) :
    ∃ text data textRest dataRest, Ld.load2 relword torigin dorigin r a.objectFile =
      some (Ld.relocate relword (a.segment .text).length torigin r text (a.makereloc .text ++ textRest),
        Ld.relocate relword ((a.segment .data).length + (a.segment .strng).length) dorigin r data
          (a.makereloc .data ++ (a.makereloc .strng ++ dataRest))) := by
  obtain ⟨text,data,reltext⟩ := header_sizes a
  have textWords : a.count .text / wordsz = (a.segment .text).length := by
    rw [Assembled.count,wordsz]
    omega
  have dataWords : (a.count .data + a.count .strng) / wordsz = (a.segment .data).length + (a.segment .strng).length := by
    rw [Assembled.count,Assembled.count,wordsz]
    omega
  have records : a.objectFile.drop (hdrsz + a.count .text + (a.count .data + a.count .strng)) =
      a.makereloc .text ++ (a.makereloc .data ++ (a.makereloc .strng ++ a.makesymtab)) := by
    rw [Assembled.objectFile,Nat.add_assoc,drop_past (length_fputhdr _),drop_past (length_words _ _),
      drop_past (length_words _ _)]
    exact drop_left' (length_words _ _)
  have behind : a.objectFile.drop (hdrsz + a.count .text + (a.count .data + a.count .strng) + (a.makereloc .text).length) =
      a.makereloc .data ++ (a.makereloc .strng ++ a.makesymtab) := by
    rw [← drop_drop,records]
    exact drop_left' rfl
  refine ⟨a.objectFile.drop hdrsz,a.objectFile.drop (hdrsz + a.count .text),
    a.makereloc .data ++ (a.makereloc .strng ++ a.makesymtab),a.makesymtab,?_⟩
  rw [Ld.load2,readhdr_object]
  simp only [Option.bind_eq_bind,Option.bind_some,text,data,reltext,textWords,dataWords]
  rw [records,behind]
  rfl

/-- All that `ld` reads are the records of `as`, whatever `relword` does with them. -/
def Agrees : Prop := ∀ relword torigin dorigin r, ∃ text data,Ld.load2 relword torigin dorigin r a.objectFile =
    some (text,data) ∧
    heard text = (a.records .text).map Reloc.said ∧
    heard data = (a.records .data ++ a.records .strng).map Reloc.said

theorem padded_iff (n : Nat) : (wordsz - n % wordsz) % wordsz = 0 ↔ n % wordsz = 0 := by
  rw [wordsz]
  omega

/-- The text is always read right; of the words of the data those of `.strng` only if
the records of `.data` fill words or nothing but absolute records comes behind them. -/
theorem agrees_iff : Agrees a ↔ ((a.records .data).map Reloc.size).sum % wordsz = 0 ∨ ∀ r ∈ a.records .strng, r.flags = 0 := by
  have lengths : ∀ s, (a.records s).length = (a.segment s).length := fun s => length_map _
  have filled : ((a.records .data).flatMap fputrel).length = ((a.records .data).map Reloc.size).sum := by
    rw [length_flatMap]
    exact congrArg List.sum (map_congr_left fun r _ => length_fputrel r)
  have step : ∀ relword torigin dorigin r, (∃ text data,Ld.load2 relword torigin dorigin r a.objectFile = some (text,data) ∧
        heard text = (a.records .text).map Reloc.said ∧
        heard data = (a.records .data ++ a.records .strng).map Reloc.said) ↔
      ((a.records .data).map Reloc.size).sum % wordsz = 0 ∨ ∀ r ∈ a.records .strng, r.flags = 0 := by
    intro relword torigin dorigin r
    obtain ⟨text,data,textRest,dataRest,loaded⟩ := load2_object a relword torigin dorigin r
    obtain ⟨_,_,_,textual⟩ := relocate_reads relword (a.records .text) (records_fit a .text) 0 torigin r text
      (Assembled.padding ((a.records .text).flatMap fputrel).length ++ textRest)
    obtain ⟨later,t,after,reads⟩ := relocate_reads relword (a.records .data) (records_fit a .data)
      (a.records .strng).length dorigin r data
      (Assembled.padding ((a.records .data).flatMap fputrel).length ++ (a.makereloc .strng ++ dataRest))
    have padded := relocate_padded relword (a.records .strng) (records_fit a .strng)
      ((wordsz - ((a.records .data).map Reloc.size).sum % wordsz) % wordsz) later t after
      (Assembled.padding ((a.records .strng).flatMap fputrel).length ++ dataRest)
    rw [padded_iff] at padded
    rw [makereloc_eq,makereloc_eq,List.append_assoc,List.append_assoc,← lengths,← lengths,← lengths] at loaded
    rw [makereloc_eq a .strng,filled,padding_eq (List.sum _),List.append_assoc] at reads
    rw [makereloc_eq a .strng,filled,padding_eq (List.sum _),List.append_assoc] at loaded
    rw [← padded]
    constructor
    · rintro ⟨_,_,ok,_,second⟩
      rw [loaded,Option.some.injEq,Prod.mk.injEq] at ok
      rw [← ok.2,reads,map_append] at second
      exact append_cancel_left second
    intro right
    refine ⟨_,_,loaded,?_,?_⟩
    · rw [← Nat.add_zero (a.records .text).length,textual]
      simp [heard,Ld.relocate]
    · rw [reads,right,map_append]
  constructor
  · intro agrees
    exact (step (fun w r _ => (w,r)) 0 0 ⟨0,0,0⟩).mp (agrees _ _ _ _)
  intro holds relword torigin dorigin r
  exact (step relword torigin dorigin r).mpr holds

/-- Every record is read back as it was written, by `as` and by `ld`; and `ld` reads
of an object the record of each word unless padding stands before records of `.strng`
that are not absolute. -/
theorem streams_agree (s : Reloc) (fits : s.Fits) (rest : List Byte) (r : Reloc) (a : Object) :
    fgetrel (fputrel s ++ rest) r = (r.hears s,rest) ∧
      (Agrees a ↔ ((a.records .data).map Reloc.size).sum % wordsz = 0 ∨ ∀ r ∈ a.records .strng, r.flags = 0) :=
  ⟨fgetrel_fputrel fits rest r,agrees_iff a⟩

def addressTable : Object where
  segment
    | .text => []
    | .data => [(7,⟨rabs ||| rbyte32,0,0⟩)]
    | .strng => [(0,⟨rdata ||| rbyte32,0,0⟩)]
  bss := 0
  stab := []
  xflags := false
  xFlag := false
  fits s p member := by
    cases s <;> simp at member
    all_goals
      subst member
      exact ⟨by decide,by decide,by decide⟩
  few := by decide
  aligned := by decide
  small := by decide

theorem streams_agree_addressTable : fgetrel (fputrel ⟨rext ||| rhigh16s,5,0x8000⟩) ⟨0,0,0⟩ = (⟨rext ||| rhigh16s,5,0x8000⟩,[]) ∧
    (Agrees addressTable ↔ ((addressTable.records .data).map Reloc.size).sum % wordsz = 0 ∨
    ∀ r ∈ addressTable.records .strng, r.flags = 0) := by
  exact streams_agree ⟨rext ||| rhigh16s,5,0x8000⟩ ⟨by decide,by decide,by decide⟩ [] ⟨0,0,0⟩ addressTable

/-- The record of the address is three bytes further on than `ld` looks for it, which
takes the word for an absolute one. -/
theorem address_unrelocated : ¬ ∀ a : Object, Agrees a := by
  intro agree
  have wrong := (agrees_iff addressTable).mp (agree addressTable)
  revert wrong
  decide

end

end Retrobsd.Relocations

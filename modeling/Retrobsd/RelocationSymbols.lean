import Retrobsd.RelocationAgreement

/-! The symbol table of an object. `middle` counts and numbers the symbols that `-x` and `-X` leave,
and `makesymtab` puts them out: both pick them for themselves. -/
namespace Retrobsd.Relocations
open List

theorem sum_filter_or {α : Type} (l : List α) {p q : α → Bool} (size : α → Nat) (apart : ∀ x ∈ l, p x = true → q x = false) :
    ((l.filter fun x => p x || q x).map size).sum = ((l.filter p).map size).sum + ((l.filter q).map size).sum := by
  induction l with
  | nil => rfl
  | cons x l ih =>
    replace ih := ih fun y member => apart y (mem_cons_of_mem _ member)
    have here := apart x mem_cons_self
    cases first : p x with
    | true => simp [first,here first,ih,Nat.add_assoc]
    | false => cases second : q x <;> simp [first,second,ih,Nat.add_left_comm]

namespace Assembled
variable (a : Assembled)

def emits (s : Nlist) : Bool := !a.xflags || s.nType &&& nExt != 0 || a.xFlag && s.name.head? != some letterL

def emitted : List Nlist := a.stab.filter a.emits

def dotted (s : Nlist) : Bool := a.xflags && a.xFlag && s.nType &&& nExt == 0 && s.name.head? == some letterDot

theorem makesymtab_eq : a.makesymtab = a.emitted.flatMap fputsym ++ List.replicate a.stalign 0 := rfl

theorem emits_eq (s : Nlist) : a.emits s = (a.keeps s || a.dotted s) := by
  have letters : ∀ c : Option Byte,
    (c != some letterL) = (!(c == some letterL || c == some letterDot) || c == some letterDot) := by
    intro c
    by_cases dot : c = some letterDot
    · subst dot
      rfl
    have other : (c == some letterDot) = false := by simpa using dot
    rw [other,Bool.or_false,Bool.or_false]
    rfl
  rw [emits,keeps,dotted,Nlist.isLocal,letters]
  have ext : (s.nType &&& nExt == 0) = !(s.nType &&& nExt != 0) := (Bool.not_not _).symm
  rw [ext]
  cases a.xflags <;> cases s.nType &&& nExt != 0 <;> cases a.xFlag <;> simp

theorem keeps_dotted {s : Nlist} (kept : a.keeps s = true) : a.dotted s = false := by
  by_contra some
  rw [Bool.not_eq_false] at some
  simp only [dotted,Bool.and_eq_true,beq_iff_eq] at some
  obtain ⟨⟨⟨flags,flag⟩,type⟩,dot⟩ := some
  simp [keeps,Nlist.isLocal,flags,flag,type,dot] at kept

theorem length_fputsym (s : Nlist) : (fputsym s).length = 2 + wordsz + s.name.length := by
  simp only [fputsym,length_append,length_fputword,putc,length_singleton,wordsz]

theorem length_makesymtab : a.makesymtab.length =
    a.stlength + a.stalign + ((a.stab.filter a.dotted).map fun s => 2 + wordsz + s.name.length).sum := by
  have picks : a.emitted = a.stab.filter fun s => a.keeps s || a.dotted s :=
    congrArg (fun p => a.stab.filter p) (funext a.emits_eq)
  have sizes : (a.emitted.flatMap fputsym).length = (a.emitted.map fun s => 2 + wordsz + s.name.length).sum := by
    rw [length_flatMap]
    exact congrArg List.sum (map_congr_left fun s _ => length_fputsym s)
  rw [makesymtab_eq,length_append,sizes,length_replicate,picks,sum_filter_or (p := a.keeps) (q := a.dotted) _ _
    fun s _ kept => a.keeps_dotted kept,stlength]
  omega

theorem unpicked_iff : ((a.stab.filter a.dotted).map fun s => 2 + wordsz + s.name.length).sum = 0 ↔
    ∀ s ∈ a.stab, a.dotted s = false := by
  constructor
  · intro none s member
    by_contra some
    rw [Bool.not_eq_false] at some
    have counted := single_le_sum (fun _ _ => Nat.zero_le _) _ (mem_map_of_mem (f := fun s : Nlist => 2 + wordsz + s.name.length)
      (mem_filter.mpr ⟨member,some⟩))
    rw [none] at counted
    simp [wordsz] at counted
  · intro none
    rw [filter_eq_nil_iff.mpr fun s member => by simp [none s member]]
    rfl

/-- The index in the record of a word is the place at which the symbol of its operand stands in the
emitted table. -/
def Names (r : Reloc) : Prop := ∃ before sym after, a.stab = before ++ sym :: after ∧ before.length = r.index.toNat ∧
    a.emitted = before.filter a.emits ++ sym :: after.filter a.emits ∧ (a.relrel r).index.toNat = (before.filter a.emits).length

theorem relrel_external {r : Reloc} (named : (a.relrel r).external = true) :
    (a.typeOf r.index = nExt + nUndf ∨ a.typeOf r.index = nExt + nComm) ∧
      a.relrel r = if a.xflags then {r with index := a.newindex r.index} else r := by
  have retyped : ∀ t : Word, t &&& rsmask = t → t ≠ rext →
    Reloc.external {r with flags := r.flags &&& ~~~rsmask ||| t} = false := by
    intro t within inside
    rw [Reloc.external,retyped_segment _ within]
    simpa using inside
  rw [relrel] at named ⊢
  by_cases string : r.flags &&& rext = rstrng
  · rw [if_pos string,retyped rdata (by decide) (by decide)] at named
    cases named
  rw [if_neg string] at named ⊢
  by_cases ext : r.flags &&& rext = rext
  · rw [if_pos ext] at named ⊢
    dsimp only at named ⊢
    by_cases type : a.typeOf r.index = nExt + nUndf ∨ a.typeOf r.index = nExt + nComm
    · rw [if_pos type]
      exact ⟨type,rfl⟩
    obtain ⟨within,inside,_⟩ := typerel_inside (a.typeOf r.index)
    rw [if_neg type,retyped _ within inside] at named
    cases named
  · rw [if_neg ext,Reloc.external,show rsmask = rext from rfl] at named
    exact absurd (by simpa using named) ext

theorem names_of_undotted (few : a.stab.length ≤ stsize) (none : ∀ s ∈ a.stab, a.dotted s = false) {r : Reloc}
    (named : (a.relrel r).external = true) : a.Names r := by
  obtain ⟨type,same⟩ := a.relrel_external named
  obtain ⟨sym,there,external⟩ : ∃ sym, a.stab[r.index.toNat]? = some sym ∧ sym.nType &&& nExt ≠ 0 := by
    rw [typeOf] at type
    cases found : a.stab[r.index.toNat]? with
    | none =>
      rw [found] at type
      exact absurd type (by decide)
    | some sym =>
      rw [found] at type
      refine ⟨sym,rfl,?_⟩
      rcases type with undf | comm
      · exact (show sym.nType = nExt + nUndf from undf) ▸ by decide
      · exact (show sym.nType = nExt + nComm from comm) ▸ by decide
  obtain ⟨inside,rfl⟩ := List.getElem?_eq_some_iff.mp there
  have split : a.stab = a.stab.take r.index.toNat ++ a.stab[r.index.toNat] :: a.stab.drop (r.index.toNat + 1) := by
    rw [← drop_eq_getElem_cons inside,take_append_drop]
  have emits : a.emits a.stab[r.index.toNat] = true := by
    have bit : (a.stab[r.index.toNat].nType &&& nExt != 0) = true := bne_iff_ne.mpr external
    rw [Assembled.emits,bit,Bool.or_true,Bool.true_or]
  refine ⟨_,_,_,split,by rw [length_take]; omega,?_,?_⟩
  · rw [emitted]
    conv_lhs => rw [split]
    rw [filter_append,filter_cons_of_pos emits]
  rw [same]
  split
  next =>
    have alike : (a.stab.take r.index.toNat).filter a.emits = (a.stab.take r.index.toNat).filter a.keeps :=
      filter_congr fun s member => by rw [emits_eq,none s (mem_of_mem_take member),Bool.or_false]
    have short : ((a.stab.take r.index.toNat).filter a.keeps).length ≤ a.stab.length :=
      (length_filter_le _ _).trans (by rw [length_take]; exact min_le_right _ _)
    rw [alike]
    dsimp only
    rw [newindex,BitVec.toNat_ofNat,Nat.mod_eq_of_lt]
    rw [stsize] at few
    omega
  next whole =>
    have all : (a.stab.take r.index.toNat).filter a.emits = a.stab.take r.index.toNat :=
      filter_eq_self.mpr fun s _ => by simp [Assembled.emits,whole]
    rw [all,length_take]
    omega

end Assembled

/-- The header gives the size of the symbol table, and the records give the places of their symbols in
it, if and only if `-X` finds no local symbol with a dot. -/
theorem symbols_agree_iff (a : Object) : (a.makeheader.syms.toNat = a.makesymtab.length ∧
      ∀ s, ∀ p ∈ a.segment s, (a.relrel p.2).external = true → a.Names p.2) ↔
    ¬ (a.xflags = true ∧ a.xFlag = true ∧ ∃ s ∈ a.stab, s.nType &&& nExt = 0 ∧ s.name.head? = some letterDot) := by
  have counted := a.length_makesymtab
  have header : a.makeheader.syms.toNat = a.stlength + a.stalign := by
    have small := a.small
    rw [Assembled.objectFile] at small
    simp only [length_append] at small
    exact (BitVec.toNat_ofNat _ _).trans (Nat.mod_eq_of_lt (by omega))
  have condition : (∀ s ∈ a.stab, a.dotted s = false) ↔
      ¬ (a.xflags = true ∧ a.xFlag = true ∧ ∃ s ∈ a.stab, s.nType &&& nExt = 0 ∧ s.name.head? = some letterDot) := by
    constructor
    · rintro none ⟨flags,flag,s,member,type,dot⟩
      have found : a.dotted s = true := by simp [Assembled.dotted,flags,flag,type,dot]
      rw [none s member] at found
      cases found
    intro none s member
    by_contra some
    rw [Bool.not_eq_false] at some
    simp only [Assembled.dotted,Bool.and_eq_true,beq_iff_eq] at some
    obtain ⟨⟨⟨flags,flag⟩,type⟩,dot⟩ := some
    exact none ⟨flags,flag,s,member,type,dot⟩
  rw [← condition,← a.unpicked_iff,header,counted]
  constructor
  · intro both
    omega
  intro none
  refine ⟨by omega,fun s p member named => ?_⟩
  exact a.names_of_undotted a.few (a.unpicked_iff.mp none) named

def dottedCall : Object where
  segment
    | .text => [(0x0c000000,⟨rext ||| rword26,1,0⟩),(0,⟨rabs,0,0⟩)]
    | .data => []
    | .strng => []
  bss := 0
  stab := [⟨[letterDot,0x66],nText,0⟩,⟨[0x67],nExt + nUndf,0⟩]
  xflags := true
  xFlag := true
  fits s p member := by
    cases s <;> simp at member
    rcases member with rfl | rfl <;> exact ⟨by decide,by decide,by decide⟩
  few := by decide
  aligned := rfl
  small := by decide

/-- The table has eight bytes more than the header says, and the record of the call names `.f`. -/
theorem symbols_dottedCall : dottedCall.makeheader.syms.toNat = 8 ∧ dottedCall.makesymtab.length = 16 ∧
    (dottedCall.relrel ⟨rext ||| rword26,1,0⟩).external = true ∧ (dottedCall.relrel ⟨rext ||| rword26,1,0⟩).index = 0 ∧
    dottedCall.emitted = [⟨[letterDot,0x66],nText,0⟩,⟨[0x67],nExt + nUndf,0⟩] := by decide

end Retrobsd.Relocations

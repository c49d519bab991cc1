import Retrobsd.AssemblerEmission
import Retrobsd.Lib.Run

/-! In a text that keeps a few rules, `pass1` puts every item where it belongs, and counts what it
puts out. -/
namespace Retrobsd.Assembler
open Function (update update_eq_self update_idem update_self)
open Relocations (Word Byte)
open Lib.Hoare

section
variable {s : Scan} {segm : Segment} {dot : Word}

theorem yields_any {σ ε α : Type} {c : StateT σ (Except ε) α} {s : σ} {post : α → σ → Prop}
    (all : ∀ x t, post x t) : Yields c s post :=
  fun x t _ => all x t

def Keeps (i j : Insn) : Prop := j.type = i.type ∨ j.type &&& fdslot = 0

theorem Keeps.refl (i : Insn) : Keeps i i := .inl rfl

theorem keeps_pure {i j : Insn} (same : j.type = i.type) : Yields (pure j : Parse Insn) s fun j _ => Keeps i j :=
  yields_pure _ |>.mpr (.inl same)

section
variable (i : Insn)
include i

theorem firstRegister_keeps : Yields (firstRegister i) s fun j _ => Keeps i j := by
  have first : ∀ (i : Insn) flag shift message cval s, Yields (i.first flag shift message cval) s fun r _ =>
    r.1.type = i.type := by
    intro i flag shift message cval s
    simp only [Insn.first]
    refine .ite (fun _ => yields_pure _ |>.mpr rfl) fun _ => ?_
    simp only [yields_bind,yields_pure]
    exact yields_any fun _ _ => rfl
  have last : ∀ (j : Insn) cval, (j.opened cval).type = j.type := by
    intro j cval
    simp only [Insn.opened]
    split <;> split <;> rfl
  simp only [firstRegister,yields_bind]
  refine (first i frd1 11 _ 0 s).imp fun r t same => ?_
  obtain ⟨j,cval⟩ := r
  refine (first j frt1 16 _ cval t).imp fun r t same' => ?_
  obtain ⟨k,cval⟩ := r
  refine .ite (fun _ => ?_) fun _ => keeps_pure ((last k cval).trans (same'.trans same))
  simp only [yields_bind,yields_pure]
  exact yields_any fun r _ => .inl ((last _ r).trans (same'.trans same))

theorem secondRd_keeps : Yields (secondRd i) s fun j _ => Keeps i j := by
  simp only [secondRd]
  refine .ite (fun _ => keeps_pure rfl) fun _ => ?_
  simp only [yields_bind,yields_pure]
  exact yields_any fun _ _ => yields_any fun _ _ => .inl rfl

theorem secondRt_keeps : Yields (secondRt i) s fun r _ => Keeps i r.1 := by
  simp only [secondRt]
  refine .ite (fun _ => yields_pure _ |>.mpr (Keeps.refl i)) fun _ => ?_
  simp only [yields_bind]
  refine yields_any fun _ _ => yields_any fun clex _ => ?_
  split
  · exact yields_pure _ |>.mpr (.inl rfl)
  refine .ite (fun _ => ?_) fun _ => yields_uerror
  simp only [yields_bind,yields_pure]
  exact yields_any fun _ _ => .inl rfl

theorem secondRs_keeps : Yields (secondRs i) s fun r _ => Keeps i r.1 := by
  simp only [secondRs]
  refine .ite (fun _ => yields_pure _ |>.mpr (Keeps.refl i)) fun _ => ?_
  simp only [yields_bind]
  refine yields_any fun clex _ => .ite (fun _ => .ite (fun _ => ?_) fun _ => ?_) fun _ => ?_
  · simp only [yields_bind]
    exact yields_uerror
  · simp only [yields_bind,yields_pure]
    exact yields_any fun _ _ => .inl rfl
  simp only [yields_bind]
  refine yields_any fun clex _ => ?_
  split
  · exact yields_pure _ |>.mpr (.inl rfl)
  refine .ite (fun _ => ?_) fun _ => yields_uerror
  simp only [yields_bind,yields_pure]
  exact yields_any fun _ _ => .inl rfl

theorem thirdRt_keeps : Yields (thirdRt i) s fun r _ => Keeps i r.1 := by
  simp only [thirdRt]
  refine .ite (fun _ => yields_pure _ |>.mpr (Keeps.refl i)) fun _ => ?_
  simp only [yields_bind]
  refine yields_any fun clex _ => .ite (fun _ => ?_) fun _ => ?_
  · simp only [yields_bind,yields_pure]
    exact yields_any fun _ _ => .inl rfl
  simp only [yields_bind]
  refine yields_any fun clex _ => ?_
  split
  · exact yields_pure _ |>.mpr (.inl rfl)
  refine .ite (fun _ => ?_) fun _ => yields_uerror
  split
  · simp only [yields_bind,yields_pure]
    exact yields_any fun _ _ => .inr (by decide : (frt1 ||| frs2 ||| foff16 ||| fmod) &&& fdslot = 0)
  · exact yields_uerror

theorem thirdRs_keeps : Yields (thirdRs i) s fun r _ => Keeps i r.1 := by
  simp only [thirdRs]
  refine .ite (fun _ => yields_pure _ |>.mpr (Keeps.refl i)) fun _ => ?_
  simp only [yields_bind]
  refine yields_any fun clex _ => .ite (fun _ => ?_) fun _ => ?_
  · simp only [yields_bind,yields_pure]
    exact yields_any fun _ _ => .inl rfl
  simp only [yields_bind,yields_pure]
  exact yields_any fun _ _ => .inl rfl

theorem shiftAmount_keeps : Yields (shiftAmount segm dot i) s fun j _ => Keeps i j := by
  simp only [shiftAmount,yields_bind]
  refine yields_any fun _ _ => .ite (fun _ => keeps_pure rfl) fun _ => .ite (fun _ => keeps_pure rfl) fun _ =>
    .ite (fun _ => keeps_pure rfl) fun _ => keeps_pure rfl

theorem relocatable_keeps : Yields (relocatable segm dot i) s fun j _ => Keeps i j := by
  simp only [relocatable,yields_bind,yields_modify,yields_get]
  refine yields_any fun _ _ => .ite (fun _ => ?_) fun _ => ?_
  · simp only [yields_bind]
    exact yields_uerror
  refine .ite (fun _ => keeps_pure rfl) fun _ =>
    .ite (fun _ => .ite (fun _ => keeps_pure rfl) fun _ => keeps_pure rfl) fun _ =>
    .ite (fun _ => .ite (fun _ => keeps_pure rfl) fun _ => .ite (fun _ => keeps_pure rfl) fun _ => yields_uerror) fun _ =>
    .ite (fun _ => keeps_pure rfl) fun _ => keeps_pure rfl

theorem immediate_keeps : Yields (immediate segm dot i) s fun j _ => Keeps i j := by
  simp only [immediate]
  refine .ite (fun _ => ?_) fun _ => .ite (fun _ => ?_) fun _ => .ite (fun _ => ?_) fun _ =>
    .ite (fun _ => .ite (fun _ => ?_) fun _ => relocatable_keeps i) fun _ => keeps_pure rfl
  · simp only [yields_bind]
    refine yields_any fun clex _ => ?_
    split
    · simp only [yields_bind,yields_pure]
      exact yields_any fun _ _ => .inl rfl
    simp only [yields_bind,yields_pure]
    exact yields_any fun _ _ => .inl rfl
  · simp only [yields_bind]
    refine yields_any fun _ _ => yields_any fun clex _ => ?_
    split
    · refine .ite (fun _ => ?_) fun _ => ?_
      · split
        · exact yields_pure _ |>.mpr (.inr (by decide : (frd1 ||| frt2 ||| frs3 ||| fmod) &&& fdslot = 0))
        · exact yields_uerror
      · simp only [yields_bind]
        exact yields_any fun _ _ => shiftAmount_keeps i
    · simp only [yields_bind]
      exact yields_any fun _ _ => shiftAmount_keeps i
  · refine .ite (fun _ => ?_) fun _ => shiftAmount_keeps i
    simp only [yields_bind]
    refine yields_any fun clex _ => ?_
    split
    · exact shiftAmount_keeps i
    simp only [yields_bind,yields_pure]
    exact yields_any fun _ _ => .inl rfl
  · simp only [yields_bind]
    exact yields_any fun _ _ => relocatable_keeps i

theorem jump_keeps (label : Label) : Yields (label.jump segm dot i) s fun j _ => Keeps i j := by
  cases label with
  | done3 => exact immediate_keeps i
  | fsa => exact shiftAmount_keeps i
  | foff16 => exact relocatable_keeps i

theorem lastArgument_keeps : Yields (lastArgument segm dot i) s fun j _ => Keeps i j := by
  simp only [lastArgument,yields_bind,baseArgument,sizeArgument,msbArgument]
  have last : ∀ (j : Insn) s, Keeps i j → Yields (msbArgument segm dot j) s fun k _ => Keeps i k := by
    intro j s kept
    simp only [msbArgument]
    refine .ite (fun _ => yields_pure _ |>.mpr kept) fun _ => ?_
    simp only [yields_bind,yields_pure]
    exact yields_any fun _ _ => yields_any fun _ _ => kept
  have middle : ∀ (j : Insn) s, Keeps i j → Yields (sizeArgument segm dot j) s fun k s =>
    Yields (msbArgument segm dot k) s fun k _ => Keeps i k := by
    intro j s kept
    simp only [sizeArgument]
    refine .ite (fun _ => yields_pure _ |>.mpr (last j s kept)) fun _ => ?_
    simp only [yields_bind,yields_pure]
    exact yields_any fun _ _ => yields_any fun _ _ => last _ _ kept
  refine .ite (fun _ => yields_pure _ |>.mpr (middle i s (Keeps.refl i))) fun _ => ?_
  simp only [yields_bind]
  exact yields_any fun _ _ => yields_any fun _ _ => yields_any fun _ _ => yields_pure _ |>.mpr (middle _ _ (.inl rfl))

end

theorem operands_slotless {opcode type : Word} (slotless : type &&& fdslot = 0) :
    Yields (operands segm dot opcode type) s fun i _ => i.type &&& fdslot = 0 := by
  have plain : ∀ {i j : Insn}, i.type &&& fdslot = 0 → Keeps i j → j.type &&& fdslot = 0 := by
    rintro i j none (same | none')
    · rw [same]
      exact none
    · exact none'
  have other : type ≠ faoff28 ||| fdslot := by
    rintro rfl
    exact absurd slotless (by decide)
  simp only [operands,yields_bind]
  have form : Yields (jumpForm opcode type) s fun r _ => r.2 &&& fdslot = 0 := by
    simp only [jumpForm,if_pos other,yields_pure]
    exact slotless
  refine form.imp fun r s slotless => ?_
  obtain ⟨opcode,type⟩ := r
  refine (firstRegister_keeps _).imp fun i _ kept => ?_
  replace kept := plain slotless kept
  refine (secondRd_keeps i).imp fun i _ next => ?_
  replace kept := plain kept next
  have final : ∀ (i : Insn) s, i.type &&& fdslot = 0 → Yields (lastArgument segm dot i) s fun i _ => i.type &&& fdslot = 0 :=
    fun i s kept => (lastArgument_keeps i).imp fun _ _ next => plain kept next
  have jumps : ∀ (i : Insn) (label : Label) s, i.type &&& fdslot = 0 →
      Yields (do let i ← label.jump segm dot i; lastArgument segm dot i) s fun i _ => i.type &&& fdslot = 0 :=
    fun i label s kept => yields_bind.mpr ((jump_keeps i label).imp fun _ _ next => final _ _ (plain kept next))
  refine (secondRt_keeps i).imp fun r s next => ?_
  obtain ⟨i,label⟩ := r
  replace kept := plain kept next
  rcases label with _ | label
  · simp only [yields_bind]
    refine (secondRs_keeps i).imp fun r s next => ?_
    obtain ⟨i,label⟩ := r
    replace kept := plain kept next
    rcases label with _ | label
    · simp only [yields_bind]
      refine (thirdRt_keeps i).imp fun r s next => ?_
      obtain ⟨i,label⟩ := r
      replace kept := plain kept next
      rcases label with _ | label
      · simp only [yields_bind]
        refine (thirdRs_keeps i).imp fun r s next => ?_
        obtain ⟨i,label⟩ := r
        replace kept := plain kept next
        rcases label with _ | label
        · exact yields_bind.mpr ((immediate_keeps i).imp fun _ _ next => final _ _ (plain kept next))
        · exact jumps i label s kept
      · exact jumps i label s kept
    · exact jumps i label s kept
  · exact jumps i label s kept

end

section
variable {α β : Type} {a : Asm}

theorem Inv.scan (inv : Inv a) (scan : Scan) : Inv {a with scan} :=
  ⟨⟨inv.written,inv.counted,inv.recorded⟩,inv.here,inv.straight,inv.held⟩

def Reads (p : Pass α) : Prop := ∀ a, Yields p a fun _ b => ∃ scan, b = {a with scan}

theorem reads_scanned (p : Parse α) : Reads (scanned p) := fun _ => yields_scanned fun _ scan _ => ⟨scan,rfl⟩

theorem reads_placed (p : Segment → Word → Parse α) : Reads (placed p) := fun _ => yields_placed fun _ scan _ => ⟨scan,rfl⟩

theorem reads_pure (x : α) : Reads (pure x) := fun a => yields_pure _ |>.mpr ⟨a.scan,rfl⟩

theorem reads_uerror (message : String) : Reads (uerror message : Pass α) := fun _ => yields_uerror

variable {p : Pass α}

theorem reads_bind {q : α → Pass β} (first : Reads p) (second : ∀ x, Reads (q x)) : Reads (p >>= q) := by
  intro a
  rw [yields_bind]
  refine (first a).imp fun x b read => ?_
  obtain ⟨scan,rfl⟩ := read
  exact (second x _).imp fun y c read => read.imp fun scan same => same

theorem reads_ite {p : Prop} [Decidable p] {q r : Pass α} (yes : Reads q) (no : Reads r) : Reads (if p then q else r) := by
  split
  · exact yes
  · exact no

theorem Inv.reads (inv : Inv a) (reads : Reads p) : Yields p a fun _ b => Inv b := (reads a).imp fun _ _ read => by
    obtain ⟨scan,rfl⟩ := read
    exact inv.scan scan

theorem lookname_bound {name : String} {s t : Scan} {i : Nat} (found : lookname name s = .ok (i,t)) : i < t.stab.length := by
  simp only [lookname] at found
  split at found
  next j at_ =>
    cases found
    exact (List.findIdx?_eq_some_iff_findIdx_eq.mp at_).1
  next =>
    split at found
    · cases found
    split at found
    · cases found
    cases found
    simp

theorem labelled_yields (inv : Inv a) (name : String) : Yields (labelled name) a fun _ c => Inv c := by
  simp only [labelled,yields_bind]
  refine yields_flush (yields_scanned fun cval scan found => ?_)
  simp only [yields_get]
  refine yields_scanned fun _ scan' stored => ?_
  simp only [setSymbol,modify,modifyGet,MonadStateOf.modifyGet,StateT.modifyGet,pure,Except.pure] at stored
  cases stored
  simp only [note,yields_modify]
  have bound := lookname_bound found
  have value : (symbol (scan.stab.set cval {symbol scan.stab cval with
      nValue := a.flushed.count a.flushed.segm,
      nType := (symbol scan.stab cval).nType &&& ~~~Relocations.nTypeMask ||| segmtype a.flushed.segm}) cval).nValue =
        a.flushed.count a.flushed.segm := by
    simp [symbol,List.getD_eq_getElem?_getD,bound]
  rw [value]
  exact ((inv.flushed.scan scan).labels (flushed_idle a)).scan _

theorem numbered_yields (inv : Inv a) (num : Word) : Yields (numbered num) a fun _ c => Inv c := by
  simp only [numbered,yields_bind,yields_get]
  refine .ite (fun _ => ?_) fun _ => ?_
  · simp only [yields_bind]
    exact yields_uerror
  simp only [yields_bind]
  refine yields_flush ?_
  simp only [yields_get,yields_modify,note]
  have labels := inv.flushed.labels (flushed_idle a)
  have more : Inv {a.flushed.notes (.label (a.flushed.count a.flushed.segm)) with
      labeltab := a.flushed.labeltab ++ [(num,a.flushed.count a.flushed.segm)]} :=
    ⟨⟨labels.written,labels.counted,labels.recorded⟩,labels.here,labels.straight,labels.held⟩
  exact more.reads (reads_scanned _)

theorem Inv.reads_bind (inv : Inv a) (reads : Reads p) {q : α → Pass β} {post : β → Asm → Prop}
    (next : ∀ x scan, Inv {a with scan} → Yields (q x) {a with scan} post) : Yields (p >>= q) a post := by
  rw [yields_bind]
  refine (reads a).imp fun x b read => ?_
  obtain ⟨scan,rfl⟩ := read
  exact next x scan (inv.scan scan)

theorem wordLoop_yields (inv : Inv a) (level : a.level) (fuel : Nat) : Yields (wordLoop fuel) a fun _ c => Inv c := by
  induction fuel generalizing a with
  | zero => exact yields_error
  | succ fuel ih =>
    rw [wordLoop]
    refine inv.reads_bind (reads_scanned _) fun _ scan inv => ?_
    refine inv.reads_bind (reads_placed _) fun r scan inv => ?_
    simp only [yields_bind,yields_get]
    refine (emitData_yields inv (.inl level)).imp fun _ c kept => ?_
    have level' : c.level := Asm.level.add (a := {a with scan}) level kept.2.1.segm kept.2.2
    refine yields_bind.mp (kept.1.reads_bind (reads_scanned _) fun clex scan inv => ?_)
    split
    · exact ih inv level'
    · exact inv.reads (reads_scanned _)

theorem byteLoop_yields (put : Word → List Byte) (fuel : Nat) (bytes : List Byte) {b : Asm} (scan : Scan)
    (before : b = {a with scan,sfile := update a.sfile a.segm (a.sfile a.segm ++ bytes)}) :
    Yields (byteLoop put fuel bytes) b fun all c => a.segm.filed = true ∧
      ∃ scan, c = {a with scan,sfile := update a.sfile a.segm (a.sfile a.segm ++ all)} := by
  induction fuel generalizing b bytes scan with
  | zero => exact yields_error
  | succ fuel ih =>
    subst before
    rw [byteLoop,yields_bind]
    refine yields_placed fun r scan _ => ?_
    obtain ⟨s,intval⟩ := r
    simp only [yields_bind]
    refine yields_fputs fun filed => yields_scanned fun clex scan' _ => ?_
    have shape : ({a with
        scan := scan'
        sfile := update (update a.sfile a.segm (a.sfile a.segm ++ bytes)) a.segm
          (update a.sfile a.segm (a.sfile a.segm ++ bytes) a.segm ++ put intval)} : Asm) =
        {a with scan := scan',sfile := update a.sfile a.segm (a.sfile a.segm ++ (bytes ++ put intval))} := by
      simp
    split
    · exact ih (bytes ++ put intval) scan' shape
    simp only [yields_bind,yields_pure]
    exact yields_scanned fun _ scan'' _ => ⟨filed,scan'',by rw [← List.append_assoc]; simp only [update_self,update_idem]⟩

theorem bytes_yields (inv : Inv a) (idle : a.buffer = none) (put : Word → List Byte) :
    Yields (bytes put) a fun _ c => Inv c := by
  simp only [bytes,yields_bind,yields_get]
  refine (byteLoop_yields (a := a) put _ [] a.scan (by rw [List.append_nil,update_eq_self])).imp fun all c read => ?_
  obtain ⟨filed,scan,rfl⟩ := read
  have more := addSpace_yields (a := {a with scan}) (inv.scan scan) idle all false (fun bad => by cases bad)
    (b := {a with scan,sfile := update a.sfile a.segm (a.sfile a.segm ++ all)}) (by simp [filed])
  rw [yields_bind] at more
  exact more.imp fun _ _ kept => kept.imp fun _ _ both => both.1

theorem makeascii_yields (inv : Inv a) (idle : a.buffer = none) : Yields makeascii a fun _ c => Inv c := by
  rw [makeascii]
  refine inv.reads_bind (reads_scanned _) fun clex scan inv => ?_
  split
  next bytes =>
    have more : ∀ b : Asm, (b = {a with
        scan,sfile := if false || !a.segm.filed then a.sfile else update a.sfile a.segm (a.sfile a.segm ++ bytes)}) →
        Yields (do addSpace bytes.length false; noteData bytes) b fun _ c => Inv c := fun b before =>
      (addSpace_yields (a := {a with scan}) inv idle bytes false (fun bad => by cases bad) before).imp fun _ _ both => both.1
    refine .ite (fun _ => yields_bind.mpr (yields_fputs fun filed => more _ ?_)) fun empty => more _ ?_
    · have filed' : a.segm.filed = true := filed
      simp [filed']
    obtain rfl : bytes = [] := not_not.mp empty
    simp
  next => exact yields_uerror

theorem setoption_yields (inv : Inv a) (name : String) : Yields (setoption name) a fun _ c => Inv c := by
  have noreorder : Yields (do modify fun a => {a with modeReorder := false}; reorderFlush : Pass Unit) a fun _ c => Inv c := by
    simp only [yields_bind,yields_modify]
    refine yields_flush ?_
    rw [flushed_mode]
    have inv := inv.flushed
    exact ⟨⟨inv.written,inv.counted,inv.recorded⟩,inv.here,inv.straight,fun b bad =>
      absurd (bad.symm.trans (flushed_idle a)) (Option.some_ne_none b)⟩
  simp only [setoption]
  refine .ite (fun _ => ?_) fun _ => .ite (fun _ => noreorder) fun _ => .ite (fun _ => yields_uerror) fun _ =>
    yields_pure _ |>.mpr inv
  rw [yields_modify]
  exact ⟨⟨inv.written,inv.counted,inv.recorded⟩,inv.here,inv.straight,fun b full =>
    ⟨(inv.held b full).1,rfl,(inv.held b full).2.2⟩⟩

theorem setCount_yields (inv : Inv a) : Yields setCount a fun _ c => Inv c := by
  rw [setCount]
  refine inv.reads_bind (reads_scanned _) fun _ scan inv => ?_
  refine inv.reads_bind (reads_placed _) fun r scan inv => ?_
  obtain ⟨csegm,addr⟩ := r
  simp only [yields_bind,yields_get]
  refine .ite (fun _ => ?_) fun _ => .ite (fun _ => ?_) fun _ => ?_
  · simp only [yields_bind]
    exact yields_uerror
  · simp only [yields_bind]
    exact yields_uerror
  simp only [yields_bind]
  refine yields_flush ?_
  have frame := flushed_local {a with scan}
  have idle := flushed_idle {a with scan}
  replace inv := inv.flushed
  have count : ({a with scan} : Asm).flushed.count = a.count := flushed_count _
  generalize ({a with scan} : Asm).flushed = c at *
  have segm : c.segm = a.segm := frame.segm
  refine .ite (fun bss => ?_) fun _ => .ite (fun _ => ?_) fun _ => ?_
  · have more := addSpace_yields (a := c) inv idle (zeros (addr - a.count a.segm).toNat) true
      (fun _ => by rw [zeros_length]) (b := c) (by simp)
    have bss' : c.segm.filed = false := by rw [segm,bss]; rfl
    simp only [addSpace,yields_bind,yields_get,bss',zeros_length,Bool.false_eq_true,if_false,BitVec.ofNat_toNat,
      BitVec.setWidth_eq] at more
    simp only [yields_bind]
    exact more.imp fun _ _ kept => kept.imp fun _ _ both => both.1
  · exact yields_bind.mpr yields_error
  · exact (emitZeros_yields inv _).imp fun _ _ both => both.1

end

section
variable {a : Asm}

def switches : List Lexeme → Option Segment
  | .lData :: _ => some .data
  | .lStrng :: _ | .lRdata :: _ => some .strng
  | .lBss :: _ => some .bss
  | .lSection :: .lName name :: _ => setsection name
  | .lSection :: .lBss :: _ => setsection ".bss"
  | _ => none

def instruction : List Lexeme → Option Optable
  | .lName name :: rest =>
    match rest with
    | .char ':' :: _ | .char '=' :: _ | .lEqu :: _ | .lComm :: _ => none
    | _ => lookcmd name
  | _ => none

def aligns (input : List Lexeme) : Option Word :=
  match input with
  | .lWord :: _ => some 2
  | .lHalf :: _ => some 1
  | _ => (instruction input).map fun _ => 2

def segments : List Segment := [.text,.data,.strng,.bss]

/-- What is asked of a text. Before a switch to another segment than `.text` no instruction is held
back; what has to be aligned does not stand behind a label; a branch does not stand behind a `.word`
or `. =`; and a last line without its end leaves nothing to be done. -/
def Asm.orderly (a : Asm) : Bool :=
  match a.phase with
  | .statement =>
    (a.buffer.isNone || (switches a.scan.input).all (· == .text)) &&
    ((aligns a.scan.input).all fun bits =>
      alignment (a.count a.segm) bits == 0 || (a.layout a.segm).getLast?.all fun x => !x.isLabel) &&
    ((instruction a.scan.input).all fun p =>
      p.type &&& fdslot == 0 || a.segm != .text || a.buffer.isNone || (a.layout .text).getLast?.any Item.isCode)
  | .terminator =>
    !(a.scan.input.head?.all (· == .lEof)) || a.buffer.isNone && segments.all fun s => a.count s &&& 3 == 0
  | .done => true

variable {segm : Segment}

theorem Inv.switchTo (inv : Inv a) (there : segm.filed = true ∨ segm = .bss) (idle : a.buffer = none ∨ segm = a.segm) :
    Inv {a with segm} := by
  refine ⟨⟨inv.written,inv.counted,inv.recorded⟩,there,inv.straight,fun b full => ?_⟩
  obtain ⟨text,rest⟩ := inv.held b full
  rcases idle with idle | same
  · exact absurd (idle.symm.trans full) (fun bad => (nomatch bad))
  · exact ⟨same.trans text,rest⟩

theorem switchTo_yields (inv : Inv a) (there : segm.filed = true ∨ segm = .bss) (idle : a.buffer = none ∨ segm = .text) :
    Yields (switchTo segm) a fun _ c => Inv c := by
  rw [switchTo,yields_modify]
  refine inv.switchTo there ?_
  cases full : a.buffer with
  | none => exact .inl rfl
  | some b =>
    rcases idle with idle | text
    · rw [full] at idle
      cases idle
    · exact .inr (text.trans (inv.held b full).1.symm)

theorem setsection_there {name : String} (found : setsection name = some segm) : segm.filed = true ∨ segm = .bss := by
  rw [setsection,Option.map_eq_some_iff] at found
  obtain ⟨p,picked,rfl⟩ := found
  have member := List.mem_of_find?_eq_some picked
  simp only [List.mem_cons,List.not_mem_nil,or_false] at member
  rcases member with rfl | rfl | rfl | rfl | rfl | rfl | rfl <;> first | exact .inl rfl | exact .inr rfl

theorem getlex_cases {s t : Scan} {l : Lexeme} (read : getlex s = .ok (l,t)) :
    s.input = l :: t.input ∧ t = {s with input := t.input} ∨ l = .lEof ∧ s.input = [] ∧ t = s := by
  rw [getlex] at read
  split at read
  next none =>
    cases read
    exact .inr ⟨rfl,none,rfl⟩
  next l' rest some =>
    cases read
    exact .inl ⟨some,rfl⟩

theorem makecmd_yields (inv : Inv a) (level : a.level) (p : Optable)
    (code : p.type &&& fdslot = 0 ∨ a.segm ≠ .text ∨ ∀ b, a.buffer = some b → ∃ w, some (.code w) = (a.layout .text).getLast?) :
    Yields (makecmd p) a fun _ c => Inv c := by
  rw [makecmd,yields_bind]
  refine yields_placed fun i scan read => ?_
  replace inv := inv.scan scan
  have level' : Asm.level {a with scan} := level
  split
  · exact inv.reads_bind (reads_placed _) fun bs scan inv => (emitCodes_yields inv level' bs).imp fun _ _ both => both.1
  · exact inv.reads_bind (reads_placed _) fun bs scan inv => (emitCodes_yields inv level' bs).imp fun _ _ both => both.1
  simp only [yields_bind,yields_get]
  refine .ite (fun slot => ?_) fun _ => (emitCode_yields inv level' _).imp fun _ _ both => both.1
  simp only [Bool.and_eq_true,beq_iff_eq] at slot
  refine (emitBranch_yields inv i slot.2 ?_).imp fun _ _ both => both.1
  rcases code with slotless | away | code
  · have none := operands_slotless slotless i scan read
    have some := slot.1.2
    simp only [Insn.has,bne_iff_ne,ne_eq] at some
    exact absurd none some
  · exact absurd slot.2 away
  · exact code

theorem instruction_yields (inv : Inv a) (p : Optable)
    (pads : alignment (a.count a.segm) 2 = 0 ∨ ∀ y ∈ (a.layout a.segm).getLast?, y.isLabel = false)
    (code : p.type &&& fdslot = 0 ∨ a.segm ≠ .text ∨ ∀ b, a.buffer = some b → ∃ w, some (.code w) = (a.layout .text).getLast?) :
    Yields (do autoAlign 2; makecmd p) a fun _ c => Inv c := by
  rw [yields_bind]
  refine (autoAlign_yields inv (fun apart => pads.resolve_left apart) fun _ => rfl).imp fun _ c kept => ?_
  obtain ⟨inv',frame,buffer,level,still⟩ := kept
  refine makecmd_yields inv' (level rfl) p ?_
  rw [frame.segm,buffer]
  rcases code with slotless | away | code
  · exact .inl slotless
  · exact .inr (.inl away)
  by_cases text : a.segm = .text
  · refine .inr (.inr fun b full => ?_)
    obtain ⟨w,last⟩ := code b full
    obtain ⟨_,_,shape⟩ := inv.held b full
    obtain ⟨items,whole⟩ := List.getLast?_eq_some_iff.mp last.symm
    -- an instruction that is held back is at its place
    rcases shape with ⟨aligned,_⟩ | ⟨_,never⟩
    · have zero : alignment (a.count a.segm) 2 = 0 := by
        rw [text,alignment]
        exact if_pos aligned
      rw [still zero]
      exact ⟨w,last⟩
    · exact absurd whole (never items w)
  · exact .inr (.inl text)

theorem reads_comm : Reads comm := by
  rw [comm]
  refine reads_bind (reads_scanned _) fun clex => ?_
  split
  · refine reads_bind (reads_scanned _) fun cval => reads_bind (reads_scanned _) fun clex => ?_
    split
    on_goal 1 => refine reads_bind (reads_placed _) fun size => ?_
    on_goal 2 => refine reads_bind (reads_scanned _) fun _ => ?_
    all_goals
      refine reads_bind (reads_scanned _) fun _ => reads_bind (reads_scanned _) fun clex => ?_
      split
      · exact reads_bind (reads_placed _) fun _ => reads_pure _
      · exact reads_scanned _
  · exact reads_uerror _

theorem flushed_layout (a : Asm) (s : Segment) : a.flushed.layout s = a.layout s := by
  rw [Asm.flushed]
  split <;> rfl

theorem flushAlign_yields (inv : Inv a) {bits : Word} {q : Pass Unit}
    (pads : alignment (a.count a.segm) bits = 0 ∨ ∀ y ∈ (a.layout a.segm).getLast?, y.isLabel = false)
    (next : ∀ c, Inv c → c.buffer = none → (bits = 2 → c.level) → Yields q c fun _ d => Inv d) :
    Yields (do reorderFlush; autoAlign bits; q) a fun _ c => Inv c := by
  rw [yields_bind]
  refine yields_flush ?_
  have idle := flushed_idle a
  rw [yields_bind]
  refine (autoAlign_yields inv.flushed (fun apart => ?_) fun full => absurd idle full).imp fun _ c kept => ?_
  · rw [flushed_layout,(flushed_local a).segm]
    refine pads.resolve_left fun zero => apart ?_
    rw [flushed_count,(flushed_local a).segm]
    exact zero
  · obtain ⟨inv,_,buffer,level,_⟩ := kept
    exact next c inv (buffer.trans idle) level

theorem directive_yields (inv : Inv a) (l : Lexeme)
    (switch : a.buffer = none ∨ ∀ segm, switches (l :: a.scan.input) = some segm → segm = .text)
    (pads : ∀ bits, aligns (l :: a.scan.input) = some bits →
      alignment (a.count a.segm) bits = 0 ∨ ∀ y ∈ (a.layout a.segm).getLast?, y.isLabel = false) :
    Yields (directive l) a fun _ c => Inv c := by
  have goes : ∀ {segm : Segment}, switches (l :: a.scan.input) = some segm → a.buffer = none ∨ segm = .text :=
    fun found => switch.imp_right fun all => all _ found
  rw [directive.eq_def]
  split
  · exact setCount_yields inv
  · rw [yields_bind]
    refine (switchTo_yields inv (.inl rfl) (.inr rfl)).imp fun _ c inv => ?_
    exact yields_flush inv.flushed
  · exact switchTo_yields inv (.inl rfl) (goes rfl)
  · exact switchTo_yields inv (.inl rfl) (goes rfl)
  · exact switchTo_yields inv (.inl rfl) (goes rfl)
  · exact switchTo_yields inv (.inr rfl) (goes rfl)
  · refine flushAlign_yields inv (pads 2 rfl) fun c inv _ level => ?_
    rw [yields_bind,yields_get]
    exact wordLoop_yields inv (level rfl) _
  · rw [yields_bind]
    exact yields_flush (bytes_yields inv.flushed (flushed_idle a) _)
  · exact flushAlign_yields inv (pads 1 rfl) fun c inv idle _ => bytes_yields inv idle _
  · refine inv.reads_bind (reads_placed _) fun r scan inv => ?_
    obtain ⟨s,intval⟩ := r
    rw [yields_bind]
    refine yields_flush ?_
    have more := addSpace_yields inv.flushed (flushed_idle _) (zeros intval.toNat) true (fun _ => by rw [zeros_length])
      (b := ({a with scan} : Asm).flushed) (by simp)
    rw [zeros_length] at more
    exact more.imp fun _ _ both => both.1
  · refine inv.reads_bind (reads_scanned _) fun bits scan inv => ?_
    rw [yields_bind]
    refine yields_flush ?_
    have idle := flushed_idle {a with scan}
    refine (align_yields inv.flushed.toBooked fun n => List.append_nil _).imp fun _ c shape => ?_
    rcases shape with ⟨_,rfl⟩ | ⟨_,rs,records,rfl⟩
    · exact inv.flushed
    · exact inv.flushed.adds rs rfl rfl (fun n bad => by cases bad) (.inl idle) records
  · rw [yields_bind]
    exact yields_flush (makeascii_yields inv.flushed (flushed_idle a))
  · exact inv.reads (reads_scanned _)
  · exact inv.reads (reads_scanned _)
  · exact inv.reads (reads_scanned _)
  · exact inv.reads reads_comm
  · exact inv.reads (reads_scanned _)
  · exact inv.reads (reads_scanned _)
  · rw [yields_bind]
    refine yields_scanned fun l scan read => ?_
    replace inv := inv.scan scan
    have turns : ∀ name segm, setsection name = some segm → (a.buffer = none ∨ segm = .text) →
        Yields (do switchTo segm; scanned sectionArguments) {a with scan} fun _ c => Inv c := by
      intro name segm found free
      rw [yields_bind]
      exact (switchTo_yields inv (setsection_there found) free).imp fun _ c inv => inv.reads (reads_scanned _)
    rcases getlex_cases read with ⟨input,_⟩ | ⟨rfl,_,_⟩
    · rw [input] at goes
      split
      · dsimp only
        rw [pure_bind]
        split
        next found => exact turns _ _ found (goes found)
        next => exact yields_uerror
      · dsimp only
        rw [pure_bind]
        split
        next found => exact turns _ _ found (goes found)
        next => exact yields_uerror
      · exact yields_uerror
    · exact yields_uerror
  · exact yields_pure _ |>.mpr inv
  · exact inv.reads (reads_scanned _)
  · exact inv.reads_bind (reads_scanned _) fun name scan inv => setoption_yields inv name
  · exact inv.reads (reads_scanned _)
  · exact inv.reads (reads_scanned _)
  · exact inv.reads (reads_scanned _)
  · exact inv.reads (reads_scanned _)
  · exact inv.reads (reads_placed _)
  · exact inv.reads (reads_placed _)
  · exact inv.reads (reads_placed _)
  · exact yields_uerror

end

end Retrobsd.Assembler

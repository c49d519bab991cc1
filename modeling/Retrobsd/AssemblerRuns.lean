import Retrobsd.AssemblerSegments

/-! Whole runs of `pass1`: the files of the segments, their counters and their labels agree in every
state that an orderly text leads to. -/
namespace Retrobsd.Assembler
open Lib.Hoare Lib.Run List

section
variable {a : Asm}

structure Closing (left : List Segment) (a : Asm) : Prop extends Booked a where
  idle : a.buffer = none
  straight : ∀ s ∈ left, Straight (a.layout s)
  placed : ∀ s, Placed (a.layout s)
  level : ∀ s ∈ segments, s ∉ left → a.count s &&& 3 = 0

theorem closing_yields {s : Segment} {left : List Segment} (once : s ∉ left) (closing : Closing (s :: left) a) :
    Yields (do switchTo s; autoAlign 2) a fun _ c => Closing left c := by
  rw [yields_bind,switchTo,yields_modify]
  have booked : Booked {a with segm := s} := ⟨closing.written,closing.counted,closing.recorded⟩
  refine (align_yields booked fun n => append_nil _).imp fun _ c shape => ?_
  have others : ∀ t, t ≠ s → t ∉ left → t ∉ s :: left := fun t apart away => by simp [apart,away]
  rcases shape with ⟨zero,rfl⟩ | ⟨_,rs,records,rfl⟩
  · refine ⟨booked,closing.idle,fun t member => closing.straight t (mem_cons_of_mem _ member),closing.placed,
      fun t member away => ?_⟩
    by_cases same : t = s
    · subst same
      have level := alignment_level (a.count t)
      rw [zero] at level
      exact (congrArg (· &&& 3) (BitVec.add_zero _)).symm.trans level
    · exact closing.level t member (others t same away)
  set n := (alignment (a.count s) 2).toNat with size
  have layout : ∀ t, (({a with segm := s} : Asm).adds (.pad n) rs).layout t =
    (({a with segm := s} : Asm).notes (.pad n)).layout t :=
    fun _ => rfl
  have apart : ∀ t, t ≠ s → (({a with segm := s} : Asm).adds (.pad n) rs).layout t = a.layout t := fun t other =>
    layout_other (a := {a with segm := s}) _ other
  refine ⟨booked.adds rs rfl (.inl closing.idle) records,closing.idle,fun t member => ?_,fun t => ?_,fun t member away => ?_⟩
  · rw [apart t fun same => once (same ▸ member)]
    exact closing.straight t (mem_cons_of_mem _ member)
  · by_cases same : t = s
    · subst same
      rw [layout,layout_self]
      exact (closing.straight t mem_cons_self).ended n
    · rw [apart t same]
      exact closing.placed t
  by_cases same : t = s
  · subst same
    have count : (({a with segm := t} : Asm).adds (.pad n) rs).count t = a.count t + alignment (a.count t) 2 := by
      have length : (arrange [.pad n]).length = n := by simp [arrange]
      change Function.update a.count t (a.count t + BitVec.ofNat 32 (arrange [.pad n]).length) t = _
      rw [Function.update_self,length,size,BitVec.ofNat_toNat,BitVec.setWidth_eq]
    rw [count]
    exact alignment_level _
  · have count : (({a with segm := s} : Asm).adds (.pad n) rs).count t = a.count t := Function.update_of_ne same _ _
    rw [count]
    exact closing.level t member (others t same away)

theorem finish_yields (inv : Inv a) : Yields finish a fun _ c => Closing [] c := by
  have first : Closing segments a.flushed :=
    ⟨inv.flushed.toBooked,flushed_idle a,fun s _ => inv.flushed.straight s,fun s => (inv.flushed.straight s).placed,
      fun s member away => absurd member away⟩
  rw [finish,yields_bind]
  refine yields_flush ?_
  have text := closing_yields (by decide) first
  rw [yields_bind] at text ⊢
  refine text.imp fun _ b next => ?_
  rw [yields_bind]
  refine next.imp fun _ b closing => ?_
  have data := closing_yields (by decide) closing
  rw [yields_bind] at data ⊢
  refine data.imp fun _ b next => ?_
  rw [yields_bind]
  refine next.imp fun _ b closing => ?_
  have strng := closing_yields (by decide) closing
  rw [yields_bind] at strng ⊢
  refine strng.imp fun _ b next => ?_
  rw [yields_bind]
  refine next.imp fun _ b closing => ?_
  exact closing_yields (by decide) closing

end

section
variable {a : Asm}

theorem instruction_word {name : String} {l : Lexeme} {rest : List Lexeme}
    (apart : l ≠ .char ':' ∧ l ≠ .char '=' ∧ l ≠ .lEqu ∧ l ≠ .lComm) : instruction (.lName name :: l :: rest) =
    lookcmd name := by
  simp only [instruction]
  split
  next same => exact absurd (cons.inj same).1 apart.1
  next same => exact absurd (cons.inj same).1 apart.2.1
  next same => exact absurd (cons.inj same).1 apart.2.2.1
  next same => exact absurd (cons.inj same).1 apart.2.2.2
  next => rfl

theorem reads_defined (name : String) : Reads (defined name) := by
  rw [defined]
  refine reads_bind (reads_scanned _) fun cval => reads_bind (reads_placed _) fun r => ?_
  obtain ⟨csegm,value⟩ := r
  exact reads_ite (reads_bind (reads_uerror _) fun _ => reads_scanned _) (reads_scanned _)

theorem reads_namedComm (name : String) : Reads (namedComm name) := by
  rw [namedComm]
  exact reads_bind (reads_scanned _) fun cval => reads_bind (reads_placed _) fun size => reads_scanned _

theorem nameStatement_yields (inv : Inv a) (name : String) (pads : ∀ p, instruction (.lName name :: a.scan.input) = some p →
      alignment (a.count a.segm) 2 = 0 ∨ ∀ y ∈ (a.layout a.segm).getLast?, y.isLabel = false)
    (code : ∀ p, instruction (.lName name :: a.scan.input) = some p → p.type &&& fdslot = 0 ∨ a.segm ≠ .text ∨
      ∀ b, a.buffer = some b → ∃ w, some (.code w) = (a.layout .text).getLast?) :
    Yields (nameStatement name) a fun phase c => Inv c ∧ phase ≠ .done := by
  have then_ : ∀ {p : Pass Unit} {phase : Phase} {b : Asm}, phase ≠ .done → Yields p b (fun _ c => Inv c) →
      Yields (do p; return phase) b fun phase c => Inv c ∧ phase ≠ .done := by
    intro p phase b other yields
    rw [yields_bind]
    exact yields.imp fun _ c inv => yields_pure _ |>.mpr ⟨inv,other⟩
  rw [nameStatement,yields_bind]
  refine yields_scanned fun l scan read => ?_
  have inv' := inv.scan scan
  split
  · exact then_ nofun (labelled_yields inv' name)
  · exact then_ nofun (inv'.reads (reads_defined name))
  · exact then_ nofun (inv'.reads (reads_defined _))
  · exact then_ nofun (inv'.reads (reads_namedComm _))
  next one two three four =>
    have found : instruction (.lName name :: a.scan.input) = lookcmd name := by
      rcases getlex_cases read with ⟨input,_⟩ | ⟨_,input,_⟩
      · rw [input]
        exact instruction_word ⟨one,two,three,four⟩
      rw [input]
      rfl
    rw [found] at pads code
    split
    next p command =>
      rw [yields_bind]
      refine yields_scanned fun _ scan _ => ?_
      have turn := @then_ _ .terminator _ nofun (instruction_yields (inv.scan scan) p (pads p command) (code p command))
      rw [bind_assoc] at turn
      exact turn
    next => exact yields_uerror

theorem statement_yields (inv : Inv a) (phase : a.phase = .statement) (orderly : a.orderly = true) :
    Yields statement a fun phase c => phase ≠ .done ∧ Inv c ∨ phase = .done ∧ Closing [] c := by
  rw [Asm.orderly,phase] at orderly
  simp only [Bool.and_eq_true,Bool.or_eq_true,Option.isNone_iff_eq_none,Option.all_eq_true,beq_iff_eq,bne_iff_ne] at orderly
  obtain ⟨⟨switch,pads⟩,code⟩ := orderly
  have labels : ∀ bits, aligns a.scan.input = some bits →
      alignment (a.count a.segm) bits = 0 ∨ ∀ y ∈ (a.layout a.segm).getLast?, y.isLabel = false := by
    intro bits found
    refine (pads bits found).imp_right fun plain y last => ?_
    simpa using plain y last
  have slots : ∀ p, instruction a.scan.input = some p → p.type &&& fdslot = 0 ∨ a.segm ≠ .text ∨
      ∀ b, a.buffer = some b → ∃ w, some (.code w) = (a.layout .text).getLast? := by
    intro p found
    rcases code p found with ((slotless | away) | idle) | held
    · exact .inl slotless
    · exact .inr (.inl away)
    · exact .inr (.inr fun b full => absurd (idle.symm.trans full) nofun)
    refine .inr (.inr fun b _ => ?_)
    obtain ⟨x,last,isCode⟩ := (Option.any_eq_true _ _).mp held
    cases x with
    | code w => exact ⟨w,last.symm⟩
    | _ => cases isCode
  have then_ : ∀ {p : Pass Unit} {phase : Phase} {b : Asm}, phase ≠ .done → Yields p b (fun _ c => Inv c) →
      Yields (do p; return phase) b fun phase c => phase ≠ .done ∧ Inv c ∨ phase = .done ∧ Closing [] c := by
    intro p phase b other yields
    rw [yields_bind]
    exact yields.imp fun _ c inv => yields_pure _ |>.mpr (.inl ⟨other,inv⟩)
  rw [statement,yields_bind]
  refine yields_scanned fun l scan read => ?_
  have inv' := inv.scan scan
  split
  · rw [yields_bind]
    exact (finish_yields inv').imp fun _ c closing => yields_pure _ |>.mpr (.inr ⟨rfl,closing⟩)
  · exact yields_pure _ |>.mpr (.inl ⟨nofun,inv'⟩)
  · exact yields_pure _ |>.mpr (.inl ⟨nofun,inv'⟩)
  next name =>
    rcases getlex_cases read with ⟨input,_⟩ | ⟨bad,_⟩
    · rw [input] at labels slots
      refine (nameStatement_yields inv' name (fun p found => labels 2 ?_) slots).imp fun phase c kept => .inl ⟨kept.2,kept.1⟩
      simp only [aligns]
      rw [found]
      rfl
    · cases bad
  next num => exact then_ nofun (numbered_yields inv' num)
  next =>
    rcases getlex_cases read with ⟨input,_⟩ | ⟨rfl,_⟩
    · rw [input] at switch labels
      exact then_ nofun (directive_yields inv' l switch labels)
    · exact then_ nofun yields_uerror

theorem terminator_yields (inv : Inv a) (phase : a.phase = .terminator) (orderly : a.orderly = true) :
    Yields terminator a fun phase c => phase ≠ .done ∧ Inv c ∨ phase = .done ∧ Closing [] c := by
  rw [terminator,yields_bind]
  refine yields_scanned fun l scan read => ?_
  have inv' := inv.scan scan
  split
  · exact yields_pure _ |>.mpr (.inl ⟨nofun,inv'⟩)
  · refine yields_pure _ |>.mpr (.inr ⟨rfl,?_⟩)
    have last : a.scan.input.head?.all (· == .lEof) = true := by
      rcases getlex_cases read with ⟨input,_⟩ | ⟨_,input,_⟩
      · rw [input]
        rfl
      rw [input]
      rfl
    rw [Asm.orderly,phase] at orderly
    simp only [last,Bool.not_true,Bool.false_or,Bool.and_eq_true,Option.isNone_iff_eq_none,all_eq_true,beq_iff_eq] at orderly
    obtain ⟨idle,level⟩ := orderly
    exact ⟨inv'.toBooked,idle,fun s _ => inv'.straight s,fun s => (inv'.straight s).placed,fun s member _ => level s member⟩
  · exact yields_uerror

structure Kept (a : Asm) : Prop extends Booked a where
  placed : ∀ s, Placed (a.layout s)
  level : a.phase = .done → ∀ s ∈ segments, a.count s &&& 3 = 0

def Turn (a : Asm) : Prop := a.phase ≠ .done ∧ Inv a ∨ a.phase = .done ∧ Closing [] a

theorem step_turn {b : Asm} (turn : Turn a) (orderly : a.orderly = true) (stepped : step a () = .ok b) : Turn b := by
  have ended : ∀ (phase : Phase) (c : Asm), (phase ≠ .done ∧ Inv c ∨ phase = .done ∧ Closing [] c) → Turn {c with phase} := by
    intro phase c kept
    refine kept.imp (fun both => ⟨both.1,?_⟩) fun both => ⟨both.1,?_⟩
    · exact ⟨⟨both.2.written,both.2.counted,both.2.recorded⟩,both.2.here,both.2.straight,both.2.held⟩
    · exact ⟨⟨both.2.written,both.2.counted,both.2.recorded⟩,both.2.idle,both.2.straight,both.2.placed,both.2.level⟩
  have mapped : ∀ {p : Pass Phase}, Yields p a (fun phase c => phase ≠ .done ∧ Inv c ∨ phase = .done ∧ Closing [] c) →
      ((p a).map fun (r : Phase × Asm) => {r.2 with phase := r.1}) = .ok b → Turn b := by
    intro p yields ran
    cases result : p a with
    | error e =>
      rw [result] at ran
      cases ran
    | ok r =>
      rw [result] at ran
      cases ran
      exact ended r.1 r.2 (yields r.1 r.2 result)
  rw [step] at stepped
  rcases turn with ⟨going,inv⟩ | ⟨done,closing⟩
  · cases phase : a.phase with
    | statement =>
      rw [phase] at stepped
      exact mapped (statement_yields inv phase orderly) stepped
    | terminator =>
      rw [phase] at stepped
      exact mapped (terminator_yields inv phase orderly) stepped
    | done => exact absurd phase going
  · rw [done] at stepped
    cases stepped
    exact .inr ⟨done,closing⟩

theorem Turn.kept (turn : Turn a) : Kept a := by
  rcases turn with ⟨going,inv⟩ | ⟨_,closing⟩
  · exact ⟨inv.toBooked,fun s => (inv.straight s).placed,fun done => absurd done going⟩
  · exact ⟨closing.toBooked,closing.placed,fun _ s member => closing.level s member not_mem_nil⟩

theorem turn_start (text : List Lexeme) : Turn (start text) := by
  have recorded : ∀ s, ((start text).rfile s).length + (start text).pendingRecords s =
    (arrange ((start text).layout s)).length / 4 := by
    intro s
    rw [pendingRecords_none rfl]
    exact (Nat.zero_div 4).symm
  exact .inl ⟨nofun,⟨⟨fun _ _ => rfl,fun _ => rfl,fun s _ => recorded s⟩,.inl rfl,fun _ => straight_nil,nofun⟩⟩

end

/-- In every state that an orderly text leads to, each file holds the items of its segment in their
order, the counters count its bytes, there is a record for every word, and a label is the place of
the item behind it. At the end every counter is a multiple of 4. -/
theorem segments_kept (text : List Lexeme) {n : Nat} {a : Asm} (ran : run step (start text) (List.replicate n ()) = .ok a)
    (orderly : Along step (fun a _ => a.orderly = true) (start text) (List.replicate n ())) :
    (∀ s, s.filed = true → a.sfile s ++ a.pending s = arrange (a.layout s) ∧
    a.count s = BitVec.ofNat 32 (a.sfile s ++ a.pending s).length ∧
      ((a.sfile s ++ a.pending s).length < 2^32 → (a.count s).toNat = (a.sfile s ++ a.pending s).length) ∧
      (a.rfile s).length + a.pendingRecords s = (a.sfile s ++ a.pending s).length / 4) ∧
    a.count .bss = BitVec.ofNat 32 (arrange (a.layout .bss)).length ∧ (∀ s, Placed (a.layout s)) ∧
    (a.phase = .done → ∀ s ∈ segments, (a.count s).toNat % 4 = 0) := by
  have kept := (run_invariant (fun a _ b turn orderly => step_turn turn orderly) _ _ _ (turn_start text) orderly ran).kept
  refine ⟨fun s filed => ?_,kept.counted .bss,kept.placed,fun done s member => (aligned_iff _).mp (kept.level done s member)⟩
  rw [kept.written s filed]
  refine ⟨rfl,kept.counted s,fun short => ?_,kept.recorded s filed⟩
  rw [kept.counted s,BitVec.toNat_ofNat,Nat.mod_eq_of_lt short]

def someText : List Lexeme := [.lName "loop",.char ':',.lName "nop",.lEol,.lName "j",.lName "loop",.lEol,.lData,.lEol,
    .lWord,.lName "loop",.lEol,
    .lAscii,.string [104,105],.lEol,.lEof]

theorem segments_kept_someText : ∃ a, run step (start someText) (List.replicate 12 ()) = .ok a ∧ a.phase = .done ∧
    (∀ s, s.filed = true → a.sfile s ++ a.pending s = arrange (a.layout s)) := by
  have orderly : Along step (fun a _ => a.orderly = true) (start someText) (List.replicate 12 ()) := by decide +kernel
  obtain ⟨a,ran,done⟩ := @of_returns _ _ (fun a : Asm => a.phase == .done)
    (run step (start someText) (List.replicate 12 ())) (by decide +kernel)
  exact ⟨a,ran,by simpa using done,fun s filed => ((segments_kept someText ran orderly).1 s filed).1⟩

/-- The instruction that is held back comes into the file of `.data`. -/
def mixedText : List Lexeme := [.lName "nop",.lEol,.lData,.lEol,.lWord,.lNum 1,.lEol,.lEof]

theorem segment_mixed : ∃ a, run step (start mixedText) (List.replicate 8 ()) = .ok a ∧ a.phase = .done ∧
    a.count .data = 4 ∧ (a.sfile .data).length = 8 ∧ (a.rfile .data).length = 2 ∧
    a.count .text = 4 ∧ a.sfile .text = [] ∧ a.buffer = none := by
  obtain ⟨a,ran,shown⟩ := @of_returns _ _ (fun a : Asm =>
    a.phase == .done && a.count .data == 4 && (a.sfile .data).length == 8 &&
    (a.rfile .data).length == 2 && a.count .text == 4 && a.sfile .text == [] && a.buffer.isNone)
    (run step (start mixedText) (List.replicate 8 ())) (by decide +kernel)
  simp only [Bool.and_eq_true,beq_iff_eq,Option.isNone_iff_eq_none] at shown
  obtain ⟨⟨⟨⟨⟨⟨done,count⟩,bytes⟩,records⟩,text⟩,empty⟩,idle⟩ := shown
  exact ⟨a,ran,done,count,bytes,records,text,empty,idle⟩

end Retrobsd.Assembler

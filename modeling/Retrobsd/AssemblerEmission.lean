import Retrobsd.AssemblerLayout

/-! What the emitters of `pass1` leave: each one puts its item where the log has it. -/
namespace Retrobsd.Assembler
open List BitVec
open Function
open Relocations (Word Byte Reloc)
open Lib.Hoare

section
variable {α : Type} {a : Asm} {post : α → Asm → Prop} {done : Unit → Asm → Prop}

theorem yields_error {σ ε : Type} {s : σ} {e : ε} {post : α → σ → Prop} :
    Yields (fun _ => .error e : StateT σ (Except ε) α) s post :=
  fun _ _ bad => (nomatch bad)

@[simp] theorem yields_uerror {σ : Type} {s : σ} {message : String} {post : α → σ → Prop} :
    Yields (uerror message : StateT σ (Except Fault) α) s post := yields_error

theorem yields_scanned {p : Parse α} (next : ∀ x scan, p a.scan = .ok (x,scan) → post x {a with scan}) :
    Yields (scanned p) a post := by
  intro x b ran
  simp only [scanned] at ran
  cases read : p a.scan with
  | error e =>
    rw [read] at ran
    cases ran
  | ok r =>
    rw [read] at ran
    cases ran
    exact next _ _ read

theorem yields_placed {p : Segment → Word → Parse α}
    (next : ∀ x scan, p a.segm (a.count a.segm) a.scan = .ok (x,scan) → post x {a with scan}) : Yields (placed p) a post :=
  yields_scanned next

theorem yields_fputs {bytes : List Byte}
    (next : a.segm.filed = true → done () {a with sfile := update a.sfile a.segm (a.sfile a.segm ++ bytes)}) :
    Yields (fputs bytes) a done := by
  intro x b ran
  simp only [fputs] at ran
  split at ran
  next filed =>
    cases ran
    exact next filed
  next => cases ran

theorem yields_fputrel {r : Reloc}
    (next : a.segm.filed = true → done () {a with rfile := update a.rfile a.segm (a.rfile a.segm ++ [r])}) :
    Yields (fputrel r) a done := by
  intro x b ran
  simp only [fputrel] at ran
  split at ran
  next filed =>
    cases ran
    exact next filed
  next => cases ran

theorem yields_flush (next : done () a.flushed) : Yields reorderFlush a done := by
  simp only [reorderFlush,yields_bind,yields_get]
  cases full : a.buffer with
  | none =>
    rw [Asm.flushed,full] at next
    exact yields_pure () |>.mpr next
  | some b =>
    rw [Asm.flushed,full] at next
    simp only [yields_bind,yields_modify]
    exact yields_fputs fun _ => yields_fputrel fun _ => next

theorem yields_space {fill : Bool} (n : Nat) {m : Nat} (count : a.count a.segm = BitVec.ofNat 32 m)
    (next : ∀ rs : List Reloc, m / 4 + rs.length = (m + n) / 4 → done () {a with
      sfile := if fill then update a.sfile a.segm (a.sfile a.segm ++ zeros n) else a.sfile
      rfile := update a.rfile a.segm (a.rfile a.segm ++ rs)
      count := update a.count a.segm (BitVec.ofNat 32 (m + n))}) : Yields (spaceLoop fill n) a done := by
  induction n generalizing a m with
  | zero =>
    rw [spaceLoop,yields_pure]
    have same := next [] rfl
    simp only [zeros,List.replicate_zero,List.append_nil,update_eq_self,Nat.add_zero,← count,ite_self] at same
    exact same
  | succ n ih =>
    have nextCount : a.count a.segm + 1 = BitVec.ofNat 32 (m + 1) := by
      rw [count,ofNat_add]
      rfl
    have complete : a.count a.segm + 1 &&& 3 = 0 ↔ (m + 1) % 4 = 0 := by
      rw [aligned_iff,nextCount,toNat_ofNat,Nat.mod_mod_of_dvd _ (by decide : 4 ∣ 2^32)]
    have rest : ∀ sfile rfile (rs : List Reloc), (rs.length = if (m + 1) % 4 = 0 then 1 else 0) →
        rfile = update a.rfile a.segm (a.rfile a.segm ++ rs) →
        sfile = (if fill then update a.sfile a.segm (a.sfile a.segm ++ [0]) else a.sfile) →
        Yields (spaceLoop fill n) {a with
          sfile,rfile,count := update a.count a.segm (a.count a.segm + 1)} done := by
      rintro sfile rfile rs one rfl rfl
      refine ih (m := m + 1) (update_self _ _ _ |>.trans nextCount) fun more records => ?_
      have final := next (rs ++ more) (by
        rw [length_append,one]
        split <;> omega)
      have sum : m + 1 + n = m + (n + 1) := by omega
      simp only [update_self,update_idem,List.append_assoc,sum]
      cases fill with
      | true =>
        simp only [if_true,update_self,update_idem,List.append_assoc] at final ⊢
        exact final
      | false => exact final
    rw [spaceLoop]
    simp only [yields_bind,advance,yields_modify]
    have records : ∀ sfile, sfile = (if fill then update a.sfile a.segm (a.sfile a.segm ++ [0]) else a.sfile) →
        Yields (if a.count a.segm + 1 &&& 3 = 0 then (do fputrel relabs; spaceLoop fill n) else spaceLoop fill n)
          {a with sfile,count := update a.count a.segm (a.count a.segm + 1)} done := by
      intro sfile written
      refine .ite (fun full => yields_bind.mpr (yields_fputrel fun _ => ?_)) fun partly => ?_
      · exact rest sfile _ [relabs] (by rw [if_pos (complete.mp full)]; rfl) rfl written
      refine rest sfile _ [] (by rw [if_neg (mt complete.mpr partly)]; rfl) ?_ written
      rw [append_nil,update_eq_self]
    cases fill with
    | true =>
      simp only [if_true,yields_bind,yields_get]
      refine yields_fputs fun _ => ?_
      simp only [update_self]
      exact records _ rfl
    | false =>
      simp only [Bool.false_eq_true,if_false,yields_bind,yields_get,update_self]
      exact records _ rfl

end

section
variable {a : Asm}

structure Local (a b : Asm) : Prop where
  segm : b.segm = a.segm
  scan : b.scan = a.scan
  mode : b.modeReorder = a.modeReorder

theorem Local.refl (a : Asm) : Local a a := ⟨rfl,rfl,rfl⟩

theorem Local.trans {b c : Asm} (first : Local a b) (second : Local b c) : Local a c :=
  ⟨second.segm.trans first.segm,second.scan.trans first.scan,second.mode.trans first.mode⟩

theorem flushed_local (a : Asm) : Local a a.flushed := by
  rw [Asm.flushed]
  split
  · exact Local.refl a
  · exact ⟨rfl,rfl,rfl⟩

theorem flushed_count (a : Asm) : a.flushed.count = a.count := by
  rw [Asm.flushed]
  split <;> rfl

theorem flushed_mode (a : Asm) (mode : Bool) :
    ({a with modeReorder := mode} : Asm).flushed = {a.flushed with modeReorder := mode} := by
  obtain ⟨scan,segm,sfile,rfile,count,labeltab,modeReorder,buffer,phase,items⟩ := a
  cases buffer <;> rfl

def Asm.level (a : Asm) : Prop := a.count a.segm &&& 3 = 0

theorem Asm.level.add {b : Asm} (level : a.level) (segm : b.segm = a.segm)
    (count : b.count a.segm = a.count a.segm + 4) : b.level := by
  rw [Asm.level,segm,count,aligned_iff]
  rw [Asm.level,aligned_iff] at level
  bv_omega

theorem Inv.idle (inv : Inv a) (away : ¬ (a.modeReorder = true ∧ a.segm = .text)) : a.buffer = none := by
  cases full : a.buffer with
  | none => rfl
  | some b =>
    obtain ⟨segm,mode,_⟩ := inv.held b full
    exact absurd ⟨mode,segm⟩ away

theorem emit_yields (inv : Inv a) {b : Buffered} {x : Item} (bytes : arrange [x] = word b.word) (plain : x.swaps = false)
    (other : x.isLabel = false) (pads : ∀ n, x ≠ .pad n)
    (code : a.level ∧ (∀ w, x = .code w → w = b.word) ∨ b.word = 0 ∧ ∀ w, x ≠ .code w) :
    Yields (do emitword b; note x) a fun _ c => Inv c ∧ Local a c ∧ c.count a.segm = a.count a.segm + 4 := by
  simp only [emitword,yields_bind,yields_get]
  refine .ite (fun held => ?_) fun away => ?_
  · simp only [Bool.and_eq_true,beq_iff_eq] at held
    simp only [yields_bind]
    refine yields_flush ?_
    simp only [yields_modify,advance,note]
    have frame := flushed_local a
    have shape : Inv (a.flushed.holds b x) := by
      refine inv.flushed.holds plain other bytes pads (flushed_idle a) (frame.segm.trans held.2) (frame.mode.trans held.1) ?_
      rw [flushed_count,← held.2]
      exact code
    refine ⟨shape,frame.trans ⟨rfl,rfl,rfl⟩,?_⟩
    rw [frame.segm,flushed_count,update_self]
  simp only [Bool.and_eq_true,beq_iff_eq] at away
  have idle := inv.idle away
  simp only [yields_bind,fputword]
  refine yields_fputs fun filed => yields_fputrel fun _ => ?_
  simp only [yields_modify,advance,note]
  have length : (arrange [x]).length = 4 := by rw [bytes,word_length]
  have shape := inv.adds [b.rel] plain other (fun n bad => absurd bad (pads n)) (.inl idle) fun _ => by
    rw [length,length_singleton]
    omega
  have same : a.adds x [b.rel] = {a.notes x with
      sfile := update a.sfile a.segm (a.sfile a.segm ++ word b.word)
      rfile := update a.rfile a.segm (a.rfile a.segm ++ [b.rel])
      count := update a.count a.segm (a.count a.segm + 4)} := by
    simp only [Asm.adds,if_pos filed,bytes,word_length]
    rfl
  rw [same] at shape
  refine ⟨shape,⟨rfl,rfl,rfl⟩,?_⟩
  rw [update_self]

theorem emitCode_yields (inv : Inv a) (level : a.level) (b : Buffered) :
    Yields (emitCode b) a fun _ c => Inv c ∧ Local a c ∧ c.level := by
  refine (emit_yields inv (x := .code b.word) (by simp [arrange]) rfl rfl (fun n bad => by cases bad)
    (.inl ⟨level,fun w same => by cases same; rfl⟩)).imp fun _ c kept => ?_
  exact ⟨kept.1,kept.2.1,level.add kept.2.1.segm kept.2.2⟩

theorem emitCodes_yields (inv : Inv a) (level : a.level) (bs : List Buffered) :
    Yields (emitCodes bs) a fun _ c => Inv c ∧ Local a c ∧ c.level := by
  induction bs generalizing a with
  | nil =>
    rw [emitCodes,yields_pure]
    exact ⟨inv,Local.refl a,level⟩
  | cons b bs ih =>
    rw [emitCodes,yields_bind]
    refine (emitCode_yields inv level b).imp fun _ c kept => ?_
    exact (ih kept.1 kept.2.2).imp fun _ d more => ⟨more.1,kept.2.1.trans more.2.1,more.2.2⟩

theorem emitData_yields (inv : Inv a) {b : Buffered} (level : a.level ∨ b.word = 0) :
    Yields (emitData b) a fun _ c => Inv c ∧ Local a c ∧ c.count a.segm = a.count a.segm + 4 := by
  refine emit_yields inv (x := .data (word b.word)) (by simp [arrange]) rfl rfl (fun n bad => by cases bad) ?_
  exact level.imp (fun level => ⟨level,fun w bad => by cases bad⟩) fun zero => ⟨zero,fun w bad => by cases bad⟩

theorem emitZeros_yields (inv : Inv a) (n : Nat) : Yields (emitZeros n) a fun _ c => Inv c ∧ Local a c := by
  induction n generalizing a with
  | zero =>
    rw [emitZeros,yields_pure]
    exact ⟨inv,Local.refl a⟩
  | succ n ih =>
    rw [emitZeros,yields_bind]
    refine (emitData_yields inv (.inr rfl)).imp fun _ c kept => ?_
    exact (ih kept.1).imp fun _ d more => ⟨more.1,kept.2.1.trans more.2⟩

theorem addSpace_yields (inv : Inv a) (idle : a.buffer = none) (bytes : List Byte) (fill : Bool) {b : Asm}
    (zero : fill = true → bytes = zeros bytes.length)
    (before : b = {a with sfile := if fill || !a.segm.filed then a.sfile else update a.sfile a.segm (a.sfile a.segm ++ bytes)}) :
    Yields (do addSpace bytes.length fill; noteData bytes) b fun _ c => Inv c ∧ Local a c := by
  have segm : b.segm = a.segm := by rw [before]
  have shown : arrange [.data bytes] = bytes := append_nil _
  have records : ∀ rs : List Reloc, (arrange (a.layout a.segm)).length / 4 + rs.length =
      ((arrange (a.layout a.segm)).length + bytes.length) / 4 → Inv (a.adds (.data bytes) rs) := by
    intro rs enough
    refine inv.adds rs rfl rfl (fun n bad => by cases bad) (.inl idle) fun _ => ?_
    rw [shown]
    exact enough
  rcases eq_or_ne bytes [] with none | some
  · have nothing : b = a := by
      rw [before,none]
      simp
    rw [none,nothing]
    simp only [addSpace,yields_bind,yields_get,noteData,if_true,length_nil,spaceLoop,yields_pure]
    refine .ite (fun _ => yields_pure () |>.mpr ⟨inv,Local.refl a⟩) fun _ => ?_
    simp only [advance,yields_modify]
    have same : a.count a.segm + BitVec.ofNat 32 0 = a.count a.segm := add_zero _
    rw [same,update_eq_self]
    exact ⟨inv,Local.refl a⟩
  simp only [addSpace,yields_bind,yields_get,segm,noteData,if_neg some]
  refine .ite (fun filed => ?_) fun bss => ?_
  · refine yields_space bytes.length (m := (arrange (a.layout a.segm)).length) ?_ fun rs enough => ?_
    · rw [before]
      exact inv.counted a.segm
    simp only [note,yields_modify]
    have shape := records rs enough
    have same : a.adds (.data bytes) rs = {a.notes (.data bytes) with
        sfile := if fill = true then update b.sfile b.segm (b.sfile b.segm ++ zeros bytes.length) else b.sfile
        rfile := update b.rfile b.segm (b.rfile b.segm ++ rs)
        count := update b.count b.segm (BitVec.ofNat 32 ((arrange (a.layout a.segm)).length + bytes.length))} := by
      have count := inv.counted a.segm
      rw [before]
      cases fill with
      | true =>
        have all := zero rfl
        simp [Asm.adds,if_pos filed,shown,ofNat_add,← count,← all]
      | false =>
        simp [Asm.adds,shown,ofNat_add,← count,filed]
    rw [same] at shape
    subst before
    exact ⟨shape,⟨rfl,rfl,rfl⟩⟩
  · simp only [advance,yields_modify,note]
    have shape := inv.adds (x := .data bytes) [] rfl rfl (fun n bad => by cases bad) (.inl idle) fun filed => absurd filed bss
    have same : a.adds (.data bytes) [] = {a.notes (.data bytes) with
        count := update a.count a.segm (a.count a.segm + BitVec.ofNat 32 bytes.length)} := by
      simp only [Asm.adds,if_neg bss,shown]
      rfl
    rw [same] at shape
    have unfiled : b = a := by
      rw [before]
      have no : a.segm.filed = false := by simpa using bss
      simp [no]
    rw [unfiled]
    exact ⟨shape,⟨rfl,rfl,rfl⟩⟩

theorem alignment_level (c : Word) : c + alignment c 2 &&& 3 = 0 := by
  have mask : (1 : Word) <<< ((2 : Word).toNat % 32) - 1 = 3 := by decide
  rw [alignment,mask]
  split
  next level => exact (congrArg (· &&& 3) (add_zero c)).trans level
  next apart =>
    have low : (c &&& 3).toNat = c.toNat % 4 := (toNat_and c 3).trans (Nat.and_two_pow_sub_one_eq_mod _ 2)
    have some : (c &&& 3).toNat ≠ 0 := fun zero => apart (eq_of_toNat_eq zero)
    rw [aligned_iff]
    generalize c &&& 3 = r at *
    bv_omega

theorem align_yields (booked : Booked a) {bits : Word} {item : Nat → Item} (bytes : ∀ n, arrange [item n] = zeros n) :
    Yields (align bits item) a fun _ c => alignment (a.count a.segm) bits = 0 ∧ c = a ∨ alignment (a.count a.segm) bits ≠ 0 ∧
      ∃ rs, (a.segm.filed = true → (arrange (a.layout a.segm)).length / 4 + rs.length = ((arrange (a.layout a.segm)).length +
        (arrange [item (alignment (a.count a.segm) bits).toNat]).length) / 4) ∧
        c = a.adds (item (alignment (a.count a.segm) bits).toNat) rs := by
  simp only [align,yields_bind,yields_get]
  refine .ite (fun zero => yields_pure () |>.mpr (.inl ⟨zero,rfl⟩)) fun some => ?_
  have shown := bytes (alignment (a.count a.segm) bits).toNat
  have length : (arrange [item (alignment (a.count a.segm) bits).toNat]).length = (alignment (a.count a.segm) bits).toNat := by
    rw [shown,zeros_length]
  refine .ite (fun filed => ?_) fun bss => ?_
  · rw [yields_bind]
    refine yields_space _ (booked.counted a.segm) fun rs enough => ?_
    simp only [note,yields_modify]
    refine .inr ⟨some,rs,fun _ => by rw [length]; exact enough,?_⟩
    simp only [Asm.adds,if_pos filed,shown,zeros_length,ofNat_add,← booked.counted,if_true]
    rfl
  · simp only [yields_bind,advance,yields_modify,note]
    refine .inr ⟨some,[],fun filed => absurd filed bss,?_⟩
    simp only [Asm.adds,if_neg bss,length,ofNat_toNat,setWidth_eq]
    rfl

theorem adds_local (a : Asm) (x : Item) (rs : List Reloc) : Local a (a.adds x rs) := ⟨rfl,rfl,rfl⟩

theorem autoAlign_yields (inv : Inv a) {bits : Word} (pads : alignment (a.count a.segm) bits ≠ 0 →
      ∀ y ∈ (a.layout a.segm).getLast?, y.isLabel = false) (words : a.buffer ≠ none → bits = 2) :
    Yields (autoAlign bits) a fun _ c => Inv c ∧ Local a c ∧ c.buffer = a.buffer ∧ (bits = 2 → c.level) ∧
      (alignment (a.count a.segm) bits = 0 → c = a) := by
  refine (align_yields inv.toBooked fun n => append_nil _).imp fun _ c shape => ?_
  have levels : ∀ d : Asm, d.segm = a.segm → d.count a.segm = a.count a.segm + alignment (a.count a.segm) bits →
    bits = 2 → d.level := by
    rintro d segm count rfl
    rw [Asm.level,segm,count]
    exact alignment_level _
  rcases shape with ⟨zero,rfl⟩ | ⟨some,rs,records,rfl⟩
  · exact ⟨inv,Local.refl c,rfl,levels c rfl (by rw [zero]; exact (add_zero _).symm),fun _ => rfl⟩
  have idle : a.buffer = none ∨ ∃ b n, a.buffer = Option.some b ∧ b.word = 0 ∧
    Item.pad (alignment (a.count a.segm) bits).toNat = .pad n := by
    cases full : a.buffer with
    | none => exact .inl rfl
    | some b =>
      obtain ⟨segm,_,shape⟩ := inv.held b full
      obtain rfl := words (by rw [full]; exact fun bad => (nomatch bad))
      rcases shape with ⟨level,_⟩ | ⟨zero,_⟩
      · rw [← segm] at level
        exact absurd (if_pos level) some
      · exact .inr ⟨b,_,rfl,zero,rfl⟩
  refine ⟨inv.adds rs rfl rfl (fun _ _ => pads some) idle records,adds_local _ _ _,rfl,levels _ rfl ?_,
    fun zero => absurd zero some⟩
  have length : (arrange [.pad (alignment (a.count a.segm) bits).toNat]).length = (alignment (a.count a.segm) bits).toNat := by
    simp [arrange]
  change update a.count a.segm _ a.segm = _
  rw [update_self,length,ofNat_toNat,setWidth_eq]

theorem emitBranch_yields (inv : Inv a) (i : Insn) (segm : a.segm = .text)
    (code : ∀ b, a.buffer = some b → ∃ w, some (.code w) = (a.layout .text).getLast?) :
    Yields (emitBranch i) a fun _ c => Inv c ∧ Local a c := by
  have filed : a.segm.filed = true := by rw [segm]; rfl
  -- with nothing in the buffer the slot holds a `nop`
  have alone (k : Asm → Pass Unit) (slot : ∀ d, d.buffer = none →
        k d = do fputword 0; fputrel relabs; advance 4; note (.branch i.opcode false); advance 4) (c : Asm)
        (kept : Inv c) (frame : Local a c)
      (idle : c.buffer = none) : Yields (do fputword i.opcode; fputrel i.rel; k (← get)) c fun _ d => Inv d ∧ Local a d := by
    simp only [yields_bind,fputword]
    refine yields_fputs fun _ => yields_fputrel fun _ => ?_
    simp only [yields_get,slot,idle,yields_bind,fputword]
    refine yields_fputs fun _ => yields_fputrel fun filed => ?_
    simp only [advance,yields_modify,note]
    have shape := kept.adds (x := .branch i.opcode false) [i.rel,relabs] rfl rfl (fun n bad => by cases bad)
      (.inl idle) fun _ => by
      change _ = ((arrange (c.layout c.segm)).length + 8) / 4
      rw [length_cons,length_singleton]
      omega
    have filed' : c.segm.filed = true := filed
    have same : c.adds (.branch i.opcode false) [i.rel,relabs] = {c.notes (.branch i.opcode false) with
        sfile := update c.sfile c.segm (c.sfile c.segm ++ word i.opcode ++ word 0)
        rfile := update c.rfile c.segm (c.rfile c.segm ++ [i.rel] ++ [relabs])
        count := update c.count c.segm (c.count c.segm + 4 + 4)
        buffer := none} := by
      have shown : arrange [.branch i.opcode false] = word i.opcode ++ word 0 := List.append_nil _
      simp only [Asm.adds,Asm.notes,idle,if_pos filed',shown,List.append_assoc,List.cons_append,List.nil_append]
      rw [BitVec.add_assoc]
      rfl
    rw [same] at shape
    simp only [update_self,update_idem]
    exact ⟨shape,frame.trans ⟨rfl,rfl,rfl⟩⟩
  simp only [emitBranch,yields_bind,yields_get]
  cases full : a.buffer with
  | none => exact alone _ (fun d idle => by rw [idle]) a inv (Local.refl a) full
  | some b =>
    refine .ite (fun _ => yields_bind.mpr (yields_flush ?_)) fun _ => ?_
    · exact alone _ (fun d idle => by rw [idle]) a.flushed inv.flushed (flushed_local a) (flushed_idle a)
    simp only [yields_bind,fputword]
    refine yields_fputs fun _ => yields_fputrel fun _ => ?_
    simp only [yields_get,full,yields_bind]
    refine yields_flush ?_
    simp only [note,advance,yields_modify,Asm.flushed]
    obtain ⟨w,last⟩ := code b full
    obtain ⟨items,whole⟩ := List.getLast?_eq_some_iff.mp last.symm
    have shape := inv.swapped full (w := i.opcode) (r := i.rel) whole
    simp only [update_self,update_idem]
    exact ⟨shape,⟨rfl,rfl,rfl⟩⟩

end

end Retrobsd.Assembler

import Retrobsd.Stacks

/-! What is noted of the stack stays true as long as no entry to the kernel meets a
stack pointer beyond the user's memory, or a frame that does not fit into it. -/
namespace Retrobsd.Stacks
open Lib.Run Transfers BitVec

/-- What is noted of data and stack agrees in all places, and both have room. -/
structure Sound (p : Proc) : Prop where
  uSsize : p.uSsize = p.pSsize
  uDsize : p.uDsize = p.pDsize
  room : p.pDsize.toNat + p.pSsize.toNat ≤ 96 * 1024
  text : p.uTsize.toNat ≤ 96 * 1024
  loaded : p.sload = true → p.pDaddr = userDataStart ∧ p.pSaddr + p.pSsize = userDataEnd

def Proper (p : Proc) (sp : Word) : Prop := p.pDaddr + p.uDsize ≤ sp ∧ sp ≤ userDataEnd

theorem userDataStart_toNat : userDataStart.toNat = 0x7f008000 := by decide

theorem userDataEnd_toNat : userDataEnd.toNat = 0x7f020000 := by decide

theorem Sound.brkpoint {p : Proc} (sound : Sound p) (loaded : p.sload = true) :
    (p.pDaddr + p.uDsize).toNat = 0x7f008000 + p.pDsize.toNat := by
  have room := sound.room
  rw [(sound.loaded loaded).1,sound.uDsize,toNat_add,userDataStart_toNat]
  omega

theorem expand_sound {p : Proc} (sound : Sound p) (loaded : p.sload = true) {sp : Word} (proper : Proper p sp) :
    Sound (expand p sp) := by
  have low := sound.brkpoint loaded
  have above := le_def.mp proper.1
  have below := le_def.mp proper.2
  have top := userDataEnd_toNat
  rw [expand]
  split
  · refine ⟨rfl,sound.uDsize,?_,sound.text,fun _ => ⟨(sound.loaded loaded).1,?_⟩⟩
    · change p.pDsize.toNat + (userDataEnd - sp).toNat ≤ 96 * 1024
      bv_omega
    change sp + (userDataEnd - sp) = userDataEnd
    bv_omega
  · exact sound

theorem expand_sload (p : Proc) (sp : Word) : (expand p sp).sload = p.sload := by
  rw [expand]
  split <;> rfl

theorem newsize_small (d : Word) : (if d.toInt < 0 then 0 else d).toNat < 2^31 := by
  split
  · decide
  next positive =>
  rw [toInt_eq_toNat_cond] at positive
  split at positive <;> omega

theorem brk_sound {p : Proc} (sound : Sound p) (naddr : Word) : Sound (brk p naddr) := by
  have room := sound.room
  have text := sound.text
  have small := newsize_small (naddr - p.pDaddr)
  have limit : maxmem.toNat = 96 * 1024 := by decide
  rw [brk]
  generalize (if (naddr - p.pDaddr).toInt < 0 then 0 else naddr - p.pDaddr) = newsize at small ⊢
  split
  · exact sound
  next enough =>
  refine ⟨sound.uSsize,rfl,?_,sound.text,sound.loaded⟩
  change newsize.toNat + p.pSsize.toNat ≤ 96 * 1024
  rw [sound.uSsize] at enough
  bv_omega

def Exec.total (ep : Exec) (nargc : Word) : Nat := ep.aText.toNat + ep.aData.toNat + ep.aBss.toNat + 2048 + nargc.toNat

theorem execve_loads (p : Proc) (loaded : p.sload = true) {ep : Exec} {nargc : Word} (small : ep.total nargc ≤ 96 * 1024) :
    Sound (execve p ep nargc) ∧ (execve p ep nargc).sload = true := by
  have limit : maxmem.toNat = 96 * 1024 := by decide
  have stack : ssize.toNat = 2048 := by decide
  rw [Exec.total] at small
  rw [execve]
  cases kind : ep.omagic
  all_goals
    simp only [Bool.false_eq_true,if_true,if_false]
    rw [if_neg (by bv_omega)]
    refine ⟨⟨rfl,rfl,?_,?_,fun _ => ⟨rfl,BitVec.sub_add_cancel _ _⟩⟩,loaded⟩
    · dsimp only
      bv_omega
    dsimp only
    bv_omega

theorem execve_sound {p : Proc} (sound : Sound p) (loaded : p.sload = true) {ep : Exec} {nargc : Word}
    (carry : ep.total nargc < 2^32) : Sound (execve p ep nargc) := by
  by_cases small : ep.total nargc ≤ 96 * 1024
  · exact (execve_loads p loaded small).1
  have limit : maxmem.toNat = 96 * 1024 := by decide
  have stack : ssize.toNat = 2048 := by decide
  rw [Exec.total] at small carry
  rw [execve]
  cases kind : ep.omagic
  all_goals
    simp only [Bool.false_eq_true,if_true,if_false]
    rw [if_pos (by bv_omega)]
    exact sound

theorem sigaltstack_sound {p : Proc} (sound : Sound p) (disable onstack : Bool) (base size : Word) :
    Sound (sigaltstack p disable onstack base size) := by
  rw [sigaltstack]
  split_ifs
  · exact sound
  · exact {sound with}
  · exact sound
  · exact {sound with}

section

def InRam (addrs : List Word) : Prop := ∀ a ∈ addrs, userDataStart ≤ a ∧ a < userDataEnd

def Roomy (top : Word) : Prop := 0x7f008000 + 144 ≤ top.toNat ∧ top.toNat ≤ 0x7f020000

theorem stored_inRam {top : Word} (roomy : Roomy top) : InRam (stored (top - sigframe)) := by
  have start := userDataStart_toNat
  have last := userDataEnd_toNat
  have size : sigframe.toNat = 160 := by decide
  obtain ⟨low,high⟩ := roomy
  intro a member
  rcases List.mem_append.mp member with first | second
  · obtain ⟨i,small,rfl⟩ := mem_bytes.mp first
    bv_omega
  obtain ⟨i,small,rfl⟩ := mem_bytes.mp second
  bv_omega

def Call.Sane : Call → Prop
  | .execve ep nargc => ep.total nargc < 2^32
  | _ => True

def Sane (p : Proc) : Op → Prop
  | .syscall sp c => p.sload = true ∧ sp ≤ userDataEnd ∧ c.Sane
  | .interrupt sp => p.sload = true ∧ Proper p sp
  | .sendsig sp onstack => p.sload = true ∧
    if p.ssOnstack then Roomy sp
    else if p.sasAltstack ∧ onstack then Roomy (p.ssBase + p.ssSize)
    else sigframe ≤ sp ∧ sp ≤ userDataEnd
  | .swapout _ => p.sload = true
  | .swapin => p.sload = false
  | .forked _ => p.sload = true

/-- A stack pointer that is not the process's own is answered with a signal, unless
it is that of the alternate stack, and nothing is stored outside. -/
def Answered (p : Proc) (op : Op) (signal : Option Signal) (stores : List Word) : Prop := InRam stores ∧ match op with
    | .syscall sp _ => ¬ Proper p sp → signal.isSome
    | .interrupt sp => ¬ Proper p sp → signal.isSome
    | .sendsig sp onstack => ¬ Proper p sp → ¬ p.ssOnstack → ¬ (p.sasAltstack ∧ onstack) → signal.isSome
    | _ => True

theorem inRam_nil : InRam [] := by simp [InRam]

variable {p : Proc}

theorem call_sound (sound : Sound p) (loaded : p.sload = true) {c : Call} (sane : c.Sane) : Sound (call p c) := by
  cases c with
  | brk naddr => exact brk_sound sound naddr
  | execve ep nargc => exact execve_sound sound loaded sane
  | sigaltstack disable onstack base size => exact sigaltstack_sound sound disable onstack base size
  | sigstack sp onstack => exact {sound with}
  | sigreturn onstack => exact {sound with}
  | other => exact sound

theorem sendsig_there (there : p.ssOnstack = true) (sp : Word) (onstack : Bool) :
    sendsig p sp onstack = (p,none,stored (sp - sigframe)) := by
  simp [sendsig,there]

theorem sendsig_switches (away : p.ssOnstack = false) (alternate : p.sasAltstack = true) (sp : Word) :
    sendsig p sp true = ({p with ssOnstack := true},none,stored (p.ssBase + p.ssSize - sigframe)) := by
  simp [sendsig,away,alternate]

theorem sendsig_stays (away : p.ssOnstack = false) {onstack : Bool} (stays : ¬ (p.sasAltstack ∧ onstack)) (sp : Word) :
    sendsig p sp onstack = if sp - sigframe < p.pDaddr + p.uDsize then (p,some .sigill,[])
      else (expand p (sp - sigframe),none,stored (sp - sigframe)) := by
  have off : (p.sasAltstack && onstack) = false := by simpa using stays
  simp [sendsig,away,off]

theorem sendsig_sound (sound : Sound p) {sp : Word} {onstack : Bool} (sane : Sane p (.sendsig sp onstack)) :
    Sound (sendsig p sp onstack).1 ∧
      Answered p (.sendsig sp onstack) (sendsig p sp onstack).2.1 (sendsig p sp onstack).2.2 := by
  obtain ⟨loaded,frame⟩ := sane
  by_cases there : p.ssOnstack = true
  · rw [if_pos there] at frame
    rw [sendsig_there there]
    exact ⟨sound,stored_inRam frame,fun _ elsewhere => absurd there elsewhere⟩
  rw [if_neg there] at frame
  rw [Bool.not_eq_true] at there
  by_cases switches : p.sasAltstack ∧ onstack
  · rw [if_pos switches] at frame
    obtain ⟨alternate,rfl⟩ := switches
    rw [sendsig_switches there alternate]
    exact ⟨{sound with},stored_inRam frame,fun _ _ stays => absurd ⟨alternate,rfl⟩ stays⟩
  rw [if_neg switches] at frame
  rw [sendsig_stays there switches]
  split
  · exact ⟨sound,inRam_nil,fun _ _ _ => rfl⟩
  next above =>
  have low := sound.brkpoint loaded
  have last := userDataEnd_toNat
  have size : sigframe.toNat = 160 := by decide
  have room : Proper p (sp - sigframe) := by
    constructor <;> bv_omega
  have roomy : Roomy sp := by
    constructor <;> bv_omega
  have proper : Proper p sp := by
    constructor <;> bv_omega
  have stores := stored_inRam roomy
  dsimp only
  generalize stored (sp - sigframe) = addrs at stores ⊢
  exact ⟨expand_sound sound loaded room,stores,fun improper => absurd proper improper⟩

theorem act_sound (sound : Sound p) {op : Op} (sane : Sane p op) :
    ∃ q signal stores, act p op = .ok (q,signal,stores) ∧ Sound q ∧ Answered p op signal stores := by
  cases op with
  | syscall sp c =>
    obtain ⟨loaded,high,fits⟩ := sane
    refine ⟨_,_,_,rfl,?_,inRam_nil,?_⟩
    · rw [syscall]
      split
      · exact sound
      next low =>
      apply call_sound _ _ fits
      · exact expand_sound sound loaded ⟨BitVec.not_lt.mp low,high⟩
      · rw [expand_sload,loaded]
    · intro improper
      rw [syscall,if_pos]
      · rfl
      by_contra low
      exact improper ⟨BitVec.not_lt.mp low,high⟩
  | interrupt sp =>
    obtain ⟨loaded,proper⟩ := sane
    refine ⟨expand p sp,none,[],?_,expand_sound sound loaded proper,inRam_nil,fun improper => absurd proper improper⟩
    rw [act,interrupt,if_neg (BitVec.not_lt.mpr proper.1)]
    rfl
  | sendsig sp onstack =>
    obtain ⟨kept,answered⟩ := sendsig_sound sound sane
    exact ⟨_,_,_,rfl,kept,answered⟩
  | swapout a => exact ⟨_,_,_,rfl,⟨sound.uSsize,sound.uDsize,sound.room,sound.text,by simp [swapout]⟩,inRam_nil,trivial⟩
  | swapin =>
    exact ⟨_,_,_,rfl,⟨sound.uSsize,sound.uDsize,sound.room,sound.text,fun _ => ⟨rfl,BitVec.sub_add_cancel _ _⟩⟩,
      inRam_nil,trivial⟩
  | forked a =>
    exact ⟨_,_,_,rfl,⟨sound.uSsize,sound.uDsize,sound.room,sound.text,by simp [newproc,swapout]⟩,inRam_nil,trivial⟩

theorem step_sound {op : Op} (sound : Sound p) (sane : Sane p op) : ∃ q, step p op = .ok q ∧ Sound q := by
  obtain ⟨q,signal,stores,ok,kept,-⟩ := act_sound sound sane
  refine ⟨q,?_,kept⟩
  rw [step,ok]
  rfl

/-- Where from an `exec` on each system call meets a stack pointer not above the user's memory, each preemption
one between data and its end, each signal a frame that has a place, and no sizes of a file overflow, the books
of the stack are right in every state, the kernel does not panic, a stack pointer that is not the process's own
is answered with a signal, and `sendsig` stores only to the user's memory. -/
theorem stacks_kept (p : Proc) (loaded : p.sload = true) {ep : Exec} {nargc : Word} (small : ep.total nargc ≤ 96 * 1024)
    (ops : List Op) (sane : Along step Sane (execve p ep nargc) ops) :
    ∃ q, run step (execve p ep nargc) ops = .ok q ∧ (q.sload = true → q.pSaddr + q.pSsize = userDataEnd ∧ q.uSsize = q.pSsize ∧
        q.pDsize.toNat + q.pSsize.toNat ≤ (userDataEnd - userDataStart).toNat) ∧
      ∀ op, Sane q op → ∃ r signal stores, act q op = .ok (r,signal,stores) ∧ Answered q op signal stores := by
  obtain ⟨q,ended,sound⟩ := run_total (fun _ _ => step_sound) ops _ (execve_loads p loaded small).1 sane
  refine ⟨q,ended,?_,?_⟩
  · intro there
    have size : (userDataEnd - userDataStart).toNat = 96 * 1024 := by decide
    rw [size]
    exact ⟨(sound.loaded there).2,sound.uSsize,sound.room⟩
  · intro op now
    obtain ⟨r,signal,stores,ok,-,answered⟩ := act_sound sound now
    exact ⟨r,signal,stores,ok,answered⟩

instance (p : Proc) (sp : Word) : Decidable (Proper p sp) := instDecidableAnd

instance (top : Word) : Decidable (Roomy top) := instDecidableAnd

instance : ∀ c : Call, Decidable c.Sane
  | .execve _ _ => inferInstanceAs (Decidable (_ < _))
  | .brk _ | .sigaltstack _ _ _ _ | .sigstack _ _ | .sigreturn _ | .other => .isTrue trivial

instance (p : Proc) : ∀ op : Op, Decidable (Sane p op)
  | .syscall _ _ => inferInstanceAs (Decidable (_ ∧ _ ∧ Call.Sane _))
  | .interrupt sp => inferInstanceAs (Decidable (_ ∧ Proper p sp))
  | .sendsig sp onstack => inferInstanceAs (Decidable (p.sload = true ∧
    if p.ssOnstack then Roomy sp
    else if p.sasAltstack ∧ onstack then Roomy (p.ssBase + p.ssSize)
    else sigframe ≤ sp ∧ sp ≤ userDataEnd))
  | .swapout _ => inferInstanceAs (Decidable (_ = _))
  | .swapin => inferInstanceAs (Decidable (_ = _))
  | .forked _ => inferInstanceAs (Decidable (_ = _))

def icode : Proc := ⟨userDataStart,userDataEnd - 1024,60,1024,0,0,0,true,false,0,0,false⟩

def header : Exec := ⟨false,0x4000,0x1000,0x800⟩

def someOps : List Op := [.syscall 0x7f01f000 .other,.interrupt 0x7f01e800,.syscall 0x7f01f000 (.brk 0x7f010000),
    .sendsig 0x7f01e000 false,
    .forked (16,40),.swapin,.syscall 0x7f008000 .other,.sendsig 0x7f008000 false]

theorem stacks_kept_someOps : ∃ q, run step (execve icode header 64) someOps = .ok q ∧
    (q.sload = true → q.pSaddr + q.pSsize = userDataEnd) := by
  obtain ⟨q,ended,kept,-⟩ := stacks_kept icode rfl (by decide : header.total 64 ≤ 96 * 1024) someOps (by decide +kernel)
  exact ⟨q,ended,fun there => (kept there).1⟩

/-- A clock interrupt while the stack pointer is 0. -/
theorem preempted_panics : run step (execve icode header 64) [.interrupt 0] = .error .unexpectedException := by
  decide

end

end Retrobsd.Stacks

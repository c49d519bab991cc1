import Retrobsd.Signals
import Retrobsd.TransferConfinement

/-! The frame that `sendsig` leaves on a stack of the user and that `sigreturn` takes the
registers from. The memory is one of aligned words. -/
namespace Retrobsd.SignalFrames
open Function (update update_of_ne update_self)
open Signals Transfers

inductive Frame where
  | r1 | r2 | r3 | r4 | r5 | r6 | r7 | r8 | r9 | r10 | r11 | r12 | r13 | r14 | r15 | r16 | r17 | r18 | r19 |
    r20 | r21 | r22 | r23
  | r24 | r25 | gp | sp | fp | ra | lo | hi | status | pc
deriving DecidableEq

open SignalFrames.Frame

/-- The registers of `struct sigcontext` in their order, after `sc_onstack`, `sc_mask` and `sc_align`. -/
def sigcontext : List Frame := [r1,r2,r3,r4,r5,r6,r7,r8,r9,r10,r11,r12,r13,r14,r15,r16,r17,r18,r19,r20,r21,r22,r23,r24,
    r25,gp,sp,fp,ra,lo,hi,pc]

def scOnstack : Nat := 0
def scMask : Nat := 4
def scRegister (r : Frame) : Nat := 16 + 4 * sigcontext.idxOf r

def sizeofSigcontext : Nat := 16 + 4 * 32

def sfSpace : Nat := 16

def sizeofSigframe : Nat := sfSpace + sizeofSigcontext

def saves : List Frame := [r1,r2,r3,r4,r5,r6,r7,r8,r9,r10,r11,r12,r13,r14,r15,r16,r17,r18,r19,r20,r21,r22,r23,
    r24,r25,gp,sp,fp,ra,lo,hi,pc]

def restores : List Frame := [r1,r2,r3,r4,r5,r6,r7,r8,r9,r10,r11,r12,r13,r14,r15,r16,r17,r18,r19,r20,r21,r22,r23,r24,
    r25,gp,sp,fp,ra,lo,hi,pc]

def saOnstack : Word := 1

structure State where
  regs : Frame → Word
  mem : Word → Word
  sasAltstack : Bool
  ssBase : Word
  ssSize : Word
  ssFlags : Word
  uSigonstack : Mask
  pSigmask : Mask
  pDaddr : Word
  uDsize : Word
  pSsize : Word
  pSaddr : Word
  uSsize : Word
  uCode : Word
  uSigtramp : Word

/-- `fatalsig (SIGILL)`, an address error in the kernel, and an error of the call. -/
inductive Stop where
  | sigill
  | addressError
  | efault
deriving DecidableEq

def State.switches (s : State) (sig : Nat) : Bool :=
    s.sasAltstack ∧ s.ssFlags &&& saOnstack = 0 ∧ s.uSigonstack &&& sigmask sig ≠ 0

def State.sfp (s : State) (sig : Nat) : Word :=
    (if s.switches sig then s.ssBase + s.ssSize else s.regs sp) - BitVec.ofNat 32 sizeofSigframe

def aligned (a : Word) : Bool := a &&& 3 = 0

def store (regs : Frame → Word) (scp : Word) (rs : List Frame) (mem : Word → Word) : Word → Word :=
  rs.foldl (fun mem r => update mem (scp + BitVec.ofNat 32 (scRegister r)) (regs r)) mem

def load (mem : Word → Word) (scp : Word) (rs : List Frame) (regs : Frame → Word) : Frame → Word :=
  rs.foldl (fun regs r => update regs r (mem (scp + BitVec.ofNat 32 (scRegister r)))) regs

def context (sfp : Word) : Word := sfp + BitVec.ofNat 32 sfSpace

def State.grow (s : State) (sfp : Word) : State :=
  if s.pSsize < userDataEnd - sfp then {s with pSsize := userDataEnd - sfp,pSaddr := sfp,uSsize := userDataEnd - sfp} else s

def State.deliver (s : State) (p : Word) (sig : Nat) (mask : Mask) (oonstack sfp : Word) : State :=
  let scp := context sfp
  let mem := update s.mem (scp + BitVec.ofNat 32 scOnstack) oonstack
  let mem := update mem (scp + BitVec.ofNat 32 scMask) mask
  let mem := store s.regs scp saves mem
  let regs := update s.regs r4 (BitVec.ofNat 32 sig)
  let regs := update regs r5 s.uCode
  let regs := update regs r6 scp
  let regs := update regs ra s.uSigtramp
  let regs := update regs sp sfp
  let regs := update regs pc p
  {s with mem,regs}

def sendsig (p : Word) (sig : Nat) (mask : Mask) (s : State) : Except Stop State :=
  let oonstack := s.ssFlags &&& saOnstack
  let sfp := s.sfp sig
  let s := if s.switches sig then {s with ssFlags := s.ssFlags ||| saOnstack} else s
  if s.ssFlags &&& saOnstack = 0 ∧ sfp < s.pDaddr + s.uDsize then .error .sigill
  else
    let s := if s.ssFlags &&& saOnstack = 0 then s.grow sfp else s
    if ¬ aligned sfp then .error .addressError else .ok (s.deliver p sig mask oonstack sfp)

def State.restore (s : State) (scp : Word) : State :=
  let onstack := s.mem (scp + BitVec.ofNat 32 scOnstack)
  {s with
    ssFlags := if onstack &&& saOnstack ≠ 0 then s.ssFlags ||| saOnstack else s.ssFlags &&& ~~~saOnstack
    pSigmask := s.mem (scp + BitVec.ofNat 32 scMask) &&& ~~~sigcantmask
    regs := load s.mem scp restores s.regs}

def sigreturn (s : State) : Except Stop State :=
  let scp := context (s.regs sp)
  if baduaddr scp ∨ baduaddr (scp + BitVec.ofNat 32 sizeofSigcontext) then .error .efault
  else if ¬ aligned scp then .error .addressError
  else .ok (s.restore scp)

section

variable {regs : Frame → Word} {mem : Word → Word} {scp : Word} {rs : List Frame} {r r' : Frame}

theorem saves_all (r : Frame) (saved : r ≠ status) : r ∈ saves := by
  cases r <;> first | exact absurd rfl saved | simp [saves]

theorem restores_all (r : Frame) (saved : r ≠ status) : r ∈ restores := by
  cases r <;> first | exact absurd rfl saved | simp [restores]

theorem scRegister_le (r : Frame) : scRegister r ≤ 144 := by
  have inside : sigcontext.idxOf r ≤ sigcontext.length := List.idxOf_le_length
  have length : sigcontext.length = 32 := rfl
  unfold scRegister
  omega

theorem scRegister_inj (member : r ∈ saves) (same : scRegister r = scRegister r') : r = r' := by
  have index : sigcontext.idxOf r = sigcontext.idxOf r' := by
    unfold scRegister at same
    omega
  exact (List.idxOf_inj member).mp index

theorem slot_ne {i j : Nat} (first : i ≤ 144) (second : j ≤ 144) (ne : i ≠ j) :
    scp + BitVec.ofNat 32 i ≠ scp + BitVec.ofNat 32 j := by
  bv_omega

theorem store_other {a : Word} (apart : ∀ r ∈ rs, a ≠ scp + BitVec.ofNat 32 (scRegister r)) :
    store regs scp rs mem a = mem a := by
  induction rs generalizing mem with
  | nil => rfl
  | cons r rs ih =>
    rw [store,List.foldl_cons]
    refine (ih fun other member => apart other (List.mem_cons_of_mem r member)).trans ?_
    exact update_of_ne (apart r List.mem_cons_self) _ _

theorem store_saved (all : ∀ r ∈ rs, r ∈ saves) (member : r ∈ rs) :
    store regs scp rs mem (scp + BitVec.ofNat 32 (scRegister r)) = regs r := by
  induction rs generalizing mem with
  | nil => cases member
  | cons first rs ih =>
    rw [store,List.foldl_cons]
    by_cases later : r ∈ rs
    · exact ih (fun other member => all other (List.mem_cons_of_mem first member)) later
    obtain rfl : r = first := (List.mem_cons.mp member).resolve_right later
    refine (store_other fun other inside => ?_).trans (update_self _ _ _)
    apply slot_ne (scRegister_le r) (scRegister_le other)
    intro same
    exact later (scRegister_inj (all r List.mem_cons_self) same ▸ inside)

theorem load_other (apart : r ∉ rs) : load mem scp rs regs r = regs r := by
  induction rs generalizing regs with
  | nil => rfl
  | cons first rs ih =>
    rw [List.mem_cons,not_or] at apart
    rw [load,List.foldl_cons]
    exact (ih apart.2).trans (update_of_ne apart.1 _ _)

theorem load_restored (member : r ∈ rs) : load mem scp rs regs r = mem (scp + BitVec.ofNat 32 (scRegister r)) := by
  induction rs generalizing regs with
  | nil => cases member
  | cons first rs ih =>
    rw [load,List.foldl_cons]
    by_cases later : r ∈ rs
    · exact ih later
    obtain rfl : r = first := (List.mem_cons.mp member).resolve_right later
    exact (load_other later).trans (update_self _ _ _)

end

variable {p : Word} {sig : Nat} {mask : Mask} {s : State}

section

def State.Inside (s : State) (sig : Nat) : Prop :=
    userDataStart ≤ s.sfp sig ∧ s.sfp sig ≤ userDataEnd - BitVec.ofNat 32 sizeofSigframe

def Returns (t u : State) : Prop :=
  u.regs sp = t.regs sp ∧ ∀ i < sizeofSigframe, u.mem (t.regs sp + BitVec.ofNat 32 i) = t.mem (t.regs sp + BitVec.ofNat 32 i)

structure Restored (s : State) (mask : Mask) (v : State) : Prop where
  regs : ∀ r, r ≠ status → v.regs r = s.regs r
  mask : v.pSigmask = mask
  onstack : v.ssFlags &&& saOnstack = s.ssFlags &&& saOnstack

/-- A signal that does not kill the process is delivered, and `sigreturn` undoes it. -/
def RoundTrip (p : Word) (sig : Nat) (mask : Mask) (s : State) : Prop :=
  sendsig p sig mask s = .error .sigill ∨ ∃ t, sendsig p sig mask s = .ok t ∧ ∀ u, Returns t u → ∃ v,
  sigreturn u = .ok v ∧ Restored s mask v

def State.Trashed (s : State) (sig : Nat) : Prop :=
    s.switches sig = false ∧ s.ssFlags &&& saOnstack = 0 ∧ s.sfp sig < s.pDaddr + s.uDsize

variable {t u : State}

theorem onstack_set (flags : Word) : (flags ||| saOnstack) &&& saOnstack ≠ 0 := by
  intro none
  have bit := congrArg (fun w => w.getLsbD 0) none
  simp [saOnstack] at bit

theorem sendsig_trashed (trashed : s.Trashed sig) : sendsig p sig mask s = .error .sigill := by
  obtain ⟨stays,ordinary,below⟩ := trashed
  rw [sendsig,stays]
  exact if_pos ⟨ordinary,below⟩

def State.ready (s : State) (sig : Nat) : State :=
  let t := if s.switches sig then {s with ssFlags := s.ssFlags ||| saOnstack} else s
  if t.ssFlags &&& saOnstack = 0 then t.grow (s.sfp sig) else t

theorem sendsig_sound (sound : ¬ s.Trashed sig) : sendsig p sig mask s =
    if ¬ aligned (s.sfp sig) then .error .addressError
    else .ok ((s.ready sig).deliver p sig mask (s.ssFlags &&& saOnstack) (s.sfp sig)) := by
  rw [sendsig]
  dsimp only
  rw [if_neg]
  · rfl
  cases moves : s.switches sig with
  | true => exact fun bad => onstack_set _ bad.1
  | false => exact fun bad => sound ⟨moves,bad⟩

theorem grow_kept (sfp : Word) : (s.grow sfp).regs = s.regs ∧ (s.grow sfp).mem = s.mem := by
  unfold State.grow
  split <;> exact ⟨rfl,rfl⟩

theorem ready_kept : (s.ready sig).regs = s.regs ∧ (s.ready sig).mem = s.mem := by
  unfold State.ready
  dsimp only
  split_ifs
  · exact grow_kept _
  · exact ⟨rfl,rfl⟩
  · exact grow_kept _
  · exact ⟨rfl,rfl⟩

section
variable {sfp oonstack : Word}

theorem deliver_sp : (s.deliver p sig mask oonstack sfp).regs sp = sfp := rfl

theorem Returns.context (returns : Returns (s.deliver p sig mask oonstack sfp) u) {i : Nat} (inside : i < sizeofSigcontext) :
    u.mem (context sfp + BitVec.ofNat 32 i) = (s.deliver p sig mask oonstack sfp).mem (context sfp + BitVec.ofNat 32 i) := by
  have shift : SignalFrames.context sfp + BitVec.ofNat 32 i = sfp + BitVec.ofNat 32 (sfSpace + i) := by
    rw [SignalFrames.context,BitVec.ofNat_add,BitVec.add_assoc]
  rw [shift]
  exact returns.2 (sfSpace + i) (Nat.add_lt_add_left inside sfSpace)

theorem deliver_before {i : Nat} (small : i < 16) : (s.deliver p sig mask oonstack sfp).mem (context sfp + BitVec.ofNat 32 i) =
    update (update s.mem (context sfp + BitVec.ofNat 32 scOnstack) oonstack)
      (context sfp + BitVec.ofNat 32 scMask) mask (context sfp + BitVec.ofNat 32 i) := by
  refine store_other fun r _ => slot_ne (by omega) (scRegister_le r) ?_
  unfold scRegister
  omega

theorem deliver_onstack : (s.deliver p sig mask oonstack sfp).mem (context sfp + BitVec.ofNat 32 scOnstack) = oonstack := by
  rw [deliver_before (by decide),update_of_ne (slot_ne (by decide) (by decide) (by decide)),update_self]

theorem deliver_mask : (s.deliver p sig mask oonstack sfp).mem (context sfp + BitVec.ofNat 32 scMask) = mask := by
  rw [deliver_before (by decide),update_self]

theorem deliver_register {r : Frame} (saved : r ≠ status) :
    (s.deliver p sig mask oonstack sfp).mem (context sfp + BitVec.ofNat 32 (scRegister r)) = s.regs r :=
  store_saved (fun _ member => member) (saves_all r saved)

theorem scRegister_lt {r : Frame} (saved : r ≠ status) : scRegister r < sizeofSigcontext := by
  cases r <;> first | exact absurd rfl saved | decide

end

theorem sigreturn_accepts {scp : Word} (here : context (u.regs sp) = scp) (first : baduaddr scp = false)
    (last : baduaddr (scp + BitVec.ofNat 32 sizeofSigcontext) = false) (even : aligned scp = true) :
    sigreturn u = .ok (u.restore scp) := by
  rw [sigreturn,here,if_neg (by simp [first,last]),if_neg (by simp [even])]

theorem restore_context {oonstack sfp : Word} (returns : Returns (s.deliver p sig mask oonstack sfp) u) :
    (∀ r, r ≠ status → (u.restore (context sfp)).regs r = s.regs r) ∧
    (u.restore (context sfp)).pSigmask = mask &&& ~~~sigcantmask ∧
    (u.restore (context sfp)).ssFlags =
    if oonstack &&& saOnstack ≠ 0 then u.ssFlags ||| saOnstack else u.ssFlags &&& ~~~saOnstack := by
  refine ⟨fun r saved => ?_,?_,?_⟩
  · refine (load_restored (restores_all r saved)).trans ?_
    rw [returns.context (scRegister_lt saved)]
    exact deliver_register saved
  · have there : u.mem (context sfp + BitVec.ofNat 32 scMask) = mask := (returns.context (by decide)).trans deliver_mask
    exact congrArg (· &&& ~~~sigcantmask) there
  · have there : u.mem (context sfp + BitVec.ofNat 32 scOnstack) = oonstack :=
      (returns.context (by decide)).trans deliver_onstack
    exact congrArg (fun onstack => if onstack &&& saOnstack ≠ 0 then u.ssFlags ||| saOnstack else u.ssFlags &&&
      ~~~saOnstack) there

theorem onstack_restored (flags old : Word) :
    (if old &&& saOnstack &&& saOnstack ≠ 0 then flags ||| saOnstack else flags &&& ~~~saOnstack) &&&
    saOnstack = old &&& saOnstack := by
  have bits : ∀ w : Word, w &&& saOnstack = if w.getLsbD 0 then saOnstack else 0 := by
    intro w
    apply BitVec.eq_of_getLsbD_eq
    intro i small
    cases bit : w.getLsbD 0 <;> by_cases first : i = 0 <;> simp_all [saOnstack]
  rw [BitVec.and_assoc,BitVec.and_self,bits old]
  cases old.getLsbD 0 with
  | true =>
    rw [if_pos (by decide),bits]
    simp [saOnstack]
  | false =>
    rw [if_neg (by decide),bits]
    simp [saOnstack]

theorem inside_addresses (inside : s.Inside sig) : baduaddr (context (s.sfp sig)) = false ∧
    (baduaddr (context (s.sfp sig) + BitVec.ofNat 32 sizeofSigcontext) = false ↔
    s.sfp sig + BitVec.ofNat 32 sizeofSigframe ≠ userDataEnd) := by
  obtain ⟨above,below⟩ := inside
  rw [baduaddr_false,baduaddr_false]
  simp only [context,sfSpace,sizeofSigframe,sizeofSigcontext,userDataStart,userDataEnd] at above below ⊢
  generalize s.sfp sig = sfp at above below ⊢
  constructor
  · bv_omega
  constructor
  · intro accepted same
    bv_omega
  intro other
  bv_omega

theorem aligned_iff (a : Word) : aligned a = true ↔ a.toNat % 4 = 0 := by
  rw [aligned,decide_eq_true_iff,← BitVec.toNat_inj,BitVec.toNat_and]
  exact Iff.of_eq (congrArg (· = 0) (Nat.and_two_pow_sub_one_eq_mod a.toNat 2))

theorem aligned_context (sfp : Word) : aligned (context sfp) = aligned sfp := by
  rw [Bool.eq_iff_iff,aligned_iff,aligned_iff,context,sfSpace]
  bv_omega

end

def Sound (sig : Nat) (mask : Mask) (s : State) : Prop :=
  aligned (s.sfp sig) = true ∧ s.sfp sig + BitVec.ofNat 32 sizeofSigframe ≠ userDataEnd ∧ mask &&& sigcantmask = 0

theorem without_cant : mask &&& ~~~sigcantmask = mask ↔ mask &&& sigcantmask = 0 := by
  constructor
  · intro same
    rw [← same,BitVec.and_assoc,BitVec.and_comm (~~~sigcantmask)]
    simp
  intro none
  have all : sigcantmask ||| ~~~sigcantmask = BitVec.allOnes 32 := by decide
  have parts : mask &&& (sigcantmask ||| ~~~sigcantmask) = mask := by rw [all,BitVec.and_allOnes]
  rw [BitVec.and_or_distrib_left,none] at parts
  exact BitVec.zero_or.symm.trans parts

theorem sigreturn_ok {u v : State} (ok : sigreturn u = .ok v) :
    baduaddr (context (u.regs sp) + BitVec.ofNat 32 sizeofSigcontext) = false ∧ v = u.restore (context (u.regs sp)) := by
  rw [sigreturn] at ok
  split_ifs at ok with bad odd
  cases ok
  simp only [not_or,Bool.not_eq_true] at bad
  exact ⟨bad.2,rfl⟩

theorem RoundTrip.sound (inside : s.Inside sig) (trip : RoundTrip p sig mask s)
    (untrashed : ¬ s.Trashed sig) : Sound sig mask s := by
  cases even : aligned (s.sfp sig) with
  | false =>
    have stopped := @sendsig_sound p sig mask s untrashed
    rw [if_pos (by simp [even])] at stopped
    rcases trip with killed | ⟨t,delivered,-⟩
    · cases stopped.symm.trans killed
    · cases stopped.symm.trans delivered
  | true =>
    have sent := @sendsig_sound p sig mask s untrashed
    rw [if_neg (by simp [even])] at sent
    rcases trip with killed | ⟨t,delivered,undone⟩
    · cases sent.symm.trans killed
    cases sent.symm.trans delivered
    obtain ⟨v,ok,restored⟩ := undone _ ⟨rfl,fun _ _ => rfl⟩
    obtain ⟨last,rfl⟩ := sigreturn_ok ok
    rw [deliver_sp] at last restored
    refine ⟨even,(inside_addresses inside).2.mp last,without_cant.mp ?_⟩
    exact (restore_context ⟨rfl,fun _ _ => rfl⟩).2.1.symm.trans restored.mask

theorem Sound.roundTrip (inside : s.Inside sig) (sound : Sound sig mask s) (untrashed : ¬ s.Trashed sig) :
    RoundTrip p sig mask s := by
  obtain ⟨even,fits,spares⟩ := sound
  obtain ⟨first,last⟩ := inside_addresses inside
  have sent := @sendsig_sound p sig mask s untrashed
  rw [if_neg (by simp [even])] at sent
  refine .inr ⟨_,sent,fun u returns => ?_⟩
  have here : context (u.regs sp) = context (s.sfp sig) := congrArg context (returns.1.trans deliver_sp)
  refine ⟨_,sigreturn_accepts here first (last.mpr fits) ((aligned_context _).trans even),?_⟩
  obtain ⟨regs,masked,flags⟩ := restore_context returns
  refine ⟨fun r saved => ?_,masked.trans (without_cant.mpr spares),?_⟩
  · rw [regs r saved,ready_kept.1]
  rw [flags]
  exact onstack_restored u.ssFlags s.ssFlags

/-- A frame in the user's memory is undone if and only if the process is killed for the place of it, or the
stack pointer is aligned, the frame does not end with the memory and the mask can be one of a process. -/
theorem roundTrip_iff (p : Word) (sig : Nat) (mask : Mask) (s : State) :
    (s.Inside sig → RoundTrip p sig mask s) ↔ (s.Inside sig → s.Trashed sig ∨ Sound sig mask s) := by
  constructor
  · intro trips inside
    by_cases trashed : s.Trashed sig
    · exact .inl trashed
    · exact .inr ((trips inside).sound inside trashed)
  intro sound inside
  by_cases trashed : s.Trashed sig
  · exact .inl (sendsig_trashed trashed)
  · exact ((sound inside).resolve_left trashed).roundTrip inside trashed

def fresh : State where
  regs r := if r = sp then userDataEnd else 0
  mem _ := 0
  sasAltstack := false
  ssBase := 0
  ssSize := 0
  ssFlags := 0
  uSigonstack := 0
  pSigmask := 0
  pDaddr := userDataStart
  uDsize := 4096
  pSsize := 2048
  pSaddr := userDataEnd - 2048
  uSsize := 2048
  uCode := 0
  uSigtramp := userDataStart

theorem fresh_lost : fresh.Inside 2 ∧ ¬ RoundTrip userDataStart 2 0 fresh := by
  have inside : fresh.Inside 2 := ⟨by decide,by decide⟩
  refine ⟨inside,fun trip => ?_⟩
  have untrashed : ¬ fresh.Trashed 2 := fun trashed => absurd trashed.2.2 (by decide)
  exact absurd (trip.sound inside untrashed).2.1 (by decide)

end Retrobsd.SignalFrames

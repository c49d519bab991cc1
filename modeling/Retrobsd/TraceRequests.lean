import Retrobsd.Tracing
import Retrobsd.TransferConfinement

/-! What `procxmt` accepts of a tracer: the words of the child that it reads and writes, and the signal that `issignal` looks
up afterwards. -/
namespace Retrobsd.TraceRequests
open Function (update update_eq_self update_of_ne update_self)
open Transfers (baduaddr baduaddr_false)
open Tracing Signals

/-- A word at an address of the child, or the word `i` of its user area. -/
inductive Site where
  | memory (addr : Tracing.Word)
  | area (i : Nat)

def ofMemory (req : Int) : Prop := req = ptReadI ∨ req = ptReadD ∨ req = ptWriteI ∨ req = ptWriteD

def ofSignal (req : Int) : Prop := req = ptStep ∨ req = ptContinue

instance (req : Int) : Decidable (ofMemory req) := instDecidableOr

instance (req : Int) : Decidable (ofSignal req) := instDecidableOr

def accessed (u : User) (r : Request) : Option Site :=
  if ofMemory r.req then if baduaddr r.addr then none else some (.memory r.addr)
  else if r.req = ptReadU then if r.addr.toInt < 0 ∨ r.addr.toInt ≥ usize then none else some (.area (r.addr.toNat / 4))
  else if r.req = ptWriteU then
    if u.uFrame ≤ r.addr.toNat / 4 ∧ r.addr.toNat / 4 < u.uFrame + frameWords then some (.area (r.addr.toNat / 4)) else none
  else none

/-- The numbers that `issignal` looks up after the stop: the signal itself, or the place of its bit when it is only put among
the signals that are pending. -/
def indexed {n : Nat} (q : Proc n) : List Int :=
  if q.pPtracesig = 0 then []
  else if q.pSigmask &&& maskOf q.pPtracesig ≠ 0 ∨ q.pTraced = false then [ffs (maskOf q.pPtracesig)]
  else [q.pPtracesig]

def Site.Allowed (u : User) (req : Int) : Site → Prop
  | .memory addr => addr.toNat % 4 = 0 ∧ ∀ k < 4, baduaddr (addr + BitVec.ofNat 32 k) = false
  | .area i => if req = ptWriteU then u.uFrame ≤ i ∧ i < u.uFrame + frameWords else 4 * i + 4 ≤ usize

def Valid (u : User) (r : Request) : Prop :=
  if ofMemory r.req then (Site.memory r.addr).Allowed u r.req
  else if r.req = ptReadU ∨ r.req = ptWriteU then (Site.area (r.addr.toNat / 4)).Allowed u r.req
  else if ofSignal r.req then 0 ≤ r.data.toInt ∧ r.data.toInt < nsig
  else r.req = ptKill

/-- The machine's addresses, with what stands around `sigprop`. -/
def machine (beyond : Int → Nat) : Config := ⟨baduaddr,beyond⟩

structure Validated {n : Nat} (beyond : Int → Nat) (q : Proc n) (r : Request) : Prop where
  words : ∀ site, accessed q.user r = some site → site.Allowed q.user r.req
  refused : ¬ Valid q.user r → carry (machine beyond) q.user r = .ok (.stays q.user none)
  signals : ∀ u sig data, carry (machine beyond) q.user r = .ok (.continues u sig data) →
    ∀ i ∈ indexed {q with user := u,pPtracesig := sig}, 0 ≤ i ∧ i < nsig

def Settled (u : User) (r : Request) : Prop :=
    (r.req = ptStep → u.area (u.uFrame + frameStatus) ||| stRp = u.area (u.uFrame + frameStatus)) ∧
    (r.addr ≠ 1 → u.area (u.uFrame + framePc) = r.addr)

/-- A user address is aligned. A signal has a number below `NSIG`, or is above it and nothing is left to be set. -/
def Sane (u : User) (r : Request) : Prop := (ofMemory r.req → baduaddr r.addr = false → r.addr.toNat % 4 = 0) ∧
    (ofSignal r.req → 0 ≤ r.data.toInt ∧ r.data.toInt < nsig ∨ r.data.toInt > nsig ∧ Settled u r)

section
variable {n : Nat} {beyond : Int → Nat} {u : User} {r : Request} {q : Proc n}

theorem aligned_allowed {addr : Tracing.Word} (aligned : addr.toNat % 4 = 0) (user : baduaddr addr = false) (req : Int) :
    (Site.memory addr).Allowed u req := by
  refine ⟨aligned,fun k few => ?_⟩
  rw [baduaddr_false] at user ⊢
  rw [BitVec.toNat_add,BitVec.toNat_ofNat]
  omega

theorem carry_accessed (beyond : Int → Nat) (u : User) (words : ofMemory r.req ∨ r.req = ptReadU ∨ r.req = ptWriteU) :
    match accessed u r with
    | none => carry (machine beyond) u r = .ok (.stays u none)
    | some (.memory addr) => if addr.toNat % 4 ≠ 0 then ∃ e, carry (machine beyond) u r = .error e
      else if r.req = ptWriteI ∨ r.req = ptWriteD then
        carry (machine beyond) u r = .ok (.stays {u with memory := update u.memory addr r.data} (some r.data))
      else carry (machine beyond) u r = .ok (.stays u (some (u.memory addr)))
    | some (.area i) => if r.req = ptWriteU then
        carry (machine beyond) u r = .ok (.stays {u with area := update u.area i r.data} (some r.data))
      else carry (machine beyond) u r = .ok (.stays u (some (u.area i))) := by
  have user : (machine beyond).baduaddr = baduaddr := rfl
  rcases words with memory | read | write
  · by_cases bad : baduaddr r.addr = true <;> by_cases aligned :
      r.addr.toNat % 4 = 0 <;> rcases memory with same | same | same | same <;>
      simp [accessed,carry,ofMemory,user,same,bad,aligned,ptReadI,ptReadD,ptReadU,ptWriteI,ptWriteD]
  · by_cases outside : r.addr.toInt < 0 ∨ r.addr.toInt ≥ usize <;>
      simp [accessed,carry,ofMemory,read,outside,ptReadI,ptReadD,ptReadU,ptWriteI,ptWriteD,ptWriteU]
  · by_cases frame : u.uFrame ≤ r.addr.toNat / 4 ∧ r.addr.toNat / 4 < u.uFrame + frameWords <;>
      simp [accessed,carry,ofMemory,write,frame,ptReadI,ptReadD,ptReadU,ptWriteI,ptWriteD,ptWriteU]

theorem indexed_small (low : 0 ≤ q.pPtracesig) (high : q.pPtracesig < nsig) : ∀ i ∈ indexed q, 0 ≤ i ∧ i < nsig := by
  have places : ∀ sig : Nat, sig < 32 → sig ≠ 0 → ffs (maskOf sig) < 32 := by decide +kernel
  have few : (nsig : Int) = 32 := rfl
  obtain ⟨sig,same⟩ := Int.eq_ofNat_of_zero_le low
  intro i member
  rw [indexed] at member
  split_ifs at member with none held
  · cases member
  · have place := places sig (by omega) (by omega)
    rw [List.mem_singleton.mp member,same]
    omega
  · rw [List.mem_singleton.mp member]
    exact ⟨low,high⟩

def User.entered (u : User) (r : Request) : User :=
  let u := if r.req = ptStep then u.setRegister frameStatus (u.area (u.uFrame + frameStatus) ||| stRp) else u
  if r.addr ≠ 1 then u.setRegister framePc r.addr else u

theorem carry_signal (signal : ofSignal r.req) :
    carry (machine beyond) u r = .ok (if r.data.toInt > nsig then .stays (User.entered u r) none
      else .continues (User.entered u r) (r.data.setWidth 8).toInt r.data) := by
  rcases signal with step | continue_
  · simp [carry,User.resume,User.entered,step,ptStep,ptReadI,ptReadD,ptReadU,ptWriteI,ptWriteD,ptWriteU,apply_ite Except.ok]
  simp [carry,User.resume,User.entered,continue_,ptStep,ptContinue,ptReadI,ptReadD,ptReadU,ptWriteI,ptWriteD,
    ptWriteU,apply_ite Except.ok]

theorem entered_status (step : r.req = ptStep) :
    (User.entered u r).area (u.uFrame + frameStatus) = u.area (u.uFrame + frameStatus) ||| stRp := by
  have apart : u.uFrame + frameStatus ≠ u.uFrame + framePc := by
    rw [frameStatus,framePc]
    omega
  rw [User.entered,if_pos step]
  split
  · exact (update_of_ne apart _ _).trans (update_self _ _ _)
  · exact update_self _ _ _

theorem entered_pc (elsewhere : r.addr ≠ 1) : (User.entered u r).area (u.uFrame + framePc) = r.addr := by
  rw [User.entered,if_pos elsewhere]
  split <;> exact update_self _ _ _

theorem entered_settled : User.entered u r = u ↔ Settled u r := by
  constructor
  · intro same
    have area := congrArg User.area same
    refine ⟨fun step => ?_,fun elsewhere => ?_⟩
    · rw [← entered_status step,area]
    · rw [← entered_pc elsewhere,area]
  rintro ⟨status,pc⟩
  have first : (if r.req = ptStep then u.setRegister frameStatus (u.area (u.uFrame + frameStatus) ||| stRp) else u) = u := by
    split
    · next step => rw [User.setRegister,status step,update_eq_self]
    · rfl
  rw [User.entered,first]
  split
  · next elsewhere => rw [User.setRegister,← pc elsewhere,update_eq_self]
  · rfl

theorem signal_apart (signal : ofSignal r.req) : ¬ ofMemory r.req ∧ ¬ (r.req = ptReadU ∨ r.req = ptWriteU) := by
  rcases signal with step | continue_
  · rw [step]
    decide
  rw [continue_]
  decide

theorem valid_signal (signal : ofSignal r.req) : Valid u r ↔ 0 ≤ r.data.toInt ∧ r.data.toInt < nsig := by
  obtain ⟨memory,area⟩ := signal_apart signal
  rw [Valid,if_neg memory,if_neg area,if_pos signal]

theorem accessed_valid {site : Site} (found : accessed u r = some site) (allowed : site.Allowed u r.req) : Valid u r := by
  rw [accessed] at found
  rw [Valid]
  split_ifs at found with memory bad read outside write frame
  · obtain rfl := Option.some.inj found
    rw [if_pos memory]
    exact allowed
  · obtain rfl := Option.some.inj found
    rw [if_neg memory,if_pos (.inl read)]
    exact allowed
  · obtain rfl := Option.some.inj found
    rw [if_neg memory,if_pos (.inr write)]
    exact allowed

theorem accessed_allowed (aligned : ofMemory r.req → baduaddr r.addr = false → r.addr.toNat % 4 = 0) {site : Site}
    (found : accessed u r = some site) : site.Allowed u r.req := by
  rw [accessed] at found
  split_ifs at found with memory bad read outside write frame
  · rw [← Option.some.inj found]
    rw [Bool.not_eq_true] at bad
    exact aligned_allowed (aligned memory bad) bad _
  · rw [← Option.some.inj found,Site.Allowed,read,if_neg (by decide)]
    rw [usize] at outside ⊢
    have address := r.addr.isLt
    rw [BitVec.toInt_eq_toNat_cond] at outside
    split_ifs at outside <;> omega
  · rw [← Option.some.inj found,Site.Allowed,if_pos write]
    exact frame

theorem carry_other (words : ¬ (ofMemory r.req ∨ r.req = ptReadU ∨ r.req = ptWriteU)) (signal : ¬ ofSignal r.req) :
    carry (machine beyond) u r = .ok (if r.req = ptKill then .exits r.data else .stays u none) := by
  simp only [ofMemory,ofSignal,not_or] at words signal
  obtain ⟨⟨readI,readD,writeI,writeD⟩,readU,writeU⟩ := words
  rw [carry,if_neg (not_or.mpr ⟨readI,readD⟩),if_neg readU,if_neg (not_or.mpr ⟨writeI,writeD⟩),if_neg writeU,
    if_neg signal.1,if_neg signal.2]
  split <;> rfl

theorem continues_signal {u' : User} {sig : Int} {data : Tracing.Word}
    (ran : carry (machine beyond) u r = .ok (.continues u' sig data)) :
    ofSignal r.req := by
  by_contra signal
  by_cases words : ofMemory r.req ∨ r.req = ptReadU ∨ r.req = ptWriteU
  · have did := carry_accessed beyond u words
    rw [ran] at did
    split at did
    · cases did
    · split_ifs at did
      · obtain ⟨e,failed⟩ := did
        cases failed
      · cases did
      · cases did
    · split_ifs at did <;> cases did
  · rw [carry_other words signal] at ran
    split at ran <;> cases ran

theorem signal_low {data : Tracing.Word} (low : 0 ≤ data.toInt) (high : data.toInt < nsig) :
    (data.setWidth 8).toInt = data.toInt := by
  rw [nsig] at high
  rw [BitVec.toInt_eq_toNat_cond] at low high ⊢
  have small := data.isLt
  split_ifs at low high with half
  · rw [BitVec.toInt_eq_toNat_cond,BitVec.toNat_setWidth,if_pos half]
    split_ifs <;> omega
  · omega

end

/-- `procxmt` answers `EIO` to what a tracer may not ask for, leaves the child as it is then, and accesses and
passes on nothing else, if and only if the address is aligned or not one of the user, and the signal is below
`NSIG` or is above it with the registers already set. -/
theorem requests_validated_iff {n : Nat} (beyond : Int → Nat) (q : Proc n) (r : Request) :
    Validated beyond q r ↔ Sane q.user r := by
  constructor
  · intro validated
    refine ⟨fun memory user => ?_,fun signal => ?_⟩
    · have site : accessed q.user r = some (.memory r.addr) := by rw [accessed,if_pos memory,user]; rfl
      exact (validated.words _ site).1
    rw [or_iff_not_imp_left]
    intro invalid
    have refused := validated.refused (mt (valid_signal signal).mp invalid)
    rw [carry_signal signal] at refused
    split at refused
    · next large => exact ⟨large,entered_settled.mp (Outcome.stays.inj (Except.ok.inj refused)).1⟩
    · cases Except.ok.inj refused
  rintro ⟨aligned,sane⟩
  refine ⟨fun site found => accessed_allowed aligned found,fun invalid => ?_,fun u sig data ran => ?_⟩
  · by_cases signal : ofSignal r.req
    · obtain ⟨large,settled⟩ := (sane signal).resolve_left (mt (valid_signal signal).mpr invalid)
      rw [carry_signal signal,if_pos large,entered_settled.mpr settled]
    by_cases words : ofMemory r.req ∨ r.req = ptReadU ∨ r.req = ptWriteU
    · have did := carry_accessed beyond q.user words
      cases found : accessed q.user r with
      | none =>
        rw [found] at did
        exact did
      | some site => exact absurd (accessed_valid found (accessed_allowed aligned found)) invalid
    have kill : r.req ≠ ptKill := by
      intro kill
      obtain ⟨memory,area⟩ := not_or.mp words
      rw [Valid,if_neg memory,if_neg area,if_neg signal] at invalid
      exact invalid kill
    rw [carry_other words signal,if_neg kill]
  · have signal := continues_signal ran
    rw [carry_signal signal] at ran
    split at ran
    · cases Except.ok.inj ran
    next small =>
    obtain ⟨low,high⟩ := (sane signal).resolve_right fun large => small large.1
    obtain ⟨_,same,_⟩ := Outcome.continues.inj (Except.ok.inj ran)
    rw [signal_low low high] at same
    exact indexed_small (same ▸ low) (same ▸ high)

def traced : Proc 1 := ⟨.stop,true,false,false,false,false,7,1,0,0,0,0,0,none,5,fun _ =>
    0,⟨fun _ => 0,fun _ => 0,700⟩,.traced .trap⟩

/-- A word at an odd address, a step with the signal 33 and the signal 32 to go on with. -/
theorem requests_unchecked : ¬ Validated (fun _ => 0) traced ⟨ptReadD,0x7f008001,0⟩ ∧
    ¬ Validated (fun _ => 0) traced ⟨ptStep,1,33⟩ ∧ ¬ Validated (fun _ => 0) traced ⟨ptContinue,1,32⟩ := by
  refine ⟨fun validated => ?_,fun validated => ?_,fun validated => ?_⟩
  · exact absurd (validated.words (.memory 0x7f008001) rfl).1 (by decide)
  · have refused := validated.refused fun valid => absurd ((valid_signal (.inl rfl)).mp valid).2 (by decide)
    have area := congrFun (congrArg User.area (Outcome.stays.inj (Except.ok.inj refused)).1) 731
    exact absurd area (by decide)
  · have index := validated.signals _ 32 _ rfl 32 (by decide)
    exact absurd index.2 (by decide)

end Retrobsd.TraceRequests

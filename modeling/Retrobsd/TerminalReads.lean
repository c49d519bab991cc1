import Retrobsd.Terminals
import Retrobsd.TransferStreams

/-! `ttread`: what it takes from the queues of a terminal, and what it gives to the user. Whenever the call starts
over it finds the terminal as the rest of the system has left it. -/
namespace Retrobsd.TerminalReads
open Transfers Terminals List

def eio : Nat := 5

def ewouldblock : Nat := 35

/-- What the call finds when it starts over, after `ttypend`. `refuses` is a process that ignores or holds
`SIGTTIN` or is a `vfork` child, `idle` an empty queue, `input` the bytes that `getc` gives until it finds the
queue empty, and `closed` an open terminal without a carrier. -/
structure Visit where
  background : Bool
  refuses : Bool
  flags : Flags
  chars : Ttychars
  idle : Bool
  input : List UInt8
  closed : Bool

structure Call where
  uio : Uio
  taken : List (Visit × UInt8)
  given : List (Word × UInt8)

inductive Outcome where
  | returned (errno : Nat)
  | sleeping
deriving DecidableEq

def Visit.mapped (v : Visit) (c : UInt8) : UInt8 := if v.flags.crmod ∧ c = carriageReturn then newline else c

def Visit.suspends (v : Visit) (c : UInt8) : Bool := cceq v.chars.dsuspc (v.mapped c)

def Visit.ends (v : Visit) (c : UInt8) : Bool := cceq v.chars.eofc (v.mapped c) && !v.flags.cbreak

def Visit.byte (v : Visit) (c : UInt8) : UInt8 :=
  if v.flags.raw then c else if v.flags.pass8 then v.mapped c else v.mapped c &&& 127

def deliver (c : UInt8) (s : Call) : Except Panic Call := do
  let uio ← ureadc s.uio
  return {s with uio,given := s.given ++ (between s.uio uio).map fun addr => (addr,c)}

def take (v : Visit) (c : UInt8) (s : Call) : Call := {s with taken := s.taken ++ [(v,c)]}

def rawLoop (v : Visit) : List UInt8 → Call → Except Panic Call
  | [],s => .ok s
  | c :: input,s => if s.uio.uioResid = 0 then .ok s else do rawLoop v input (← deliver (v.byte c) (take v c s))

/-- The loop of the other modes. `first` is the first character after a start. -/
def cookedLoop (v : Visit) : Bool → List UInt8 → Call → Except Panic (Call × Outcome)
  | _,[],s => .ok (s,.returned 0)
  | first,c :: input,s =>
    let s := take v c s
    if v.suspends c then .ok (s,if first then .sleeping else .returned 0)
    else if v.ends c then .ok (s,.returned 0)
    else do
      let s ← deliver (v.byte c) s
      if s.uio.uioResid = 0 then return (s,.returned 0)
      else if !v.flags.cbreak && ttbreakc v.flags v.chars (v.mapped c) then return (s,.returned 0)
      else cookedLoop v false input s

def visit (ndelay : Bool) (v : Visit) (s : Call) : Except Panic (Call × Outcome) :=
  if v.background then .ok (s,if v.refuses then .returned eio else .sleeping)
  else if v.idle then .ok (s,if v.closed then .returned 0 else if ndelay then .returned ewouldblock else .sleeping)
  else if v.flags.raw then (rawLoop v v.input s).map fun s => (s,.returned 0)
  else cookedLoop v true v.input s

def ttread (ndelay : Bool) : List Visit → Call → Except Panic (Call × Outcome)
  | [],s => .ok (s,.sleeping)
  | v :: visits,s => do
    match ← visit ndelay v s with
    | (s,.sleeping) => ttread ndelay visits s
    | (s,.returned errno) => return (s,.returned errno)

/-- What is to become of a byte that is taken. An end of file and a delayed suspend character are not delivered. -/
def Visit.delivered (v : Visit) (c : UInt8) : Option UInt8 :=
  if !v.flags.raw && (v.suspends c || v.ends c) then none else some (v.byte c)

structure Delivered (uio : Uio) (s : Call) : Prop where
  bytes : s.given.map Prod.snd = s.taken.filterMap fun t => t.1.delivered t.2
  places : s.given.map Prod.fst = uio.stream.take s.given.length
  rest : s.uio.stream = uio.stream.drop s.given.length

def Reads (ndelay : Bool) (visits : List Visit) (uio : Uio) : Prop :=
  ∃ s outcome, ttread ndelay visits ⟨uio,[],[]⟩ = .ok (s,outcome) ∧ Delivered uio s

def Visit.trips (v : Visit) : Bool := !v.background && !v.idle && !v.flags.raw &&
    match v.input with
    | [] => false
    | c :: _ => !v.suspends c && !v.ends c

def Visit.sleeps (ndelay : Bool) (v : Visit) : Bool :=
  if v.background then !v.refuses
  else if v.idle then !v.closed && !ndelay
  else !v.flags.raw &&
    match v.input with
    | [] => false
    | c :: _ => v.suspends c

def Quiet (ndelay : Bool) : List Visit → Prop
  | [] => True
  | v :: visits => v.trips = false ∧ (v.sleeps ndelay = true → Quiet ndelay visits)

section
variable {ndelay : Bool} {v : Visit} {c : UInt8} {uio : Uio} {s : Call}

structure Sound (uio : Uio) (s : Call) : Prop where
  delivered : Delivered uio s
  covers : s.uio.Covers

theorem sound_start (covers : uio.Covers) : Sound uio ⟨uio,[],[]⟩ := ⟨⟨rfl,rfl,rfl⟩,covers⟩

theorem Sound.drops (sound : Sound uio s) (kept : v.delivered c = none) : Sound uio (take v c s) := by
  refine ⟨⟨?_,sound.delivered.places,sound.delivered.rest⟩,sound.covers⟩
  rw [take,filterMap_append,← sound.delivered.bytes]
  simp [kept]

theorem Sound.gives (sound : Sound uio s) (room : s.uio.uioResid ≠ 0) (given : v.delivered c = some (v.byte c)) :
    ∃ s', deliver (v.byte c) (take v c s) = .ok s' ∧ Sound uio s' := by
  obtain ⟨t,ran,step⟩ := ureadc_took sound.covers room
  have long := sound.covers.length
  have some : s.uio.stream ≠ [] := by
    intro empty
    rw [empty] at long
    exact room (BitVec.eq_of_toNat_eq (Nat.le_zero.mp long))
  obtain ⟨addr,rest,stream⟩ := exists_cons_of_ne_nil some
  have place : between s.uio t = [addr] := by
    rw [between_took step,stream]
    rfl
  refine ⟨{take v c s with uio := t,given := s.given ++ [(addr,v.byte c)]},?_,⟨?_,?_,?_⟩,step.covers⟩
  · simp [deliver,take,ran,place,bind,Except.bind,pure,Except.pure]
  · change (s.given ++ [(addr,v.byte c)]).map Prod.snd = (s.taken ++ [(v,c)]).filterMap _
    rw [map_append,sound.delivered.bytes,filterMap_append]
    simp [given]
  · change (s.given ++ [(addr,v.byte c)]).map Prod.fst = uio.stream.take (s.given ++ [(addr,v.byte c)]).length
    rw [map_append,sound.delivered.places,length_append,length_singleton,take_add,← sound.delivered.rest,stream]
    rfl
  · change t.stream = uio.stream.drop (s.given ++ [(addr,v.byte c)]).length
    rw [step.stream,sound.delivered.rest,drop_drop,length_append]
    rfl

theorem delivered_raw (raw : v.flags.raw = true) : v.delivered c = some (v.byte c) := by
  rw [Visit.delivered,raw]
  rfl

theorem delivered_cooked (suspends : v.suspends c = false) (ends : v.ends c = false) : v.delivered c = some (v.byte c) := by
  rw [Visit.delivered,suspends,ends,Bool.or_self,Bool.and_false]
  rfl

theorem dropped_cooked (cooked : v.flags.raw = false) (special : v.suspends c = true ∨ v.ends c = true) :
    v.delivered c = none := by
  rw [Visit.delivered,cooked]
  rcases special with suspends | ends
  · rw [suspends]
    rfl
  rw [ends,Bool.or_true]
  rfl

theorem rawLoop_reads (raw : v.flags.raw = true) (input : List UInt8) (sound : Sound uio s) :
    ∃ s', rawLoop v input s = .ok s' ∧ Sound uio s' := by
  induction input generalizing s with
  | nil => exact ⟨s,rfl,sound⟩
  | cons c input ih =>
    rw [rawLoop]
    by_cases full : s.uio.uioResid = 0
    · rw [if_pos full]
      exact ⟨s,rfl,sound⟩
    obtain ⟨s₁,ran,next⟩ := sound.gives (v := v) full (delivered_raw raw)
    rw [if_neg full,ran]
    exact ih next

theorem cookedLoop_reads (cooked : v.flags.raw = false) (first : Bool) (input : List UInt8) (sound : Sound uio s)
    (room : s.uio.uioResid ≠ 0) :
    ∃ s' outcome, cookedLoop v first input s = .ok (s',outcome) ∧ Sound uio s' ∧
    (outcome = .sleeping → first = true ∧ s'.uio = s.uio) := by
  induction input generalizing s first with
  | nil => exact ⟨s,_,rfl,sound,nofun⟩
  | cons c input ih =>
    rw [cookedLoop]
    cases suspends : v.suspends c with
    | true =>
      refine ⟨_,_,rfl,sound.drops (dropped_cooked cooked (.inl suspends)),fun sleeps => ⟨?_,rfl⟩⟩
      cases first with
      | true => rfl
      | false => cases sleeps
    | false =>
      cases ends : v.ends c with
      | true => exact ⟨_,_,rfl,sound.drops (dropped_cooked cooked (.inr ends)),nofun⟩
      | false =>
        obtain ⟨s₁,ran,next⟩ := sound.gives room (delivered_cooked suspends ends)
        simp only [ran,bind,Except.bind,pure,Except.pure,Bool.false_eq_true,if_false]
        by_cases full : s₁.uio.uioResid = 0
        · rw [if_pos full]
          exact ⟨s₁,_,rfl,next,nofun⟩
        rw [if_neg full]
        by_cases line : (!v.flags.cbreak && ttbreakc v.flags v.chars (v.mapped c)) = true
        · rw [if_pos line]
          exact ⟨s₁,_,rfl,next,nofun⟩
        rw [if_neg line]
        obtain ⟨s',outcome,looped,last,asleep⟩ := ih false next full
        exact ⟨s',outcome,looped,last,fun sleeps => absurd (asleep sleeps).1 Bool.false_ne_true⟩

theorem visit_reads (ndelay : Bool) (v : Visit) (sound : Sound uio s) (room : s.uio.uioResid ≠ 0) :
    ∃ s' outcome, visit ndelay v s = .ok (s',outcome) ∧ Sound uio s' ∧ (outcome = .sleeping → s'.uio = s.uio) := by
  rw [visit]
  cases v.background with
  | true => exact ⟨s,_,rfl,sound,fun _ => rfl⟩
  | false =>
    cases v.idle with
    | true => exact ⟨s,_,rfl,sound,fun _ => rfl⟩
    | false =>
      cases raw : v.flags.raw with
      | true =>
        obtain ⟨s',ran,last⟩ := rawLoop_reads raw v.input sound
        simp only [ran,Except.map,Bool.false_eq_true,if_false,if_true]
        exact ⟨s',_,rfl,last,nofun⟩
      | false =>
        obtain ⟨s',outcome,ran,last,asleep⟩ := cookedLoop_reads raw true v.input sound room
        exact ⟨s',outcome,ran,last,fun sleeps => (asleep sleeps).2⟩

theorem ttread_reads (ndelay : Bool) (visits : List Visit) (sound : Sound uio s) (room : s.uio.uioResid ≠ 0) :
    ∃ s' outcome, ttread ndelay visits s = .ok (s',outcome) ∧ Sound uio s' := by
  induction visits generalizing s with
  | nil => exact ⟨s,_,rfl,sound⟩
  | cons v visits ih =>
    obtain ⟨s₁,outcome,ran,next,asleep⟩ := visit_reads ndelay v sound room
    rw [ttread,ran]
    cases outcome with
    | returned errno => exact ⟨s₁,_,rfl,next⟩
    | sleeping => exact ih next ((congrArg Uio.uioResid (asleep rfl)).trans_ne room)

theorem visit_empty (ndelay : Bool) (v : Visit) (sound : Sound uio s) (none : s.uio.uioResid = 0) :
    if v.trips then ∃ e, visit ndelay v s = .error e
    else ∃ s' outcome, visit ndelay v s = .ok (s',outcome) ∧ Sound uio s' ∧ s'.uio.uioResid = 0 ∧
      (outcome = .sleeping ↔ v.sleeps ndelay = true) := by
  rw [visit,Visit.trips,Visit.sleeps]
  cases v.background with
  | true =>
    refine ⟨s,_,rfl,sound,none,?_⟩
    cases v.refuses <;> simp
  | false =>
    cases v.idle with
    | true =>
      refine ⟨s,_,rfl,sound,none,?_⟩
      cases v.closed <;> cases ndelay <;> simp
    | false =>
      cases raw : v.flags.raw with
      | true =>
        have stays : rawLoop v v.input s = .ok s := by
          cases v.input with
          | nil => rfl
          | cons c input => rw [rawLoop,if_pos none]
        simp only [stays,Except.map,Bool.false_eq_true,if_false,if_true]
        exact ⟨s,_,rfl,sound,none,by simp⟩
      | false =>
        cases v.input with
        | nil => exact ⟨s,_,rfl,sound,none,by simp⟩
        | cons c input =>
          simp only [cookedLoop,Bool.false_eq_true,if_false]
          cases suspends : v.suspends c with
          | true => exact ⟨_,_,rfl,sound.drops (dropped_cooked raw (.inl suspends)),none,by simp⟩
          | false =>
            cases ends : v.ends c with
            | true => exact ⟨_,_,rfl,sound.drops (dropped_cooked raw (.inr ends)),none,by simp⟩
            | false =>
              have panics : deliver (v.byte c) (take v c s) = .error .ureadc := by
                have ran : ureadc (take v c s).uio = .error .ureadc := ureadc_none none
                rw [deliver,ran]
                rfl
              rw [panics]
              exact ⟨_,rfl⟩

theorem ttread_empty (ndelay : Bool) (visits : List Visit) (sound : Sound uio s) (none : s.uio.uioResid = 0) :
    (Quiet ndelay visits → ∃ s' outcome, ttread ndelay visits s = .ok (s',outcome) ∧ Sound uio s') ∧
      (¬ Quiet ndelay visits → ∃ e, ttread ndelay visits s = .error e) := by
  induction visits generalizing s with
  | nil => exact ⟨fun _ => ⟨s,_,rfl,sound⟩,fun loud => absurd trivial loud⟩
  | cons v visits ih =>
    have ended := visit_empty ndelay v sound none
    rw [ttread,Quiet]
    cases trips : v.trips with
    | true =>
      rw [trips,if_pos rfl] at ended
      obtain ⟨e,failed⟩ := ended
      rw [failed]
      exact ⟨fun quiet => absurd quiet.1 Bool.noConfusion,fun _ => ⟨e,rfl⟩⟩
    | false =>
      rw [trips,if_neg Bool.false_ne_true] at ended
      obtain ⟨s₁,outcome,ran,next,left,asleep⟩ := ended
      rw [ran,eq_self_iff_true,true_and]
      cases outcome with
      | sleeping =>
        rw [imp_iff_right (asleep.mp rfl)]
        exact ih next left
      | returned errno =>
        exact ⟨fun _ => ⟨s₁,_,rfl,next⟩,fun loud => absurd (fun sleeps => nomatch asleep.mpr sleeps) loud⟩

end

/-- A read ends without the panic, and with all that it took delivered, if and only if it is for something or finds
nothing to deliver. -/
theorem terminal_reads_iff (ndelay : Bool) (visits : List Visit) (uio : Uio) (covers : uio.Covers) :
    Reads ndelay visits uio ↔ uio.uioResid ≠ 0 ∨ Quiet ndelay visits := by
  have sound := sound_start covers
  by_cases none : uio.uioResid = 0
  · obtain ⟨quiet,loud⟩ := ttread_empty ndelay visits sound none
    rw [or_iff_right (not_not.mpr none)]
    constructor
    · rintro ⟨s,outcome,ran,_⟩
      by_contra trips
      obtain ⟨e,failed⟩ := loud trips
      rw [failed] at ran
      cases ran
    · intro still
      obtain ⟨s,outcome,ran,last⟩ := quiet still
      exact ⟨s,outcome,ran,last.delivered⟩
  · obtain ⟨s,outcome,ran,last⟩ := ttread_reads ndelay visits sound none
    exact iff_of_true ⟨s,outcome,ran,last.delivered⟩ (.inl none)

def cbreakFlags : Flags := ⟨false,true,false,false,false,false,false,false,false,false,false⟩

def defaultChars : Ttychars := ⟨127,21,3,28,17,19,4,255,26,25,18,15,23,22⟩

/-- A character that waits for a read of four bytes. -/
theorem terminal_reads_four : Reads false [⟨false,false,cbreakFlags,defaultChars,false,[97],false⟩] ⟨[⟨4096,4⟩],0,4,.read,[]⟩ :=
  (terminal_reads_iff _ _ _ (by exact Nat.le_refl 4)).mpr (.inl (by decide))

/-- A read of no bytes with a character that waits. -/
theorem empty_read_panics : ¬ Reads false [⟨false,false,cbreakFlags,defaultChars,false,[97],false⟩]
    ⟨[⟨4096,0⟩],0,0,.read,[]⟩ := by
  rintro ⟨s,outcome,ran,_⟩
  have panics : Lib.Run.fault (ttread false [⟨false,false,cbreakFlags,defaultChars,false,[97],false⟩]
      ⟨⟨[⟨4096,0⟩],0,0,.read,[]⟩,[],[]⟩) = some .ureadc := by decide
  rw [Lib.Run.of_fault panics] at ran
  cases ran

end Retrobsd.TerminalReads

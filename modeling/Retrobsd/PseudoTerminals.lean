import Retrobsd.TerminalReads
import Retrobsd.TerminalWrites

/-! The controller and the slave of a pseudo-terminal. A write of the controller goes step by step: between any two steps
the slave may take from its queues, and a signal may come. -/
namespace Retrobsd.PseudoTerminals
open Transfers Lib.Run List
open TerminalReads (Outcome eio ewouldblock)
open TerminalWrites (written)

def bufsiz : Nat := 100

def ttyhog : Nat := 255

/-- What the rest of the system does to the terminal before a step. -/
structure Answer where
  isopen : Bool
  carrier : Bool
  rawq : Nat
  canq : Nat
  raw : Bool
  cbreak : Bool
  interrupted : Bool

def Answer.full (a : Answer) : Bool := decide (a.rawq + a.canq ≥ ttyhog - 2) && (decide (a.canq > 0) || a.raw || a.cbreak)

/-- Where `ptcwrite` is. `written` is what the system call returns, without an error. -/
inductive Pc where
  | again
  | loop
  | chunk
  | block
  | asleep
  | ended (written : Option Nat)
deriving DecidableEq

/-- `chunk` are the `cc` bytes at `cp`, `given` the bytes that `ttyinput` was called with, `cnt` of them. -/
structure Call where
  pc : Pc
  uio : Uio
  chunk : List UInt8
  given : List UInt8

def giveBack (s : Call) : Uio := {s.uio with uioResid := s.uio.uioResid + BitVec.ofNat 32 s.chunk.length}

/-- A step of `ptcwrite` in ordinary mode, for a request of `count` bytes. -/
def step (memory : Word → UInt8) (ndelay : Bool) (count : Word) (s : Call) (a : Answer) : Except Panic Call :=
  match s.pc with
  | .ended _ => .ok s
  | .again => .ok {s with pc := if a.isopen then .loop else .block}
  | .loop =>
    if s.uio.uioResid = 0 then .ok {s with pc := .ended (written count s.uio)}
    else if s.chunk = [] then do
      let cc := if s.uio.uioResid < BitVec.ofNat 32 bufsiz then s.uio.uioResid else BitVec.ofNat 32 bufsiz
      let uio ← uiomove cc s.uio
      return {s with uio,chunk := (between s.uio uio).map memory,pc := if a.isopen then .chunk else .ended none}
    else .ok {s with pc := .chunk}
  | .chunk => match s.chunk with
    | [] => .ok {s with pc := .loop}
    | c :: rest => if a.full then .ok {s with pc := .block} else .ok {s with chunk := rest,given := s.given ++ [c]}
  | .block =>
    if !a.carrier then .ok {s with pc := .ended none}
    else if ndelay then
      .ok {s with uio := giveBack s,pc := .ended (if s.given = [] then none else written count (giveBack s))}
    else .ok {s with pc := .asleep}
  | .asleep =>
    if a.interrupted then .ok {s with pc := .ended (if s.uio.uioResid = count then none else written count s.uio)}
    else .ok {s with pc := .again}

structure Write where
  memory : Word → UInt8
  ndelay : Bool
  uio : Uio
  answers : List Answer

def Write.step (w : Write) : Call → Answer → Except Panic Call := PseudoTerminals.step w.memory w.ndelay w.uio.uioResid

def Write.called (w : Write) : Call := ⟨.again,w.uio,[],[]⟩

def Write.data (w : Write) : List UInt8 := (w.uio.stream.take w.uio.uioResid.toNat).map w.memory

/-- The terminal has the first bytes of the user, and no more than the call reports when it ends. -/
structure Faithful (data : List UInt8) (s : Call) : Prop where
  order : s.given <+: data
  counted : ∀ n, s.pc = .ended n → s.given.length = n.getD 0

/-- The end of the request finds no bytes that wait in the buffer, nor does a signal, and an error no byte given. -/
def Clean (s : Call) (a : Answer) : Prop :=
  match s.pc with
  | .loop => s.uio.uioResid = 0 → s.chunk = []
  | .asleep => a.interrupted = true → s.chunk = []
  | .block => a.carrier = false → s.given = []
  | _ => True

/-- What a read of the controller finds when it starts over. `outq` are the characters that `q_to_b` gives until it finds
the queue empty. -/
structure Look where
  isopen : Bool
  carrier : Bool
  ttstop : Bool
  pkt : Bool
  ucntl : Bool
  ptSend : UInt8
  ptUcntl : UInt8
  outq : List UInt8

structure Reading where
  uio : Uio
  given : List (Word × UInt8)

def deliver (c : UInt8) (r : Reading) : Except Panic Reading := do
  let uio ← ureadc r.uio
  return ⟨uio,r.given ++ (between r.uio uio).map fun addr => (addr,c)⟩

def drain (outq : List UInt8) (r : Reading) : Except Panic Reading :=
  if r.uio.uioResid = 0 then .ok r
  else
    let buf := outq.take (min r.uio.uioResid.toNat bufsiz)
    if buf = [] then .ok r
    else do
      let uio ← uiomove (BitVec.ofNat 32 buf.length) r.uio
      drain (outq.drop (min r.uio.uioResid.toNat bufsiz)) ⟨uio,r.given ++ (between r.uio uio).zip buf⟩
termination_by outq.length
decreasing_by
  have some : outq ≠ [] := by
    rintro rfl
    exact absurd take_nil ‹_›
  have long := length_pos_iff.mpr some
  have left : r.uio.uioResid.toNat ≠ 0 := fun none => absurd (BitVec.eq_of_toNat_eq none) ‹_›
  simp only [length_drop,bufsiz]
  omega

def Look.status (l : Look) : Option UInt8 :=
  if l.pkt ∧ l.ptSend ≠ 0 then some l.ptSend else if l.ucntl ∧ l.ptUcntl ≠ 0 then some l.ptUcntl else none

def Look.ready (l : Look) : Bool := !l.outq.isEmpty && !l.ttstop

def Look.header (l : Look) (r : Reading) : Except Panic Reading := if l.pkt || l.ucntl then deliver 0 r else .ok r

def ptcread (ndelay : Bool) : List Look → Reading → Except Panic (Reading × Outcome)
  | [],r => .ok (r,.sleeping)
  | l :: looks,r =>
    match (if l.isopen then l.status else none) with
    | some c => (deliver c r).map fun r => (r,.returned 0)
    | none =>
      if l.isopen && l.ready then do
        let r ← drain l.outq (← l.header r)
        return (r,.returned 0)
      else if !l.carrier then .ok (r,.returned 0)
      else if ndelay then .ok (r,.returned ewouldblock)
      else ptcread ndelay looks r

/-- What a read of the slave finds when it starts over: in remote mode `turns` are those of the loop for a
process in the background, where `true` is one that ignores or holds `SIGTTIN` or is a `vfork` child, and `canq`
what is there after them; in ordinary mode `oproc` is a controller that is there. -/
inductive SlaveLook where
  | remote (turns : List Bool) (canq : List UInt8)
  | ordinary (oproc : Bool) (visits : List TerminalReads.Visit)

def remoteLoop : List UInt8 → TerminalReads.Call → Except Panic TerminalReads.Call
  | c :: d :: canq,s => if s.uio.uioResid = 0 then .ok s else do remoteLoop (d :: canq) (← TerminalReads.deliver c s)
  | _,s => .ok s

def ptsread (ndelay : Bool) : List SlaveLook → TerminalReads.Call → Except Panic (TerminalReads.Call × Outcome)
  | [],s => .ok (s,.sleeping)
  | .remote turns canq :: looks,s =>
    if turns.contains true then .ok (s,.returned eio)
    else if canq = [] then if ndelay then .ok (s,.returned ewouldblock) else ptsread ndelay looks s
    else (remoteLoop canq s).map fun s => (s,.returned 0)
  | .ordinary oproc visits :: _,s => if oproc then TerminalReads.ttread ndelay visits s else .ok (s,.returned 0)

def Look.owes (l : Look) : Bool := l.isopen && (l.status.isSome || l.ready && (l.pkt || l.ucntl))

def Look.sleeps (ndelay : Bool) (l : Look) : Bool := !(l.isopen && (l.status.isSome || l.ready)) && l.carrier && !ndelay

/-- A read of the controller finds no byte of packet mode or of user-control mode, whenever it starts over. -/
def Idle (ndelay : Bool) : List Look → Prop
  | [] => True
  | l :: looks => l.owes = false ∧ (l.sleeps ndelay = true → Idle ndelay looks)

/-- A read of the slave comes to `ttread` with nothing to deliver, or not at all. -/
def Silent (ndelay : Bool) : List SlaveLook → Prop
  | [] => True
  | .remote turns canq :: looks => turns.contains true = false → canq = [] → ndelay = false → Silent ndelay looks
  | .ordinary oproc visits :: _ => oproc = true → TerminalReads.Quiet ndelay visits

section
variable {memory : Word → UInt8} {ndelay : Bool} {count : Word} {data : List UInt8} {s : Call} {a : Answer}

structure Running (memory : Word → UInt8) (count : Word) (data : List UInt8) (s : Call) : Prop where
  covers : s.uio.Covers
  order : s.given ++ s.chunk ++ (s.uio.stream.take s.uio.uioResid.toNat).map memory = data
  whole : data.length = count.toNat

structure Sound (memory : Word → UInt8) (count : Word) (data : List UInt8) (s : Call) : Prop where
  faithful : Faithful data s
  running : (∀ n, s.pc ≠ .ended n) → Running memory count data s

theorem going {pc : Pc} (here : s.pc = pc) (live : ∀ n, pc ≠ .ended n) (n : Option Nat) : s.pc ≠ .ended n := here ▸ live n

theorem Running.counts (running : Running memory count data s) :
    s.given.length + s.chunk.length + s.uio.uioResid.toNat = count.toNat := by
  have long := running.covers.length
  have total := congrArg List.length running.order
  rw [length_append,length_append,length_map,length_take,Nat.min_eq_left long] at total
  rw [← running.whole,← total]

theorem Sound.goes (sound : Sound memory count data s) (live : ∀ n, s.pc ≠ .ended n) (pc : Pc) (going : ∀ n, pc ≠ .ended n) :
    Sound memory count data {s with pc} :=
  ⟨⟨sound.faithful.order,fun _ ended => absurd ended (going _)⟩,
    fun _ => ⟨(sound.running live).covers,(sound.running live).order,(sound.running live).whole⟩⟩

theorem Sound.ends (sound : Sound memory count data s) (uio : Uio) (n : Option Nat) (right : s.given.length = n.getD 0) :
    Sound memory count data {s with uio,pc := .ended n} := by
  refine ⟨⟨sound.faithful.order,fun m ended => ?_⟩,fun live => absurd rfl (live n)⟩
  rw [← Pc.ended.inj ended]
  exact right

theorem Running.written (running : Running memory count data s) : s.given.length = (count - (giveBack s).uioResid).toNat := by
  have counts := running.counts
  have small := count.isLt
  change _ = (count - (s.uio.uioResid + BitVec.ofNat 32 s.chunk.length)).toNat
  have length : (BitVec.ofNat 32 s.chunk.length).toNat = s.chunk.length := by
    rw [BitVec.toNat_ofNat,Nat.mod_eq_of_lt (by omega)]
  bv_omega

theorem Running.lost (running : Running memory count data s) :
    s.given.length = (count - s.uio.uioResid).toNat ↔ s.chunk = [] := by
  have counts := running.counts
  have small := count.isLt
  rw [← length_eq_zero_iff]
  constructor
  · intro same
    bv_omega
  intro none
  bv_omega

theorem loop_step (sound : Sound memory count data s) (here : s.pc = .loop) (stays : a.isopen = true) :
    ∃ t, step memory ndelay count s a = .ok t ∧ (Clean s a → Sound memory count data t) ∧ (¬ Clean s a → ¬ Faithful data t) := by
  have live := going here fun _ => nofun
  have running := sound.running live
  simp only [step,here,Clean,stays,if_true]
  by_cases done : s.uio.uioResid = 0
  · rw [if_pos done,imp_iff_right done,← running.lost]
    exact ⟨_,rfl,fun clean => sound.ends s.uio _ clean,fun dirty faithful => dirty (faithful.counted _ rfl)⟩
  rw [if_neg done]
  by_cases empty : s.chunk = []
  · rw [if_pos empty]
    obtain ⟨t,ran,covers,next⟩ := uiomove_next memory (BitVec.ofNat 32 bufsiz) running.covers
    simp only [ran,bind,Except.bind,pure,Except.pure]
    refine ⟨_,rfl,fun _ => ⟨⟨sound.faithful.order,fun _ ended => nomatch ended⟩,fun _ => ⟨covers,?_,running.whole⟩⟩,
      fun dirty => absurd (fun none => absurd none done) dirty⟩
    have order := running.order
    rw [empty,append_nil,← next,← append_assoc] at order
    exact order
  · rw [if_neg empty]
    exact ⟨_,rfl,fun _ => sound.goes live .chunk fun _ => nofun,fun dirty => absurd (fun none => absurd none done) dirty⟩

theorem chunk_step (ndelay : Bool) (a : Answer) (sound : Sound memory count data s) (here : s.pc = .chunk) :
    ∃ t, step memory ndelay count s a = .ok t ∧ Sound memory count data t := by
  have live := going here fun _ => nofun
  have running := sound.running live
  simp only [step,here]
  cases chunk : s.chunk with
  | nil =>
    have goes := sound.goes live .loop fun _ => nofun
    rw [chunk] at goes
    exact ⟨_,rfl,goes⟩
  | cons c rest =>
    cases a.full with
    | true =>
      have goes := sound.goes live .block fun _ => nofun
      rw [chunk] at goes
      exact ⟨_,rfl,goes⟩
    | false =>
      have order := running.order
      rw [chunk,← singleton_append,← append_assoc] at order
      refine ⟨_,rfl,⟨?_,fun _ ended => nomatch ended⟩,fun _ => ⟨running.covers,order,running.whole⟩⟩
      rw [← order,append_assoc]
      exact prefix_append _ _

theorem block_step (ndelay : Bool) (sound : Sound memory count data s) (here : s.pc = .block) :
    ∃ t, step memory ndelay count s a = .ok t ∧ (Clean s a → Sound memory count data t) ∧ (¬ Clean s a → ¬ Faithful data t) := by
  have live := going here fun _ => nofun
  have running := sound.running live
  simp only [step,here,Clean]
  cases a.carrier with
  | false =>
    refine ⟨_,rfl,fun clean => sound.ends s.uio none (length_eq_zero_iff.mpr (clean rfl)),fun dirty faithful =>
      dirty fun _ => ?_⟩
    exact length_eq_zero_iff.mp (faithful.counted none rfl)
  | true =>
    cases ndelay with
    | false => exact ⟨_,rfl,fun _ => sound.goes live .asleep fun _ => nofun,fun dirty => absurd nofun dirty⟩
    | true =>
      refine ⟨_,rfl,fun _ => sound.ends (giveBack s) _ ?_,fun dirty => absurd nofun dirty⟩
      split
      · next none => exact length_eq_zero_iff.mpr none
      · exact running.written

theorem asleep_step (ndelay : Bool) (sound : Sound memory count data s) (here : s.pc = .asleep) :
    ∃ t, step memory ndelay count s a = .ok t ∧ (Clean s a → Sound memory count data t) ∧ (¬ Clean s a → ¬ Faithful data t) := by
  have live := going here fun _ => nofun
  have running := sound.running live
  have counts := running.counts
  simp only [step,here,Clean]
  cases a.interrupted with
  | false => exact ⟨_,rfl,fun _ => sound.goes live .again fun _ => nofun,fun dirty => absurd nofun dirty⟩
  | true =>
    rw [imp_iff_right rfl,if_pos rfl]
    refine ⟨_,rfl,fun clean => sound.ends s.uio _ ?_,fun dirty faithful => dirty ?_⟩
    · split
      · next all =>
        rw [all] at counts
        change s.given.length = 0
        omega
      · exact running.lost.mpr clean
    have counted := faithful.counted _ rfl
    dsimp only at counted
    by_cases all : s.uio.uioResid = count
    · rw [all] at counts
      exact length_eq_zero_iff.mp (by omega)
    rw [if_neg all] at counted
    exact running.lost.mp counted

theorem step_faithful (ndelay : Bool) (sound : Sound memory count data s) (stays : a.isopen = true) :
    ∃ t, step memory ndelay count s a = .ok t ∧ (Clean s a → Sound memory count data t) ∧ (¬ Clean s a → ¬ Faithful data t) := by
  cases here : s.pc with
  | again =>
    have live := going here fun _ => nofun
    refine ⟨{s with pc := .loop},?_,fun _ => sound.goes live .loop fun _ => nofun,fun dirty =>
      absurd (by rw [Clean,here]; trivial) dirty⟩
    simp only [step,here,stays,if_true]
  | loop => exact loop_step sound here stays
  | chunk =>
    obtain ⟨t,ran,next⟩ := chunk_step ndelay a sound here
    exact ⟨t,ran,fun _ => next,fun dirty => absurd (by rw [Clean,here]; trivial) dirty⟩
  | block => exact block_step ndelay sound here
  | asleep => exact asleep_step ndelay sound here
  | ended n =>
    refine ⟨s,?_,fun _ => sound,fun dirty => absurd (by rw [Clean,here]; trivial) dirty⟩
    rw [step,here]

theorem called_sound (w : Write) (covers : w.uio.Covers) : Sound w.memory w.uio.uioResid w.data w.called := by
  refine ⟨⟨ nil_prefix,fun _ ended => nomatch ended⟩,fun _ => ⟨covers,rfl,?_⟩⟩
  rw [Write.data,length_map,length_take,Nat.min_eq_left covers.length]

theorem write_faithful (w : Write) (covers : w.uio.Covers) (stays : ∀ a ∈ w.answers, a.isopen = true) :
    Along w.step (fun s a => ∃ t, w.step s a = .ok t ∧ Faithful w.data t) w.called w.answers ↔
    Along w.step Clean w.called w.answers := by
  refine Along.results_iff (fun s a sound shown => ?_) w.answers _ (called_sound w covers) (Along.of_forall _ stays)
  obtain ⟨t,ran,next,dirty⟩ := step_faithful w.ndelay sound shown
  exact ⟨t,ran,next,not_imp_not.mp dirty,fun clean => (next clean).faithful⟩

end

section
variable {ndelay : Bool} {uio : Uio} {r : Reading}

theorem deliver_room (c : UInt8) (covers : r.uio.Covers) (room : r.uio.uioResid ≠ 0) :
    ∃ t, deliver c r = .ok t ∧ t.uio.Covers := by
  obtain ⟨t,ran,took⟩ := ureadc_took covers room
  refine ⟨⟨t,r.given ++ (between r.uio t).map fun addr => (addr,c)⟩,?_,took.covers⟩
  rw [deliver,ran]
  rfl

theorem deliver_none (c : UInt8) (none : r.uio.uioResid = 0) : deliver c r = .error .ureadc := by
  rw [deliver,ureadc_none none]
  rfl

theorem drain_ends (outq : List UInt8) (covers : r.uio.Covers) : ∃ t, drain outq r = .ok t := by
  fun_induction drain outq r with
  | case1 outq r none => exact ⟨r,rfl⟩
  | case2 outq r some buf empty => exact ⟨r,rfl⟩
  | case3 outq r some buf full ih =>
    have short : buf.length ≤ r.uio.uioResid.toNat := (length_take_le _ _).trans (Nat.min_le_left _ _)
    have part : BitVec.ofNat 32 buf.length ≤ r.uio.uioResid := by
      rw [BitVec.le_def,BitVec.toNat_ofNat]
      exact (Nat.mod_le _ _).trans short
    obtain ⟨t,ran,took⟩ := uiomove_took covers (.inl part)
    rw [ran]
    exact ih t took.covers

theorem header_room (l : Look) (covers : r.uio.Covers) (room : r.uio.uioResid ≠ 0) : ∃ t, l.header r = .ok t ∧ t.uio.Covers := by
  rw [Look.header]
  split
  · exact deliver_room 0 covers room
  · exact ⟨r,rfl,covers⟩

theorem ptcread_reads (ndelay : Bool) (looks : List Look) (covers : r.uio.Covers) (room : r.uio.uioResid ≠ 0) :
    ∃ result, ptcread ndelay looks r = .ok result := by
  induction looks with
  | nil => exact ⟨_,rfl⟩
  | cons l looks ih =>
    rw [ptcread]
    split
    · next c _ =>
      obtain ⟨t,ran,_⟩ := deliver_room c covers room
      rw [ran]
      exact ⟨_,rfl⟩
    split_ifs with ready off later
    · obtain ⟨t,ran,left⟩ := header_room l covers room
      obtain ⟨u,drained⟩ := drain_ends l.outq left
      simp only [ran,drained,bind,Except.bind]
      exact ⟨_,rfl⟩
    · exact ⟨_,rfl⟩
    · exact ⟨_,rfl⟩
    · exact ih

theorem ptcread_empty (ndelay : Bool) (looks : List Look) (none : r.uio.uioResid = 0) :
    (∃ result, ptcread ndelay looks r = .ok result) ↔ Idle ndelay looks := by
  have stays : ∀ outq, drain outq r = .ok r := fun outq => by rw [drain,if_pos none]
  induction looks with
  | nil => exact iff_of_true ⟨_,rfl⟩ trivial
  | cons l looks ih =>
    rw [ptcread,Idle,Look.owes,Look.sleeps]
    cases l.isopen with
    | false =>
      cases l.carrier with
      | false => simp
      | true =>
        cases ndelay with
        | true => simp
        | false => simpa using ih
    | true =>
      cases status : l.status with
      | some c => simp [deliver_none c none,Except.map]
      | none =>
        cases l.ready with
        | true =>
          cases tagged : l.pkt || l.ucntl with
          | true => simp [Look.header,tagged,deliver_none 0 none,bind,Except.bind]
          | false => simp [Look.header,tagged,stays,bind,Except.bind,pure,Except.pure]
        | false =>
          cases l.carrier with
          | false => simp
          | true =>
            cases ndelay with
            | true => simp
            | false => simpa using ih

theorem remoteLoop_ends : ∀ (canq : List UInt8) {s : TerminalReads.Call}, s.uio.Covers → ∃ t, remoteLoop canq s = .ok t
  | [],s,_ => ⟨s,rfl⟩
  | [_],s,_ => ⟨s,rfl⟩
  | c :: d :: canq,s,covers => by
    rw [remoteLoop]
    by_cases none : s.uio.uioResid = 0
    · rw [if_pos none]
      exact ⟨s,rfl⟩
    obtain ⟨t,ran,took⟩ := ureadc_took covers none
    rw [if_neg none,TerminalReads.deliver,ran]
    exact remoteLoop_ends (d :: canq) took.covers

theorem ptsread_ends (ndelay : Bool) (looks : List SlaveLook) (covers : uio.Covers) :
    (∃ result, ptsread ndelay looks ⟨uio,[],[]⟩ = .ok result) ↔ uio.uioResid ≠ 0 ∨ Silent ndelay looks := by
  induction looks with
  | nil => exact iff_of_true ⟨_,rfl⟩ (.inr trivial)
  | cons look looks ih =>
    cases look with
    | remote turns canq =>
      rw [ptsread,Silent]
      cases refused : turns.contains true with
      | true => exact iff_of_true ⟨_,rfl⟩ (.inr nofun)
      | false =>
        rw [imp_iff_right rfl,if_neg Bool.false_ne_true]
        by_cases empty : canq = []
        · rw [if_pos empty,imp_iff_right empty]
          cases ndelay with
          | true => exact iff_of_true ⟨_,rfl⟩ (.inr nofun)
          | false =>
            rw [imp_iff_right rfl,if_neg Bool.false_ne_true]
            exact ih
        · obtain ⟨t,ran⟩ := remoteLoop_ends canq (s := ⟨uio,[],[]⟩) covers
          rw [if_neg empty,ran]
          exact iff_of_true ⟨_,rfl⟩ (.inr fun none => absurd none empty)
    | ordinary oproc visits =>
      rw [ptsread,Silent]
      cases oproc with
      | false => exact iff_of_true ⟨_,rfl⟩ (.inr nofun)
      | true =>
        rw [imp_iff_right rfl,if_pos rfl]
        have sound := TerminalReads.sound_start covers
        by_cases none : uio.uioResid = 0
        · obtain ⟨quiet,loud⟩ := TerminalReads.ttread_empty ndelay visits sound none
          rw [or_iff_right (not_not.mpr none)]
          constructor
          · rintro ⟨result,ran⟩
            by_contra trips
            obtain ⟨e,failed⟩ := loud trips
            rw [failed] at ran
            cases ran
          · intro still
            obtain ⟨s,outcome,ran,_⟩ := quiet still
            exact ⟨_,ran⟩
        · obtain ⟨s,outcome,ran,_⟩ := TerminalReads.ttread_reads ndelay visits sound none
          exact iff_of_true ⟨_,ran⟩ (.inl none)

end

/-- The writes of the controller keep their reports if and only if their steps are clean, and a read does not end in the panic
if and only if it is for something or finds nothing to deliver. -/
theorem pseudo_terminals_iff (writes : List Write) (covers : ∀ w ∈ writes, w.uio.Covers)
    (stays : ∀ w ∈ writes, ∀ a ∈ w.answers, a.isopen = true) (ndelay : Bool) (looks : List Look)
    (slaveLooks : List SlaveLook) (uio : Uio)
    (room : uio.Covers) :
    ((∀ w ∈ writes, Along w.step (fun s a => ∃ t, w.step s a = .ok t ∧ Faithful w.data t) w.called w.answers) ↔
        ∀ w ∈ writes, Along w.step Clean w.called w.answers) ∧
      ((∃ result, ptcread ndelay looks ⟨uio,[]⟩ = .ok result) ↔ uio.uioResid ≠ 0 ∨ Idle ndelay looks) ∧
      ((∃ result, ptsread ndelay slaveLooks ⟨uio,[],[]⟩ = .ok result) ↔ uio.uioResid ≠ 0 ∨ Silent ndelay slaveLooks) := by
  refine ⟨forall₂_congr fun w member => write_faithful w (covers w member) (stays w member),?_,
    ptsread_ends ndelay slaveLooks room⟩
  by_cases none : uio.uioResid = 0
  · rw [or_iff_right (not_not.mpr none)]
    exact ptcread_empty ndelay looks none
  · exact iff_of_true (ptcread_reads ndelay looks room none) (.inl none)

def answer (rawq canq : Nat) : Answer := ⟨true,true,rawq,canq,false,false,false⟩

def byteWrite (answers : List Answer) : Write := ⟨fun _ => 97,false,⟨[⟨4096,1⟩],0,1,.write,[]⟩,answers⟩

def byteTaken : Call := ⟨.chunk,⟨[⟨4097,0⟩],1,0,.write,[4096]⟩,[97],[]⟩

theorem byteWrite_moves : uiomove 1 ⟨[⟨4096,1⟩],0,1,.write,[]⟩ = .ok byteTaken.uio := by
  simp [uiomove,Uio.move,bytes,byteTaken]

theorem byteTaken_step (answers : List Answer) (a : Answer) (stays : a.isopen = true) :
    (byteWrite answers).step {(byteWrite answers).called with pc := .loop} a = .ok byteTaken := by
  change (do
    let uio ← uiomove 1 ⟨[⟨4096,1⟩],0,1,.write,[]⟩
    return ⟨if a.isopen then .chunk else .ended none,uio,(between ⟨[⟨4096,1⟩],0,1,.write,[]⟩ uio).map fun _ =>
      97,[]⟩ : Except Panic Call) = _
  rw [byteWrite_moves,stays]
  rfl

def roomy : Write := byteWrite (replicate 5 (answer 0 0))

def flushed : Look := ⟨true,true,false,true,false,3,0,[]⟩

/-- A write to an empty terminal, which is given the byte, and reads of a byte. -/
theorem pseudo_terminals_byte :
    (∀ w ∈ [roomy], Along w.step (fun s a => ∃ t, w.step s a = .ok t ∧ Faithful w.data t) w.called w.answers ∧
        run w.step w.called w.answers = .ok ⟨.ended (some 1),byteTaken.uio,[],[97]⟩) ∧
      (∃ result, ptcread false [flushed] ⟨⟨[⟨4096,1⟩],0,1,.read,[]⟩,[]⟩ = .ok result) ∧
      ∃ result, ptsread false [.remote [] [97,0]] ⟨⟨[⟨4096,1⟩],0,1,.read,[]⟩,[],[]⟩ = .ok result := by
  obtain ⟨writes,controller,slave⟩ := pseudo_terminals_iff [roomy]
    (by simp [roomy,byteWrite,Uio.Covers,size]) (by simp [roomy,byteWrite,answer]) false [flushed] [.remote [] [97,0]]
    ⟨[⟨4096,1⟩],0,1,.read,[]⟩ (by exact Nat.le_refl 1)
  have taken : roomy.step {roomy.called with pc := .loop} (answer 0 0) = .ok byteTaken :=
    byteTaken_step (replicate 5 (answer 0 0)) (answer 0 0) rfl
  refine ⟨fun w member => ⟨writes.mpr (fun w member => ?_) w member,?_⟩,controller.mpr (.inl (by decide)),
    slave.mpr (.inl (by decide))⟩
  · obtain rfl := mem_singleton.mp member
    refine ⟨trivial,fun t ran => ?_⟩
    obtain rfl := Except.ok.inj ran
    refine ⟨by rintro ⟨⟩,fun t ran => ?_⟩
    obtain rfl := Except.ok.inj (taken.symm.trans ran)
    refine ⟨trivial,fun t ran => ?_⟩
    obtain rfl := Except.ok.inj ran
    refine ⟨trivial,fun t ran => ?_⟩
    obtain rfl := Except.ok.inj ran
    exact ⟨fun _ => rfl,fun _ _ => trivial⟩
  · obtain rfl := mem_singleton.mp member
    change run roomy.step {roomy.called with pc := .loop} (replicate 4 (answer 0 0)) = _
    rw [replicate_succ,run,taken]
    rfl

/-- The terminal has no room for the last byte of a write, which sleeps and is then reported without having been
given. A read for nothing meets a byte of packet mode. -/
theorem tail_lost :
    ¬ Along (byteWrite []).step (fun s a => ∃ t, (byteWrite []).step s a = .ok t ∧
    Faithful (byteWrite []).data t) (byteWrite []).called
        [answer 0 0,answer 0 0,answer 193 60,answer 193 60,answer 0 0,answer 0 0,answer 0 0] ∧
      ¬ ∃ result, ptcread false [flushed] ⟨⟨[⟨4096,0⟩],0,0,.read,[]⟩,[]⟩ = .ok result := by
  constructor
  · rintro ⟨_,next⟩
    obtain ⟨_,next⟩ := next {(byteWrite []).called with pc := .loop} rfl
    obtain ⟨_,next⟩ := next byteTaken (byteTaken_step [] (answer 0 0) rfl)
    obtain ⟨_,next⟩ := next {byteTaken with pc := .block} rfl
    obtain ⟨_,next⟩ := next {byteTaken with pc := .asleep} rfl
    obtain ⟨_,next⟩ := next {byteTaken with pc := .again} rfl
    obtain ⟨⟨t,ran,faithful⟩,_⟩ := next {byteTaken with pc := .loop} rfl
    obtain rfl := Except.ok.inj ran
    have counted : 0 = 1 := faithful.counted (some 1) rfl
    cases counted
  · rintro ⟨result,ran⟩
    have panics : fault (ptcread false [flushed] ⟨⟨[⟨4096,0⟩],0,0,.read,[]⟩,[]⟩) = some .ureadc := by decide
    rw [of_fault panics] at ran
    cases ran

end Retrobsd.PseudoTerminals

import Retrobsd.Terminals
import Retrobsd.TransferStreams

/-! `ttwrite` and `ttyoutput` step by step: between any two steps the rest of the system may use up or free the character
lists, change the modes of the terminal, echo, or send a signal. -/
namespace Retrobsd.TerminalWrites
open List
open CharacterLists (charValue)
open Transfers Terminals Lib.Run

def obufsiz : Nat := 100

def charClass (c : UInt8) : Nat := partab c % 64

def special (c : UInt8) : Bool := decide (charClass c ≠ 0)

def tab : UInt8 := 9

def space : UInt8 := 32

/-- Where `ttyoutput` leaves the column for a character of each class. -/
def column (c : UInt8) (col : Nat) : Nat :=
  match charClass c with
  | 0 => col + 1
  | 2 => col - 1
  | 3 => 0
  | 6 => 0
  | 4 => (col ||| 7) + 1
  | _ => col

structure Output where
  put : List UInt8
  ret : Int
  col : Nat

/-- The character lists have room for `room` characters. -/
def ttyoutput (flags : Flags) (col room : Nat) (c : UInt8) : Output :=
  if flags.raw || flags.litout then
    if flags.flusho then ⟨[],-1,col⟩
    else if room = 0 then ⟨[],charValue c,col⟩
    else ⟨[c],-1,col⟩
  else
    let c := c &&& 127
    if c = tab ∧ flags.xtabs then
      let spaces := 8 - col % 8
      let put := if flags.flusho then [] else List.replicate (min spaces room) space
      let done := if flags.flusho then spaces else min spaces room
      ⟨put,if done ≠ 0 then -1 else 9,col + done⟩
    else
      let first := if c = newline ∧ flags.crmod then [carriageReturn] else []
      if room < first.length then ⟨[],c.toNat,col⟩
      else if flags.flusho then ⟨first,-1,column c col⟩
      else if room < first.length + 1 then ⟨first,c.toNat,col⟩
      else ⟨first ++ [c],-1,column c col⟩

/-- What the rest of the system does to the terminal before a step. `stopped` is a process in the background
that is to be stopped, `full` a queue above the high water mark, `room` that of the character lists, and `echo`
what echoes make of the column. -/
structure Answer where
  carrier : Bool
  isopen : Bool
  stopped : Bool
  full : Bool
  interrupted : Bool
  flags : Flags
  room : Nat
  echo : Nat → Nat

/-- Where the call is. `written` is what the system call returns, without an error. -/
inductive Pc where
  | start
  | outer
  | inner
  | ovhiwat
  | asleep
  | ended (written : Option Nat)
deriving DecidableEq

/-- One operation on the output queue: the user's bytes that it has done with, and the characters that it has put. -/
structure Piece where
  flags : Flags
  col : Nat
  source : List UInt8
  put : List UInt8

structure Call where
  pc : Pc
  uio : Uio
  chunk : List UInt8
  col : Nat
  log : List Piece

/-- `rwuio` returns the bytes that are gone from the request. -/
def written (cnt : Word) (uio : Uio) : Option Nat := some (cnt - uio.uioResid).toNat

def giveBack (s : Call) : Uio := {s.uio with uioResid := s.uio.uioResid + BitVec.ofNat 32 s.chunk.length}

def put (s : Call) (a : Answer) (c : UInt8) (rest : List UInt8) : Call :=
  let col := a.echo s.col
  if !(a.flags.raw || a.flags.litout) && special c then
    let o := ttyoutput a.flags col a.room c
    if o.ret ≥ 0 then {s with pc := .asleep,col := o.col,log := s.log ++ [⟨a.flags,col,[],o.put⟩]}
    else {s with
      pc := if a.flags.flusho || a.full then .ovhiwat else .inner
      chunk := rest
      col := o.col
      log := s.log ++ [⟨a.flags,col,[c],o.put⟩]}
  else
    let chunk := c :: rest
    let ce := if a.flags.raw || a.flags.litout then chunk.length else (chunk.takeWhile fun c => !special c).length
    let n := min ce a.room
    {s with
      pc := if n < ce then .asleep else if a.flags.flusho || a.full then .outer else .inner
      chunk := chunk.drop n
      col := col + n
      log := s.log ++ [⟨a.flags,col,chunk.take n,chunk.take n⟩]}

def step (memory : Word → UInt8) (ndelay : Bool) (cnt : Word) (s : Call) (a : Answer) : Except Panic Call :=
  match s.pc with
  | .ended _ => .ok s
  | .asleep =>
    if a.interrupted then .ok {s with pc := .ended (if s.uio.uioResid = cnt then none else written cnt s.uio)}
    else .ok {s with pc := .start}
  | .start =>
    if !a.carrier then
      if a.isopen then .ok {s with pc := .ended none}
      else if ndelay then .ok {s with uio := giveBack s,pc := .ended none}
      else .ok {s with pc := .asleep}
    else .ok {s with pc := if a.stopped then .asleep else .outer}
  | .outer =>
    if s.uio.uioResid = 0 ∧ s.chunk = [] then .ok {s with uio := giveBack s,pc := .ended (written cnt (giveBack s))}
    else if a.flags.flusho then .ok
      {s with uio := {s.uio with uioResid := 0},pc := .ended (written cnt {s.uio with uioResid := 0})}
    else if a.full then .ok {s with pc := .ovhiwat}
    else if s.chunk = [] then do
      let cc := if s.uio.uioResid < BitVec.ofNat 32 obufsiz then s.uio.uioResid else BitVec.ofNat 32 obufsiz
      let uio ← uiomove cc s.uio
      return {s with uio,chunk := (between s.uio uio).map memory,pc := .inner}
    else .ok {s with pc := .inner}
  | .inner => match s.chunk with
    | [] => .ok {s with pc := .outer}
    | c :: rest => .ok (put s a c rest)
  | .ovhiwat =>
    if !a.full then .ok {s with pc := .start}
    else if ndelay then
      .ok {s with uio := giveBack s,pc := .ended (if (giveBack s).uioResid = cnt then none else written cnt (giveBack s))}
    else .ok {s with pc := .asleep}

def translation (flags : Flags) (col : Nat) (c : UInt8) : List UInt8 :=
  if flags.raw || flags.litout then [c]
  else if c &&& 127 = tab ∧ flags.xtabs then List.replicate (8 - col % 8) space
  else if c &&& 127 = newline ∧ flags.crmod then [carriageReturn,newline]
  else [c &&& 127]

def Piece.Exact (p : Piece) : Prop := p.put = p.source.flatMap (translation p.flags p.col)

def sent (s : Call) : List UInt8 := s.log.flatMap Piece.source

/-- The output queue has the translation of the user's first bytes, and the system call returns their number. -/
structure Translated (data : List UInt8) (s : Call) : Prop where
  order : sent s <+: data
  exact : ∀ p ∈ s.log, p.Exact
  counted : ∀ n, s.pc = .ended (some n) → n = (sent s).length

def Fits (flags : Flags) (col room : Nat) (c : UInt8) : Prop :=
  if c &&& 127 = tab ∧ flags.xtabs then room = 0 ∨ 8 - col % 8 ≤ room
  else c &&& 127 = newline ∧ flags.crmod → room ≠ 1

/-- A step that does not tear a tab or a newline, and is not a signal to a call that has taken bytes that it has not put. -/
def Clean (s : Call) (a : Answer) : Prop :=
  match s.pc with
  | .asleep => a.interrupted = true → s.chunk = []
  | .inner => match s.chunk with
    | [] => True
    | c :: _ => (a.flags.raw || a.flags.litout) = false → special c = true → Fits a.flags (a.echo s.col) a.room c
  | _ => True

section
variable {flags : Flags} {col room : Nat} {c : UInt8}

theorem ordinary_ascii (ordinary : special c = false) : c.toNat < 128 := by
  rw [special,decide_eq_false_iff_not,not_not] at ordinary
  by_contra beyond
  rw [charClass,partab,List.getElem?_eq_none (by simpa using beyond)] at ordinary
  cases ordinary

theorem translation_ordinary (ordinary : special c = false) : translation flags col c = [c] := by
  have same : c &&& 127 = c := by
    rw [← UInt8.toNat_inj,UInt8.toNat_and]
    exact (Nat.and_two_pow_sub_one_eq_mod c.toNat 7).trans (Nat.mod_eq_of_lt (ordinary_ascii ordinary))
  have tabbed : ¬ (c = tab ∧ flags.xtabs = true) := by
    rintro ⟨rfl,_⟩
    cases ordinary
  have lined : ¬ (c = newline ∧ flags.crmod = true) := by
    rintro ⟨rfl,_⟩
    cases ordinary
  rw [translation,same,if_neg tabbed,if_neg lined,ite_self]

theorem translation_raw (raw : (flags.raw || flags.litout) = true) : translation flags col c = [c] := if_pos raw

theorem ttyoutput_fits (cooked : (flags.raw || flags.litout) = false) (visible : flags.flusho = false)
    (fits : Fits flags col room c) :
    (ttyoutput flags col room c).ret ≥ 0 ∧ (ttyoutput flags col room c).put = [] ∨
      (ttyoutput flags col room c).ret < 0 ∧ (ttyoutput flags col room c).put = translation flags col c := by
  have negative : (-1 : Int) < 0 := by decide
  rw [Fits] at fits
  rw [ttyoutput,translation,cooked,visible]
  simp only [Bool.false_eq_true,if_false]
  by_cases tabbed : c &&& 127 = tab ∧ flags.xtabs = true
  · rw [if_pos tabbed] at fits
    rw [if_pos tabbed,if_pos tabbed]
    rcases fits with none | all
    · left
      simp [none]
    right
    rw [Nat.min_eq_left all,if_pos (by omega)]
    exact ⟨negative,rfl⟩
  rw [if_neg tabbed] at fits
  rw [if_neg tabbed,if_neg tabbed]
  by_cases lined : c &&& 127 = newline ∧ flags.crmod = true
  · have apart := fits lined
    rw [if_pos lined,if_pos lined]
    by_cases none : room < 1
    · left
      rw [length_singleton,if_pos none]
      exact ⟨Int.natCast_nonneg _,rfl⟩
    right
    rw [length_singleton,if_neg none,if_neg (by omega),lined.1]
    exact ⟨negative,rfl⟩
  · rw [if_neg lined,if_neg lined]
    by_cases none : room < 1
    · left
      rw [length_nil,if_neg (by omega),if_pos (by omega)]
      exact ⟨Int.natCast_nonneg _,rfl⟩
    right
    rw [length_nil,if_neg (by omega),if_neg (by omega)]
    exact ⟨negative,rfl⟩

theorem ttyoutput_torn (cooked : (flags.raw || flags.litout) = false) (visible : flags.flusho = false)
    (torn : ¬ Fits flags col room c) :
    (ttyoutput flags col room c).put ≠ [] ∧ (ttyoutput flags col room c).put ≠ translation flags col c := by
  rw [Fits] at torn
  rw [ttyoutput,translation,cooked,visible]
  simp only [Bool.false_eq_true,if_false]
  by_cases tabbed : c &&& 127 = tab ∧ flags.xtabs = true
  · rw [if_pos tabbed,not_or] at torn
    rw [if_pos tabbed,if_pos tabbed]
    have part : min (8 - col % 8) room = room := by omega
    rw [part]
    constructor
    · intro none
      have length := congrArg List.length none
      rw [length_replicate] at length
      exact torn.1 length
    intro all
    have same := congrArg List.length all
    rw [length_replicate,length_replicate] at same
    omega
  · rw [if_neg tabbed,Classical.not_imp,not_not] at torn
    obtain ⟨lined,one⟩ := torn
    rw [if_neg tabbed,if_neg tabbed,if_pos lined,if_pos lined,one,length_singleton,if_neg (by decide),if_pos (by decide)]
    exact ⟨cons_ne_nil _ _,fun same => nomatch (List.cons.inj same).2⟩

end

section
variable {memory : Word → UInt8} {ndelay : Bool} {cnt : Word} {data : List UInt8} {s : Call} {a : Answer}

structure Running (memory : Word → UInt8) (cnt : Word) (data : List UInt8) (s : Call) : Prop where
  covers : s.uio.Covers
  order : sent s ++ s.chunk ++ (s.uio.stream.take s.uio.uioResid.toNat).map memory = data
  whole : data.length = cnt.toNat

structure Sound (memory : Word → UInt8) (cnt : Word) (data : List UInt8) (s : Call) : Prop where
  translated : Translated data s
  running : (∀ n, s.pc ≠ .ended n) → Running memory cnt data s

theorem going {pc : Pc} (here : s.pc = pc) (live : ∀ n, pc ≠ .ended n) (n : Option Nat) : s.pc ≠ .ended n := here ▸ live n

theorem Running.counts (running : Running memory cnt data s) :
    (sent s).length + s.chunk.length + s.uio.uioResid.toNat = cnt.toNat := by
  have long := running.covers.length
  have total := congrArg List.length running.order
  rw [length_append,length_append,length_map,length_take,Nat.min_eq_left long] at total
  rw [← running.whole,← total]

theorem Sound.goes (sound : Sound memory cnt data s) (live : ∀ n, s.pc ≠ .ended n) (pc : Pc) (going : ∀ n, pc ≠ .ended n) :
    Sound memory cnt data {s with pc} :=
  ⟨⟨sound.translated.order,sound.translated.exact,fun _ ended => absurd ended (going _)⟩,
    fun _ => ⟨(sound.running live).covers,(sound.running live).order,(sound.running live).whole⟩⟩

theorem Sound.ends (sound : Sound memory cnt data s) (uio : Uio) (count : Option Nat)
    (right : ∀ n, count = some n → n = (sent s).length) :
    Sound memory cnt data {s with uio,pc := .ended count} :=
  ⟨⟨sound.translated.order,sound.translated.exact,fun n ended => right n (Pc.ended.inj ended)⟩,fun live =>
  absurd rfl (live count)⟩

theorem Running.written (running : Running memory cnt data s) : (cnt - (giveBack s).uioResid).toNat = (sent s).length := by
  have counts := running.counts
  have small := cnt.isLt
  change (cnt - (s.uio.uioResid + BitVec.ofNat 32 s.chunk.length)).toNat = _
  have length : (BitVec.ofNat 32 s.chunk.length).toNat = s.chunk.length := by
    rw [BitVec.toNat_ofNat,Nat.mod_eq_of_lt (by omega)]
  bv_omega

theorem written_iff (running : Running memory cnt data s) (pending : s.chunk ≠ []) :
    s.uio.uioResid ≠ cnt ∧ (cnt - s.uio.uioResid).toNat ≠ (sent s).length := by
  have counts := running.counts
  have some := length_pos_iff.mpr pending
  have small := cnt.isLt
  refine ⟨?_,?_⟩
  · intro same
    rw [same] at counts
    omega
  · bv_omega

theorem asleep_step (sound : Sound memory cnt data s) (here : s.pc = .asleep) :
    ∃ t, step memory ndelay cnt s a = .ok t ∧ (Clean s a → Sound memory cnt data t) ∧ (¬ Clean s a → ¬ Translated data t) := by
  have live := going here fun _ => nofun
  have running := sound.running live
  simp only [step,here,Clean]
  cases a.interrupted with
  | false => exact ⟨_,rfl,fun _ => sound.goes live .start fun _ => nofun,fun torn => absurd nofun torn⟩
  | true =>
    rw [if_pos rfl]
    refine ⟨_,rfl,fun clean => sound.ends s.uio _ fun n same => ?_,fun torn translated => ?_⟩
    · have counts := running.counts
      rw [clean rfl,length_nil] at counts
      split_ifs at same with nothing
      rw [← Option.some.inj same]
      bv_omega
    · have pending : s.chunk ≠ [] := fun none => torn fun _ => none
      obtain ⟨moved,wrong⟩ := written_iff running pending
      rw [if_neg moved] at translated
      exact wrong (translated.counted _ rfl)

theorem start_step (ndelay : Bool) (a : Answer) (sound : Sound memory cnt data s) (here : s.pc = .start) :
    ∃ t, step memory ndelay cnt s a = .ok t ∧ Sound memory cnt data t := by
  have live := going here fun _ => nofun
  simp only [step,here]
  split_ifs
  · exact ⟨_,rfl,sound.ends s.uio none fun _ => nofun⟩
  · exact ⟨_,rfl,sound.ends (giveBack s) none fun _ => nofun⟩
  · exact ⟨_,rfl,sound.goes live .asleep fun _ => nofun⟩
  · exact ⟨_,rfl,sound.goes live .asleep fun _ => nofun⟩
  · exact ⟨_,rfl,sound.goes live .outer fun _ => nofun⟩

theorem ovhiwat_step (ndelay : Bool) (a : Answer) (sound : Sound memory cnt data s) (here : s.pc = .ovhiwat) :
    ∃ t, step memory ndelay cnt s a = .ok t ∧ Sound memory cnt data t := by
  have live := going here fun _ => nofun
  simp only [step,here]
  split_ifs with free later same
  · exact ⟨_,rfl,sound.goes live .start fun _ => nofun⟩
  · exact ⟨_,rfl,sound.ends (giveBack s) none fun _ => nofun⟩
  · refine ⟨_,rfl,sound.ends (giveBack s) _ fun n count => ?_⟩
    rw [← Option.some.inj count]
    exact (sound.running live).written
  · exact ⟨_,rfl,sound.goes live .asleep fun _ => nofun⟩

theorem outer_step (ndelay : Bool) (sound : Sound memory cnt data s) (here : s.pc = .outer) (visible : a.flags.flusho = false) :
    ∃ t, step memory ndelay cnt s a = .ok t ∧ Sound memory cnt data t := by
  have live := going here fun _ => nofun
  have running := sound.running live
  simp only [step,here,visible,Bool.false_eq_true,if_false]
  by_cases done : s.uio.uioResid = 0 ∧ s.chunk = []
  · rw [if_pos done]
    refine ⟨_,rfl,sound.ends (giveBack s) _ fun n count => ?_⟩
    rw [← Option.some.inj count]
    exact running.written
  rw [if_neg done]
  by_cases full : a.full = true
  · rw [if_pos full]
    exact ⟨_,rfl,sound.goes live .ovhiwat fun _ => nofun⟩
  rw [if_neg full]
  by_cases empty : s.chunk = []
  · rw [if_pos empty]
    obtain ⟨t,ran,covers,next⟩ := uiomove_next memory (BitVec.ofNat 32 obufsiz) running.covers
    simp only [ran,bind,Except.bind,pure,Except.pure]
    refine ⟨_,rfl,⟨sound.translated.order,sound.translated.exact,fun _ ended => nomatch ended⟩,fun _ =>
      ⟨covers,?_,running.whole⟩⟩
    have order := running.order
    rw [empty,append_nil,← next,← append_assoc] at order
    exact order
  · rw [if_neg empty]
    exact ⟨_,rfl,sound.goes live .inner fun _ => nofun⟩

theorem Sound.puts (sound : Sound memory cnt data s) (live : ∀ n, s.pc ≠ .ended n) (pc : Pc) (going : ∀ n, pc ≠ .ended n)
    {source chunk : List UInt8} (taken : s.chunk = source ++ chunk) (col : Nat) (p : Piece)
    (own : p.source = source) (exact : p.Exact) :
    Sound memory cnt data {s with pc,chunk,col,log := s.log ++ [p]} := by
  have running := sound.running live
  have more : (s.log ++ [p]).flatMap Piece.source = sent s ++ source := by
    rw [flatMap_append,flatMap_singleton,own]
    rfl
  have order := running.order
  rw [taken,← append_assoc] at order
  refine ⟨⟨?_,fun q member => ?_,fun _ ended => absurd ended (going _)⟩,fun _ => ⟨running.covers,?_,running.whole⟩⟩
  · change (s.log ++ [p]).flatMap Piece.source <+: data
    rw [more,← order,append_assoc]
    exact prefix_append _ _
  · rcases mem_append.mp member with old | new
    · exact sound.translated.exact q old
    rw [mem_singleton.mp new]
    exact exact
  · change (s.log ++ [p]).flatMap Piece.source ++ chunk ++ _ = data
    rw [more]
    exact order

theorem not_translated {t : Call} (p : Piece) (log : t.log = s.log ++ [p]) (torn : ¬ p.Exact) : ¬ Translated data t := by
  intro translated
  refine torn (translated.exact p ?_)
  rw [log]
  exact mem_append_right _ mem_cons_self

theorem exact_self {flags : Flags} {col : Nat} (source : List UInt8)
    (same : ∀ c ∈ source, translation flags col c = [c]) : (⟨flags,col,source,source⟩ : Piece).Exact := by
  rw [Piece.Exact,flatMap_congr same,flatMap_singleton']

theorem put_special {c : UInt8} {rest : List UInt8} (sound : Sound memory cnt data s) (live : ∀ n, s.pc ≠ .ended n)
    (chunk : s.chunk = c :: rest) (visible : a.flags.flusho = false) (cooked : (a.flags.raw || a.flags.litout) = false)
    (classed : special c = true) :
    (Fits a.flags (a.echo s.col) a.room c → Sound memory cnt data (put s a c rest)) ∧
      (¬ Fits a.flags (a.echo s.col) a.room c → ¬ Translated data (put s a c rest)) := by
  rw [put,cooked,classed,visible,Bool.not_false,Bool.true_and,if_pos rfl,Bool.false_or]
  dsimp only
  constructor
  · intro fits
    rcases ttyoutput_fits cooked visible fits with ⟨again,none⟩ | ⟨done,all⟩
    · rw [if_pos again]
      exact sound.puts live .asleep (fun _ => nofun) (nil_append _).symm _ _ rfl none
    rw [if_neg (not_le.mpr done)]
    refine sound.puts live _ (fun _ => ?_) chunk _ _ rfl ?_
    · split <;> nofun
    rw [Piece.Exact,flatMap_singleton]
    exact all
  · intro torn
    obtain ⟨some,other⟩ := ttyoutput_torn cooked visible torn
    split
    · exact not_translated _ rfl fun exact => some exact
    refine not_translated _ rfl fun exact => other ?_
    rw [Piece.Exact,flatMap_singleton] at exact
    exact exact

theorem put_plain {c : UInt8} {rest : List UInt8} (sound : Sound memory cnt data s) (live : ∀ n, s.pc ≠ .ended n)
    (chunk : s.chunk = c :: rest) (visible : a.flags.flusho = false)
    (plain : (!(a.flags.raw || a.flags.litout) && special c) = false) :
    Sound memory cnt data (put s a c rest) := by
  rw [put,plain,visible,if_neg Bool.false_ne_true,Bool.false_or]
  dsimp only
  generalize size : (if (a.flags.raw || a.flags.litout) = true then (c :: rest).length
    else ((c :: rest).takeWhile fun c => !special c).length) = ce
  rw [← chunk] at size ⊢
  refine sound.puts live _ (fun _ => ?_) (take_append_drop _ _).symm _ _ rfl (exact_self _ fun b member => ?_)
  · split
    · nofun
    · split <;> nofun
  by_cases raw : (a.flags.raw || a.flags.litout) = true
  · exact translation_raw raw
  rw [if_neg raw] at size
  have inside : b ∈ s.chunk.takeWhile fun c => !special c := by
    rw [prefix_iff_eq_take.mp ( takeWhile_prefix (fun c => !special c)),size]
    exact (take_subset_take_left _ (Nat.min_le_left _ _)) member
  have ordinary := mem_takeWhile_imp inside
  rw [Bool.not_eq_true'] at ordinary
  exact translation_ordinary ordinary

theorem inner_step (sound : Sound memory cnt data s) (here : s.pc = .inner) (visible : a.flags.flusho = false) :
    ∃ t, step memory ndelay cnt s a = .ok t ∧ (Clean s a → Sound memory cnt data t) ∧ (¬ Clean s a → ¬ Translated data t) := by
  have live := going here fun _ => nofun
  simp only [step,here,Clean]
  cases chunk : s.chunk with
  | nil =>
    have goes := sound.goes live .outer fun _ => nofun
    rw [chunk] at goes
    exact ⟨_,rfl,fun _ => goes,fun dirty => absurd trivial dirty⟩
  | cons c rest =>
    refine ⟨_,rfl,?_⟩
    cases cooked : a.flags.raw || a.flags.litout with
    | true =>
      have plain : (!(a.flags.raw || a.flags.litout) && special c) = false := by rw [cooked]; rfl
      exact ⟨fun _ => put_plain sound live chunk visible plain,fun torn => absurd nofun torn⟩
    | false =>
      cases classed : special c with
      | false =>
        have plain : (!(a.flags.raw || a.flags.litout) && special c) = false := by rw [classed,Bool.and_false]
        exact ⟨fun _ => put_plain sound live chunk visible plain,fun dirty =>
          absurd (fun _ yes => nomatch classed.symm.trans yes) dirty⟩
      | true =>
        obtain ⟨fits,torn⟩ := put_special sound live chunk visible cooked classed
        exact ⟨fun clean => fits (clean rfl classed),fun dirty => torn fun all => dirty fun _ _ => all⟩

theorem step_translated (ndelay : Bool) (sound : Sound memory cnt data s) (visible : a.flags.flusho = false) :
    ∃ t, step memory ndelay cnt s a = .ok t ∧ (Clean s a → Sound memory cnt data t) ∧ (¬ Clean s a → ¬ Translated data t) := by
  cases here : s.pc with
  | start =>
    obtain ⟨t,ran,next⟩ := start_step ndelay a sound here
    exact ⟨t,ran,fun _ => next,fun dirty => absurd (by rw [Clean,here]; trivial) dirty⟩
  | outer =>
    obtain ⟨t,ran,next⟩ := outer_step ndelay sound here visible
    exact ⟨t,ran,fun _ => next,fun dirty => absurd (by rw [Clean,here]; trivial) dirty⟩
  | inner => exact inner_step sound here visible
  | ovhiwat =>
    obtain ⟨t,ran,next⟩ := ovhiwat_step ndelay a sound here
    exact ⟨t,ran,fun _ => next,fun dirty => absurd (by rw [Clean,here]; trivial) dirty⟩
  | asleep => exact asleep_step sound here
  | ended n =>
    refine ⟨s,?_,fun _ => sound,fun dirty => absurd (by rw [Clean,here]; trivial) dirty⟩
    rw [step,here]

end

def called (uio : Uio) (col : Nat) : Call := ⟨.start,uio,[],col,[]⟩

def userBytes (memory : Word → UInt8) (uio : Uio) : List UInt8 := (uio.stream.take uio.uioResid.toNat).map memory

theorem called_sound (memory : Word → UInt8) (uio : Uio) (col : Nat) (covers : uio.Covers) :
    Sound memory uio.uioResid (userBytes memory uio) (called uio col) := by
  refine ⟨⟨ nil_prefix,fun _ member => absurd member not_mem_nil,fun _ ended => nomatch ended⟩,fun _ => ⟨covers,rfl,?_⟩⟩
  rw [userBytes,length_map,length_take,Nat.min_eq_left covers.length]

/-- After every step of a write the queue has the translations of the user's first bytes, and an end returns their number,
if and only if every step is clean. -/
theorem write_translated_iff (memory : Word → UInt8) (ndelay : Bool) (uio : Uio) (covers : uio.Covers)
    (col : Nat) (answers : List Answer)
    (visible : ∀ a ∈ answers, a.flags.flusho = false) :
    Along (step memory ndelay uio.uioResid) (fun s a => ∃ t, step memory ndelay uio.uioResid s a = .ok t ∧
        Translated (userBytes memory uio) t) (called uio col) answers ↔
      Along (step memory ndelay uio.uioResid) Clean (called uio col) answers := by
  refine Along.results_iff (fun s a sound shown => ?_) answers _ (called_sound memory uio col covers) (Along.of_forall _ visible)
  obtain ⟨t,ran,next,dirty⟩ := step_translated ndelay sound shown
  exact ⟨t,ran,next,not_imp_not.mp dirty,fun clean => (next clean).translated⟩

def answer (room : Nat) : Answer :=
    ⟨true,true,false,false,false,⟨false,false,true,false,false,false,false,false,false,false,false⟩,room,id⟩

def newlineWrite : Uio := ⟨[⟨4096,1⟩],0,1,.write,[]⟩

theorem newlineWrite_moves : uiomove 1 newlineWrite = .ok ⟨[⟨4097,0⟩],1,0,.write,[4096]⟩ := by
  simp [uiomove,newlineWrite,Uio.move,bytes]

def newlineTaken : Call := ⟨.inner,⟨[⟨4097,0⟩],1,0,.write,[4096]⟩,[newline],0,[]⟩

theorem newlineTaken_step (a : Answer) (going : (a.flags.flusho || a.full) = false) :
    step (fun _ => newline) false 1 {called newlineWrite 0 with pc := .outer} a = .ok newlineTaken := by
  rw [Bool.or_eq_false_iff] at going
  change (if a.flags.flusho then _ else if a.full then _ else do
    let uio ← uiomove 1 newlineWrite
    return ⟨.inner,uio,(between newlineWrite uio).map fun _ => newline,0,[]⟩ : Except Panic Call) = _
  rw [going.1,going.2,newlineWrite_moves]
  rfl

/-- A write of a newline, with room for both characters: both are put, and the call returns 1. -/
theorem newline_translated : Along (step (fun _ => newline) false 1) (fun s a => ∃ t,
    step (fun _ => newline) false 1 s a = .ok t ∧
      Translated (userBytes (fun _ => newline) newlineWrite) t) (called newlineWrite 0) (replicate 5 (answer 2)) ∧
    run (step (fun _ => newline) false 1) (called newlineWrite 0) (replicate 5 (answer 2)) =
      .ok ⟨.ended (some 1),newlineTaken.uio,[],0,[⟨(answer 2).flags,0,[newline],[carriageReturn,newline]⟩]⟩ := by
  have taken := newlineTaken_step (answer 2) rfl
  constructor
  · refine (write_translated_iff (fun _ => newline) false newlineWrite (Nat.le_refl 1) 0
      (replicate 5 (answer 2)) (by decide)).mpr
      ⟨trivial,fun t ran => ?_⟩
    obtain rfl := Except.ok.inj ran
    refine ⟨trivial,fun t ran => ?_⟩
    obtain rfl := Except.ok.inj (taken.symm.trans ran)
    refine ⟨fun _ _ _ => (by decide : 2 ≠ 1),fun t ran => ?_⟩
    obtain rfl := Except.ok.inj ran
    refine ⟨trivial,fun t ran => ?_⟩
    obtain rfl := Except.ok.inj ran
    exact ⟨trivial,fun _ _ => trivial⟩
  · change run (step (fun _ => newline) false 1) {called newlineWrite 0 with pc := .outer} (replicate 4 (answer 2)) = _
    rw [replicate_succ,run,taken]
    rfl

/-- A write of a newline, with room for one character. -/
theorem newline_torn : ¬ Along (step (fun _ => newline) false 1) (fun s a => ∃ t, step (fun _ => newline) false 1 s a = .ok t ∧
    Translated (userBytes (fun _ => newline) newlineWrite) t) (called newlineWrite 0) [answer 1,answer 1,answer 1] := by
  rintro ⟨_,next⟩
  obtain ⟨_,next⟩ := next {called newlineWrite 0 with pc := .outer} rfl
  obtain ⟨⟨t,ran,translated⟩,_⟩ := next newlineTaken (newlineTaken_step (answer 1) rfl)
  obtain rfl := Except.ok.inj ran
  have exact : [carriageReturn] = [] := translated.exact _ mem_cons_self
  cases exact

end Retrobsd.TerminalWrites

import Retrobsd.Lib.Run
import Retrobsd.Terminals

/-! `ttyinput`: what each character that comes in does to the queues of a terminal, and a line editor to compare it with.
The character lists have room. -/
namespace Retrobsd.TerminalEditing
open List
open CharacterLists (charValue)
open Terminals Lib.Run

def ttyhog : Nat := 255

inductive Panic where
  | ttyrub
deriving DecidableEq

structure Tty where
  rawq : List UInt8
  canq : List UInt8
  lnch : Bool
  rocount : Int

/-- A character that comes in, with what has happened since the last one: `wrote` if a write has cleared `t_rocount`, and `taken`
characters that have been read from `t_canq`. -/
structure Input where
  c : UInt8
  flags : Flags
  chars : Ttychars
  wrote : Bool
  taken : Nat

def unputc (q : List UInt8) : Int × List UInt8 :=
  match q.getLast? with
  | none => (-1,q)
  | some c => (charValue c,q.dropLast)

def putc (c : UInt8) (t : Tty) : Tty := {t with rawq := t.rawq ++ [c]}

def low (c : Int) : UInt8 := UInt8.ofNat (c % 256).toNat

def ttyretype (t : Tty) : Tty := {t with rocount := t.rawq.length}

def ttyflush (_ : Tty) : Tty := ⟨[],[],false,0⟩

def ttyrub (flags : Flags) (c : Int) (t : Tty) : Except Panic Tty :=
  if !flags.echo then .ok t
  else if flags.crtbs then
    if t.rocount = 0 then .ok (ttyretype t)
    else if low c = 137 ∨ low c = 138 then .ok {t with rocount := t.rocount - 1}
    else match partab (low c &&& 127) % 128 with
      | 0 | 1 | 2 | 5 | 6 => .ok {t with rocount := t.rocount - 1}
      | 4 => if t.rocount < t.rawq.length then .ok (ttyretype t) else .ok {t with rocount := t.rocount - 1}
      | _ => .error .ttyrub
  else .ok {t with rocount := t.rocount - 1}

/-- `while (tp->t_rawq.c_cc) ttyrub(unputc(&tp->t_rawq), tp)`, for at most as many turns. -/
def rubLoop (flags : Flags) : Nat → Tty → Except Panic Tty
  | 0,t => .ok t
  | turns + 1,t =>
    if t.rawq = [] then .ok t
    else do rubLoop flags turns (← ttyrub flags (unputc t.rawq).1 {t with rawq := (unputc t.rawq).2})

/-- `while (getc(&tp->t_rawq) > 0)`, where `getc` gives a character that is not negative. -/
def killLoop : List UInt8 → List UInt8
  | [] => []
  | c :: rest => if (c.toNat : Int) > 0 then killLoop rest else rest

def isBlank (c : Int) : Bool := decide (c = 32) || decide (c = 9)

def erasenb (flags : Flags) : Nat → Int → Tty → Except Panic Tty
  | 0,_,t => .ok t
  | turns + 1,c,t => do
    let t ← ttyrub flags c t
    if t.rawq = [] then return t
    else
      let c := (unputc t.rawq).1
      let t := {t with rawq := (unputc t.rawq).2}
      if isBlank c then return putc (low c) t else erasenb flags turns c t

def eraseBlanks (flags : Flags) : Nat → Tty → Except Panic Tty
  | 0,t => .ok t
  | turns + 1,t =>
    let c := (unputc t.rawq).1
    let t := {t with rawq := (unputc t.rawq).2}
    if !isBlank c then erasenb flags (t.rawq.length + 1) c t
    else do
      let t ← ttyrub flags c t
      if t.rawq = [] then return t else eraseBlanks flags turns t

def before (t : Tty) (i : Input) : Tty := {t with canq := t.canq.drop i.taken,rocount := if i.wrote then 0 else t.rocount}

def seen (lnch : Bool) (i : Input) : UInt8 :=
  let c := if i.flags.pass8 then i.c else i.c &&& 127
  if lnch then c ||| 128 else c

def editing (t : Tty) (flags : Flags) (chars : Ttychars) (c : UInt8) : Except Panic Tty :=
  if cceq chars.erase c || cceq 8 c then
    if t.rawq = [] then .ok t else ttyrub flags (unputc t.rawq).1 {t with rawq := (unputc t.rawq).2}
  else if cceq chars.kill c then
    if flags.crtkil ∧ t.rawq.length = t.rocount then rubLoop flags t.rawq.length t
    else .ok {t with rawq := killLoop t.rawq,rocount := 0}
  else if cceq chars.werasc c then
    if t.rawq = [] then .ok t else eraseBlanks flags t.rawq.length t
  else if cceq chars.rprntc c then .ok (ttyretype t)
  else if t.rawq.length + t.canq.length ≥ ttyhog then .ok t
  else
    let t := putc c t
    if ttbreakc flags chars c then .ok {t with rocount := 0,canq := t.canq ++ t.rawq,rawq := []}
    else .ok {t with rocount := t.rocount + 1}

def ttyinput (t : Tty) (i : Input) : Except Panic Tty :=
  let t := before t i
  if i.flags.raw then .ok (if t.rawq.length > ttyhog then ttyflush t else putc i.c t)
  else
    let c := seen t.lnch i
    let t := {t with lnch := false}
    if cceq i.chars.lnextc c then .ok {t with lnch := true}
    else if cceq i.chars.flushc c then .ok (if i.flags.flusho ∨ t.rawq.length + t.canq.length = 0 then t else ttyretype t)
    else if cceq i.chars.suspc c then .ok (if i.flags.noflsh then t else ttyflush t)
    else if cceq i.chars.stopc c || cceq i.chars.startc c then .ok t
    else if cceq i.chars.intrc c || cceq i.chars.quitc c then .ok (if i.flags.noflsh then t else ttyflush t)
    else if i.flags.cbreak then .ok (if t.rawq.length > ttyhog then t else putc c t)
    else editing t i.flags i.chars c

inductive Action where
  | literal
  | leave
  | clear
  | erase
  | eraseWord
  | kill
  | append (c : UInt8)
  | finish (c : UInt8)
deriving DecidableEq

def editAction (flags : Flags) (chars : Ttychars) (c : UInt8) : Action :=
  if cceq chars.erase c || cceq 8 c then .erase
  else if cceq chars.kill c then .kill
  else if cceq chars.werasc c then .eraseWord
  else if cceq chars.rprntc c then .leave
  else if ttbreakc flags chars c then .finish c
  else .append c

/-- What a character stands for. `literal` follows the character that makes the next one literal. -/
def action (literal : Bool) (i : Input) : Action :=
  let c := seen literal i
  if cceq i.chars.lnextc c then .literal
  else if cceq i.chars.flushc c then .leave
  else if cceq i.chars.suspc c then if i.flags.noflsh then .leave else .clear
  else if cceq i.chars.stopc c || cceq i.chars.startc c then .leave
  else if cceq i.chars.intrc c || cceq i.chars.quitc c then if i.flags.noflsh then .leave else .clear
  else editAction i.flags i.chars c

/-- The line that is being edited, and the lines that wait to be read. -/
structure Line where
  line : List UInt8
  complete : List UInt8
  literal : Bool

def blank (c : UInt8) : Bool := decide (c = 32) || decide (c = 9)

def Line.act (l : Line) : Action → Line
  | .literal => {l with literal := true}
  | .leave => l
  | .clear => {l with line := [],complete := []}
  | .erase => {l with line := l.line.dropLast}
  | .eraseWord => {l with line := (l.line.rdropWhile blank).rdropWhile fun c => !blank c}
  | .kill => {l with line := []}
  | .append c => {l with line := l.line ++ [c]}
  | .finish c => {l with line := [],complete := l.complete ++ (l.line ++ [c])}

def edit (l : Line) (i : Input) : Line :=
    ({l with complete := l.complete.drop i.taken,literal := false} : Line).act (action l.literal i)

def step (s : Tty × Line) (i : Input) : Except Panic (Tty × Line) := (ttyinput s.1 i).map fun t => (t,edit s.2 i)

def Tty.line (t : Tty) : Line := ⟨t.rawq,t.canq,t.lnch⟩

def Same (s : Tty × Line) : Prop := s.1.line = s.2

def Cooked (s : Tty × Line) (i : Input) : Prop :=
    i.flags.raw = false ∧ i.flags.cbreak = false ∧ s.1.rawq.length + s.1.canq.length < ttyhog

def Kills (t : Tty) (i : Input) : Prop :=
  action t.lnch i = .kill → i.flags.crtkil = true ∧ t.rawq.length = (before t i).rocount ∨ 0 ∉ t.rawq.dropLast

section
variable {flags : Flags} {chars : Ttychars} {c : UInt8} {q : List UInt8} {t : Tty}

theorem unputc_concat (q : List UInt8) (c : UInt8) : unputc (q ++ [c]) = (charValue c,q) := by
  rw [unputc,List.getLast?_concat,dropLast_concat]

theorem low_char (c : UInt8) : low (charValue c) = c := by
  have bound := c.toNat_lt
  have same : (charValue c % 256).toNat = c.toNat := by
    rw [charValue]
    split <;> omega
  rw [low,same,UInt8.ofNat_toNat]

theorem charValue_eq {d : UInt8} (ascii : d.toNat < 128) : charValue c = d.toNat ↔ c = d := by
  rw [← UInt8.toNat_inj,charValue]
  have bound := c.toNat_lt
  split <;> omega

theorem isBlank_char (c : UInt8) : isBlank (charValue c) = blank c := by
  have space : charValue c = 32 ↔ c = 32 := charValue_eq (d := 32) (by decide)
  have tab : charValue c = 9 ↔ c = 9 := charValue_eq (d := 9) (by decide)
  simp only [isBlank,blank,space,tab]

theorem partab_class (ascii : c.toNat < 128) (plain : c.toNat ≠ 10) : partab c % 128 ∈ [0,1,2,4,5,6] := by
  -- the table is gone through once; only the entry of the newline has another class
  have table : ∃ l : List Nat, l.length = 128 ∧ (∀ c : UInt8, partab c = l[c.toNat]?.getD 0o007) ∧
      (l.zipIdx.all fun e => e.2 = 10 || e.1 % 128 ∈ [0,1,2,4,5,6]) = true :=
    ⟨_,rfl,fun _ => rfl,by decide +kernel⟩
  obtain ⟨l,length,entry,good⟩ := table
  have inside : c.toNat < l.length := by rw [length]; exact ascii
  have here := all_eq_true.mp good (l[c.toNat],c.toNat) (mem_zipIdx_iff_getElem?.mpr (List.getElem?_eq_getElem inside))
  rw [entry,List.getElem?_eq_getElem inside]
  simpa [plain] using here

theorem rub_class (plain : c ≠ newline) (other : c ≠ 138) : partab (c &&& 127) % 128 ∈ [0,1,2,4,5,6] := by
  have code : (c &&& 127).toNat = c.toNat % 128 := by
    rw [UInt8.toNat_and]
    exact Nat.and_two_pow_sub_one_eq_mod c.toNat 7
  refine partab_class (by omega) fun line => ?_
  rw [← UInt8.toNat_inj.ne] at plain other
  have bound := c.toNat_lt
  have ten : newline.toNat = 10 := rfl
  have marked : (138 : UInt8).toNat = 138 := rfl
  omega

theorem ttyrub_line (flags : Flags) (plain : c ≠ newline) (t : Tty) :
    ∃ t', ttyrub flags (charValue c) t = .ok t' ∧ t'.line = t.line := by
  rw [ttyrub,low_char]
  cases flags.echo with
  | false => exact ⟨t,rfl,rfl⟩
  | true =>
    cases flags.crtbs with
    | false => exact ⟨_,rfl,rfl⟩
    | true =>
      simp only [Bool.not_true,Bool.false_eq_true,if_false,if_true]
      by_cases none : t.rocount = 0
      · rw [if_pos none]
        exact ⟨_,rfl,rfl⟩
      rw [if_neg none]
      by_cases marked : c = 137 ∨ c = 138
      · rw [if_pos marked]
        exact ⟨_,rfl,rfl⟩
      rw [if_neg marked]
      have known := rub_class plain fun same => marked (.inr same)
      generalize partab (c &&& 127) % 128 = found at known ⊢
      simp only [mem_cons,not_mem_nil,or_false] at known
      rcases known with rfl | rfl | rfl | rfl | rfl | rfl
      · exact ⟨_,rfl,rfl⟩
      · exact ⟨_,rfl,rfl⟩
      · exact ⟨_,rfl,rfl⟩
      · by_cases behind : t.rocount < t.rawq.length
        · exact ⟨_,if_pos behind,rfl⟩
        · exact ⟨_,if_neg behind,rfl⟩
      · exact ⟨_,rfl,rfl⟩
      · exact ⟨_,rfl,rfl⟩

theorem rubLoop_line (flags : Flags) (turns : Nat) (plain : newline ∉ t.rawq) (enough : t.rawq.length ≤ turns) :
    ∃ t', rubLoop flags turns t = .ok t' ∧ t'.line = ⟨[],t.canq,t.lnch⟩ := by
  induction turns generalizing t with
  | zero =>
    have empty := length_eq_zero_iff.mp (Nat.le_zero.mp enough)
    exact ⟨t,rfl,by rw [Tty.line,empty]⟩
  | succ turns ih =>
    rw [rubLoop]
    rcases eq_nil_or_concat t.rawq with empty | ⟨q,c,shape⟩
    · rw [if_pos empty]
      exact ⟨t,rfl,by rw [Tty.line,empty]⟩
    rw [concat_eq_append] at shape
    rw [shape,mem_append,mem_singleton,not_or] at plain
    rw [shape,length_append,length_singleton] at enough
    obtain ⟨t₁,ran,same⟩ := ttyrub_line flags (Ne.symm plain.2) {t with rawq := q}
    have line : t₁.rawq = q ∧ t₁.canq = t.canq ∧ t₁.lnch = t.lnch := by
      simpa [Tty.line] using same
    obtain ⟨t₂,looped,last⟩ := ih (t := t₁) (by rw [line.1]; exact plain.1) (by rw [line.1]; omega)
    rw [if_neg (by simp [shape]),shape,unputc_concat,ran]
    refine ⟨t₂,looped,?_⟩
    rw [last,line.2.1,line.2.2]

theorem killLoop_empty : killLoop q = [] ↔ 0 ∉ q.dropLast := by
  induction q with
  | nil => exact iff_of_true rfl not_mem_nil
  | cons c rest ih =>
    rw [killLoop]
    cases rest with
    | nil => simp [killLoop]
    | cons d rest =>
      rw [dropLast_cons_cons,mem_cons,not_or]
      by_cases zero : c = 0
      · rw [zero,if_neg (by decide)]
        simp
      have positive : (c.toNat : Int) > 0 := by
        have some : c.toNat ≠ 0 := fun none => zero (UInt8.toNat_inj.mp none)
        omega
      rw [if_pos positive,ih]
      exact (and_iff_right (Ne.symm zero)).symm

theorem erasenb_line (turns : Nat) (plain : c ≠ newline) (others : newline ∉ t.rawq) (enough : t.rawq.length < turns) :
    ∃ t', erasenb flags turns (charValue c) t = .ok t' ∧ t'.line = ⟨t.rawq.rdropWhile fun c => !blank c,t.canq,t.lnch⟩ := by
  induction turns generalizing t c with
  | zero => omega
  | succ turns ih =>
    obtain ⟨t₁,ran,same⟩ := ttyrub_line flags plain t
    obtain ⟨rawq,canq,lnch⟩ : t₁.rawq = t.rawq ∧ t₁.canq = t.canq ∧ t₁.lnch = t.lnch := by simpa [Tty.line] using same
    rw [erasenb,ran]
    simp only [bind,Except.bind,pure,Except.pure]
    rcases eq_nil_or_concat t.rawq with empty | ⟨q,d,shape⟩
    · rw [if_pos (rawq.trans empty)]
      refine ⟨t₁,rfl,?_⟩
      rw [same,Tty.line,empty,rdropWhile_nil]
    rw [concat_eq_append] at shape
    rw [shape,mem_append,mem_singleton,not_or] at others
    rw [shape,length_append,length_singleton] at enough
    rw [if_neg (by simp [rawq,shape]),rawq,shape,unputc_concat,isBlank_char,low_char]
    cases kind : blank d with
    | true =>
      rw [if_pos rfl,rdropWhile_concat_neg _ _ _ (by simp [kind])]
      exact ⟨_,rfl,by rw [putc,Tty.line,canq,lnch]⟩
    | false =>
      rw [if_neg Bool.false_ne_true,rdropWhile_concat_pos _ _ _ (by simp [kind])]
      obtain ⟨t₂,looped,last⟩ := ih (t := {t₁ with rawq := q}) (Ne.symm others.2) others.1 (by dsimp only; omega)
      exact ⟨t₂,looped,by rw [last,canq,lnch]⟩

theorem eraseBlanks_line (flags : Flags) (turns : Nat) (some : t.rawq ≠ []) (plain : newline ∉ t.rawq)
    (enough : t.rawq.length ≤ turns) :
    ∃ t', eraseBlanks flags turns t = .ok t' ∧ t'.line = ⟨(t.rawq.rdropWhile blank).rdropWhile fun c => !blank c,
    t.canq,t.lnch⟩ := by
  induction turns generalizing t with
  | zero => exact absurd (length_eq_zero_iff.mp (Nat.le_zero.mp enough)) some
  | succ turns ih =>
    rcases eq_nil_or_concat t.rawq with empty | ⟨q,c,shape⟩
    · exact absurd empty some
    rw [concat_eq_append] at shape
    rw [shape,mem_append,mem_singleton,not_or] at plain
    rw [shape,length_append,length_singleton] at enough
    simp only [eraseBlanks,shape,unputc_concat,isBlank_char]
    cases kind : blank c with
    | false =>
      rw [rdropWhile_concat_neg _ _ _ (by simp [kind]),rdropWhile_concat_pos _ _ _ (by simp [kind])]
      exact erasenb_line (t := {t with rawq := q}) _ (Ne.symm plain.2) plain.1 (Nat.lt_succ_self _)
    | true =>
      rw [rdropWhile_concat_pos _ _ _ kind]
      obtain ⟨t₁,ran,same⟩ := ttyrub_line flags (Ne.symm plain.2) {t with rawq := q}
      obtain ⟨rawq,canq,lnch⟩ : t₁.rawq = q ∧ t₁.canq = t.canq ∧ t₁.lnch = t.lnch := by simpa [Tty.line] using same
      simp only [ran,bind,Except.bind,pure,Except.pure,Bool.not_true,Bool.false_eq_true,if_false]
      by_cases empty : t₁.rawq = []
      · rw [if_pos empty]
        refine ⟨t₁,rfl,?_⟩
        rw [Tty.line,empty,← rawq,empty,canq,lnch,rdropWhile_nil,rdropWhile_nil]
      rw [if_neg empty]
      obtain ⟨t₂,looped,last⟩ := ih empty (by rw [rawq]; exact plain.1) (by rw [rawq]; omega)
      exact ⟨t₂,looped,by rw [last,rawq,canq,lnch]⟩

theorem killLoop_suffix (q : List UInt8) : killLoop q <:+ q := by
  induction q with
  | nil => exact suffix_refl _
  | cons c rest ih =>
    rw [killLoop]
    split
    · exact ih.trans (suffix_cons _ _)
    · exact suffix_cons _ _

end

section
variable {t : Tty} {i : Input}

/-- What a character comes to: the terminal has what the editor shows, if a kill does. -/
structure Follows (kills : Prop) (l : Line) (t : Tty) : Prop where
  plain : newline ∉ t.rawq
  line : kills ↔ t.line = l

theorem follows_line {kills : Prop} {l : Line} (plain : newline ∉ l.line) (line : t.line = l) (holds : kills) :
    Follows kills l t := by
  refine ⟨?_,iff_of_true holds line⟩
  rw [← line] at plain
  exact plain

def Killed (flags : Flags) (t : Tty) : Prop := flags.crtkil = true ∧ t.rawq.length = t.rocount ∨ 0 ∉ t.rawq.dropLast

theorem editing_follows (flags : Flags) (chars : Ttychars) (c : UInt8) (plain : newline ∉ t.rawq)
    (room : t.rawq.length + t.canq.length < ttyhog) :
    ∃ t', editing t flags chars c = .ok t' ∧
      Follows (editAction flags chars c = .kill → Killed flags t) (t.line.act (editAction flags chars c)) t' := by
  rw [editing,editAction]
  cases cceq chars.erase c || cceq 8 c with
  | true =>
    rw [if_pos rfl,if_pos rfl]
    rcases eq_nil_or_concat t.rawq with empty | ⟨q,d,shape⟩
    · rw [if_pos empty]
      refine ⟨t,rfl,follows_line ?_ ?_ nofun⟩
      · exact fun member => plain (mem_of_mem_dropLast member)
      · simp [Tty.line,Line.act,empty]
    rw [concat_eq_append] at shape
    rw [shape,mem_append,mem_singleton,not_or] at plain
    obtain ⟨t',ran,same⟩ := ttyrub_line flags (Ne.symm plain.2) {t with rawq := q}
    have line : t.line.act .erase = ⟨q,t.canq,t.lnch⟩ := by
      rw [Line.act,Tty.line,shape,dropLast_concat]
    rw [if_neg (by simp [shape]),shape,unputc_concat]
    exact ⟨t',ran,line ▸ follows_line plain.1 same nofun⟩
  | false =>
    rw [if_neg Bool.false_ne_true,if_neg Bool.false_ne_true]
    cases cceq chars.kill c with
    | true =>
      rw [if_pos rfl,if_pos rfl]
      by_cases rubbed : flags.crtkil = true ∧ t.rawq.length = t.rocount
      · obtain ⟨t',ran,same⟩ := rubLoop_line flags t.rawq.length plain (Nat.le_refl _)
        rw [if_pos rubbed]
        exact ⟨t',ran,follows_line not_mem_nil same fun _ => .inl rubbed⟩
      rw [if_neg rubbed]
      refine ⟨_,rfl,fun member => plain ((killLoop_suffix _).subset member),?_⟩
      rw [imp_iff_right rfl,Killed,or_iff_right rubbed,← killLoop_empty]
      constructor
      · intro empty
        rw [Tty.line,empty]
        rfl
      · exact fun same => congrArg Line.line same
    | false =>
      rw [if_neg Bool.false_ne_true,if_neg Bool.false_ne_true]
      cases cceq chars.werasc c with
      | true =>
        rw [if_pos rfl,if_pos rfl]
        have shorter : newline ∉ (t.rawq.rdropWhile blank).rdropWhile fun c => !blank c := fun member =>
          plain (( rdropWhile_prefix _ _).subset (( rdropWhile_prefix _ _).subset member))
        by_cases empty : t.rawq = []
        · rw [if_pos empty]
          refine ⟨t,rfl,follows_line shorter ?_ nofun⟩
          simp [Tty.line,Line.act,empty]
        rw [if_neg empty]
        obtain ⟨t',ran,same⟩ := eraseBlanks_line flags t.rawq.length empty plain (Nat.le_refl _)
        exact ⟨t',ran,follows_line shorter same nofun⟩
      | false =>
        rw [if_neg Bool.false_ne_true,if_neg Bool.false_ne_true]
        cases cceq chars.rprntc c with
        | true => exact ⟨_,rfl,follows_line plain rfl nofun⟩
        | false =>
          rw [if_neg Bool.false_ne_true,if_neg Bool.false_ne_true,if_neg (Nat.not_le.mpr room)]
          cases breaks : ttbreakc flags chars c with
          | true => exact ⟨_,rfl,follows_line not_mem_nil rfl nofun⟩
          | false =>
            refine ⟨_,rfl,follows_line ?_ rfl nofun⟩
            intro member
            rcases mem_append.mp member with old | new
            · exact plain old
            rw [← mem_singleton.mp new] at breaks
            simp [ttbreakc] at breaks

theorem ttyinput_follows (raw : i.flags.raw = false) (cbreak : i.flags.cbreak = false) (plain : newline ∉ t.rawq)
    (room : t.rawq.length + t.canq.length < ttyhog) :
    ∃ t', ttyinput t i = .ok t' ∧ Follows (Kills t i) (edit t.line i) t' := by
  have shown : seen t.line.literal i = seen t.lnch i := rfl
  have found : seen (before t i).lnch i = seen t.lnch i := rfl
  have first : newline ∉ (before t i).rawq := plain
  simp only [ttyinput,raw,cbreak,Bool.false_eq_true,if_false,Kills,edit,action,shown,found]
  generalize seen t.lnch i = c
  cases cceq i.chars.lnextc c with
  | true => exact ⟨_,rfl,follows_line plain rfl nofun⟩
  | false =>
    simp only [Bool.false_eq_true,if_false]
    cases cceq i.chars.flushc c with
    | true =>
      simp only [if_true]
      split
      · exact ⟨_,rfl,follows_line plain rfl nofun⟩
      · exact ⟨_,rfl,follows_line plain rfl nofun⟩
    | false =>
      simp only [Bool.false_eq_true,if_false]
      cases cceq i.chars.suspc c with
      | true =>
        simp only [if_true]
        cases i.flags.noflsh with
        | true => exact ⟨_,rfl,follows_line plain rfl nofun⟩
        | false => exact ⟨_,rfl,follows_line not_mem_nil rfl nofun⟩
      | false =>
        simp only [Bool.false_eq_true,if_false]
        cases cceq i.chars.stopc c || cceq i.chars.startc c with
        | true => exact ⟨_,rfl,follows_line plain rfl nofun⟩
        | false =>
          simp only [Bool.false_eq_true,if_false]
          cases cceq i.chars.intrc c || cceq i.chars.quitc c with
          | true =>
            simp only [if_true]
            cases i.flags.noflsh with
            | true => exact ⟨_,rfl,follows_line plain rfl nofun⟩
            | false => exact ⟨_,rfl,follows_line not_mem_nil rfl nofun⟩
          | false =>
            simp only [Bool.false_eq_true,if_false]
            refine editing_follows i.flags i.chars c first ?_
            change t.rawq.length + (t.canq.drop i.taken).length < ttyhog
            rw [length_drop]
            omega

structure Sound (s : Tty × Line) : Prop where
  same : Same s
  plain : newline ∉ s.1.rawq

theorem step_same {s : Tty × Line} (sound : Sound s) (cooked : Cooked s i) :
    ∃ s', step s i = .ok s' ∧ newline ∉ s'.1.rawq ∧ (Kills s.1 i ↔ Same s') := by
  obtain ⟨t',ran,follows⟩ := ttyinput_follows cooked.1 cooked.2.1 sound.plain cooked.2.2
  rw [sound.same] at follows
  refine ⟨(t',edit s.2 i),?_,follows.plain,follows.line⟩
  rw [step,ran]
  rfl

end

theorem start_sound {t : Tty} (plain : newline ∉ t.rawq) : Sound (t,t.line) := ⟨rfl,plain⟩

/-- In cooked mode and below the limit, the queues are what the editor shows after every character if and only if every kill
that does not rub the line out finds no null character before its last. -/
theorem edits_same_iff (t : Tty) (plain : newline ∉ t.rawq) (inputs : List Input)
    (cooked : Along step Cooked (t,t.line) inputs) :
    Along step (fun s i => ∃ s', step s i = .ok s' ∧ Same s') (t,t.line) inputs ↔
    Along step (fun s i => Kills s.1 i) (t,t.line) inputs := by
  refine Along.results_iff (fun s i sound here => ?_) inputs _ (start_sound plain) cooked
  obtain ⟨s',ran,next,same⟩ := step_same sound here
  exact ⟨s',ran,fun kills => ⟨same.mp kills,next⟩,same.symm⟩

def typed (c : UInt8) : Input :=
  ⟨c,⟨false,false,false,false,false,false,false,false,false,false,false⟩,⟨127,21,3,28,17,19,4,255,26,25,18,15,23,22⟩,false,0⟩

def holding (q : List UInt8) : Tty × Line := (⟨q,[],false,q.length⟩,⟨q,[],false⟩)

/-- A line is typed and killed. -/
theorem edits_killed : Along step (fun s i => ∃ s', step s i = .ok s' ∧ Same s') (holding []) [typed 97,typed 21] := by
  refine (edits_same_iff (holding []).1 not_mem_nil [typed 97,typed 21] ⟨⟨rfl,rfl,by decide⟩,fun s ran => ?_⟩).mpr
    ⟨fun kill => absurd kill (by decide),fun s ran => ?_⟩
  · obtain rfl := Except.ok.inj ran
    exact ⟨⟨rfl,rfl,by decide⟩,fun _ _ => trivial⟩
  · obtain rfl := Except.ok.inj ran
    exact ⟨fun _ => .inr (by decide),fun _ _ => trivial⟩

/-- A kill stops at a null character. -/
theorem null_kept : ¬ Along step (fun s i => ∃ s', step s i = .ok s' ∧ Same s') (holding []) [typed 97,typed 0,
    typed 98,typed 21] := by
  rintro ⟨_,next⟩
  obtain ⟨_,next⟩ := next (holding [97]) rfl
  obtain ⟨_,next⟩ := next (holding [97,0]) rfl
  obtain ⟨⟨s,ran,same⟩,_⟩ := next (holding [97,0,98]) rfl
  have killed : step (holding [97,0,98]) (typed 21) = .ok (⟨[98],[],false,0⟩,⟨[],[],false⟩) := rfl
  obtain rfl := Except.ok.inj (killed.symm.trans ran)
  cases same

end Retrobsd.TerminalEditing
